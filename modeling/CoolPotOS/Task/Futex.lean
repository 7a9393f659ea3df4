import CoolPotOS.Task.Rrs

namespace CoolPotOS

/-- The queue of an address after some threads have left: an empty queue is destroyed. -/
def storeQueue (m : HashMap (CowList ℕ)) (addr : ℕ) (queue : CowList ℕ) : HashMap (CowList ℕ) :=
  if queue.size = 0 then mapRemove m addr else mapReplace m addr queue

def futexQueue (m : HashMap (CowList ℕ)) (addr : ℕ) (heap : List Bool) :
    Option (HashMap (CowList ℕ) × CowList ℕ × List Bool) :=
  match mapGet m addr with
  | some queue => some (m, queue, heap)
  | none =>
    match cowListCreate heap with
    | (none, _) => none
    | (some queue, heap) => (mapSet m addr queue heap).map fun (m, heap) => (m, queue, heap)

def futexAdd (s : System) (addr thread : ℕ) (heap : List Bool) : Option (System × List Bool) := do
  let (m, queue, heap) ← futexQueue s.futexMap addr heap
  let ((queue, index), heap) := cowListAdd queue thread heap
  let s := { s with futexMap := mapReplace m addr queue }
  let s := s.setTcb thread { s.tcb thread with futexIndex := index }
  return (removeRrsEntity s thread, heap)

/-- A thread is woken: `thread->status = T_START` and `futex_wake_task`. -/
def futexStart (s : System) (thread : ℕ) (heap : List Bool) : Option (System × List Bool) :=
  addRrsEntity (s.setTcb thread { s.tcb thread with status := .start }) thread heap

/-- The loop of `futex_wake`, which passes over null entries. -/
def futexWakeLoop (count : ℕ) :
    ℕ → System → CowList ℕ → ℕ → ℕ → List Bool → Option (System × CowList ℕ × ℕ × List Bool)
  | 0, s, queue, _, woken, heap => some (s, queue, woken, heap)
  | fuel + 1, s, queue, index, woken, heap =>
    if index < queue.size ∧ woken < count then
      match cowListGet queue index with
      | none => futexWakeLoop count fuel s queue (index + 1) woken heap
      | some thread => do
        let ((queue, _), heap) := cowListRemove queue index heap
        let (s, heap) ← futexStart s thread heap
        futexWakeLoop count fuel s queue index (woken + 1) heap
    else some (s, queue, woken, heap)

/-- `futex_wake`; it returns the number of threads it has woken. Every step of the loop passes an
entry or wakes a thread. -/
def futexWake (s : System) (addr : ℕ) (count : ℤ) (heap : List Bool) :
    Option (System × ℕ × List Bool) :=
  match mapGet s.futexMap addr with
  | none => some (s, 0, heap)
  | some queue =>
    if count ≤ 0 then some (s, 0, heap)
    else do
      let (s, queue, woken, heap) ←
        futexWakeLoop count.toNat (queue.size + count.toNat) s queue 0 0 heap
      return ({ s with futexMap := storeQueue s.futexMap addr queue }, woken, heap)

/-- `futex_unblock` of a thread that stands at `index` of the queue. -/
def futexLeave (s : System) (addr thread index : ℕ) (queue : CowList ℕ) (heap : List Bool) :
    Option (System × List Bool) := do
  let ((queue, _), heap) := cowListRemove queue index heap
  let (s, heap) ← if (s.tcb thread).status = .futex then futexStart s thread heap
    else some (s, heap)
  return ({ s with futexMap := storeQueue s.futexMap addr queue }, heap)

/-- `futex_unblock`; it returns whether the thread was in the queue. -/
def futexUnblock (s : System) (addr thread : ℕ) (heap : List Bool) :
    Option (System × Bool × List Bool) :=
  match mapGet s.futexMap addr with
  | none => some (s, false, heap)
  | some queue =>
    match (List.range queue.size).find? fun index => cowListGet queue index = some thread with
    | none => some (s, false, heap)
    | some index =>
      (futexLeave s addr thread index queue heap).map fun (s, heap) => (s, true, heap)

/-- The loop of `futex_free` over one queue. Where the memory for a removal is missing it tries
again. -/
def futexFreeLoop (thread : ℕ) : ℕ → CowList ℕ → ℕ → List Bool → CowList ℕ × List Bool
  | 0, queue, _, heap => (queue, heap)
  | fuel + 1, queue, index, heap =>
    if index < queue.size then
      if cowListGet queue index = some thread then
        let ((queue, _), heap) := cowListRemove queue index heap
        futexFreeLoop thread fuel queue index heap
      else futexFreeLoop thread fuel queue (index + 1) heap
    else (queue, heap)

/-- `futex_free` on one entry of the map. -/
def futexFreeEntry (thread : ℕ) (x : HashMap (CowList ℕ) × List Bool) (e : ℕ × CowList ℕ) :
    HashMap (CowList ℕ) × List Bool :=
  let (queue, heap) := futexFreeLoop thread (e.2.size + x.2.length) e.2 0 x.2
  (storeQueue x.1 e.1 queue, heap)

/-- `futex_free`, chain by chain. The next entry of a chain is read before an entry is
removed. -/
def futexFree (s : System) (thread : ℕ) (heap : List Bool) : System × List Bool :=
  let (m, heap) := (List.range s.futexMap.capacity).foldl
    (fun x bucket => (x.1.buckets bucket).foldl (futexFreeEntry thread) x) (s.futexMap, heap)
  ({ s with futexMap := m }, heap)

end CoolPotOS
