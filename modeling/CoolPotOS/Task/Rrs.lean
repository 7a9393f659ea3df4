import CoolPotOS.Util.Map
import CoolPotOS.Task.Thread

namespace CoolPotOS

/-- The fields of `struct thread_control_block` that scheduling works with. -/
structure Tcb where
  status : TaskStatus
  sleepDeadline : ℕ
  blockCode : ℤ
  cpuId : ℕ
  schedHandle : Option ℕ
  futexIndex : ℕ
  deriving DecidableEq

/-- `struct sched_entity`; `node` says whether `list_enqueue` had memory for the node. -/
structure RrsEntity where
  thread : ℕ
  node : Bool
  deriving DecidableEq

structure Rrs where
  schedQueue : List ℕ
  idle : ℕ
  curr : ℕ
  deriving DecidableEq

/-- The threads, the schedulers of the processors, and the lists in which threads wait. Entities are
named in the order of their allocation, and the queue of a processor is the list of the entities in
it. -/
structure System where
  tcb : ℕ → Tcb
  entities : ℕ → RrsEntity
  allocated : ℕ
  rrs : ℕ → Rrs
  taskCount : ℕ → ℕ
  currentTask : ℕ → ℕ
  sleepList : Option (CowList ℕ)
  futexMap : HashMap (CowList ℕ)

@[simps]
def System.setTcb (s : System) (thread : ℕ) (tcb : Tcb) : System :=
  { s with tcb := Function.update s.tcb thread tcb }

def System.runQueue (s : System) (cpu : ℕ) : List ℕ :=
  (s.rrs cpu).schedQueue.map fun id => (s.entities id).thread

/-- `add_rrs_entity` when the entity has got memory; `node` tells whether its list node has. -/
def enqueueRrsEntity (s : System) (thread : ℕ) (node : Bool) : System :=
  let cpu := (s.tcb thread).cpuId
  let queue := (s.rrs cpu).schedQueue
  { s with
    tcb := Function.update s.tcb thread { s.tcb thread with schedHandle := some s.allocated }
    entities := Function.update s.entities s.allocated ⟨thread, node⟩
    allocated := s.allocated + 1
    rrs := Function.update s.rrs cpu
      { s.rrs cpu with schedQueue := if node then queue ++ [s.allocated] else queue } }

/-- `add_rrs_entity`; without memory for the entity the kernel stops. -/
def addRrsEntity (s : System) (thread : ℕ) (heap : List Bool) : Option (System × List Bool) :=
  match malloc heap with
  | (false, _) => none
  | (true, heap) =>
    let (node, heap) := malloc heap
    some (enqueueRrsEntity s thread node, heap)

def removeRrsEntity (s : System) (thread : ℕ) : System :=
  match (s.tcb thread).schedHandle with
  | none => s
  | some id =>
    let cpu := (s.tcb thread).cpuId
    let queue := (s.rrs cpu).schedQueue
    { s with
      tcb := Function.update s.tcb thread { s.tcb thread with schedHandle := none }
      rrs := Function.update s.rrs cpu
        { s.rrs cpu with
          schedQueue := if (s.entities id).node then queue.erase id else queue
          curr := if (s.rrs cpu).curr = id then (s.rrs cpu).idle else (s.rrs cpu).curr } }

def nextEntity (queue : List ℕ) (id : ℕ) : Option ℕ := (queue.dropWhile (· ≠ id)).tail.head?

/-- The loop `resche` of `rrs_pick_next_task`. -/
def rrsResche : ℕ → Rrs → Option (Rrs × ℕ)
  | 0, _ => none
  | fuel + 1, r =>
    let next := (nextEntity r.schedQueue r.curr).getD r.idle
    if next = r.idle then rrsResche fuel { r with curr := next } else some ({ r with curr := next }, next)

/-- `rrs_pick_next_task`; the loop passes the idle entity once at most. -/
def rrsPickNextTask (s : System) (cpu : ℕ) : Option (System × ℕ) :=
  let r := s.rrs cpu
  if r.schedQueue.length = 1 then some (s, (s.entities r.idle).thread)
  else
    (rrsResche (r.schedQueue.length + 1) r).map fun (r, next) =>
      ({ s with rrs := Function.update s.rrs cpu r }, (s.entities next).thread)

def System.Fresh (s : System) : Prop := ∀ cpu, ∀ id ∈ (s.rrs cpu).schedQueue, id < s.allocated

theorem addRrsEntity_eq (s : System) (thread : ℕ) {heap : List Bool} (h : false ∉ heap) :
    ∃ heap', addRrsEntity s thread heap = some (enqueueRrsEntity s thread true, heap') ∧ false ∉ heap' := by
  obtain ⟨heap1, hmalloc1, h1⟩ := malloc_of_ok h
  obtain ⟨heap2, hmalloc2, h2⟩ := malloc_of_ok h1
  refine ⟨heap2, ?_, h2⟩
  unfold addRrsEntity
  rw [hmalloc1]
  simp only [hmalloc2]

section Enqueue

variable {s : System} (thread : ℕ)

theorem fresh_enqueue (h : s.Fresh) : (enqueueRrsEntity s thread true).Fresh := by
  intro cpu id hid
  change id < s.allocated + 1
  by_cases hcpu : cpu = (s.tcb thread).cpuId
  · subst hcpu
    have hid' : id ∈ (s.rrs (s.tcb thread).cpuId).schedQueue ++ [s.allocated] := by
      simpa [enqueueRrsEntity] using hid
    rcases List.mem_append.mp hid' with hid' | hid'
    · exact (h _ id hid').trans (Nat.lt_succ_self _)
    · rw [List.mem_singleton.mp hid']
      exact Nat.lt_succ_self _
  · have hid' : id ∈ (s.rrs cpu).schedQueue := by
      simpa [enqueueRrsEntity, hcpu] using hid
    exact (h cpu id hid').trans (Nat.lt_succ_self _)

theorem runQueue_enqueue (h : s.Fresh) (cpu : ℕ) : (enqueueRrsEntity s thread true).runQueue cpu =
      if (s.tcb thread).cpuId = cpu then s.runQueue cpu ++ [thread] else s.runQueue cpu := by
  have hold : ∀ id ∈ (s.rrs cpu).schedQueue,
      (Function.update s.entities s.allocated ⟨thread, true⟩ id).thread = (s.entities id).thread := by
    intro id hid
    rw [Function.update_of_ne (h cpu id hid).ne]
  unfold System.runQueue
  by_cases hcpu : (s.tcb thread).cpuId = cpu
  · rw [if_pos hcpu]
    simp only [enqueueRrsEntity, if_true, hcpu, Function.update_self, List.map_append, List.map_singleton]
    rw [List.map_congr_left hold]
  · rw [if_neg hcpu]
    simp only [enqueueRrsEntity, Function.update_of_ne (Ne.symm hcpu)]
    exact List.map_congr_left hold

end Enqueue

end CoolPotOS
