import CoolPotOS.Lib.RbTree
import CoolPotOS.Util.CowList
import CoolPotOS.Task.Thread

namespace CoolPotOS

open RbTree

def signed (n : ℕ) : ℤ := if n < 2 ^ 63 then n else (n : ℤ) - 2 ^ 64

def toInt64 (z : ℤ) : ℤ := z.bmod (2 ^ 64)

def sysctlSchedBaseSlice : ℕ := 700000
def maxRtPrio : ℕ := 100
def nice0Load : ℕ := 2 ^ 20
def wmultConst : ℕ := 2 ^ 32 - 1
def tickNsec : ℕ := 10000000
def vruntimeOffsetThreshold : ℕ := 0xa000000000000000

def niceToPrio (nice : ℤ) : ℕ := (nice + 120).toNat

def schedPrioToWeight : List ℕ :=
  [88761, 71755, 56483, 46273, 36291, 29154, 23254, 18705, 14949, 11916, 9548, 7620, 6100, 4904,
    3906, 3121, 2501, 1991, 1586, 1277, 1024, 820, 655, 526, 423, 335, 272, 215, 172, 137, 110, 87,
    70, 56, 45, 36, 29, 23, 18, 15]

def schedPrioToWmult : List ℕ :=
  [48388, 59856, 76040, 92818, 118348, 147320, 184698, 229616, 287308, 360437, 449829, 563644,
    704093, 875809, 1099582, 1376151, 1717300, 2157191, 2708050, 3363326, 4194304, 5237765,
    6557202, 8165337, 10153587, 12820798, 15790321, 19976592, 24970740, 31350126, 39045157,
    49367440, 61356676, 76695844, 95443717, 119304647, 148102320, 186737708, 238609294, 286331153]

structure LoadWeight where
  weight : ℕ
  invWeight : ℕ
  deriving DecidableEq, Inhabited, Repr

/-- `struct sched_entity`; the tree node is the place of the entity in the tree. -/
structure SchedEntity where
  prio : ℕ
  vruntime : ℕ
  slice : ℕ
  customSlice : ℕ
  deadline : ℕ
  execStart : ℕ
  minVruntime : ℕ
  sumExecRuntime : ℕ
  vlag : ℤ
  isIdle : Bool
  load : LoadWeight
  onRq : Bool
  thread : ℕ
  waitIndex : ℕ
  isYield : Bool
  deriving DecidableEq, Inhabited, Repr

/-- `struct eevdf_t`, the entities it points to, and `sched_handle` of the threads. Following a
pointer to an entity that is not allocated, and erasing a node that is not in the tree, end in
`none`. -/
structure Eevdf where
  entities : ℕ → Option SchedEntity
  schedHandle : ℕ → Option ℕ
  root : RbTree.Tree ℕ
  current : Option ℕ
  waitQueue : CowList ℕ
  taskCount : ℕ
  avgLoad : ℕ
  avgVruntime : ℕ
  minVruntime : ℕ

def Eevdf.get (s : Eevdf) (id : ℕ) : SchedEntity := (s.entities id).getD default

@[simps]
def Eevdf.set (s : Eevdf) (id : ℕ) (se : SchedEntity) : Eevdf :=
  { s with entities := Function.update s.entities id (some se) }

@[simps]
def Eevdf.withRoot (s : Eevdf) (root : RbTree.Tree ℕ) : Eevdf := { s with root := root }

@[simps]
def Eevdf.select (s : Eevdf) (current : Option ℕ) : Eevdf := { s with current := current }

def scaleLoadDown (w : ℕ) : ℕ := if w = 0 then 0 else max 2 (w / 2 ^ 10)

/-- `set_load_weight`; `none` when the priority is outside the tables. -/
def setLoadWeight (se : SchedEntity) : Option SchedEntity :=
  if se.prio = niceToPrio 20 then some { se with load := ⟨3 * 2 ^ 10, 1431655765⟩ }
  else if se.prio < maxRtPrio then none
  else do
    let weight ← schedPrioToWeight[se.prio - maxRtPrio]?
    let wmult ← schedPrioToWmult[se.prio - maxRtPrio]?
    return { se with load := ⟨weight * 2 ^ 10, wmult⟩ }

def updateInvWeight (lw : LoadWeight) : LoadWeight :=
  if lw.invWeight ≠ 0 then lw
  else
    let w := scaleLoadDown lw.weight
    if w ≥ wmultConst then { lw with invWeight := 1 }
    else if w = 0 then { lw with invWeight := wmultConst }
    else { lw with invWeight := wmultConst / w }

/-- `fls`: one more than the position of the highest set bit. -/
def fls (x : ℕ) : ℕ := if x = 0 then 0 else x.log2 + 1

def mulU64U32Shr (a mul shift : ℕ) : ℕ := wrap (a * (mul % 2 ^ 32) / 2 ^ shift)

def normalizeFact (fact : ℕ) (shift : ℤ) : ℕ × ℤ :=
  let factHi := fact / 2 ^ 32 % 2 ^ 32
  if factHi = 0 then (fact, shift) else (fact / 2 ^ fls factHi, shift - fls factHi)

/-- `__calc_delta`; it also completes the inverse weight. -/
def calcDelta (deltaExec weight : ℕ) (lw : LoadWeight) : ℕ × LoadWeight :=
  let lw := updateInvWeight lw
  let (fact, shift) := normalizeFact (scaleLoadDown weight) 32
  let (fact, shift) := normalizeFact (wrap (fact * lw.invWeight)) shift
  (mulU64U32Shr deltaExec fact shift.toNat, lw)

def calcDeltaFair (delta : ℕ) (se : SchedEntity) : ℕ × SchedEntity :=
  if se.load.weight = nice0Load then (delta, se)
  else
    let (delta, lw) := calcDelta delta nice0Load se.load
    (delta, { se with load := lw })

def updateDeadline (se : SchedEntity) : Bool × SchedEntity :=
  if signed (wrapSub se.vruntime se.deadline) < 0 then (false, se)
  else
    let se := if se.customSlice = 0 then { se with slice := sysctlSchedBaseSlice } else se
    let (delta, se) := calcDeltaFair se.slice se
    (true, { se with deadline := wrap (se.vruntime + delta) })

/-- The first assignments of `new_entity` to the memory `raw` that `malloc` returned. -/
def blankEntity (raw : SchedEntity) (prio minVruntime now : ℕ) : SchedEntity :=
  { raw with
    isIdle := decide (prio = niceToPrio 20)
    prio := prio
    slice := sysctlSchedBaseSlice
    customSlice := 0
    onRq := true
    deadline := 0
    vruntime := minVruntime
    minVruntime := minVruntime
    execStart := now
    isYield := false }

def newEntity (raw : SchedEntity) (task prio minVruntime now : ℕ) : Option SchedEntity := do
  let se ← setLoadWeight (blankEntity raw prio minVruntime now)
  return { (updateDeadline se).2 with thread := task }

def entityBefore (a b : SchedEntity) : Bool := decide (signed (wrapSub a.deadline b.deadline) < 0)

def vruntimeEligible (s : Eevdf) (vruntime : ℕ) : Bool :=
  let key (v : ℕ) := signed (wrapSub v s.minVruntime)
  let avg := signed s.avgVruntime
  let load := signed s.avgLoad
  if load = 0 then true
  else
    let (avg, load) :=
      match s.current with
      | none => (avg, load)
      | some curr =>
        let se := s.get curr
        if se.onRq then
          let weight := scaleLoadDown se.load.weight
          (toInt64 (avg + key se.vruntime * weight), toInt64 (load + weight))
        else (avg, load)
    decide (avg ≥ toInt64 (key vruntime * load))

def minVruntimeChild (s : Eevdf) (se : SchedEntity) : Option ℕ → SchedEntity
  | none => se
  | some node =>
    if signed (wrapSub se.minVruntime (s.get node).minVruntime) > 0 then
      { se with minVruntime := (s.get node).minVruntime }
    else se

/-- `min_vruntime_update`, given the children of the tree node. -/
def minVruntimeUpdate (s : Eevdf) (id : ℕ) (children : Option ℕ × Option ℕ) : Eevdf :=
  let se := s.get id
  let se := minVruntimeChild s { se with minVruntime := se.vruntime } children.2
  s.set id (minVruntimeChild s se children.1)

def updateMinVruntimeTo (s : Eevdf) (vruntime : ℕ) : ℕ × Eevdf :=
  let delta := wrapSub vruntime s.minVruntime
  if signed delta > 0 then
    (vruntime, { s with avgVruntime := wrapSub s.avgVruntime (wrap (s.avgLoad * delta)) })
  else (s.minVruntime, s)

/-- The virtual time that `update_min_vruntime` moves on to. -/
def minVruntimeTarget (s : Eevdf) : ℕ :=
  let curr := s.current.filter fun c => (s.get c).onRq
  let vruntime := match curr with
    | some c => (s.get c).vruntime
    | none => s.minVruntime
  match top s.root, curr with
  | none, _ => vruntime
  | some se, none => (s.get se).minVruntime
  | some se, some _ =>
    if signed (wrapSub (s.get se).vruntime vruntime) < 0 then (s.get se).vruntime else vruntime

/-- `update_min_vruntime`. The macro `MAX` evaluates the larger argument twice. -/
def updateMinVruntime (s : Eevdf) : Eevdf :=
  let vruntime := minVruntimeTarget s
  let (m, s) := updateMinVruntimeTo s vruntime
  if m > vruntime then
    let (m, s) := updateMinVruntimeTo s vruntime
    { s with minVruntime := m }
  else { s with minVruntime := vruntime }

/-- `wrap_vruntime` on one entity of the tree. -/
def wrapEntity (offset : ℕ) (se : SchedEntity) : SchedEntity :=
  { se with
    vruntime := if se.vruntime > offset then se.vruntime - offset else se.vruntime
    deadline := if se.deadline > offset then se.deadline - offset else se.deadline }

/-- `wrap_vruntime` on the current entity. -/
def wrapCurrentEntity (offset : ℕ) (se : SchedEntity) : SchedEntity :=
  { se with vruntime := wrapSub se.vruntime offset, deadline := wrapSub se.deadline offset }

def wrapCurrent (offset : ℕ) (s : Eevdf) : Eevdf :=
  match s.current with
  | none => s
  | some c => s.set c (wrapCurrentEntity offset (s.get c))

/-- `wrap_vruntime` when the smallest virtual time has reached the offset. -/
def wrapVruntimeBy (offset : ℕ) (s : Eevdf) : Eevdf :=
  let s := wrapCurrent offset { s with minVruntime := s.minVruntime - offset }
  let s := (inorder s.root).foldl
    (fun (s : Eevdf) node => s.set node (wrapEntity offset (s.get node))) s
  { s with avgVruntime :=
      if s.avgLoad ≠ 0 then wrapSub s.avgVruntime (wrap (s.avgLoad * offset)) else 0 }

def wrapVruntime (s : Eevdf) : Eevdf :=
  if s.minVruntime < vruntimeOffsetThreshold then s else wrapVruntimeBy vruntimeOffsetThreshold s

def insertSchedEntity (s : Eevdf) (id : ℕ) : Eevdf :=
  s.withRoot (insert (fun d => decide ((s.get id).deadline < (s.get d).deadline)) id s.root)

def eraseSchedEntity (s : Eevdf) (id : ℕ) : Option Eevdf :=
  (erase id s.root).map s.withRoot

/-- `rb_erase` and `insert_sched_entity` one after the other. -/
def requeueSchedEntity (s : Eevdf) (id : ℕ) : Option Eevdf :=
  (eraseSchedEntity s id).map fun s => insertSchedEntity s id

def pickWalk (s : Eevdf) : RbTree.Tree ℕ → Option ℕ
  | .nil => none
  | .node _ left d right =>
    if (top left).any fun l => vruntimeEligible s (s.get l).minVruntime then pickWalk s left
    else if vruntimeEligible s (s.get d).vruntime then some d
    else pickWalk s right

def pickEevdf (s : Eevdf) : Option ℕ :=
  let best := match first s.root with
    | none => pickWalk s s.root
    | some se => if vruntimeEligible s (s.get se).vruntime then some se else pickWalk s s.root
  match best, s.current with
  | none, curr => curr
  | some best, none => some best
  | some best, some curr =>
    if entityBefore (s.get curr) (s.get best) then some curr else some best

def changeEntityWeight (s : Eevdf) (thread prio : ℕ) : Option Eevdf := do
  let id ← s.schedHandle thread
  let se ← s.entities id
  if se.prio = prio then return s
  let se ← setLoadWeight { se with isIdle := decide (prio = niceToPrio 20), prio := prio }
  requeueSchedEntity (s.set id se) id

def updateCurrSe (se : SchedEntity) (now : ℕ) : ℤ × SchedEntity :=
  let deltaExec := signed (wrapSub now se.execStart)
  if deltaExec ≤ 0 then (deltaExec, se)
  else (deltaExec, { se with
    execStart := now
    sumExecRuntime := wrap (se.sumExecRuntime + deltaExec.toNat) })

def updateVlag (s : Eevdf) (se : SchedEntity) : SchedEntity :=
  let vlagRaw := signed (wrapSub s.minVruntime se.vruntime)
  let (limit, se) := calcDeltaFair (max (wrap (2 * se.slice)) tickNsec) se
  let limit := signed limit
  { se with vlag := if vlagRaw ≥ limit then limit else if vlagRaw ≤ -limit then -limit else vlagRaw }

/-- `curr->deadline = curr->vruntime + calc_delta_fair(curr->slice, curr)` and
`curr->is_yield = false`. -/
def yieldDeadline (se : SchedEntity) : SchedEntity :=
  let (delta, se) := calcDeltaFair se.slice se
  { se with deadline := wrap (se.vruntime + delta), isYield := false }

/-- `min_vruntime_update`, `rb_erase` and `insert_sched_entity` of the current entity. -/
def requeueCurrent (s : Eevdf) (c : ℕ) : Option Eevdf :=
  requeueSchedEntity (minVruntimeUpdate s c (children c s.root)) c

/-- The virtual time of an entity moves on by `ran` nanoseconds; whether it has a new
deadline. -/
def advanceEntity (s : Eevdf) (se : SchedEntity) (ran : ℕ) : Bool × SchedEntity :=
  let (delta, se) := calcDeltaFair ran se
  updateDeadline (updateVlag s { se with vruntime := wrap (se.vruntime + delta) })

/-- `update_current_task` at time `now` up to its last line, and whether it gets there. -/
def settleCurrentTask (s : Eevdf) (now : ℕ) : Option (Bool × Eevdf) :=
  match s.current with
  | none => some (false, s)
  | some c => do
    let se ← s.entities c
    let (deltaExec, se) := updateCurrSe se now
    if deltaExec ≤ 0 then
      if se.isYield then
        let s ← requeueCurrent (s.set c (yieldDeadline se)) c
        return (false, s)
      else return (false, s.set c se)
    else
      let (resche, se) := advanceEntity s se deltaExec.toNat
      let s := updateMinVruntime (s.set c se)
      let se := { s.get c with minVruntime := s.minVruntime }
      let (resche, se) := if se.isYield then (true, yieldDeadline se) else (resche, se)
      let s := s.set c se
      let s ← if resche || se.isIdle then requeueCurrent s c else some s
      return (true, s)

/-- `update_current_task` at time `now`. -/
def updateCurrentTask (s : Eevdf) (now : ℕ) : Option Eevdf :=
  (settleCurrentTask s now).map fun (passed, s) => if passed then wrapVruntime s else s

def setEntityYield (s : Eevdf) (thread : ℕ) : Option Eevdf := do
  let id ← s.schedHandle thread
  let se ← s.entities id
  return s.set id { se with isYield := true }

/-- `remove_sched_entity` as far as the choice of the new current entity. -/
def detachSchedEntity (s : Eevdf) (id : ℕ) : Option Eevdf := do
  let s ← eraseSchedEntity s id
  let s := s.set id { s.get id with onRq := false }
  let s := s.select (if s.current = some id then none else s.current)
  return s.select (pickEevdf s)

/-- `remove_sched_entity`. The erased node keeps its links to its former children. -/
def removeSchedEntity (s : Eevdf) (id : ℕ) : Option Eevdf := do
  let links := children id s.root
  let s ← detachSchedEntity s id
  return updateMinVruntime (minVruntimeUpdate s id links)

/-- `eevdf_pick_next_task`; the clock is read at `now` and again at `now'`. -/
def eevdfPickNextTask (s : Eevdf) (now now' : ℕ) : Option (Eevdf × ℕ) := do
  let s ← updateCurrentTask s now
  let current ← pickEevdf s
  let se ← s.entities current
  return ((s.set current { se with execStart := now' }).select (some current), se.thread)

/-- `add_eevdf_entity_with_prio`; the entity gets the address `id`. -/
def addEevdfEntityWithPrio (s : Eevdf) (newTask prio now id : ℕ) (raw : SchedEntity) :
    Option Eevdf := do
  let se ← newEntity raw newTask prio s.minVruntime now
  let s := { s.set id se with schedHandle := Function.update s.schedHandle newTask (some id) }
  return { insertSchedEntity s id with taskCount := s.taskCount + 1 }

def removeEevdfEntity (s : Eevdf) (thread : ℕ) : Option Eevdf :=
  match s.schedHandle thread with
  | none => some s
  | some id => do
    let s ← removeSchedEntity s id
    return { s with
      entities := Function.update s.entities id none
      schedHandle := Function.update s.schedHandle thread none
      taskCount := s.taskCount - 1 }

def waitEevdfEntity (s : Eevdf) (thread : ℕ) (heap : List Bool) : Option Eevdf :=
  match s.schedHandle thread with
  | none => some s
  | some id => do
    let se ← s.entities id
    if !se.onRq then return s
    let s ← removeSchedEntity s id
    let ((waitQueue, index), _) := cowListAdd s.waitQueue id heap
    let s := s.set id { s.get id with waitIndex := index }
    return { s with waitQueue := waitQueue, taskCount := s.taskCount - 1 }

def futexEevdfEntity (s : Eevdf) (thread : ℕ) (heap : List Bool) : Option Eevdf :=
  match s.schedHandle thread with
  | none => some s
  | some id => do
    let se ← s.entities id
    if se.onRq then return s
    let ((waitQueue, _), _) := cowListRemove s.waitQueue se.waitIndex heap
    let s := { s.set id { se with onRq := true } with waitQueue := waitQueue }
    return { insertSchedEntity s id with taskCount := s.taskCount + 1 }

/-- `init_cpu_idle`: the idle entity gets the address `id`. -/
def initCpuIdle (apIdle now id : ℕ) (raw : SchedEntity) : Option Eevdf := do
  let se ← newEntity raw apIdle (niceToPrio 20) 0 now
  let s : Eevdf :=
    { entities := Function.update (fun _ => none) id (some se)
      schedHandle := Function.update (fun _ => none) apIdle (some id)
      root := .nil
      current := none
      waitQueue := CowList.empty
      taskCount := 0
      avgLoad := 0
      avgVruntime := 0
      minVruntime := 0 }
  return (insertSchedEntity s id).select (some id)

/-- What `scheduler_remove_task` takes for a waiting thread. -/
def takenForWaiting (status : TaskStatus) (sleepDeadline : ℕ) : Bool :=
  (status = .wait && sleepDeadline ≠ 0) || status = .futex

/-- `scheduler_remove_task` of a thread with that status and `sleep_deadline`. -/
def removeTask (s : Eevdf) (thread : ℕ) (status : TaskStatus) (sleepDeadline : ℕ)
    (heap : List Bool) : Option Eevdf :=
  if takenForWaiting status sleepDeadline then do
    let s ← futexEevdfEntity s thread heap
    removeEevdfEntity s thread
  else removeEevdfEntity s thread

end CoolPotOS
