import CoolPotOS.Task.Futex

namespace CoolPotOS

def schedulerBlockPending : ℤ := 0x7fffffff

def eintr : ℤ := 4
def etimedout : ℤ := 110

/-- The sleep list, created by the first thread that sleeps. -/
def sleepListCreate (s : System) (heap : List Bool) : Option (CowList ℕ) × List Bool :=
  match s.sleepList with
  | some list => (some list, heap)
  | none => cowListCreate heap

/-- What `scheduler_nano_sleep` and `scheduler_block_current` do before they yield. -/
def sleepUntil (s : System) (thread deadline : ℕ) (heap : List Bool) :
    Option (System × List Bool) :=
  match sleepListCreate s heap with
  | (none, _) => none
  | (some list, heap) =>
    let s := s.setTcb thread { s.tcb thread with
      blockCode := schedulerBlockPending
      sleepDeadline := deadline
      status := .wait }
    let ((list, _), heap) := cowListAdd list thread heap
    some (removeRrsEntity { s with sleepList := some list } thread, heap)

/-- `scheduler_nano_sleep` of the thread that runs at time `now`. -/
def schedulerNanoSleep (s : System) (thread now nano : ℕ) (heap : List Bool) :
    Option (System × List Bool) :=
  sleepUntil s thread (wrap (now + nano)) heap

/-- `scheduler_block_current` of the thread that runs at time `now`. -/
def schedulerBlockCurrent (s : System) (thread now timeout : ℕ) (heap : List Bool) :
    Option (System × List Bool) :=
  sleepUntil s thread (if timeout = 2 ^ 64 - 1 then 2 ^ 64 - 1 else wrap (now + timeout)) heap

def sleepRemoveTaskLocked (s : System) (thread : ℕ) (heap : List Bool) :
    (System × Bool) × List Bool :=
  match s.sleepList with
  | none => ((s, false), heap)
  | some list =>
    match (List.range list.size).find? fun i => cowListGet list i = some thread with
    | none => ((s, false), heap)
    | some i =>
      let ((list, _), heap) := cowListRemove list i heap
      (({ s with sleepList := some list }, true), heap)

/-- The loop of `scheduler_check_sleep` at time `now`; `pending` is `signals_pending_quick`. Where
the memory for a removal is missing it wakes the thread again. -/
def checkSleepLoop (now : ℕ) (pending : ℕ → Bool) :
    ℕ → System → CowList ℕ → ℕ → List Bool → Option (System × CowList ℕ × List Bool)
  | 0, s, list, _, heap => some (s, list, heap)
  | fuel + 1, s, list, i, heap =>
    if i < list.size then
      match cowListGet list i with
      | none =>
        let ((list, _), heap) := cowListRemove list i heap
        checkSleepLoop now pending fuel s list i heap
      | some thread =>
        if now ≥ (s.tcb thread).sleepDeadline ∨ pending thread then do
          let ((list, _), heap) := cowListRemove list i heap
          let code := (s.tcb thread).blockCode
          let s := s.setTcb thread { s.tcb thread with
            sleepDeadline := 0
            blockCode := if code = schedulerBlockPending then
              (if pending thread then -eintr else etimedout) else code
            status := .start }
          let (s, heap) ← addRrsEntity s thread heap
          checkSleepLoop now pending fuel s list i heap
        else checkSleepLoop now pending fuel s list (i + 1) heap
    else some (s, list, heap)

def schedulerCheckSleep (s : System) (now : ℕ) (pending : ℕ → Bool) (heap : List Bool) :
    Option (System × List Bool) :=
  match s.sleepList with
  | none => some (s, heap)
  | some list => do
    let (s, list, heap) ← checkSleepLoop now pending (list.size + heap.length) s list 0 heap
    return ({ s with sleepList := some list }, heap)

def schedulerUnblock (s : System) (thread : ℕ) (code : ℤ) (heap : List Bool) :
    Option (System × List Bool) :=
  match sleepRemoveTaskLocked s thread heap with
  | ((s, false), heap) => some (s, heap)
  | ((s, true), heap) =>
    addRrsEntity (s.setTcb thread { s.tcb thread with
      sleepDeadline := 0, blockCode := code, status := .start }) thread heap

def schedulerAddTaskCpu (s : System) (thread cpu : ℕ) (heap : List Bool) :
    Option (System × List Bool) :=
  let s := { s with taskCount := Function.update s.taskCount cpu (s.taskCount cpu + 1) }
  addRrsEntity (s.setTcb thread { s.tcb thread with cpuId := cpu }) thread heap

/-- `scheduler_remove_task` on the processor of the thread. A thread with the status `T_FUTEX` is
removed like any other. -/
def schedulerRemoveTask (s : System) (thread : ℕ) (heap : List Bool) :
    Option (System × List Bool) :=
  let cpu := (s.tcb thread).cpuId
  let s := { s with taskCount := Function.update s.taskCount cpu (s.taskCount cpu - 1) }
  if (s.tcb thread).status = .wait ∧ (s.tcb thread).sleepDeadline ≠ 0 then do
    let ((s, _), heap) := sleepRemoveTaskLocked s thread heap
    let s := s.setTcb thread { s.tcb thread with sleepDeadline := 0 }
    let (s, heap) ← addRrsEntity s thread heap
    return (removeRrsEntity s thread, heap)
  else some (removeRrsEntity s thread, heap)

def killThread (s : System) (thread : ℕ) (heap : List Bool) : Option (System × List Bool) :=
  if (s.tcb thread).status = .death ∨ (s.tcb thread).status = .out then some (s, heap)
  else do
    let s := s.setTcb thread { s.tcb thread with status := .death }
    let (s, heap) := futexFree s thread heap
    let (s, heap) ← if (s.tcb thread).schedHandle = none then some (s, heap)
      else schedulerRemoveTask s thread heap
    return (s.setTcb thread { s.tcb thread with status := .out }, heap)

/-- The end of `scheduler_handler`: the switch to another thread. -/
def switchTask (s : System) (cpu next : ℕ) : System :=
  let current := s.currentTask cpu
  if current = next then s
  else
    let s := s.setTcb current { s.tcb current with status := .running }
    let s := s.setTcb next { s.tcb next with status := .start }
    { s with currentTask := Function.update s.currentTask cpu next }

/-- `scheduler_handler` on a processor: the timer check, the choice of the next thread and the
switch. -/
def schedulerHandler (s : System) (cpu now : ℕ) (pending : ℕ → Bool) (heap : List Bool) :
    Option (System × List Bool) := do
  let (s, heap) ← schedulerCheckSleep s now pending heap
  let (s, next) ← rrsPickNextTask s cpu
  return (switchTask s cpu next, heap)

/-- The wait of the system call `futex`. -/
def futexWait (s : System) (addr thread : ℕ) (heap : List Bool) : Option (System × List Bool) :=
  futexAdd (s.setTcb thread { s.tcb thread with status := .futex }) addr thread heap

end CoolPotOS
