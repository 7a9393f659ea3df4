import CoolPotOS.Task.Thread

namespace CoolPotOS

/-- Where a processor is in `kill_thread`. -/
inductive KillStage
  | claim | remove | out | pending | push
  deriving DecidableEq

/-- Where a processor is in `kill_proc` for a process that exits. `loop i` has the threads below the
index `i` still to kill. -/
inductive ExitStage
  | claim | loop (i : ℕ) | reparent | zombie | send | final
  deriving DecidableEq

/-- Where a processor is in `kill_proc` for a process that is reaped, and in `kill_proc0`. -/
inductive ReapStage
  | claim | unlink | loop | pending (thread : ℕ) | push (thread : ℕ) | clear | enqueue
  deriving DecidableEq

/-- Where a processor is in `waitpid`. `recv` has the number of tries that are left for `nohang`,
and `got` and `found` have the pid of the message. -/
inductive WaitStage
  | start (nohang : Bool) | recv (tries : Option ℕ) | got (tries : Option ℕ) (pid : ℕ)
  | found (pid : ℕ) | done
  deriving DecidableEq

/-- Where a processor is in `task_reap_retired`. -/
inductive SweepStage
  | threads | destroyThread (thread : ℕ) | settle (thread : ℕ) | processes | destroyProcess (pid : ℕ)
  deriving DecidableEq

/-- What a processor does. A `kill_thread` that the loop of `kill_proc` calls has the process and the
index of the loop; a `kill_proc` that `waitpid` calls has the waiting thread. -/
inductive RetirePc
  | idle
  | killThread (stage : KillStage) (thread : ℕ) (ret : Option (ℕ × ℕ))
  | exit (stage : ExitStage) (pid : ℕ)
  | reap (stage : ReapStage) (pid waiter : ℕ)
  | waitpid (stage : WaitStage) (thread : ℕ) (pid : Option ℕ)
  | sweep (stage : SweepStage)
  deriving DecidableEq

/-- Where a processor is after `kill_thread`. -/
def afterKill : Option (ℕ × ℕ) → RetirePc
  | none => .idle
  | some (pid, i) => .exit (.loop i) pid

/-- The threads, the processes and the retired lists. `owner` is `thread->process`, and `queue` has
the `IPC_MSG_TYPE_EPID` messages of a process. The last four lists are the history: which threads and
processes were put on their retired list, and which were destroyed. -/
structure RetireState where
  status : ℕ → TaskStatus
  owner : ℕ → Option ℕ
  ctIndex : ℕ → ℕ
  procStatus : ℕ → TaskStatus
  parent : ℕ → Option ℕ
  childThreads : ℕ → List ℕ
  retiredThreadsPending : ℕ → ℕ
  listed : ℕ → Bool
  queue : ℕ → List ℕ
  kernel : ℕ
  retiredThreads : List ℕ
  retiredProcesses : List ℕ
  pc : ℕ → RetirePc
  threadsRetired : List ℕ
  threadsDestroyed : List ℕ
  processesRetired : List ℕ
  processesDestroyed : List ℕ

namespace RetireState

variable (x : RetireState)

def goto (cpu : ℕ) (pc : RetirePc) : RetireState := { x with pc := Function.update x.pc cpu pc }

def setStatus (thread : ℕ) (status : TaskStatus) : RetireState :=
  { x with status := Function.update x.status thread status }

def setProcStatus (pid : ℕ) (status : TaskStatus) : RetireState :=
  { x with procStatus := Function.update x.procStatus pid status }

/-- `cow_list_remove` on the threads of a process, which does nothing when there is no memory. -/
def removeChild (pid index : ℕ) (memory : Bool) : RetireState :=
  if memory then
    { x with childThreads := Function.update x.childThreads pid ((x.childThreads pid).eraseIdx index) }
  else x

def refreshChildThreadLinks (pid : ℕ) : RetireState :=
  { x with ctIndex := fun thread =>
      if thread ∈ x.childThreads pid then (x.childThreads pid).idxOf thread else x.ctIndex thread }

def removeThreadFromProcess (thread : ℕ) (memory : Bool) : RetireState :=
  match x.owner thread with
  | none => x
  | some pid =>
    if (x.childThreads pid)[x.ctIndex thread]? ≠ some thread then x
    else (x.removeChild pid (x.ctIndex thread) memory).refreshChildThreadLinks pid

def getReparentTarget (pid : ℕ) : ℕ :=
  match x.parent pid with
  | none => x.kernel
  | some parent => (x.parent parent).getD x.kernel

def reparentProcessChildren (pid : ℕ) : RetireState :=
  { x with parent := fun child =>
      if x.parent child = some pid then some (x.getReparentTarget pid) else x.parent child }

/-- The increment of `enqueue_retired_thread`. -/
def countRetired (thread : ℕ) : RetireState :=
  match x.owner thread with
  | none => x
  | some pid =>
    { x with retiredThreadsPending :=
        Function.update x.retiredThreadsPending pid (x.retiredThreadsPending pid + 1) }

/-- The locked section of `enqueue_retired_thread`. -/
def enqueueRetiredThread (thread : ℕ) : RetireState :=
  { x with
    retiredThreads := thread :: x.retiredThreads
    threadsRetired := thread :: x.threadsRetired }

def enqueueRetiredProcess (pid : ℕ) : RetireState :=
  { x with
    retiredProcesses := pid :: x.retiredProcesses
    processesRetired := pid :: x.processesRetired }

def ipcSend (pid message : ℕ) : RetireState :=
  { x with queue := Function.update x.queue pid (x.queue pid ++ [message]) }

def claimed (thread : ℕ) : Bool := x.status thread == .death || x.status thread == .out

def killThread (cpu thread : ℕ) (ret : Option (ℕ × ℕ)) (memory : Bool) : KillStage → RetireState
  | .claim =>
    if x.claimed thread then x.goto cpu (afterKill ret)
    else (x.setStatus thread .death).goto cpu (.killThread .remove thread ret)
  | .remove => (x.removeThreadFromProcess thread memory).goto cpu (.killThread .out thread ret)
  | .out => (x.setStatus thread .out).goto cpu (.killThread .pending thread ret)
  | .pending => (x.countRetired thread).goto cpu (.killThread .push thread ret)
  | .push => (x.enqueueRetiredThread thread).goto cpu (afterKill ret)

def exit (cpu pid : ℕ) (memory : Bool) : ExitStage → Option RetireState
  | .claim =>
    if pid = x.kernel then some (x.goto cpu .idle)
    else if x.procStatus pid = .death ∨ x.procStatus pid = .out ∨ x.procStatus pid = .zombie then
      some (x.goto cpu .idle)
    else some ((x.setProcStatus pid .death).goto cpu (.exit (.loop (x.childThreads pid).length) pid))
  | .loop 0 => some (x.goto cpu (.exit .reparent pid))
  | .loop (i + 1) =>
    match (x.childThreads pid)[i]? with
    | none =>
      some (((x.removeChild pid i memory).refreshChildThreadLinks pid).goto cpu (.exit (.loop i) pid))
    | some thread =>
      if x.status thread ≠ .out then some (x.goto cpu (.killThread .claim thread (some (pid, i))))
      else some (x.goto cpu (.exit (.loop i) pid))
  | .reparent => some ((x.reparentProcessChildren pid).goto cpu (.exit .zombie pid))
  | .zombie => some ((x.setProcStatus pid .zombie).goto cpu (.exit .send pid))
  | .send => (x.parent pid).map fun parent => (x.ipcSend parent pid).goto cpu (.exit .final pid)
  | .final => some ((x.setProcStatus pid .zombie).goto cpu .idle)

/-- `kill_proc` without `is_zombie`, and `kill_proc0`. -/
def reap (cpu pid waiter : ℕ) (memory : Bool) : ReapStage → RetireState
  | .claim =>
    if pid = x.kernel ∨ x.procStatus pid ≠ .zombie then x.goto cpu (.waitpid .done waiter none)
    else (x.setProcStatus pid .death).goto cpu (.reap .unlink pid waiter)
  | .unlink =>
    ((x.setProcStatus pid .out).reparentProcessChildren pid).goto cpu (.reap .loop pid waiter)
  | .loop =>
    match x.childThreads pid with
    | [] => x.goto cpu (.reap .clear pid waiter)
    | thread :: _ =>
      if x.status thread ≠ .out then
        -- `kill_thread0`
        ((x.removeChild pid 0 memory).setStatus thread .out).goto cpu (.reap (.pending thread) pid waiter)
      else (x.removeChild pid 0 memory).goto cpu (.reap .loop pid waiter)
  | .pending thread => (x.countRetired thread).goto cpu (.reap (.push thread) pid waiter)
  | .push thread => (x.enqueueRetiredThread thread).goto cpu (.reap .loop pid waiter)
  | .clear =>
    { x with listed := if memory then Function.update x.listed pid false else x.listed }.goto cpu
      (.reap .enqueue pid waiter)
  | .enqueue => (x.enqueueRetiredProcess pid).goto cpu (.waitpid .done waiter none)

/-- `waitpid`; without a `pid` it waits for every child. -/
def waitpid (cpu thread : ℕ) (pid : Option ℕ) : WaitStage → Option RetireState
  | .start nohang => do
    let process ← x.owner thread
    return (x.setStatus thread .wait).goto cpu
      (.waitpid (.recv (if nohang then some (x.queue process).length else none)) thread pid)
  | .recv tries => do
    let process ← x.owner thread
    match tries, x.queue process with
    | some 0, _ => return x.goto cpu (.waitpid .done thread pid)
    | some _, [] => return x.goto cpu (.waitpid .done thread pid)
    | none, [] => return x
    | tries, message :: rest =>
      return { x with queue := Function.update x.queue process rest }.goto cpu
        (.waitpid (.got (tries.map Nat.pred) message) thread pid)
  | .got tries message => do
    let process ← x.owner thread
    if pid = none ∨ pid = some message then return x.goto cpu (.waitpid (.found message) thread pid)
    else return (x.ipcSend process message).goto cpu (.waitpid (.recv tries) thread pid)
  | .found message =>
    if x.listed message ∧ x.procStatus message = .zombie then
      some (x.goto cpu (.reap .claim message thread))
    else some (x.goto cpu (.waitpid .done thread pid))
  | .done => some ((x.setStatus thread .running).goto cpu .idle)

/-- `task_reap_retired`. `node` is the place of the first entry of the list that is ready. The
descriptors of the zombies are left out. -/
def sweep (cpu : ℕ) (node : Option ℕ) : SweepStage → RetireState
  | .threads =>
    match node with
    | none => x.goto cpu (.sweep .processes)
    | some i =>
      match x.retiredThreads[i]? with
      | none => x
      | some thread =>
        { x with retiredThreads := x.retiredThreads.eraseIdx i }.goto cpu (.sweep (.destroyThread thread))
  | .destroyThread thread =>
    { x with threadsDestroyed := thread :: x.threadsDestroyed }.goto cpu (.sweep (.settle thread))
  | .settle thread =>
    match x.owner thread with
    | none => x.goto cpu (.sweep .threads)
    | some pid =>
      { x with retiredThreadsPending :=
          Function.update x.retiredThreadsPending pid (x.retiredThreadsPending pid - 1) }.goto cpu
        (.sweep .threads)
  | .processes =>
    match node with
    | none => x.goto cpu .idle
    | some i =>
      match x.retiredProcesses[i]? with
      | none => x
      | some pid =>
        if x.retiredThreadsPending pid = 0 ∧ x.childThreads pid = [] then
          { x with retiredProcesses := x.retiredProcesses.eraseIdx i }.goto cpu
            (.sweep (.destroyProcess pid))
        else x
  | .destroyProcess pid =>
    { x with processesDestroyed := pid :: x.processesDestroyed }.goto cpu (.sweep .processes)

end RetireState

inductive RetireCall
  | killThread (thread : ℕ)
  | killProc (pid : ℕ)
  | waitpid (thread : ℕ) (pid : Option ℕ) (nohang : Bool)
  | taskReapRetired

def RetireCall.pc : RetireCall → RetirePc
  | .killThread thread => .killThread .claim thread none
  | .killProc pid => .exit .claim pid
  | .waitpid thread pid nohang => .waitpid (.start nohang) thread pid
  | .taskReapRetired => .sweep .threads

/-- An idle processor begins a call, or a processor makes its next step. -/
inductive RetireOp
  | call (cpu : ℕ) (f : RetireCall)
  | next (cpu : ℕ) (memory : Bool) (node : Option ℕ)

def RetireState.step (x : RetireState) : RetireOp → Option RetireState
  | .call cpu f => if x.pc cpu = .idle then some (x.goto cpu f.pc) else none
  | .next cpu memory node =>
    match x.pc cpu with
    | .idle => none
    | .killThread stage thread ret => some (x.killThread cpu thread ret memory stage)
    | .exit stage pid => x.exit cpu pid memory stage
    | .reap stage pid waiter => some (x.reap cpu pid waiter memory stage)
    | .waitpid stage thread pid => x.waitpid cpu thread pid stage
    | .sweep stage => some (x.sweep cpu node stage)

/-- Threads and processes are retired and destroyed at most once, and a process only after all of its
threads. -/
structure RetiredOnce (x : RetireState) : Prop where
  threadsRetired : x.threadsRetired.Nodup
  threadsDestroyed : x.threadsDestroyed.Nodup
  processesRetired : x.processesRetired.Nodup
  processesDestroyed : x.processesDestroyed.Nodup
  threadsFirst : ∀ pid ∈ x.processesDestroyed, ∀ thread, x.owner thread = some pid →
    thread ∈ x.threadsDestroyed

/-- The processor is in `kill_thread` for a thread of the process, which it has claimed. -/
def RetirePc.KillsThreadOf (x : RetireState) (pid : ℕ) : RetirePc → Prop
  | .killThread stage thread _ => stage ≠ .claim ∧ x.owner thread = some pid
  | _ => False

/-- The processor is in `kill_proc` for the process, after the first store of `T_ZOMBIE`. -/
def RetirePc.Announces (pid : ℕ) : RetirePc → Prop
  | .exit .send q => q = pid
  | .exit .final q => q = pid
  | _ => False

/-- A process is reaped when its exit is over and none of its threads is about to exit, and `waitpid`
sets the status of its thread only when the thread is not killed. -/
def RetireOp.Calm (x : RetireState) : RetireOp → Prop
  | .call _ _ => True
  | .next cpu _ _ =>
    match x.pc cpu with
    | .reap .claim pid _ => ∀ cpu', ¬(x.pc cpu').Announces pid ∧ ¬(x.pc cpu').KillsThreadOf x pid
    | .waitpid (.start _) thread _ => x.claimed thread = false
    | .waitpid .done thread _ => x.claimed thread = false
    | _ => True

end CoolPotOS
