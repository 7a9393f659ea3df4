import CoolPotOS.Lib.ByteStore
import CoolPotOS.Lib.Runs

namespace CoolPotOS

open ByteStore

def sigkill : ℕ := 9
def sigstop : ℕ := 19

def sigMask (sig : ℕ) : BitVec 64 := (1 : BitVec 64) <<< sig

def inMask (mask : BitVec 64) (sig : ℕ) : Bool := decide (mask &&& sigMask sig ≠ 0)

/-- `sigset_user_to_kernel`. The kernel counts the bits from 1, the program from 0. -/
def sigsetUserToKernel (userMask : BitVec 64) : BitVec 64 :=
  userMask <<< 1 &&& ~~~sigMask sigkill &&& ~~~sigMask sigstop

def signalSigInRange (sig : ℤ) : Bool := decide (1 ≤ sig ∧ sig ≤ 32)

inductive SignalInternal
  | core | term | ign | stop | cont
  deriving DecidableEq, Repr

/-- `signal_internal_decisions` as `signal_init` fills it in. -/
def signalInternalDecisions (sig : ℕ) : SignalInternal :=
  if sig ∈ [1, 2, 9, 10, 12, 13, 14, 15, 16, 26, 27, 29, 30] then .term
  else if sig ∈ [17, 23, 28] then .ign
  else if sig ∈ [19, 20, 21, 22] then .stop
  else if sig = 18 then .cont
  else .core

structure SigAction where
  saHandler : BitVec 64
  saFlags : BitVec 64
  saRestorer : BitVec 64
  saMask : BitVec 64
  deriving DecidableEq

def saRestorer : BitVec 64 := 0x04000000
def saRestart : BitVec 64 := 0x10000000
def saNodefer : BitVec 64 := 0x40000000
def saResethand : BitVec 64 := 0x80000000

/-- The registers of the program in `struct syscall_regs`. With `syscall` and `sysret`, `rcx`
holds the instruction pointer and `r11` the flags. -/
structure SyscallRegs where
  r15 : BitVec 64
  r14 : BitVec 64
  r13 : BitVec 64
  r12 : BitVec 64
  r11 : BitVec 64
  r10 : BitVec 64
  r9 : BitVec 64
  r8 : BitVec 64
  rbx : BitVec 64
  rcx : BitVec 64
  rdx : BitVec 64
  rsi : BitVec 64
  rdi : BitVec 64
  rbp : BitVec 64
  rax : BitVec 64
  deriving DecidableEq

structure SignalFrame where
  pretcode : BitVec 64
  signum : BitVec 32
  pad0 : BitVec 32
  r15 : BitVec 64
  r14 : BitVec 64
  r13 : BitVec 64
  r12 : BitVec 64
  r11 : BitVec 64
  r10 : BitVec 64
  r9 : BitVec 64
  r8 : BitVec 64
  rbx : BitVec 64
  rcx : BitVec 64
  rdx : BitVec 64
  rsi : BitVec 64
  rdi : BitVec 64
  rbp : BitVec 64
  rax : BitVec 64
  rip : BitVec 64
  rflags : BitVec 64
  rsp : BitVec 64
  savedBlocked : BitVec 64
  savedCallInSignal : BitVec 64
  fpuState : Fin 512 → BitVec 8
  magic : BitVec 64
  trampoline : Fin 16 → BitVec 8

/-- `sizeof(struct signal_frame)`; the last 8 bytes are padding that is never written. -/
def signalFrameSize : ℕ := 720

/-- The bytes of the fields, without the padding at the end. -/
def signalFrameBytes : ℕ := 712

/-- `offsetof(struct signal_frame, signum)` and `offsetof(struct signal_frame, trampoline)`. -/
def signumOffset : BitVec 64 := 8
def trampolineOffset : BitVec 64 := 696

def signalFrameMagic : BitVec 64 := 0x4350534947464D00

/-- `mov rax, 15; syscall` and seven `nop`. -/
def trampolineCode : Fin 16 → BitVec 8 :=
  ![0x48, 0xc7, 0xc0, 0x0f, 0x00, 0x00, 0x00, 0x0f, 0x05, 0x90, 0x90, 0x90, 0x90, 0x90, 0x90, 0x90]

def SignalFrame.bytes (f : SignalFrame) : List (BitVec 8) :=
  encode (k := 8) f.pretcode ++ (encode (k := 4) f.signum ++ (encode (k := 4) f.pad0 ++
  (encode (k := 8) f.r15 ++ (encode (k := 8) f.r14 ++ (encode (k := 8) f.r13 ++
  (encode (k := 8) f.r12 ++ (encode (k := 8) f.r11 ++ (encode (k := 8) f.r10 ++
  (encode (k := 8) f.r9 ++ (encode (k := 8) f.r8 ++ (encode (k := 8) f.rbx ++
  (encode (k := 8) f.rcx ++ (encode (k := 8) f.rdx ++ (encode (k := 8) f.rsi ++
  (encode (k := 8) f.rdi ++ (encode (k := 8) f.rbp ++ (encode (k := 8) f.rax ++
  (encode (k := 8) f.rip ++ (encode (k := 8) f.rflags ++ (encode (k := 8) f.rsp ++
  (encode (k := 8) f.savedBlocked ++ (encode (k := 8) f.savedCallInSignal ++
  (List.ofFn f.fpuState ++ (encode (k := 8) f.magic ++
  (List.ofFn f.trampoline ++ [])))))))))))))))))))))))))

def SignalFrame.ofBytes (l : List (BitVec 8)) : SignalFrame :=
  let (pretcode, l) := takeWord 8 l
  let (signum, l) := takeWord 4 l
  let (pad0, l) := takeWord 4 l
  let (r15, l) := takeWord 8 l
  let (r14, l) := takeWord 8 l
  let (r13, l) := takeWord 8 l
  let (r12, l) := takeWord 8 l
  let (r11, l) := takeWord 8 l
  let (r10, l) := takeWord 8 l
  let (r9, l) := takeWord 8 l
  let (r8, l) := takeWord 8 l
  let (rbx, l) := takeWord 8 l
  let (rcx, l) := takeWord 8 l
  let (rdx, l) := takeWord 8 l
  let (rsi, l) := takeWord 8 l
  let (rdi, l) := takeWord 8 l
  let (rbp, l) := takeWord 8 l
  let (rax, l) := takeWord 8 l
  let (rip, l) := takeWord 8 l
  let (rflags, l) := takeWord 8 l
  let (rsp, l) := takeWord 8 l
  let (savedBlocked, l) := takeWord 8 l
  let (savedCallInSignal, l) := takeWord 8 l
  let (fpuState, l) := takeBytes 512 l
  let (magic, l) := takeWord 8 l
  let (trampoline, _) := takeBytes 16 l
  { pretcode, signum, pad0, r15, r14, r13, r12, r11, r10, r9, r8, rbx, rcx, rdx, rsi, rdi, rbp,
    rax, rip, rflags, rsp, savedBlocked, savedCallInSignal, fpuState, magic, trampoline }

def loadFrame (mem : BitVec 64 → BitVec 8) (addr : BitVec 64) : SignalFrame :=
  .ofBytes (load mem addr signalFrameBytes)

theorem SignalFrame.length_bytes (f : SignalFrame) : f.bytes.length = signalFrameBytes := by
  simp only [SignalFrame.bytes, List.length_append, length_encode, List.length_ofFn, List.length_nil]
  rfl

theorem SignalFrame.ofBytes_bytes (f : SignalFrame) : SignalFrame.ofBytes f.bytes = f := by
  simp only [SignalFrame.ofBytes, SignalFrame.bytes, takeWord_encode, takeBytes_ofFn]

theorem loadFrame_store (mem : BitVec 64 → BitVec 8) (addr : BitVec 64) (f : SignalFrame) :
    loadFrame (store mem addr f.bytes) addr = f := by
  unfold loadFrame
  rw [← f.length_bytes, load_store (by rw [f.length_bytes]; decide), f.ofBytes_bytes]

/-- A system call in which the thread waits, with the mask to put back. -/
inductive SignalWait
  | sigsuspend (old : BitVec 64)
  | epollPwait (old : Option (BitVec 64))
  deriving DecidableEq

/-- What signals work with: the fields of the thread, its registers in the current system call and
the memory of the program. `actions` is indexed by the number of the signal less one. A step is one
system call of the thread from its entry to its return; `sigsuspend` and `epoll_pwait` are two
steps, since the thread may wait in them. -/
structure SignalThread where
  regs : SyscallRegs
  syscallStackUser : BitVec 64
  callInSignal : BitVec 64
  actions : ℕ → SigAction
  signal : BitVec 64
  blocked : BitVec 64
  savedSigmask : BitVec 64
  hasSavedSigmask : Bool
  fpu : Fin 512 → BitVec 8
  mem : BitVec 64 → BitVec 8
  waiting : Option SignalWait
  killed : Bool

def SignalThread.ret (t : SignalThread) (value : BitVec 64) : SignalThread :=
  { t with regs := { t.regs with rax := value } }

def signalsPendingQuick (t : SignalThread) : Bool :=
  (List.range' 1 32).any fun sig =>
    inMask (t.signal &&& ~~~t.blocked) sig &&
      (t.actions (sig - 1)).saHandler ≠ 1 &&
      ¬((t.actions (sig - 1)).saHandler = 0 ∧ signalInternalDecisions sig = .ign)

def signalFrameAddr (rsp : BitVec 64) : BitVec 64 :=
  (rsp - BitVec.ofNat 64 signalFrameSize) &&& ~~~0xF

/-- The frame that `arch_signal_setup` writes at `addr`. -/
def setupFrame (t : SignalThread) (sig : ℕ) (addr : BitVec 64) : SignalFrame where
  pretcode :=
    if (t.actions (sig - 1)).saFlags &&& saRestorer ≠ 0 then (t.actions (sig - 1)).saRestorer
    else addr + trampolineOffset
  signum := BitVec.ofNat 32 sig
  pad0 := 0
  r15 := t.regs.r15
  r14 := t.regs.r14
  r13 := t.regs.r13
  r12 := t.regs.r12
  r11 := t.regs.r11
  r10 := t.regs.r10
  r9 := t.regs.r9
  r8 := t.regs.r8
  rbx := t.regs.rbx
  rcx := t.regs.rcx
  rdx := t.regs.rdx
  rsi := t.regs.rsi
  rdi := t.regs.rdi
  rbp := t.regs.rbp
  rax := t.regs.rax
  rip := t.regs.rcx
  rflags := t.regs.r11
  rsp := t.syscallStackUser
  savedBlocked := if t.hasSavedSigmask then t.savedSigmask else t.blocked
  savedCallInSignal := t.callInSignal
  fpuState := t.fpu
  magic := signalFrameMagic
  trampoline := trampolineCode

def setupBlocked (blocked : BitVec 64) (sig : ℕ) (action : SigAction) : BitVec 64 :=
  ((if action.saFlags &&& saNodefer = 0 then blocked ||| sigMask sig else blocked) |||
    action.saMask) &&& ~~~(sigMask sigkill ||| sigMask sigstop)

/-- `arch_signal_setup`; the second component is its result. -/
def archSignalSetup (t : SignalThread) (sig : ℕ) : SignalThread × Bool :=
  let action := t.actions (sig - 1)
  if action.saHandler = 0 ∨ action.saHandler = 1 then (t, false)
  else
    let userRsp := signalFrameAddr t.syscallStackUser
    ({ t with
        mem := store t.mem userRsp (setupFrame t sig userRsp).bytes
        hasSavedSigmask := false
        regs := { t.regs with rcx := action.saHandler, r11 := 0x202, rdi := BitVec.ofNat 64 sig }
        syscallStackUser := userRsp
        callInSignal := 1
        blocked := setupBlocked t.blocked sig action
        signal := t.signal &&& ~~~sigMask sig
        actions := if action.saFlags &&& saResethand ≠ 0 then
            Function.update t.actions (sig - 1) { action with saHandler := 0 }
          else t.actions },
      true)

/-- The loop of `do_signal` over the signals; the second component tells whether a handler has
been set up. -/
def doSignalLoop : List ℕ → SignalThread → SignalThread × Bool
  | [], t => (t, false)
  | sig :: sigs, t =>
    if !inMask t.signal sig then doSignalLoop sigs t
    else if inMask t.blocked sig then doSignalLoop sigs t
    else
      let handler := (t.actions (sig - 1)).saHandler
      let t := { t with signal := t.signal &&& ~~~sigMask sig }
      if sig = sigkill then ({ t with killed := true }, false)
      else if handler = 1 then doSignalLoop sigs t
      else if handler = 0 then
        match signalInternalDecisions sig with
        | .term | .core => ({ t with killed := true }, false)
        | .ign | .stop | .cont => doSignalLoop sigs t
      else archSignalSetup t sig

def doSignal (t : SignalThread) : SignalThread × Bool := doSignalLoop (List.range' 1 32) t

/-- The end of `syscall_handler`: a mask that `sigsuspend` has saved is put back if no handler
was set up. -/
def restoreSavedSigmask (t : SignalThread) : SignalThread :=
  if t.hasSavedSigmask then { t with blocked := t.savedSigmask, hasSavedSigmask := false } else t

def archSignalSigreturn (t : SignalThread) : SignalThread :=
  let frame := loadFrame t.mem (t.syscallStackUser - signumOffset)
  if frame.magic ≠ signalFrameMagic then t.ret (-1)
  else
    { t with
      regs :=
        { r15 := frame.r15, r14 := frame.r14, r13 := frame.r13, r12 := frame.r12,
          r11 := frame.rflags, r10 := frame.r10, r9 := frame.r9, r8 := frame.r8,
          rbx := frame.rbx, rcx := frame.rip, rdx := frame.rdx, rsi := frame.rsi,
          rdi := frame.rdi, rbp := frame.rbp, rax := frame.rax }
      syscallStackUser := frame.rsp
      blocked := frame.savedBlocked
      callInSignal := frame.savedCallInSignal
      fpu := frame.fpuState }

/-- What the thread does or what happens to it. `user` is the program up to its next system call:
the registers and the stack pointer it calls with, the floating-point registers, and the bytes
it has written. A pointer to a mask is `none` for `NULL` and the mask it points to otherwise. -/
inductive SignalOp
  | user (regs : SyscallRegs) (rsp : BitVec 64) (fpu : Fin 512 → BitVec 8)
      (writes : List (BitVec 64 × BitVec 8))
  | post (sig : ℕ)
  | ssetmask (how : ℤ) (nset : Option (BitVec 64))
  | sigAction (sig : ℤ) (action : Option SigAction)
  | signal (sig : ℤ) (handler : BitVec 64)
  | sigsuspend (mask : Option (BitVec 64)) (sigsetsize : ℕ)
  | epollPwait (sigmask : Option (BitVec 64)) (sigsetsize : ℕ)
  | resume (value : BitVec 64)
  | other (value : BitVec 64)
  | sigret

def einval : BitVec 64 := 22
def eintrCode : BitVec 64 := 4

def ssetmask (t : SignalThread) (how : ℤ) (nset : Option (BitVec 64)) : SignalThread :=
  match nset with
  | none => t.ret 0
  | some mask =>
    let safe := sigsetUserToKernel mask
    if how = 0 then { t with blocked := t.blocked ||| safe }.ret 0
    else if how = 1 then { t with blocked := t.blocked &&& ~~~safe }.ret 0
    else if how = 2 then { t with blocked := safe }.ret 0
    else t.ret (-einval)

def actionSig (sig : ℤ) : Bool :=
  signalSigInRange sig && decide (sig ≠ sigkill) && decide (sig ≠ sigstop)

def sigAction (t : SignalThread) (sig : ℤ) (action : Option SigAction) : SignalThread :=
  if !actionSig sig then t.ret (-einval)
  else match action with
  | none => t.ret 0
  | some action =>
    { t with actions := (Function.update t.actions (sig - 1).toNat
        { action with saMask := sigsetUserToKernel action.saMask }) }.ret 0

def sysSignal (t : SignalThread) (sig : ℤ) (handler : BitVec 64) : SignalThread :=
  if !actionSig sig then t.ret (-einval)
  else
    { t with actions := (Function.update t.actions (sig - 1).toNat
        ⟨handler, saRestart, 0, 0⟩) }.ret (t.actions (sig - 1).toNat).saHandler

/-- Where a step leaves the thread: it runs on without a return, its call returns, or it comes back
from a handler, which does not look for signals again. -/
inductive CallEnd
  | goesOn (t : SignalThread)
  | returns (t : SignalThread)
  | restored (t : SignalThread)

/-- `sigsuspend` up to the point where it waits. -/
def sigsuspend (t : SignalThread) (mask : Option (BitVec 64)) (sigsetsize : ℕ) : CallEnd :=
  match mask with
  | none => .returns (t.ret (-einval))
  | some mask =>
    if sigsetsize < 8 then .returns (t.ret (-einval))
    else
      let old := t.blocked
      let t := { t with blocked := sigsetUserToKernel mask }
      if signalsPendingQuick t then
        .returns ({ t with savedSigmask := old, hasSavedSigmask := true }.ret (-eintrCode))
      else .goesOn { t with waiting := some (.sigsuspend old) }

def epollPwait (t : SignalThread) (sigmask : Option (BitVec 64)) (sigsetsize : ℕ) : CallEnd :=
  match sigmask with
  | some mask =>
    if sigsetsize = 8 then
      .goesOn { t with
        blocked := sigsetUserToKernel mask, waiting := some (.epollPwait (some t.blocked)) }
    else .goesOn { t with waiting := some (.epollPwait none) }
  | none => .goesOn { t with waiting := some (.epollPwait none) }

/-- The wait is over. `scheduler_block_current` returns 0, so that `sigsuspend` puts the old mask
back itself; `value` is what `epoll_wait` returns. -/
def resumeWait (t : SignalThread) (value : BitVec 64) : SignalWait → SignalThread
  | .sigsuspend old => { t with blocked := old, waiting := none }.ret 0
  | .epollPwait (some old) => { t with blocked := old, waiting := none }.ret value
  | .epollPwait none => { t with waiting := none }.ret value

/-- The handler of a system call, or the program itself. A thread that waits does nothing
else. -/
def SignalOp.call (t : SignalThread) : SignalOp → Option CallEnd
  | .post sig =>
    some (.goesOn (if signalSigInRange sig then { t with signal := t.signal ||| sigMask sig } else t))
  | .resume value => t.waiting.map fun wait => .returns (resumeWait t value wait)
  | op =>
    if t.waiting ≠ none then none
    else match op with
    | .user regs rsp fpu writes =>
      some (.goesOn { t with
        regs := regs, syscallStackUser := rsp, fpu := fpu
        mem := writes.foldl (fun mem w => Function.update mem w.1 w.2) t.mem })
    | .ssetmask how nset => some (.returns (CoolPotOS.ssetmask t how nset))
    | .sigAction sig action => some (.returns (CoolPotOS.sigAction t sig action))
    | .signal sig handler => some (.returns (sysSignal t sig handler))
    | .sigsuspend mask size => some (CoolPotOS.sigsuspend t mask size)
    | .epollPwait mask size => some (CoolPotOS.epollPwait t mask size)
    | .other value => some (.returns (t.ret value))
    | .sigret => some (.restored (archSignalSigreturn t))
    | .post _ => none
    | .resume _ => none

def CallEnd.finish : CallEnd → SignalThread
  | .goesOn t => t
  | .returns t => restoreSavedSigmask (doSignal t).1
  | .restored t => restoreSavedSigmask t

def signalStep (t : SignalThread) (op : SignalOp) : Option SignalThread :=
  (op.call t).map CallEnd.finish

def SignalThread.InProgram (t : SignalThread) : Prop :=
  t.hasSavedSigmask = false ∧ t.waiting = none

instance (t : SignalThread) : Decidable t.InProgram := inferInstanceAs (Decidable (_ ∧ _))

def zeroRegs : SyscallRegs := ⟨0, 0, 0, 0, 0, 0, 0, 0, 0, 0, 0, 0, 0, 0, 0⟩

def newSignalThread : SignalThread where
  regs := zeroRegs
  syscallStackUser := 0x2000
  callInSignal := 0
  actions := fun _ => ⟨0, 0, 0, 0⟩
  signal := 0
  blocked := 0
  savedSigmask := 0
  hasSavedSigmask := false
  fpu := fun _ => 0
  mem := fun _ => 0
  waiting := none
  killed := false

end CoolPotOS
