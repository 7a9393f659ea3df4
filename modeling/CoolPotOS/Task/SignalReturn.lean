import CoolPotOS.Task.Signal

namespace CoolPotOS

open ByteStore BitVec List

/-- What a program sees of itself when a system call returns. The instruction pointer and the flags
are `rcx` and `r11`. -/
structure Visible where
  regs : SyscallRegs
  rsp : BitVec 64
  callInSignal : BitVec 64
  blocked : BitVec 64
  fpu : Fin 512 → BitVec 8

def SignalThread.visible (t : SignalThread) : Visible :=
  ⟨t.regs, t.syscallStackUser, t.callInSignal, t.blocked, t.fpu⟩

/-- A handler that has not returned: its frame, the stack pointer at the outermost delivery, and
what the program would have seen without the delivery. -/
structure Delivery where
  base : BitVec 64
  top : BitVec 64
  before : Visible

/-- A thread with its deliveries, the innermost first. -/
structure SignalRun where
  thread : SignalThread
  live : List Delivery

/-- The stack pointer at the outermost of the deliveries, if there is one already. -/
def liveTop (live : List Delivery) (rsp : BitVec 64) : BitVec 64 :=
  match live with
  | [] => rsp
  | d :: _ => d.top

/-- A system call returns in a state `t`, and a handler may be set up. Without it the call would
have returned with what `restore_saved_sigmask` makes of `t`. -/
def deliveries (t : SignalThread) (live : List Delivery) : List Delivery :=
  if (doSignal t).2 then
    ⟨(doSignal t).1.syscallStackUser, liveTop live t.syscallStackUser,
      (restoreSavedSigmask t).visible⟩ :: live
  else live

def SignalRun.step (x : SignalRun) (op : SignalOp) : Option SignalRun :=
  (op.call x.thread).map fun e =>
    match e with
    | .goesOn _ => ⟨e.finish, x.live⟩
    | .returns t => ⟨e.finish, deliveries t x.live⟩
    | .restored _ => ⟨e.finish, x.live.tail⟩

def InFrame (base a : BitVec 64) : Prop := (a - base).toNat < signalFrameBytes

instance (base a : BitVec 64) : Decidable (InFrame base a) := inferInstanceAs (Decidable (_ < _))

/-- The stack reaches from the outermost delivery down to `rsp`, below the innermost frame, and has
room for one more frame before it has come around the whole address space. -/
def StackRoom (d : Delivery) (rsp : BitVec 64) : Prop :=
  (d.top - d.base).toNat + (d.base - rsp).toNat + signalFrameSize + 15 < 2 ^ 64

instance (d : Delivery) (rsp : BitVec 64) : Decidable (StackRoom d rsp) :=
  inferInstanceAs (Decidable (_ < _))

/-- The program leaves the frames intact, and its handlers return through the return address of
their frames. -/
def Behaves (x : SignalRun) : SignalOp → Prop
  | .user _ _ _ writes => ∀ d ∈ x.live, ∀ w ∈ writes, ¬InFrame d.base w.1
  | .post _ => True
  | .sigret => ∃ d ∈ x.live.head?, x.thread.syscallStackUser = d.base + signumOffset
  | _ => ∀ d ∈ x.live.head?, StackRoom d x.thread.syscallStackUser

theorem toNat_sub_trans {a b c : BitVec 64} (h : (a - b).toNat + (b - c).toNat < 2 ^ 64) :
    (a - c).toNat = (a - b).toNat + (b - c).toNat := by
  rw [← sub_add_sub_cancel a b c, toNat_add, Nat.mod_eq_of_lt h]

theorem signalFrameAddr_sub (rsp : BitVec 64) : signalFrameSize ≤ (rsp - signalFrameAddr rsp).toNat ∧
      (rsp - signalFrameAddr rsp).toNat ≤ signalFrameSize + 15 := by
  have hsplit : ∀ x : BitVec 64, (x &&& ~~~0xF) + (x &&& 0xF) = x := by
    intro x
    rw [add_eq_or_of_and_eq_zero]
    · apply eq_of_getLsbD_eq
      intro i hi
      simp only [getLsbD_or, getLsbD_and, getLsbD_not, hi]
      grind
    · apply eq_of_getLsbD_eq
      intro i hi
      simp only [getLsbD_and, getLsbD_not, hi]
      grind
  have hlow : ((rsp - BitVec.ofNat 64 signalFrameSize) &&& 0xF).toNat ≤ 15 := by
    rw [toNat_and]
    exact Nat.and_le_right
  have hsub : rsp - signalFrameAddr rsp =
      BitVec.ofNat 64 signalFrameSize + ((rsp - BitVec.ofNat 64 signalFrameSize) &&& 0xF) := by
    have h := hsplit (rsp - BitVec.ofNat 64 signalFrameSize)
    unfold signalFrameAddr
    rw [sub_eq_iff_eq_add, add_assoc, add_comm (_ &&& 0xF) (_ &&& ~~~0xF), h]
    ring
  rw [hsub, toNat_add, toNat_ofNat]
  unfold signalFrameSize at *
  omega

/-- What `arch_signal_sigreturn` makes of a frame. -/
def SignalFrame.visible (f : SignalFrame) : Visible where
  regs :=
    { r15 := f.r15, r14 := f.r14, r13 := f.r13, r12 := f.r12, r11 := f.rflags, r10 := f.r10,
      r9 := f.r9, r8 := f.r8, rbx := f.rbx, rcx := f.rip, rdx := f.rdx, rsi := f.rsi,
      rdi := f.rdi, rbp := f.rbp, rax := f.rax }
  rsp := f.rsp
  callInSignal := f.savedCallInSignal
  blocked := f.savedBlocked
  fpu := f.fpuState

theorem visible_setupFrame (t : SignalThread) (sig : ℕ) (addr : BitVec 64) :
    (setupFrame t sig addr).visible = (restoreSavedSigmask t).visible := by
  unfold restoreSavedSigmask
  cases hs : t.hasSavedSigmask <;>
    simp [SignalFrame.visible, setupFrame, SignalThread.visible, hs]

/-- A handler is set up in `t`: its frame is right below the stack pointer. -/
structure SetUp (t t' : SignalThread) (f : SignalFrame) : Prop where
  magic : f.magic = signalFrameMagic
  visible : f.visible = (restoreSavedSigmask t).visible
  mem : t'.mem = store t.mem (signalFrameAddr t.syscallStackUser) f.bytes
  rsp : t'.syscallStackUser = signalFrameAddr t.syscallStackUser
  saved : t'.hasSavedSigmask = false

theorem archSignalSetup_cases (t : SignalThread) (sig : ℕ) : archSignalSetup t sig = (t, false) ∨
      (archSignalSetup t sig).2 = true ∧ ∃ f, SetUp t (archSignalSetup t sig).1 f := by
  unfold archSignalSetup
  dsimp only
  by_cases hh : (t.actions (sig - 1)).saHandler = 0 ∨ (t.actions (sig - 1)).saHandler = 1
  · rw [if_pos hh]
    exact .inl rfl
  · rw [if_neg hh]
    exact .inr ⟨rfl, _, rfl, visible_setupFrame t sig _, rfl, rfl, rfl⟩

/-- Only the pending signals have changed, and perhaps the process has been killed. -/
structure SameProgram (t t' : SignalThread) : Prop where
  visible : t'.visible = t.visible
  mem : t'.mem = t.mem
  has : t'.hasSavedSigmask = t.hasSavedSigmask
  saved : t'.savedSigmask = t.savedSigmask

theorem SameProgram.refl (t : SignalThread) : SameProgram t t := ⟨rfl, rfl, rfl, rfl⟩

variable {t t' : SignalThread} {live : List Delivery} {x : SignalRun} {op : SignalOp}

theorem SameProgram.trans {t1 t2 : SignalThread} (h : SameProgram t t1) (h' : SameProgram t1 t2) :
    SameProgram t t2 :=
  ⟨h'.visible.trans h.visible, h'.mem.trans h.mem, h'.has.trans h.has, h'.saved.trans h.saved⟩

theorem SameProgram.restore (h : SameProgram t t') :
    (restoreSavedSigmask t').visible = (restoreSavedSigmask t).visible := by
  have hv := h.visible
  unfold restoreSavedSigmask
  rw [h.has]
  cases t.hasSavedSigmask with
  | false => exact hv
  | true =>
    simp only [SignalThread.visible, Visible.mk.injEq] at hv
    simp [SignalThread.visible, hv, h.saved]

theorem SetUp.of_same {t1 : SignalThread} {f : SignalFrame} (h : SameProgram t t1) (hs : SetUp t1 t' f) :
    SetUp t t' f := by
  have hrsp : t1.syscallStackUser = t.syscallStackUser := congrArg Visible.rsp h.visible
  refine ⟨hs.magic, hs.visible.trans h.restore, ?_, ?_, hs.saved⟩
  · rw [hs.mem, h.mem, hrsp]
  · rw [hs.rsp, hrsp]

theorem doSignalLoop_cases (sigs : List ℕ) (t : SignalThread) :
    (doSignalLoop sigs t).2 = false ∧ SameProgram t (doSignalLoop sigs t).1 ∨
      (doSignalLoop sigs t).2 = true ∧ ∃ f, SetUp t (doSignalLoop sigs t).1 f := by
  induction sigs generalizing t with
  | nil => exact .inl ⟨rfl, .refl t⟩
  | cons sig sigs ih =>
    have hclear : SameProgram t { t with signal := t.signal &&& ~~~sigMask sig } :=
      ⟨rfl, rfl, rfl, rfl⟩
    have hkill : SameProgram t
        { t with signal := t.signal &&& ~~~sigMask sig, killed := true } := ⟨rfl, rfl, rfl, rfl⟩
    have hgo := ih { t with signal := t.signal &&& ~~~sigMask sig }
    have hcont : (doSignalLoop sigs { t with signal := t.signal &&& ~~~sigMask sig }).2 = false ∧
        SameProgram t (doSignalLoop sigs { t with signal := t.signal &&& ~~~sigMask sig }).1 ∨
      (doSignalLoop sigs { t with signal := t.signal &&& ~~~sigMask sig }).2 = true ∧
        ∃ f, SetUp t (doSignalLoop sigs { t with signal := t.signal &&& ~~~sigMask sig }).1 f := by
      rcases hgo with ⟨hf, hsame⟩ | ⟨ht, f, hset⟩
      · exact .inl ⟨hf, hclear.trans hsame⟩
      · exact .inr ⟨ht, f, hset.of_same hclear⟩
    unfold doSignalLoop
    dsimp only
    split_ifs
    · exact ih t
    · exact ih t
    · exact .inl ⟨rfl, hkill⟩
    · exact hcont
    · split
      · exact .inl ⟨rfl, hkill⟩
      · exact .inl ⟨rfl, hkill⟩
      · exact hcont
      · exact hcont
      · exact hcont
    · rcases archSignalSetup_cases { t with signal := t.signal &&& ~~~sigMask sig } sig with
        hsame | ⟨ht, f, hset⟩
      · rw [hsame]
        exact .inl ⟨rfl, hclear⟩
      · exact .inr ⟨ht, f, hset.of_same hclear⟩

def FramesApart (base base' : BitVec 64) : Prop := ∀ a, ¬(InFrame base a ∧ InFrame base' a)

/-- The frames lie one below the other, and all of them below the stack pointer of the outermost
delivery. -/
def Stacked : List Delivery → Prop
  | [] => True
  | d :: live =>
    (∀ e ∈ d :: live, (e.base - d.base).toNat + signalFrameSize ≤ (d.top - d.base).toNat) ∧
      (∀ e ∈ live, FramesApart d.base e.base) ∧ Stacked live

theorem Stacked.pairwise (h : Stacked live) : live.Pairwise fun d e => FramesApart d.base e.base := by
  induction live with
  | nil => exact List.Pairwise.nil
  | cons d live ih => exact List.Pairwise.cons h.2.1 (ih h.2.2)

theorem Stacked.tail (h : Stacked live) : Stacked live.tail := by
  cases live with
  | nil => trivial
  | cons d live => exact h.2.2

theorem Stacked.push {d : Delivery} (h : Stacked (d :: live)) {rsp : BitVec 64} (hroom : StackRoom d rsp)
    (before : Visible) : Stacked (⟨signalFrameAddr rsp, d.top, before⟩ :: d :: live) := by
  obtain ⟨hlow, hhigh⟩ := signalFrameAddr_sub rsp
  unfold StackRoom at hroom
  have hbase : (d.base - signalFrameAddr rsp).toNat =
      (d.base - rsp).toNat + (rsp - signalFrameAddr rsp).toNat := toNat_sub_trans (by omega)
  have htop : (d.top - signalFrameAddr rsp).toNat =
      (d.top - d.base).toNat + (d.base - signalFrameAddr rsp).toNat := toNat_sub_trans (by omega)
  have hpos : ∀ e ∈ d :: live, (e.base - signalFrameAddr rsp).toNat =
      (e.base - d.base).toNat + (d.base - signalFrameAddr rsp).toNat := by
    intro e he
    have := h.1 e he
    exact toNat_sub_trans (by omega)
  refine ⟨?_, ?_, h⟩
  · intro e he
    rcases mem_cons.mp he with rfl | he
    · simp only [BitVec.sub_self, toNat_zero]
      omega
    · have := h.1 e he
      have := hpos e he
      dsimp only
      omega
  · intro e he a ⟨hnew, hold⟩
    have := h.1 e he
    have := hpos e he
    unfold InFrame at hnew hold
    -- An address of an old frame is at least as far above the new frame as the old frame itself.
    have hfar : (a - signalFrameAddr rsp).toNat =
        (a - e.base).toNat + (e.base - signalFrameAddr rsp).toNat := by
      apply toNat_sub_trans
      unfold signalFrameSize signalFrameBytes at *
      omega
    dsimp only at hnew
    unfold signalFrameSize signalFrameBytes at *
    omega

theorem stacked_first (rsp : BitVec 64) (before : Visible) :
    Stacked [⟨signalFrameAddr rsp, rsp, before⟩] := by
  obtain ⟨hlow, -⟩ := signalFrameAddr_sub rsp
  refine ⟨?_, by simp, trivial⟩
  intro e he
  rw [mem_singleton.mp he]
  simp only [BitVec.sub_self, toNat_zero]
  omega

/-- What holds between the steps of a program that behaves. -/
structure LiveOk (x : SignalRun) : Prop where
  program : x.thread.hasSavedSigmask = false
  magic : ∀ d ∈ x.live, (loadFrame x.thread.mem d.base).magic = signalFrameMagic
  visible : ∀ d ∈ x.live, (loadFrame x.thread.mem d.base).visible = d.before
  stacked : Stacked x.live

theorem loadFrame_congr {mem mem' : BitVec 64 → BitVec 8} {base : BitVec 64}
    (h : ∀ a, InFrame base a → mem' a = mem a) : loadFrame mem' base = loadFrame mem base := by
  unfold loadFrame
  rw [load_congr h (by decide)]

theorem LiveOk.of_mem {x' : SignalRun} (h : LiveOk x) (hprogram : x'.thread.hasSavedSigmask = false)
    (hmem : ∀ d ∈ x'.live, ∀ a, InFrame d.base a → x'.thread.mem a = x.thread.mem a)
    (hlive : ∀ d ∈ x'.live, d ∈ x.live) (hstacked : Stacked x'.live) : LiveOk x' where
  program := hprogram
  magic d hd := by
    rw [loadFrame_congr (hmem d hd)]
    exact h.magic d (hlive d hd)
  visible d hd := by
    rw [loadFrame_congr (hmem d hd)]
    exact h.visible d (hlive d hd)
  stacked := hstacked

theorem restoreSavedSigmask_mem (t : SignalThread) : (restoreSavedSigmask t).mem = t.mem := by
  unfold restoreSavedSigmask
  split_ifs <;> rfl

theorem restoreSavedSigmask_has (t : SignalThread) : (restoreSavedSigmask t).hasSavedSigmask = false := by
  unfold restoreSavedSigmask
  split_ifs with h
  · rfl
  · simpa using h

theorem restoreSavedSigmask_of_false (h : t.hasSavedSigmask = false) : restoreSavedSigmask t = t := by
  unfold restoreSavedSigmask
  rw [if_neg (by simp [h])]

theorem LiveOk.returns (h : LiveOk x) (hmem : t.mem = x.thread.mem)
    (hroom : ∀ d ∈ x.live.head?, StackRoom d t.syscallStackUser) :
    LiveOk ⟨(CallEnd.returns t).finish, deliveries t x.live⟩ := by
  rcases doSignalLoop_cases (range' 1 32) t with ⟨hf, hsame⟩ | ⟨ht, f, hset⟩
  · have hlive : deliveries t x.live = x.live := if_neg (by simp [doSignal, hf])
    rw [hlive]
    refine h.of_mem (restoreSavedSigmask_has _) (fun d _ a _ => ?_) (fun d hd => hd) h.stacked
    dsimp only [CallEnd.finish]
    rw [restoreSavedSigmask_mem]
    exact congrFun (hsame.mem.trans hmem) a
  · have hlive : deliveries t x.live = ⟨signalFrameAddr t.syscallStackUser,
        liveTop x.live t.syscallStackUser, (restoreSavedSigmask t).visible⟩ :: x.live := by
      unfold deliveries
      rw [if_pos (by exact ht), ← hset.rsp]
      rfl
    have hstacked : Stacked (deliveries t x.live) := by
      have hs := h.stacked
      rw [hlive]
      cases hx : x.live with
      | nil => exact stacked_first _ _
      | cons d live =>
        rw [hx] at hs hroom
        exact hs.push (hroom d rfl) _
    have hfin : (CallEnd.returns t).finish.mem =
        store x.thread.mem (signalFrameAddr t.syscallStackUser) f.bytes := by
      dsimp only [CallEnd.finish]
      rw [restoreSavedSigmask_mem]
      exact hset.mem.trans (by rw [hmem])
    have hframe : loadFrame (CallEnd.returns t).finish.mem (signalFrameAddr t.syscallStackUser) =
        f := by
      rw [hfin, loadFrame_store]
    -- The older frames are out of the way of the new one.
    have hold : ∀ d ∈ x.live, loadFrame (CallEnd.returns t).finish.mem d.base =
        loadFrame x.thread.mem d.base := by
      intro d hd
      apply loadFrame_congr
      intro a ha
      rw [hfin]
      apply store_of_le
      rw [f.length_bytes]
      rw [hlive] at hstacked
      exact not_lt.mp fun hnew => hstacked.2.1 d hd a ⟨hnew, ha⟩
    refine ⟨restoreSavedSigmask_has _, ?_, ?_, hstacked⟩
    · rw [hlive]
      intro d hd
      rcases mem_cons.mp hd with rfl | hd
      · dsimp only
        rw [hframe]
        exact hset.magic
      · dsimp only
        rw [hold d hd]
        exact h.magic d hd
    · rw [hlive]
      intro d hd
      rcases mem_cons.mp hd with rfl | hd
      · dsimp only
        rw [hframe]
        exact hset.visible
      · dsimp only
        rw [hold d hd]
        exact h.visible d hd

theorem LiveOk.sigreturn (h : LiveOk x) {d : Delivery} (hlive : x.live = d :: live)
    (hrsp : x.thread.syscallStackUser = d.base + signumOffset) :
    (archSignalSigreturn x.thread).visible = d.before ∧ (archSignalSigreturn x.thread).mem = x.thread.mem ∧
      (archSignalSigreturn x.thread).hasSavedSigmask = false := by
  have hd : d ∈ x.live := hlive ▸ mem_cons_self
  have haddr : x.thread.syscallStackUser - signumOffset = d.base := by
    rw [hrsp, add_sub_cancel_right]
  have hmagic := h.magic d hd
  have hvisible := h.visible d hd
  unfold archSignalSigreturn
  rw [haddr]
  generalize loadFrame x.thread.mem d.base = f at hmagic hvisible ⊢
  dsimp only
  rw [if_neg (not_not.mpr hmagic)]
  exact ⟨hvisible, rfl, h.program⟩

theorem foldl_update_of_notMem {mem : BitVec 64 → BitVec 8} {a : BitVec 64}
    {writes : List (BitVec 64 × BitVec 8)} (h : ∀ w ∈ writes, w.1 ≠ a) :
    writes.foldl (fun mem w => Function.update mem w.1 w.2) mem a = mem a := by
  induction writes generalizing mem with
  | nil => rfl
  | cons w writes ih =>
    rw [foldl_cons, ih fun v hv => h v (mem_cons_of_mem w hv),
      Function.update_of_ne (h w mem_cons_self).symm]

theorem call_returns (h : op.call t = some (.returns t')) :
    t'.mem = t.mem ∧ t'.syscallStackUser = t.syscallStackUser := by
  cases op with
  | post sig => simp [SignalOp.call] at h
  | resume value =>
    obtain ⟨wait, -, hwait⟩ := Option.map_eq_some_iff.mp h
    obtain rfl := CallEnd.returns.inj hwait
    cases wait with
    | sigsuspend old => exact ⟨rfl, rfl⟩
    | epollPwait old => cases old <;> exact ⟨rfl, rfl⟩
  | user regs rsp fpu writes => simp [SignalOp.call] at h
  | ssetmask how nset =>
    obtain ⟨-, rfl⟩ := (by simpa [SignalOp.call] using h : t.waiting = none ∧ _)
    unfold CoolPotOS.ssetmask
    cases nset with
    | none => exact ⟨rfl, rfl⟩
    | some mask =>
      dsimp only
      split_ifs <;> exact ⟨rfl, rfl⟩
  | sigAction sig action =>
    obtain ⟨-, rfl⟩ := (by simpa [SignalOp.call] using h : t.waiting = none ∧ _)
    unfold CoolPotOS.sigAction
    split_ifs
    · exact ⟨rfl, rfl⟩
    · cases action <;> exact ⟨rfl, rfl⟩
  | signal sig handler =>
    obtain ⟨-, rfl⟩ := (by simpa [SignalOp.call] using h : t.waiting = none ∧ _)
    unfold sysSignal
    split_ifs <;> exact ⟨rfl, rfl⟩
  | sigsuspend mask size =>
    obtain ⟨-, hs⟩ := (by simpa [SignalOp.call] using h : t.waiting = none ∧ _)
    unfold CoolPotOS.sigsuspend at hs
    cases mask with
    | none =>
      obtain rfl := CallEnd.returns.inj hs
      exact ⟨rfl, rfl⟩
    | some mask =>
      dsimp only at hs
      split_ifs at hs <;> obtain rfl := CallEnd.returns.inj hs <;> exact ⟨rfl, rfl⟩
  | epollPwait mask size =>
    obtain ⟨-, hs⟩ := (by simpa [SignalOp.call] using h : t.waiting = none ∧ _)
    unfold CoolPotOS.epollPwait at hs
    cases mask with
    | none => cases hs
    | some mask =>
      dsimp only at hs
      split_ifs at hs
  | other value =>
    obtain ⟨-, rfl⟩ := (by simpa [SignalOp.call] using h : t.waiting = none ∧ _)
    exact ⟨rfl, rfl⟩
  | sigret => simp [SignalOp.call] at h

theorem call_goesOn (h : op.call t = some (.goesOn t')) : t'.hasSavedSigmask = t.hasSavedSigmask ∧
      (t'.mem = t.mem ∨ ∃ regs rsp fpu writes, op = .user regs rsp fpu writes ∧
        t'.mem = writes.foldl (fun mem w => Function.update mem w.1 w.2) t.mem) := by
  cases op with
  | post sig =>
    obtain rfl := CallEnd.goesOn.inj (Option.some.inj h)
    split_ifs <;> exact ⟨rfl, .inl rfl⟩
  | resume value =>
    obtain ⟨wait, -, hwait⟩ := Option.map_eq_some_iff.mp h
    cases hwait
  | user regs rsp fpu writes =>
    obtain ⟨-, rfl⟩ := (by simpa [SignalOp.call] using h : t.waiting = none ∧ _)
    exact ⟨rfl, .inr ⟨regs, rsp, fpu, writes, rfl, rfl⟩⟩
  | ssetmask how nset => simp [SignalOp.call] at h
  | sigAction sig action => simp [SignalOp.call] at h
  | signal sig handler => simp [SignalOp.call] at h
  | sigsuspend mask size =>
    obtain ⟨-, hs⟩ := (by simpa [SignalOp.call] using h : t.waiting = none ∧ _)
    unfold CoolPotOS.sigsuspend at hs
    cases mask with
    | none => cases hs
    | some mask =>
      dsimp only at hs
      split_ifs at hs
      obtain rfl := CallEnd.goesOn.inj hs
      exact ⟨rfl, .inl rfl⟩
  | epollPwait mask size =>
    obtain ⟨-, hs⟩ := (by simpa [SignalOp.call] using h : t.waiting = none ∧ _)
    unfold CoolPotOS.epollPwait at hs
    cases mask with
    | none =>
      obtain rfl := CallEnd.goesOn.inj hs
      exact ⟨rfl, .inl rfl⟩
    | some mask =>
      dsimp only at hs
      split_ifs at hs <;> obtain rfl := CallEnd.goesOn.inj hs <;> exact ⟨rfl, .inl rfl⟩
  | other value => simp [SignalOp.call] at h
  | sigret => simp [SignalOp.call] at h

theorem call_restored (h : op.call t = some (.restored t')) : op = .sigret ∧ t' = archSignalSigreturn t := by
  cases op with
  | sigret =>
    obtain ⟨-, rfl⟩ := (by simpa [SignalOp.call] using h : t.waiting = none ∧ _)
    exact ⟨rfl, rfl⟩
  | resume value =>
    obtain ⟨wait, -, hwait⟩ := Option.map_eq_some_iff.mp h
    cases hwait
  | sigsuspend mask size =>
    obtain ⟨-, hs⟩ := (by simpa [SignalOp.call] using h : t.waiting = none ∧ _)
    unfold CoolPotOS.sigsuspend at hs
    cases mask with
    | none => cases hs
    | some mask =>
      dsimp only at hs
      split_ifs at hs
  | epollPwait mask size =>
    obtain ⟨-, hs⟩ := (by simpa [SignalOp.call] using h : t.waiting = none ∧ _)
    unfold CoolPotOS.epollPwait at hs
    cases mask with
    | none => cases hs
    | some mask =>
      dsimp only at hs
      split_ifs at hs
  | user | post | ssetmask | sigAction | signal | other => simp [SignalOp.call] at h

theorem Behaves.room (h : Behaves x op) (hcall : op.call x.thread = some (.returns t)) :
    ∀ d ∈ x.live.head?, StackRoom d x.thread.syscallStackUser := by
  cases op with
  | user | post | sigret => simp [SignalOp.call] at hcall
  | ssetmask | sigAction | signal | sigsuspend | epollPwait | resume | other => exact h

theorem LiveOk.step {x' : SignalRun} (h : LiveOk x) (hok : Behaves x op) (hstep : x.step op = some x') :
    LiveOk x' := by
  obtain ⟨e, hcall, rfl⟩ := Option.map_eq_some_iff.mp hstep
  cases e with
  | goesOn t =>
    obtain ⟨hhas, hmem⟩ := call_goesOn hcall
    refine h.of_mem (hhas.trans h.program) ?_ (fun d hd => hd) h.stacked
    intro d hd a ha
    rcases hmem with hmem | ⟨regs, rsp, fpu, writes, rfl, hmem⟩
    · exact congrFun hmem a
    · refine (congrFun hmem a).trans (foldl_update_of_notMem ?_)
      intro w hw heq
      exact hok d hd w hw (heq ▸ ha)
  | returns t =>
    obtain ⟨hmem, hrsp⟩ := call_returns hcall
    have hroom := hok.room hcall
    rw [← hrsp] at hroom
    exact h.returns hmem hroom
  | restored t =>
    obtain ⟨hop, ht⟩ := call_restored hcall
    subst hop
    obtain ⟨d, hd, hrsp⟩ := hok
    obtain ⟨live, hlive⟩ : ∃ live, x.live = d :: live := by
      cases hx : x.live with
      | nil => simp [hx] at hd
      | cons e live =>
        rw [hx] at hd
        obtain rfl := Option.some.inj hd
        exact ⟨live, rfl⟩
    obtain ⟨-, hmem, hhas⟩ := h.sigreturn hlive hrsp
    refine h.of_mem (restoreSavedSigmask_has _) (fun d _ a _ => ?_) (fun d hd => ?_) h.stacked.tail
    · dsimp only [CallEnd.finish]
      rw [restoreSavedSigmask_mem, ht, hmem]
    · exact mem_of_mem_tail hd

/-- Signal delivery is transparent: in every run of a program that behaves, the frames of the
handlers under way do not overlap, and a return from a handler gives the program back all its
registers, its stack pointer and its mask as they would have been without the delivery. -/
theorem signal_delivery_transparent (t : SignalThread) (ops : List SignalOp)
    (hprogram : t.InProgram) (hok : Runs.Meets SignalRun.step Behaves ops ⟨t, []⟩)
    {done : List SignalOp} {x : SignalRun} (hdone : done <+: ops)
    (hrun : Runs.run SignalRun.step done ⟨t, []⟩ = some x) :
    (x.live.Pairwise fun d e => FramesApart d.base e.base) ∧
      (done ++ [.sigret] <+: ops → ∀ x' ∈ x.step .sigret,
        ∃ d, x.live = d :: x'.live ∧ x'.thread.visible = d.before) := by
  have hstart : LiveOk ⟨t, []⟩ := ⟨hprogram.1, by simp, by simp, trivial⟩
  have hx : LiveOk x := by
    apply Runs.run_keeps (fun x op x' h hok hstep => h.step hok hstep) hstart
      (hok.of_isPrefix hdone) hrun
  refine ⟨hx.stacked.pairwise, ?_⟩
  intro hret x' hstep
  obtain ⟨d, hd, hrsp⟩ : ∃ d ∈ x.live.head?, x.thread.syscallStackUser = d.base + signumOffset :=
    (hok.of_isPrefix hret).last hrun
  obtain ⟨e, hcall, rfl⟩ := Option.map_eq_some_iff.mp hstep
  cases hx' : x.live with
  | nil => simp [hx'] at hd
  | cons d' live =>
    rw [hx'] at hd
    obtain rfl := Option.some.inj hd
    obtain ⟨hvisible, -, hhas⟩ := hx.sigreturn hx' hrsp
    obtain ⟨-, rfl⟩ := (by simpa [SignalOp.call] using hcall : x.thread.waiting = none ∧ _)
    refine ⟨d', rfl, ?_⟩
    dsimp only [CallEnd.finish]
    rw [restoreSavedSigmask_of_false hhas]
    exact hvisible

instance (x : SignalRun) (op : SignalOp) : Decidable (Behaves x op) :=
  match op with
  | .user _ _ _ writes =>
    -- Through the lists, and not through all addresses.
    have := fun d : Delivery =>
      List.decidableBAll (fun w : BitVec 64 × BitVec 8 => ¬InFrame d.base w.1) writes
    List.decidableBAll (fun d : Delivery => ∀ w ∈ writes, ¬InFrame d.base w.1) x.live
  | .post _ => .isTrue trivial
  | .sigret =>
    inferInstanceAs (Decidable (∃ d ∈ x.live.head?, x.thread.syscallStackUser = d.base + signumOffset))
  | .ssetmask .. | .sigAction .. | .signal .. | .sigsuspend .. | .epollPwait .. | .resume _
  | .other _ => inferInstanceAs (Decidable (∀ d ∈ x.live.head?, StackRoom d x.thread.syscallStackUser))

/-- A handler is interrupted by another signal, and both return. -/
def nestedSignals : List SignalOp :=
  let base := signalFrameAddr 0x2000
  let base' := signalFrameAddr (base - 0x40)
  [.sigAction 2 (some ⟨0x5000, 0, 0, 0⟩), .sigAction 3 (some ⟨0x6000, saRestorer, 0x7000, -1⟩),
    .post 2, .other 7, .user zeroRegs (base - 0x40) (fun _ => 1) [(base - 8, 0xff)], .post 3,
    .other 1, .user zeroRegs (base' + 8) (fun _ => 2) [], .sigret,
    .user zeroRegs (base + 8) (fun _ => 3) [(0x2000, 1)]]

theorem signal_delivery_transparent_nested :
    ∃ x x', Runs.run SignalRun.step nestedSignals ⟨newSignalThread, []⟩ = some x ∧
      x.step .sigret = some x' ∧ ∃ d, x.live = d :: x'.live ∧ x'.thread.visible = d.before := by
  obtain ⟨x, hrun⟩ := Option.isSome_iff_exists.mp
    (show (Runs.run SignalRun.step nestedSignals ⟨newSignalThread, []⟩).isSome = true by
      decide +kernel)
  have hwait : ∀ x ∈ Runs.run SignalRun.step nestedSignals ⟨newSignalThread, []⟩,
      (x.step .sigret).isSome = true := by decide +kernel
  obtain ⟨x', hstep⟩ := Option.isSome_iff_exists.mp (hwait x hrun)
  refine ⟨x, x', hrun, hstep, ?_⟩
  exact (signal_delivery_transparent newSignalThread (nestedSignals ++ [.sigret]) (by decide)
    (by decide +kernel) (List.prefix_append _ _) hrun).2 (List.prefix_refl _) x' hstep

end CoolPotOS
