import CoolPotOS.Task.Signal

namespace CoolPotOS

/-- A mask with neither `SIGKILL` nor `SIGSTOP`. -/
def MaskSafe (mask : BitVec 64) : Prop :=
  inMask mask sigkill = false ∧ inMask mask sigstop = false

instance (mask : BitVec 64) : Decidable (MaskSafe mask) :=
  inferInstanceAs (Decidable (_ ∧ _))

theorem inMask_eq_getLsbD (mask : BitVec 64) {sig : ℕ} (h : sig < 64) :
    inMask mask sig = mask.getLsbD sig := by
  have hbit : ∀ i, (mask &&& sigMask sig).getLsbD i = (mask.getLsbD i && decide (i = sig)) := by
    intro i
    by_cases hi : i < 64
    · simp only [sigMask, BitVec.getLsbD_and, BitVec.getLsbD_shiftLeft]
      by_cases his : i = sig
      · simp [his, h]
      · have : ¬(¬i < sig ∧ i - sig = 0) := by omega
        simp only [his]
        grind
    · rw [BitVec.getLsbD_of_ge _ _ (by omega), BitVec.getLsbD_of_ge mask _ (by omega)]
      rfl
  unfold inMask
  cases hm : mask.getLsbD sig with
  | false =>
    rw [decide_eq_false_iff_not, not_not]
    apply BitVec.eq_of_getLsbD_eq
    intro i hi
    rw [hbit]
    by_cases his : i = sig
    · rw [his, hm]
      simp
    · simp [his]
  | true =>
    rw [decide_eq_true_iff]
    intro hzero
    have hsig := hbit sig
    rw [hzero, hm] at hsig
    simp at hsig

theorem maskSafe_iff (mask : BitVec 64) :
    MaskSafe mask ↔ mask.getLsbD 9 = false ∧ mask.getLsbD 19 = false := by
  unfold MaskSafe
  rw [inMask_eq_getLsbD mask (by decide), inMask_eq_getLsbD mask (by decide)]
  rfl

section Masks

variable {mask mask' : BitVec 64}

theorem MaskSafe.or (h : MaskSafe mask) (h' : MaskSafe mask') : MaskSafe (mask ||| mask') := by
  rw [maskSafe_iff] at h h' ⊢
  simp only [BitVec.getLsbD_or, h, h', Bool.or_false, and_self]

theorem MaskSafe.and (h : MaskSafe mask) (other : BitVec 64) : MaskSafe (mask &&& other) := by
  rw [maskSafe_iff] at h ⊢
  simp only [BitVec.getLsbD_and, h, Bool.false_and, and_self]

theorem maskSafe_and_not (mask : BitVec 64) :
    MaskSafe (mask &&& ~~~(sigMask sigkill ||| sigMask sigstop)) := by
  rw [maskSafe_iff]
  have h9 : (~~~(sigMask sigkill ||| sigMask sigstop)).getLsbD 9 = false := by decide
  have h19 : (~~~(sigMask sigkill ||| sigMask sigstop)).getLsbD 19 = false := by decide
  simp only [BitVec.getLsbD_and, h9, h19, Bool.and_false, and_self]

theorem maskSafe_sigsetUserToKernel (mask : BitVec 64) : MaskSafe (sigsetUserToKernel mask) := by
  unfold sigsetUserToKernel
  rw [BitVec.and_assoc, ← BitVec.not_or]
  exact maskSafe_and_not _

end Masks

/-- The mask of the thread, and those that it will get back, are safe. -/
structure MasksSafe (t : SignalThread) : Prop where
  blocked : MaskSafe t.blocked
  saved : t.hasSavedSigmask = true → MaskSafe t.savedSigmask
  suspended : ∀ old, t.waiting = some (.sigsuspend old) → MaskSafe old
  polling : ∀ old, t.waiting = some (.epollPwait (some old)) → MaskSafe old

section Steps

variable {t t' : SignalThread}

theorem MasksSafe.congr (h : MasksSafe t) (hblocked : t'.blocked = t.blocked)
    (hhas : t'.hasSavedSigmask = t.hasSavedSigmask) (hsaved : t'.savedSigmask = t.savedSigmask)
    (hwait : t'.waiting = t.waiting) : MasksSafe t' where
  blocked := hblocked ▸ h.blocked
  saved hs := hsaved ▸ h.saved (hhas ▸ hs)
  suspended old ho := h.suspended old (hwait ▸ ho)
  polling old ho := h.polling old (hwait ▸ ho)

theorem MasksSafe.setBlocked (h : MasksSafe t) {mask : BitVec 64} (hm : MaskSafe mask) :
    MasksSafe { t with blocked := mask } :=
  ⟨hm, h.saved, h.suspended, h.polling⟩

theorem MasksSafe.ret (h : MasksSafe t) (value : BitVec 64) : MasksSafe (t.ret value) :=
  h.congr rfl rfl rfl rfl

theorem MasksSafe.archSignalSetup (h : MasksSafe t) (sig : ℕ) : MasksSafe (archSignalSetup t sig).1 := by
  unfold CoolPotOS.archSignalSetup
  dsimp only
  by_cases hh : (t.actions (sig - 1)).saHandler = 0 ∨ (t.actions (sig - 1)).saHandler = 1
  · rw [if_pos hh]
    exact h
  · rw [if_neg hh]
    exact ⟨maskSafe_and_not _, fun hs => by simp at hs, h.suspended, h.polling⟩

theorem MasksSafe.doSignalLoop (h : MasksSafe t) (sigs : List ℕ) : MasksSafe (doSignalLoop sigs t).1 := by
  induction sigs generalizing t with
  | nil => exact h
  | cons sig sigs ih =>
    have hclear : MasksSafe { t with signal := t.signal &&& ~~~sigMask sig } :=
      h.congr rfl rfl rfl rfl
    have hkill : MasksSafe { t with signal := t.signal &&& ~~~sigMask sig, killed := true } :=
      h.congr rfl rfl rfl rfl
    unfold CoolPotOS.doSignalLoop
    dsimp only
    split_ifs
    · exact ih h
    · exact ih h
    · exact hkill
    · exact ih hclear
    · split
      · exact hkill
      · exact hkill
      · exact ih hclear
      · exact ih hclear
      · exact ih hclear
    · exact hclear.archSignalSetup sig

theorem MasksSafe.restoreSavedSigmask (h : MasksSafe t) : MasksSafe (restoreSavedSigmask t) := by
  unfold CoolPotOS.restoreSavedSigmask
  split_ifs with hs
  · exact ⟨h.saved hs, fun hs' => by simp at hs', h.suspended, h.polling⟩
  · exact h

/-- The masks are safe wherever the system call has got to. -/
def CallEnd.Safe : CallEnd → Prop
  | .goesOn t => MasksSafe t
  | .returns t => MasksSafe t
  | .restored t => MasksSafe t

theorem CallEnd.Safe.finish {e : CallEnd} (h : e.Safe) : MasksSafe e.finish := by
  cases e with
  | goesOn t => exact h
  | returns t => exact (MasksSafe.doSignalLoop h _).restoreSavedSigmask
  | restored t => exact MasksSafe.restoreSavedSigmask h

theorem MasksSafe.ssetmask (h : MasksSafe t) (how : ℤ) (nset : Option (BitVec 64)) :
    MasksSafe (ssetmask t how nset) := by
  cases nset with
  | none => exact h.ret 0
  | some mask =>
    have hsafe := maskSafe_sigsetUserToKernel mask
    unfold CoolPotOS.ssetmask
    dsimp only
    split_ifs
    · exact (h.setBlocked (h.blocked.or hsafe)).ret 0
    · exact (h.setBlocked (h.blocked.and _)).ret 0
    · exact (h.setBlocked hsafe).ret 0
    · exact h.ret _

theorem MasksSafe.sigsuspend (h : MasksSafe t) (mask : Option (BitVec 64)) (size : ℕ) :
    (sigsuspend t mask size).Safe := by
  cases mask with
  | none => exact h.ret _
  | some mask =>
    have hsafe := maskSafe_sigsetUserToKernel mask
    unfold CoolPotOS.sigsuspend
    dsimp only
    split_ifs
    · exact h.ret _
    · have hsaved : MasksSafe { t with
          blocked := sigsetUserToKernel mask, savedSigmask := t.blocked, hasSavedSigmask := true } :=
        ⟨hsafe, fun _ => h.blocked, h.suspended, h.polling⟩
      exact hsaved.ret _
    · refine ⟨hsafe, h.saved, fun old ho => ?_, fun old ho => ?_⟩
      · cases ho
        exact h.blocked
      · cases ho

theorem MasksSafe.epollPwait (h : MasksSafe t) (mask : Option (BitVec 64)) (size : ℕ) :
    (epollPwait t mask size).Safe := by
  have hnone : MasksSafe { t with waiting := some (.epollPwait none) } :=
    ⟨h.blocked, h.saved, fun old ho => (by cases ho), fun old ho => (by cases ho)⟩
  cases mask with
  | none => exact hnone
  | some mask =>
    unfold CoolPotOS.epollPwait
    dsimp only
    split_ifs
    · refine ⟨maskSafe_sigsetUserToKernel mask, h.saved, fun old ho => ?_, fun old ho => ?_⟩
      · cases ho
      · cases ho
        exact h.blocked
    · exact hnone

theorem MasksSafe.resumeWait (h : MasksSafe t) (value : BitVec 64) {wait : SignalWait}
    (hwait : t.waiting = some wait) : MasksSafe (resumeWait t value wait) := by
  have hidle : ∀ mask, MaskSafe mask → MasksSafe { t with blocked := mask, waiting := none } :=
    fun mask hm => ⟨hm, h.saved, fun old ho => (by cases ho), fun old ho => (by cases ho)⟩
  cases wait with
  | sigsuspend old => exact (hidle old (h.suspended old hwait)).ret 0
  | epollPwait old =>
    cases old with
    | none => exact (hidle t.blocked h.blocked).ret value
    | some old => exact (hidle old (h.polling old hwait)).ret value

/-- A return from a handler finds a safe mask in the frame, if it finds a frame. -/
def SigretSafe (t : SignalThread) (op : SignalOp) : Prop :=
  op = .sigret →
    (loadFrame t.mem (t.syscallStackUser - signumOffset)).magic = signalFrameMagic →
    MaskSafe (loadFrame t.mem (t.syscallStackUser - signumOffset)).savedBlocked

theorem MasksSafe.archSignalSigreturn (h : MasksSafe t) (hok : SigretSafe t .sigret) :
    MasksSafe (archSignalSigreturn t) := by
  unfold CoolPotOS.archSignalSigreturn
  dsimp only
  by_cases hm : (loadFrame t.mem (t.syscallStackUser - signumOffset)).magic = signalFrameMagic
  · rw [if_neg (not_not.mpr hm)]
    have hmask := hok rfl hm
    exact ⟨hmask, h.saved, h.suspended, h.polling⟩
  · rw [if_pos hm]
    exact h.ret _

theorem MasksSafe.call (h : MasksSafe t) {op : SignalOp} {e : CallEnd} (hok : SigretSafe t op)
    (hcall : op.call t = some e) : e.Safe := by
  cases op with
  | post sig =>
    cases hcall
    unfold CallEnd.Safe
    split_ifs
    · exact h.congr rfl rfl rfl rfl
    · exact h
  | resume value =>
    obtain ⟨wait, hwait, rfl⟩ := Option.map_eq_some_iff.mp hcall
    exact h.resumeWait value hwait
  | user regs rsp fpu writes =>
    obtain ⟨-, rfl⟩ := (by simpa [SignalOp.call] using hcall : t.waiting = none ∧ _)
    exact h.congr rfl rfl rfl rfl
  | ssetmask how nset =>
    obtain ⟨-, rfl⟩ := (by simpa [SignalOp.call] using hcall : t.waiting = none ∧ _)
    exact h.ssetmask how nset
  | sigAction sig action =>
    obtain ⟨-, rfl⟩ := (by simpa [SignalOp.call] using hcall : t.waiting = none ∧ _)
    unfold CallEnd.Safe CoolPotOS.sigAction
    split_ifs
    · exact h.ret _
    · cases action <;> exact h.congr rfl rfl rfl rfl
  | signal sig handler =>
    obtain ⟨-, rfl⟩ := (by simpa [SignalOp.call] using hcall : t.waiting = none ∧ _)
    unfold CallEnd.Safe sysSignal
    split_ifs
    · exact h.ret _
    · exact h.congr rfl rfl rfl rfl
  | sigsuspend mask size =>
    obtain ⟨-, rfl⟩ := (by simpa [SignalOp.call] using hcall : t.waiting = none ∧ _)
    exact h.sigsuspend mask size
  | epollPwait mask size =>
    obtain ⟨-, rfl⟩ := (by simpa [SignalOp.call] using hcall : t.waiting = none ∧ _)
    exact h.epollPwait mask size
  | other value =>
    obtain ⟨-, rfl⟩ := (by simpa [SignalOp.call] using hcall : t.waiting = none ∧ _)
    exact h.ret value
  | sigret =>
    obtain ⟨-, rfl⟩ := (by simpa [SignalOp.call] using hcall : t.waiting = none ∧ _)
    exact h.archSignalSigreturn hok

end Steps

/-- `SIGKILL` and `SIGSTOP` are never blocked, as long as the frames that the returns from handlers
find on the stack do not hold them in their masks. -/
theorem kill_and_stop_never_blocked (t : SignalThread) (ops : List SignalOp)
    (hmask : MaskSafe t.blocked) (hprogram : t.InProgram)
    (hok : Runs.Meets signalStep SigretSafe ops t) {done : List SignalOp} {t' : SignalThread}
    (hdone : done <+: ops) (hrun : Runs.run signalStep done t = some t') :
    MaskSafe t'.blocked := by
  have hstart : MasksSafe t := by
    refine ⟨hmask, fun hs => ?_, fun old ho => ?_, fun old ho => ?_⟩
    · simp [hprogram.1] at hs
    · simp [hprogram.2] at ho
    · simp [hprogram.2] at ho
  have hend : MasksSafe t' := by
    apply Runs.run_keeps (fun s op s' h hok hstep => ?_) hstart (hok.of_isPrefix hdone) hrun
    obtain ⟨e, hcall, rfl⟩ := Option.map_eq_some_iff.mp hstep
    exact (h.call hok hcall).finish
  exact hend.blocked

/-- A program that blocks everything it may, installs a handler, gets a signal and returns from the
handler. -/
def maskCalls : List SignalOp :=
  [.ssetmask 0 (some (-1)), .ssetmask 1 (some 2), .sigAction 2 (some ⟨0x5000, 0, 0, -1⟩), .post 2,
    .other 7, .user zeroRegs (signalFrameAddr 0x2000 + 8) (fun _ => 0) [], .sigret]

/-- Where `SigretSafe` can be computed. -/
instance (t : SignalThread) (op : SignalOp) : Decidable (SigretSafe t op) :=
  match op with
  | .sigret =>
    decidable_of_iff ((loadFrame t.mem (t.syscallStackUser - signumOffset)).magic =
        signalFrameMagic →
      MaskSafe (loadFrame t.mem (t.syscallStackUser - signumOffset)).savedBlocked)
      ⟨fun h _ => h, fun h => h rfl⟩
  | .user .. | .post _ | .ssetmask .. | .sigAction .. | .signal .. | .sigsuspend ..
  | .epollPwait .. | .resume _ | .other _ => .isTrue (by intro h; cases h)

theorem kill_and_stop_never_blocked_maskCalls :
    ∃ t', Runs.run signalStep maskCalls newSignalThread = some t' ∧ MaskSafe t'.blocked := by
  obtain ⟨t', hrun⟩ := Option.isSome_iff_exists.mp
    (show (Runs.run signalStep maskCalls newSignalThread).isSome = true by decide)
  exact ⟨t', hrun, kill_and_stop_never_blocked newSignalThread maskCalls (by decide) (by decide)
    (by decide +kernel) (List.prefix_refl _) hrun⟩

/-- A frame that the program has put on its stack itself, with every signal in the mask. -/
def forgedFrame : SignalFrame :=
  { setupFrame newSignalThread 2 0x1000 with savedBlocked := -1 }

/-- The return from a handler that never ran blocks `SIGKILL` and `SIGSTOP`. -/
theorem sigreturn_blocks_sigkill :
    ∃ (t t' : SignalThread) (ops : List SignalOp), t.blocked = 0 ∧ t.InProgram ∧
      Runs.run signalStep ops t = some t' ∧ inMask t'.blocked sigkill = true ∧
      inMask t'.blocked sigstop = true := by
  refine ⟨{ newSignalThread with
      mem := ByteStore.store (fun _ => 0) 0x1000 forgedFrame.bytes, syscallStackUser := 0x1008 },
    _, [.sigret], rfl, by decide, rfl, ?_, ?_⟩ <;> decide +kernel

end CoolPotOS
