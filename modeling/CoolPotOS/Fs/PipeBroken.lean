import CoolPotOS.Fs.PipeFds

namespace CoolPotOS

/-- What `sys_write` returns for a value of `pipefs_write`, where `-1` is error 1. -/
def sysWriteRet (size : ℕ) (ret : PipeRet) : PipeRet :=
  if size = 0 then .count 0
  else if ret = .error codeEpipe then .error codeEpipe
  else if ret = .error codeEwouldblock then .error codeEwouldblock
  else if ret = .error 1 then .error codeEio
  else ret

/-- There is no room for the next piece, as `pipe_write_inner` tests it. -/
def PipeInfo.tooFull (pipe : PipeInfo) (size : ℕ) (atomic : Bool) : Bool :=
  !decide (pipeBuff - pipe.ptr > 0 ∧ (¬ atomic ∨ pipeBuff - pipe.ptr ≥ size))

/-- A write that has returned `ret`: the bytes that it has stored in the pipe, the descriptors of the read
end, and whether the pipe was too full for what it had still to write. -/
structure PipeWriteReport where
  size : ℕ
  ret : PipeRet
  stored : ℕ
  readers : ℕ
  tooFull : Bool
  deriving DecidableEq

/-- Without a reader the write fails with `EPIPE`, or it reports what it has stored, and `sys_write`
passes this on. `EWOULDBLOCK` says that there is a reader and the pipe is too full. -/
def PipeWriteReport.Right (r : PipeWriteReport) : Prop :=
  (r.readers = 0 → r.ret = (if r.stored = 0 then .error codeEpipe else .count r.stored) ∧
    sysWriteRet r.size r.ret = r.ret) ∧
  (r.ret = .error codeEwouldblock ∨ sysWriteRet r.size r.ret = .error codeEwouldblock →
    r.readers ≠ 0 ∧ r.tooFull = true)

/-- The report of a write with number `id` that returns in a step from `x` to `x'`. -/
def PipeState.writeReport (x x' : PipeState) (id : ℕ) (data : List UInt8) (written : ℕ)
    (ret : PipeRet) : PipeWriteReport where
  size := data.length
  ret := ret
  stored := (pieces x'.accepted id).length
  readers := x.info.readFds
  tooFull := x.info.tooFull (data.length - written) (data.length ≤ pipeAtomicMax)

/-- The write that returns in a step. One of no bytes never enters the loop. -/
def PipeState.writeReturned (x x' : PipeState) : PipeOp → Option PipeWriteReport
  | .beginWrite _ data _ =>
    if data = [] then some (x.writeReport x' x.writes.length data 0 (pipeWriteEnd 0)) else none
  | .pass thread _ =>
    match x.calls thread with
    | .writing id data written nonblock =>
      (pipeWriteRet x.info data written nonblock).map (x.writeReport x' id data written)
    | _ => none
  | .interrupt thread =>
    match x.calls thread with
    | .writing id data written _ => some (x.writeReport x' id data written (pipeWriteEnd written))
    | _ => none
  | _ => none

structure PipeWrites where
  pipe : PipeState
  reports : List PipeWriteReport

def PipeWrites.new : PipeWrites := ⟨.new, []⟩

def PipeWrites.step (s : PipeWrites) (op : PipeOp) : Option PipeWrites :=
  (s.pipe.step op).map fun x => ⟨x, s.reports ++ (s.pipe.writeReturned x op).toList⟩

def PipeCall.unstoredData : PipeCall → Option (List UInt8)
  | .writing _ data written _ => if written = 0 then some data else none
  | _ => none

/-- There is a reader and no room for the first piece of the data. -/
def PipeInfo.Refuses (pipe : PipeInfo) (data : List UInt8) : Prop :=
  pipe.readFds ≠ 0 ∧ pipe.tooFull data.length (data.length ≤ pipeAtomicMax) = true

instance PipeInfo.decidableRefuses (pipe : PipeInfo) (data : List UInt8) :
    Decidable (pipe.Refuses data) := inferInstanceAs (Decidable (_ ∧ _))

/-- The steps after which the right value is returned: no write that has stored nothing makes a pass
without a reader, or is interrupted, or asks for no bytes, without a reader or with room in the pipe. -/
def PipeOp.Answered (x : PipeState) : PipeOp → Prop
  | .beginWrite _ data _ => data = [] → x.info.Refuses data
  | .pass thread _ => (x.calls thread).unstored = true → x.info.readFds ≠ 0
  | .interrupt thread => ∀ data ∈ (x.calls thread).unstoredData, x.info.Refuses data
  | .beginRead _ _ | .leave _ | .close _ | .dup _ => True

instance PipeOp.decidableAnswered (x : PipeState) : ∀ op : PipeOp, Decidable (op.Answered x)
  | .beginWrite _ _ _ => inferInstanceAs (Decidable (_ → _))
  | .pass _ _ => inferInstanceAs (Decidable (_ → _))
  | .interrupt _ => inferInstanceAs (Decidable (∀ _ ∈ _, PipeInfo.Refuses _ _))
  | .beginRead _ _ | .leave _ | .close _ | .dup _ => .isTrue trivial

instance PipeWriteReport.decidableRight (r : PipeWriteReport) : Decidable r.Right :=
  inferInstanceAs (Decidable (_ ∧ _))

section Report

variable {r : PipeWriteReport}

theorem sysWriteRet_count {size : ℕ} (hsize : size ≠ 0) (n : ℕ) : sysWriteRet size (.count n) = .count n := by
  unfold sysWriteRet
  rw [if_neg hsize, if_neg nofun, if_neg nofun, if_neg nofun]

theorem sysWriteRet_count_ne (size n code : ℕ) : sysWriteRet size (.count n) ≠ .error code := by
  by_cases hsize : size = 0
  · unfold sysWriteRet
    rw [if_pos hsize]
    exact nofun
  · rw [sysWriteRet_count hsize]
    exact nofun

theorem PipeWriteReport.right_of_readers (hreaders : r.readers ≠ 0)
    (h : r.tooFull = true ∨ ∃ n, r.ret = .count n) : r.Right := by
  refine ⟨fun hzero => absurd hzero hreaders, fun hblock => ⟨hreaders, ?_⟩⟩
  apply h.resolve_right
  rintro ⟨n, hcount⟩
  rw [hcount] at hblock
  exact hblock.elim nofun (sysWriteRet_count_ne _ _ _)

/-- The value at the end of `pipefs_write` is right when something is stored, and otherwise when it is
true that the pipe is too full for a reader. -/
theorem PipeWriteReport.right_iff_of_end {written : ℕ} (hret : r.ret = pipeWriteEnd written)
    (hstored : r.stored = written) (hle : written ≤ r.size) :
    r.Right ↔ (written = 0 → r.readers ≠ 0 ∧ r.tooFull = true) := by
  by_cases hzero : written = 0
  · have hblock : r.ret = .error codeEwouldblock := by
      rw [hret, hzero]
      rfl
    constructor
    · intro hright _
      exact hright.2 (.inl hblock)
    · intro h
      exact right_of_readers (h hzero).1 (.inl (h hzero).2)
  · have hcount : r.ret = .count written := by
      rw [hret, pipeWriteEnd, if_pos hzero]
    have hsize : r.size ≠ 0 := by omega
    refine iff_of_true ⟨fun _ => ?_, fun hblock => ?_⟩ fun h => absurd h hzero
    · rw [hcount, hstored, if_neg hzero]
      exact ⟨rfl, sysWriteRet_count hsize written⟩
    · rw [hcount] at hblock
      exact (hblock.elim nofun (sysWriteRet_count_ne _ _ _)).elim

end Report

section Step

variable {x x' : PipeState} {thread id written : ℕ} {data : List UInt8} {nonblock nonblock' : Bool}

theorem PipeInv.length_pieces (h : PipeInv x) (hcall : x.calls thread = .writing id data written nonblock) :
    (pieces x.accepted id).length = written := by
  obtain ⟨-, hlt, hpieces⟩ := h.writing thread id data written nonblock hcall
  rw [hpieces, List.length_take, Nat.min_eq_left hlt.le]

theorem pipeWriteInner_broken {pipe : PipeInfo} (hbroken : pipe.readFds = 0) (data : List UInt8)
    (atomic allowWait : Bool) : pipeWriteInner pipe data atomic allowWait = (pipe, .over) := by
  unfold pipeWriteInner
  rw [if_pos hbroken]

/-- With a reader a pass that is the last one has made the write report a count, or the pipe is too
full. -/
theorem pipeWriteRet_of_readers {pipe : PipeInfo} {ret : PipeRet} (hreaders : pipe.readFds ≠ 0)
    (hlt : written < data.length) (hret : pipeWriteRet pipe data written nonblock = some ret) :
    pipe.tooFull (data.length - written) (data.length ≤ pipeAtomicMax) = true ∨ ∃ n, ret = .count n := by
  unfold pipeWriteRet at hret
  dsimp only at hret
  unfold PipeInfo.tooFull
  generalize (data.length ≤ pipeAtomicMax : Bool) = atomic at hret ⊢
  by_cases hroom : pipeBuff - pipe.ptr > 0 ∧ (¬ atomic ∨ pipeBuff - pipe.ptr ≥ data.length - written)
  · -- at least one byte is stored
    right
    unfold pipeWriteInner at hret
    dsimp only at hret
    rw [if_neg hreaders, List.length_drop, if_pos hroom] at hret
    dsimp only at hret
    have hmoved : ((data.drop written).take (if atomic then data.length - written
        else min (data.length - written) (pipeBuff - pipe.ptr))).length ≠ 0 := by
      rw [List.length_take, List.length_drop]
      split_ifs <;> omega
    rw [if_neg hmoved] at hret
    by_cases hmore : written + ((data.drop written).take (if atomic then data.length - written
        else min (data.length - written) (pipeBuff - pipe.ptr))).length < data.length
    · rw [if_pos hmore] at hret
      cases hret
    · rw [if_neg hmore] at hret
      rw [← Option.some.inj hret, pipeWriteEnd, if_pos (by omega)]
      exact ⟨_, rfl⟩
  · left
    rw [decide_eq_false hroom]
    rfl

/-- The write that returns in a step returns the right value when the step is one of those, and not
otherwise. -/
theorem PipeInv.answered_iff (h : PipeInv x) {op : PipeOp} (hstep : x.step op = some x') :
    (∀ r ∈ x.writeReturned x' op, r.Right) ↔ op.Answered x := by
  cases op with
  | beginRead | leave | close | dup => simp [PipeState.writeReturned, PipeOp.Answered]
  | beginWrite thread data nonblock =>
    unfold PipeState.writeReturned PipeOp.Answered
    dsimp only
    by_cases hdata : data = []
    · -- a write of no bytes has a number of its own, under which nothing is stored
      have hinv := h.step hstep
      have hnew : x'.accepted = x.accepted := by
        simp only [PipeState.step] at hstep
        split at hstep
        · split_ifs at hstep
          exact Option.some.inj hstep ▸ rfl
        · cases hstep
      have hnone : pieces x'.accepted x.writes.length = [] := by
        unfold pieces
        rw [hnew, List.filter_eq_nil_iff.mpr fun e he => ?_]
        · rfl
        · simpa using (h.id_lt e he).ne
      subst hdata
      rw [if_pos rfl]
      have hright := PipeWriteReport.right_iff_of_end
        (r := x.writeReport x' x.writes.length [] 0 (pipeWriteEnd 0)) rfl
        (congrArg List.length hnone) (Nat.zero_le _)
      simp only [Option.mem_some_iff, forall_eq', hright]
      exact ⟨fun hok _ => hok rfl, fun hok _ => hok trivial⟩
    · rw [if_neg hdata]
      simp [hdata]
  | pass thread nonblock =>
    unfold PipeState.writeReturned PipeOp.Answered
    dsimp only
    cases hcall : x.calls thread with
    | idle | reading | leaving => simp [PipeCall.unstored]
    | writing id data written nonblock' =>
      have hlt := (h.writing thread id data written nonblock' hcall).2.1
      simp only [Option.mem_def, Option.map_eq_some_iff, PipeCall.unstored, decide_eq_true_eq]
      by_cases hreaders : x.info.readFds = 0
      · have hinner := pipeWriteInner_broken hreaders (data.drop written) (data.length ≤ pipeAtomicMax)
          (!nonblock')
        have hret : pipeWriteRet x.info data written nonblock' = some (pipeWriteEnd written) := by
          unfold pipeWriteRet
          dsimp only
          rw [hinner]
        have hsame : x'.accepted = x.accepted := by
          simp only [PipeState.step, PipeState.pass, hcall, hinner] at hstep
          exact Option.some.inj hstep ▸ rfl
        have hright := PipeWriteReport.right_iff_of_end
          (r := x.writeReport x' id data written (pipeWriteEnd written)) rfl
          ((congrArg (fun a => (pieces a id).length) hsame).trans (h.length_pieces hcall)) hlt.le
        rw [hret]
        constructor
        · intro hall hzero
          exact absurd hreaders (hright.mp (hall _ ⟨_, rfl, rfl⟩) hzero).1
        · rintro hok r ⟨ret, hsome, rfl⟩
          rw [← Option.some.inj hsome]
          exact hright.mpr fun hzero => absurd hreaders (hok hzero)
      · refine iff_of_true ?_ fun _ => hreaders
        rintro r ⟨ret, hret, rfl⟩
        exact PipeWriteReport.right_of_readers hreaders (pipeWriteRet_of_readers hreaders hlt hret)
  | interrupt thread =>
    unfold PipeState.writeReturned PipeOp.Answered
    dsimp only
    cases hcall : x.calls thread with
    | idle | reading | leaving => simp [PipeCall.unstoredData]
    | writing id data written nonblock' =>
      have hlt := (h.writing thread id data written nonblock' hcall).2.1
      have hsame : x'.accepted = x.accepted := by
        simp only [PipeState.step, hcall] at hstep
        exact Option.some.inj hstep ▸ rfl
      have hright := PipeWriteReport.right_iff_of_end
        (r := x.writeReport x' id data written (pipeWriteEnd written)) rfl
        ((congrArg (fun a => (pieces a id).length) hsame).trans (h.length_pieces hcall)) hlt.le
      simp only [Option.mem_some_iff, forall_eq', hright, PipeCall.unstoredData]
      by_cases hzero : written = 0
      · rw [if_pos hzero, hzero]
        simp only [Option.mem_some_iff, forall_eq', forall_const]
        rfl
      · rw [if_neg hzero]
        simp [hzero]

end Step

/-- In every run, all writes have returned the right value if and only if no step was one of those that
the code answers wrongly. -/
theorem pipe_write_answered (ops : List PipeOp) (s : PipeWrites)
    (hrun : Runs.run PipeWrites.step ops PipeWrites.new = some s) :
    (∀ r ∈ s.reports, r.Right) ↔
      Runs.Meets PipeWrites.step (fun s op => op.Answered s.pipe) ops PipeWrites.new := by
  have hkeep : ∀ (s : PipeWrites) op s', PipeInv s.pipe → s.step op = some s' →
      PipeInv s'.pipe ∧
        ((∀ r ∈ s'.reports, r.Right) ↔ (∀ r ∈ s.reports, r.Right) ∧ op.Answered s.pipe) := by
    intro s op s' hinv hstep
    obtain ⟨x', hx', rfl⟩ := Option.map_eq_some_iff.mp hstep
    refine ⟨hinv.step hx', ?_⟩
    rw [List.forall_mem_append, ← hinv.answered_iff hx']
    simp only [Option.mem_toList, Option.mem_def]
  have hmeets := Runs.meets_iff hkeep pipeInv_new hrun
  rw [hmeets]
  exact and_iff_right (List.forall_mem_nil _)

theorem pipe_write_answered_stored :
    ∃ s, Runs.run PipeWrites.step [.beginWrite 0 [5] false, .pass 0 false] PipeWrites.new = some s ∧
      s.reports = [⟨1, .count 1, 1, 1, false⟩] ∧ ∀ r ∈ s.reports, r.Right := by
  obtain ⟨s, hs⟩ : ∃ s, Runs.run PipeWrites.step [.beginWrite 0 [5] false, .pass 0 false]
      PipeWrites.new = some s := by
    apply Option.isSome_iff_exists.mp
    decide
  refine ⟨s, hs, ?_, (pipe_write_answered _ s hs).mpr (by decide)⟩
  revert s
  decide

/-- A write to a pipe whose read end is closed fails with `EWOULDBLOCK`. -/
theorem pipe_write_broken :
    (Runs.run PipeWrites.step [.close false, .beginWrite 0 [5] false, .pass 0 false]
      PipeWrites.new).map PipeWrites.reports = some [⟨1, .error codeEwouldblock, 0, 0, false⟩] ∧
    ¬ PipeWriteReport.Right ⟨1, .error codeEwouldblock, 0, 0, false⟩ := by
  decide

end CoolPotOS
