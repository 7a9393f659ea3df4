import CoolPotOS.Machine
import CoolPotOS.Lib.Runs

namespace CoolPotOS

def epollIn : BitVec 32 := 0x001#32

def epollOut : BitVec 32 := 0x004#32

/-- `eventfd_ctx_t`: the counter, and the flags `EFD_SEMAPHORE` and `EFD_NONBLOCK`. -/
structure EventfdCtx where
  count : ℕ
  semaphore : Bool
  nonblock : Bool
  deriving DecidableEq

/-- What one pass of a call does: it transfers a value, it returns -1, or it yields. -/
inductive EventfdResult
  | value (val : ℕ)
  | fail
  | wait
  deriving DecidableEq

def EventfdCtx.giveUp (ctx : EventfdCtx) (signal : Bool) : EventfdResult :=
  if ctx.nonblock then .fail else if signal then .fail else .wait

/-- One pass of `eventfdfs_read`; `signal` says whether a signal is pending. -/
def eventfdfsRead (ctx : EventfdCtx) (size : ℕ) (signal : Bool) : EventfdCtx × EventfdResult :=
  if size < 8 then (ctx, .fail)
  else if ctx.count > 0 then
    if ctx.semaphore then ({ ctx with count := ctx.count - 1 }, .value 1)
    else ({ ctx with count := 0 }, .value ctx.count)
  else (ctx, ctx.giveUp signal)

def eventfdfsWrite (ctx : EventfdCtx) (val size : ℕ) (signal : Bool) :
    EventfdCtx × EventfdResult :=
  if size < 8 then (ctx, .fail)
  else if val = 2 ^ 64 - 1 then (ctx, .fail)
  else if ctx.count ≤ wrapSub (2 ^ 64 - 1 - 2) val then
    ({ ctx with count := wrap (ctx.count + val) }, .value val)
  else (ctx, ctx.giveUp signal)

def eventfdfsPoll (ctx : EventfdCtx) (events : BitVec 32) : BitVec 32 :=
  (if events &&& epollIn ≠ 0 ∧ ctx.count > 0 then epollIn else 0) |||
    (if events &&& epollOut ≠ 0 ∧ ctx.count < 2 ^ 64 - 1 - 1 then epollOut else 0)

/-- A call that finds the counter too small or too large yields and tries again: a step is one pass
through its loop. -/
inductive EventfdOp
  | read (size : ℕ) (signal : Bool)
  | write (val size : ℕ) (signal : Bool)

/-- A counter with the sums of the values written to it and read from it. -/
structure EventfdState where
  ctx : EventfdCtx
  accepted : ℕ
  returned : ℕ

def EventfdResult.amount : EventfdResult → ℕ
  | .value val => val
  | _ => 0

def EventfdState.step (x : EventfdState) : EventfdOp → Option EventfdState
  | .read size signal =>
    some ⟨(eventfdfsRead x.ctx size signal).1, x.accepted,
      x.returned + (eventfdfsRead x.ctx size signal).2.amount⟩
  | .write val size signal =>
    some ⟨(eventfdfsWrite x.ctx val size signal).1,
      x.accepted + (eventfdfsWrite x.ctx val size signal).2.amount, x.returned⟩

/-- Polling tells whether a read and a write of 1 would go through. -/
def EventfdCtx.PollExact (ctx : EventfdCtx) : Prop :=
  ∀ signal,
    (eventfdfsPoll ctx (epollIn ||| epollOut) &&& epollIn ≠ 0 ↔
      ∃ val, (eventfdfsRead ctx 8 signal).2 = .value val) ∧
    (eventfdfsPoll ctx (epollIn ||| epollOut) &&& epollOut ≠ 0 ↔
      ∃ val, (eventfdfsWrite ctx 1 8 signal).2 = .value val)

/-- The counter is in range, and it is what was written to it and not yet read. -/
structure EventfdState.Good (x : EventfdState) (initval : ℕ) : Prop where
  count_le : x.ctx.count ≤ 2 ^ 64 - 1 - 1
  conserved : initval + x.accepted = x.returned + x.ctx.count
  poll : x.ctx.PollExact

/-- A call that is not refused for its size does not bring the counter to `UINT64_MAX - 2`, and adds
`UINT64_MAX - 1` to 0 only. -/
def EventfdOp.Regular (ctx : EventfdCtx) : EventfdOp → Prop
  | .read size _ => size < 8 ∨ ¬ (ctx.semaphore = true ∧ ctx.count = 2 ^ 64 - 2)
  | .write val size _ => size < 8 ∨
      (val < 2 ^ 64 ∧ ¬ (val = 2 ^ 64 - 2 ∧ 0 < ctx.count) ∧ ctx.count + val ≠ 2 ^ 64 - 3)

theorem eventfdfsPoll_in (ctx : EventfdCtx) :
    eventfdfsPoll ctx (epollIn ||| epollOut) &&& epollIn ≠ 0 ↔ ctx.count > 0 := by
  unfold eventfdfsPoll
  by_cases hin : ctx.count > 0 <;> by_cases hout : ctx.count < 2 ^ 64 - 1 - 1 <;>
    simp only [hin, hout, and_true, and_false, if_false, iff_true, iff_false] <;> decide

theorem eventfdfsPoll_out (ctx : EventfdCtx) :
    eventfdfsPoll ctx (epollIn ||| epollOut) &&& epollOut ≠ 0 ↔ ctx.count < 2 ^ 64 - 1 - 1 := by
  unfold eventfdfsPoll
  by_cases hin : ctx.count > 0 <;> by_cases hout : ctx.count < 2 ^ 64 - 1 - 1 <;>
    simp only [hin, hout, and_true, and_false, if_false, iff_true, iff_false] <;> decide

theorem EventfdCtx.giveUp_ne (ctx : EventfdCtx) (signal : Bool) (val : ℕ) :
    ctx.giveUp signal ≠ .value val := by
  unfold EventfdCtx.giveUp
  split
  · simp
  · split <;> simp

theorem eventfdfsRead_value (ctx : EventfdCtx) (signal : Bool) :
    (∃ val, (eventfdfsRead ctx 8 signal).2 = .value val) ↔ ctx.count > 0 := by
  unfold eventfdfsRead
  rw [if_neg (by norm_num)]
  by_cases h : ctx.count > 0
  · rw [if_pos h]
    split <;> simp [h]
  · rw [if_neg h]
    simp [ctx.giveUp_ne signal, h]

theorem eventfdfsWrite_one (ctx : EventfdCtx) (signal : Bool) :
    (∃ val, (eventfdfsWrite ctx 1 8 signal).2 = .value val) ↔ ctx.count ≤ 2 ^ 64 - 4 := by
  unfold eventfdfsWrite
  rw [if_neg (by norm_num), if_neg (by norm_num)]
  have hroom : wrapSub (2 ^ 64 - 1 - 2) 1 = 2 ^ 64 - 4 := by norm_num [wrapSub]
  rw [hroom]
  by_cases h : ctx.count ≤ 2 ^ 64 - 4
  · rw [if_pos h]
    simpa using h
  · rw [if_neg h]
    simpa [ctx.giveUp_ne signal] using h

theorem EventfdCtx.pollExact_iff (ctx : EventfdCtx) : ctx.PollExact ↔ ctx.count ≠ 2 ^ 64 - 3 := by
  unfold EventfdCtx.PollExact
  simp only [eventfdfsPoll_in, eventfdfsPoll_out, eventfdfsRead_value, eventfdfsWrite_one]
  constructor
  · intro h
    have hout := (h true).2
    omega
  · intro h signal
    refine ⟨trivial, ?_⟩
    omega

theorem eventfdfsRead_cases (ctx : EventfdCtx) (size : ℕ) (signal : Bool) :
    (eventfdfsRead ctx size signal).1 = ctx ∧ (eventfdfsRead ctx size signal).2.amount = 0 ∨
    ¬ size < 8 ∧ 0 < ctx.count ∧ ∃ val, (eventfdfsRead ctx size signal).2.amount = val ∧
      (eventfdfsRead ctx size signal).1 = { ctx with count := ctx.count - val } ∧
      (ctx.semaphore = true ∧ val = 1 ∨ val = ctx.count) := by
  have hgive : (ctx.giveUp signal).amount = 0 := by
    cases hresult : ctx.giveUp signal with
    | value val => exact absurd hresult (ctx.giveUp_ne signal val)
    | fail => rfl
    | wait => rfl
  unfold eventfdfsRead
  by_cases hsize : size < 8
  · rw [if_pos hsize]
    exact .inl ⟨rfl, rfl⟩
  rw [if_neg hsize]
  by_cases hcount : ctx.count > 0
  · right
    refine ⟨hsize, hcount, ?_⟩
    rw [if_pos hcount]
    by_cases hsem : ctx.semaphore = true
    · rw [if_pos hsem]
      exact ⟨1, rfl, rfl, .inl ⟨hsem, rfl⟩⟩
    · rw [if_neg hsem]
      refine ⟨ctx.count, rfl, ?_, .inr rfl⟩
      rw [Nat.sub_self]
  · rw [if_neg hcount]
    exact .inl ⟨rfl, hgive⟩

theorem eventfdfsWrite_cases (ctx : EventfdCtx) (val size : ℕ) (signal : Bool) :
    (eventfdfsWrite ctx val size signal).1 = ctx ∧ (eventfdfsWrite ctx val size signal).2.amount = 0 ∨
    ¬ size < 8 ∧ val ≠ 2 ^ 64 - 1 ∧ ctx.count ≤ wrapSub (2 ^ 64 - 1 - 2) val ∧
      (eventfdfsWrite ctx val size signal).2.amount = val ∧
      (eventfdfsWrite ctx val size signal).1 = { ctx with count := wrap (ctx.count + val) } := by
  have hgive : (ctx.giveUp signal).amount = 0 := by
    cases hresult : ctx.giveUp signal with
    | value val => exact absurd hresult (ctx.giveUp_ne signal val)
    | fail => rfl
    | wait => rfl
  unfold eventfdfsWrite
  by_cases hsize : size < 8
  · rw [if_pos hsize]
    exact .inl ⟨rfl, rfl⟩
  rw [if_neg hsize]
  by_cases hval : val = 2 ^ 64 - 1
  · rw [if_pos hval]
    exact .inl ⟨rfl, rfl⟩
  rw [if_neg hval]
  by_cases hroom : ctx.count ≤ wrapSub (2 ^ 64 - 1 - 2) val
  · rw [if_pos hroom]
    exact .inr ⟨hsize, hval, hroom, rfl, rfl⟩
  · rw [if_neg hroom]
    exact .inl ⟨rfl, hgive⟩

theorem EventfdState.Good.step {x : EventfdState} {initval : ℕ} (h : x.Good initval) {op : EventfdOp}
    (hok : op.Regular x.ctx) : ∃ x', x.step op = some x' ∧ x'.Good initval := by
  have hle := h.count_le
  have hsum := h.conserved
  have hpoll := (EventfdCtx.pollExact_iff _).mp h.poll
  cases op with
  | read size signal =>
    refine ⟨⟨(eventfdfsRead x.ctx size signal).1, x.accepted,
      x.returned + (eventfdfsRead x.ctx size signal).2.amount⟩, rfl, ?_⟩
    rcases eventfdfsRead_cases x.ctx size signal with ⟨hctx, hamount⟩ | ⟨hsize, hpos, val, hamount, hctx, hval⟩
    · exact ⟨by rw [hctx]; exact hle, by rw [hctx, hamount]; exact hsum, by rw [hctx]; exact h.poll⟩
    · have hval_le : val ≤ x.ctx.count := by
        rcases hval with ⟨-, rfl⟩ | rfl
        · exact hpos
        · exact le_rfl
      refine ⟨?_, ?_, ?_⟩
      · rw [hctx]
        exact (Nat.sub_le _ _).trans hle
      · rw [hctx, hamount]
        show initval + x.accepted = x.returned + val + (x.ctx.count - val)
        omega
      · rw [hctx, EventfdCtx.pollExact_iff]
        show x.ctx.count - val ≠ 2 ^ 64 - 3
        rcases hval with ⟨hsem, rfl⟩ | rfl
        · have hne : x.ctx.count ≠ 2 ^ 64 - 2 := fun hc => hok.resolve_left hsize ⟨hsem, hc⟩
          omega
        · omega
  | write val size signal =>
    refine ⟨⟨(eventfdfsWrite x.ctx val size signal).1,
      x.accepted + (eventfdfsWrite x.ctx val size signal).2.amount, x.returned⟩, rfl, ?_⟩
    rcases eventfdfsWrite_cases x.ctx val size signal with ⟨hctx, hamount⟩ | ⟨hsize, hmax, hroom, hamount, hctx⟩
    · exact ⟨by rw [hctx]; exact hle, by rw [hctx, hamount]; exact hsum, by rw [hctx]; exact h.poll⟩
    · obtain ⟨hlt, hlarge, hne⟩ := hok.resolve_left hsize
      -- the sum stays below `2^64`: the guard wraps around for `UINT64_MAX - 1` only
      have hfit : x.ctx.count + val ≤ 2 ^ 64 - 1 - 1 := by
        unfold wrapSub at hroom
        by_cases hbig : val = 2 ^ 64 - 2
        · have : ¬ 0 < x.ctx.count := fun hpos => hlarge ⟨hbig, hpos⟩
          omega
        · omega
      have hwrap : wrap (x.ctx.count + val) = x.ctx.count + val := wrap_of_lt (by omega)
      refine ⟨?_, ?_, ?_⟩
      · rw [hctx, hwrap]
        exact hfit
      · rw [hctx, hamount, hwrap]
        show initval + (x.accepted + val) = x.returned + (x.ctx.count + val)
        omega
      · rw [hctx, hwrap, EventfdCtx.pollExact_iff]
        exact hne

/-- In every history of reads and writes that meet the condition, the counter is in range and does
not wrap, it balances what was written and what was read, and polling is exact. -/
theorem eventfd_conserves (initval : ℕ) (semaphore nonblock : Bool) (ops : List EventfdOp)
    (hinit : initval ≤ 2 ^ 64 - 2 ∧ initval ≠ 2 ^ 64 - 3)
    (hok : Runs.Meets EventfdState.step (fun x op => op.Regular x.ctx) ops
      ⟨⟨initval, semaphore, nonblock⟩, 0, 0⟩) :
    ∀ done, done <+: ops → ∃ x, Runs.run EventfdState.step done
      ⟨⟨initval, semaphore, nonblock⟩, 0, 0⟩ = some x ∧ x.Good initval := by
  intro done hdone
  refine Runs.run_total (fun x op (h : x.Good initval) hop => h.step hop) ?_ (hok.of_isPrefix hdone)
  refine ⟨by simpa using hinit.1, by simp, ?_⟩
  rw [EventfdCtx.pollExact_iff]
  exact hinit.2

theorem eventfd_conserves_write_read :
    ∃ x, Runs.run EventfdState.step [.write 5 8 false, .read 8 false]
      ⟨⟨0, false, true⟩, 0, 0⟩ = some x ∧ x.Good 0 := by
  refine eventfd_conserves 0 false true [.write 5 8 false, .read 8 false] (by norm_num) ?_ _
    List.prefix_rfl
  refine ⟨.inr (by norm_num), fun x hx => ⟨.inr ?_, fun _ _ => trivial⟩⟩
  rintro ⟨hsem, -⟩
  cases hx
  revert hsem
  decide

/-- After a write of 5, the guard lets `UINT64_MAX - 1` through, since it wraps around itself: the
counter comes out as 3. After a write of `UINT64_MAX - 2`, polling promises a write that does not go
through. -/
theorem eventfdfsWrite_wraps :
    (∃ x, Runs.run EventfdState.step [.write 5 8 false, .write (2 ^ 64 - 2) 8 false]
        ⟨⟨0, false, true⟩, 0, 0⟩ = some x ∧ x.ctx.count = 3 ∧ x.accepted = 2 ^ 64 + 3 ∧
        ¬ x.Good 0) ∧
      ∃ x, Runs.run EventfdState.step [.write (2 ^ 64 - 3) 8 false]
        ⟨⟨0, false, true⟩, 0, 0⟩ = some x ∧ ¬ x.ctx.PollExact := by
  constructor
  · refine ⟨_, rfl, by decide, by decide, fun h => ?_⟩
    have hsum := h.conserved
    revert hsum
    decide
  · refine ⟨_, rfl, ?_⟩
    rw [EventfdCtx.pollExact_iff]
    decide

end CoolPotOS
