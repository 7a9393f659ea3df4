import CoolPotOS.Lib.Ring

namespace CoolPotOS

open List

/-- The part of `socket_t` that holds the backlog. -/
structure Backlog where
  slot : ℕ → Option ℕ
  connMax : ℕ
  connCurr : ℕ
  connHead : ℕ
  backlogCap : ℕ

namespace Backlog

/-- What `listen` sets, and `unix_socket_alloc` with a limit of 0. -/
def new (connMax : ℕ) : Backlog := ⟨fun _ => none, connMax, 0, 0, 0⟩

/-- The loop of `unix_socket_backlog_reserve_locked`. Every round adds a place, so there are not more rounds
than places that are asked for. -/
def growCap (connMax minCapacity : ℕ) : ℕ → ℕ → ℕ
  | 0, capacity => capacity
  | fuel + 1, capacity =>
    if capacity < minCapacity then
      if capacity ≥ connMax then connMax
      else growCap connMax minCapacity fuel (if capacity > connMax / 2 then connMax else capacity * 2)
    else capacity

/-- `unix_socket_backlog_reserve_locked`, or `none` when it returns false. -/
def reserve (b : Backlog) (minCapacity : ℕ) (alloc : Bool) : Option Backlog :=
  if minCapacity = 0 ∨ minCapacity ≤ b.backlogCap then some b
  else if b.connMax = 0 ∨ minCapacity > b.connMax then none
  else
    let newCapacity := growCap b.connMax minCapacity minCapacity
      (if b.backlogCap = 0 then min b.connMax 16 else b.backlogCap)
    if newCapacity < minCapacity then none
    else if alloc then
      some
        { b with
          slot := fun i => if i < b.connCurr then b.slot ((b.connHead + i) % b.backlogCap) else none
          backlogCap := newCapacity
          connHead := 0 }
    else none

def enqueueTail (b : Backlog) (pending : ℕ) (alloc : Bool) : Option Backlog :=
  (b.reserve (b.connCurr + 1) alloc).map fun b =>
    { b with
      slot := Function.update b.slot ((b.connHead + b.connCurr) % b.backlogCap) (some pending)
      connCurr := b.connCurr + 1 }

def enqueueHead (b : Backlog) (pending : ℕ) (alloc : Bool) : Option Backlog :=
  (b.reserve (b.connCurr + 1) alloc).map fun b =>
    let head := if b.connCurr = 0 then 0 else (b.connHead + b.backlogCap - 1) % b.backlogCap
    { b with
      slot := Function.update b.slot head (some pending)
      connHead := head
      connCurr := b.connCurr + 1 }

/-- The section of `socket_accept` that takes a connection. -/
def takeHead (b : Backlog) : Option ℕ × Backlog :=
  (b.slot b.connHead,
    { b with
      slot := Function.update b.slot b.connHead none
      connHead := if b.connCurr - 1 = 0 then 0 else (b.connHead + 1) % b.backlogCap
      connCurr := b.connCurr - 1 })

def contents (b : Backlog) : List (Option ℕ) :=
  Ring.contents b.slot b.backlogCap b.connHead b.connCurr

/-- The backlog holds these connections, the oldest first. -/
structure Holds (b : Backlog) (pending : List ℕ) : Prop where
  contents_eq : b.contents = pending.map some
  curr_le : b.connCurr ≤ b.backlogCap
  cap_le : b.backlogCap ≤ b.connMax
  head_lt : b.connHead < b.backlogCap ∨ b.connHead = 0

variable {b b' : Backlog} {pending : List ℕ} {p : ℕ} {alloc : Bool}

theorem Holds.length_eq (h : b.Holds pending) : pending.length = b.connCurr := by
  have := congrArg length h.contents_eq
  rw [contents, Ring.length_contents, length_map] at this
  exact this.symm

theorem holds_new (connMax : ℕ) : (new connMax).Holds [] := ⟨rfl, le_rfl, Nat.zero_le _, .inr rfl⟩

theorem growCap_le {connMax minCapacity fuel capacity : ℕ} (h : capacity ≤ connMax) :
    growCap connMax minCapacity fuel capacity ≤ connMax := by
  induction fuel generalizing capacity with
  | zero => exact h
  | succ fuel ih =>
    unfold growCap
    split_ifs
    · exact le_rfl
    · exact ih le_rfl
    · exact ih (by omega)
    · exact h

theorem Holds.reserve (h : b.Holds pending) (hb : b.reserve (b.connCurr + 1) alloc = some b') :
    b'.Holds pending ∧ b'.connCurr < b'.backlogCap ∧ b'.connMax = b.connMax := by
  have hcurr := h.curr_le
  unfold Backlog.reserve at hb
  by_cases hroom : b.connCurr + 1 = 0 ∨ b.connCurr + 1 ≤ b.backlogCap
  · rw [if_pos hroom] at hb
    cases hb
    exact ⟨h, by omega, rfl⟩
  · rw [if_neg hroom] at hb
    have hstart : (if b.backlogCap = 0 then min b.connMax 16 else b.backlogCap) ≤ b.connMax := by
      have := h.cap_le
      split_ifs <;> omega
    have hle : growCap b.connMax (b.connCurr + 1) (b.connCurr + 1)
        (if b.backlogCap = 0 then min b.connMax 16 else b.backlogCap) ≤ b.connMax := growCap_le hstart
    dsimp only at hb
    generalize growCap b.connMax (b.connCurr + 1) (b.connCurr + 1)
      (if b.backlogCap = 0 then min b.connMax 16 else b.backlogCap) = newCapacity at hb hle
    split_ifs at hb with hmax hsmall
    cases hb
    refine ⟨⟨?_, ?_, hle, .inr rfl⟩, ?_, rfl⟩
    · rw [← h.contents_eq]
      unfold contents Ring.contents
      apply map_congr_left
      intro i hi
      have hi' := mem_range.mp hi
      dsimp only at hi' ⊢
      rw [Nat.zero_add, Nat.mod_eq_of_lt (by omega), if_pos hi']
    · dsimp only
      omega
    · dsimp only
      omega

theorem Holds.enqueueTail (h : b.Holds pending) (hb : b.enqueueTail p alloc = some b') :
    b'.Holds (pending ++ [p]) ∧ b'.connMax = b.connMax := by
  obtain ⟨b1, hb1, rfl⟩ := Option.map_eq_some_iff.mp hb
  obtain ⟨h1, hroom, hmax⟩ := h.reserve hb1
  refine ⟨⟨?_, hroom, h1.cap_le, h1.head_lt⟩, hmax⟩
  rw [map_append, ← h1.contents_eq]
  exact Ring.contents_update (some p) hroom

theorem add_mod_ne {head i cap : ℕ} (hhead : head < cap) (hi : 1 + i < cap) : (head + 1 + i) % cap ≠ head := by
  intro heq
  have hmod : head + (1 + i) ≡ head + 0 [MOD cap] := by
    rw [Nat.add_zero, ← Nat.add_assoc]
    exact heq.trans (Nat.mod_eq_of_lt hhead).symm
  have hzero := Nat.ModEq.add_left_cancel' head hmod
  have := Nat.ModEq.eq_of_lt_of_lt hzero hi (by omega)
  omega

theorem Holds.enqueueHead (h : b.Holds pending) (hb : b.enqueueHead p alloc = some b') :
    b'.Holds (p :: pending) ∧ b'.connMax = b.connMax := by
  obtain ⟨b1, hb1, rfl⟩ := Option.map_eq_some_iff.mp hb
  obtain ⟨h1, hroom, hmax⟩ := h.reserve hb1
  by_cases hcurr : b1.connCurr = 0
  · have hnil : pending = [] := by
      rw [← length_eq_zero_iff, h1.length_eq]
      exact hcurr
    dsimp only
    rw [if_pos hcurr]
    refine ⟨⟨?_, hroom, h1.cap_le, .inr rfl⟩, hmax⟩
    unfold contents
    dsimp only
    rw [hcurr, hnil]
    simp [Ring.contents]
  · have hhead : b1.connHead < b1.backlogCap := by
      have := h1.head_lt
      omega
    dsimp only
    rw [if_neg hcurr]
    have hpred : (b1.connHead + b1.backlogCap - 1) % b1.backlogCap < b1.backlogCap := Nat.mod_lt _ (by omega)
    have hnext : ((b1.connHead + b1.backlogCap - 1) % b1.backlogCap + 1) % b1.backlogCap =
        b1.connHead := by
      rw [Nat.mod_add_mod, show b1.connHead + b1.backlogCap - 1 + 1 = b1.connHead + b1.backlogCap by omega,
        Nat.add_mod_right, Nat.mod_eq_of_lt hhead]
    generalize (b1.connHead + b1.backlogCap - 1) % b1.backlogCap = head at hpred hnext
    refine ⟨⟨?_, hroom, h1.cap_le, .inl hpred⟩, hmax⟩
    unfold contents
    dsimp only
    have hfirst : Ring.contents (Function.update b1.slot head (some p)) b1.backlogCap head 1 = [some p] := by
      simp [Ring.contents, Nat.mod_eq_of_lt hpred]
    rw [Nat.add_comm, Ring.contents_add, hnext, hfirst, singleton_append, map_cons,
      ← h1.contents_eq]
    congr 1
    unfold contents Ring.contents
    apply map_congr_left
    intro i hi
    have hi' := mem_range.mp hi
    apply Function.update_of_ne
    -- the places behind the head do not come round to it
    rw [← hnext, Nat.mod_add_mod]
    exact add_mod_ne hpred (by omega)

theorem Holds.takeHead (h : b.Holds (p :: pending)) :
    b.takeHead.1 = some p ∧ b.takeHead.2.Holds pending ∧ b.takeHead.2.connMax = b.connMax := by
  have hlength := h.length_eq
  have hcurr := h.curr_le
  rw [length_cons] at hlength
  have hhead : b.connHead < b.backlogCap := by
    have := h.head_lt
    omega
  have hcontents := h.contents_eq
  unfold contents at hcontents
  rw [show b.connCurr = 1 + pending.length by omega, Ring.contents_add, map_cons] at hcontents
  have hfirst : Ring.contents b.slot b.backlogCap b.connHead 1 = [b.slot b.connHead] := by
    simp [Ring.contents, Nat.mod_eq_of_lt hhead]
  rw [hfirst, singleton_append, cons.injEq] at hcontents
  refine ⟨hcontents.1, ⟨?_, ?_, h.cap_le, ?_⟩, rfl⟩
  · unfold Backlog.takeHead contents
    dsimp only
    rw [← hcontents.2, show b.connCurr - 1 = pending.length by omega]
    split_ifs with hzero
    · rw [hzero]
      rfl
    · unfold Ring.contents
      apply map_congr_left
      intro i hi
      have hi' := mem_range.mp hi
      apply Function.update_of_ne
      rw [Nat.mod_add_mod]
      exact add_mod_ne hhead (by omega)
  · change b.connCurr - 1 ≤ b.backlogCap
    omega
  · change (if b.connCurr - 1 = 0 then 0 else (b.connHead + 1) % b.backlogCap) < b.backlogCap ∨
      (if b.connCurr - 1 = 0 then 0 else (b.connHead + 1) % b.backlogCap) = 0
    split_ifs
    · exact .inr rfl
    · exact .inl (Nat.mod_lt _ (by omega))

end Backlog

end CoolPotOS
