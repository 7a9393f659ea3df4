import CoolPotOS.Mem.BuddyZone

namespace CoolPotOS

open Dyadic

variable {n addr : ℕ} {r : ℕ → ℤ}

theorem roundUpPages_eq_some {count fuel e : ℕ} (h : roundUpPages count fuel (2 ^ e) = some n) :
    ∃ d, n = 2 ^ d ∧ e ≤ d ∧ count ≤ n := by
  induction fuel generalizing e with
  | zero => cases h
  | succ fuel ih =>
    rw [roundUpPages] at h
    split_ifs at h with h1 h2
    · obtain ⟨d, hd, hed, hc⟩ := ih (e := e + 1) (by rw [pow_succ]; exact h)
      exact ⟨d, hd, by omega, hc⟩
    · cases h
      exact ⟨e, rfl, le_rfl, not_lt.mp h1⟩

theorem orderOfPages_pow (fuel e order : ℕ) (h : e ≤ fuel) : orderOfPages fuel (2 ^ e) order = order + e := by
  induction fuel generalizing e order with
  | zero =>
    obtain rfl : e = 0 := by omega
    rfl
  | succ fuel ih =>
    rw [orderOfPages]
    cases e with
    | zero => simp
    | succ e =>
      have h1 : 2 ^ (e + 1) > 1 := Nat.one_lt_two_pow (by omega)
      rw [if_pos h1, pow_succ, Nat.mul_div_cancel _ (by norm_num), ih e (order + 1) (by omega)]
      omega

theorem countToOrder_eq_some {count k : ℕ} (h : countToOrder count = some (k, n)) :
    k ∈ orders ∧ n = orderToPages k ∧ count ≤ n := by
  rw [countToOrder] at h
  split_ifs at h with h0
  rcases hr : roundUpPages count 65 1 with - | m
  · simp [hr] at h
  simp only [hr, Option.bind_eq_bind, Option.bind_some] at h
  split_ifs at h with h1 h2
  cases h
  obtain ⟨d, rfl, -, hc⟩ := roundUpPages_eq_some (e := 0) (by simpa using hr)
  have hd : d ≤ 18 := by
    have h1' : 2 ^ d ≤ 2 ^ 18 := by simpa [orderToPages, maxOrder, minOrder] using h1
    exact (Nat.pow_le_pow_iff_right (by norm_num)).mp h1'
  rw [orderOfPages_pow 64 d minOrder (by omega)]
  refine ⟨mem_orders.mpr ⟨by simp [minOrder], by simp only [minOrder]; omega⟩, ?_, hc⟩
  simp [orderToPages, minOrder]

theorem orderToPages_mul {k : ℕ} (hk : k ∈ orders) : orderToPages k * pageSize = 2 ^ k := by
  rw [mem_orders] at hk
  rw [orderToPages, minOrder, show pageSize = 2 ^ 12 by norm_num [pageSize], ← pow_add]
  congr 1
  omega

theorem page_of_offset (addr i : ℕ) : (addr + i * pageSize) / pageSize = addr / pageSize + i :=
  Nat.add_mul_div_right addr i (by norm_num [pageSize])

theorem pageRef_loop (addr n : ℕ) (r : ℕ → ℤ) (p : ℕ) :
    forRange 0 n (fun i r => pageRef r (addr + i * pageSize)) r p =
      if addr / pageSize ≤ p ∧ p < addr / pageSize + n then r p + 1 else r p := by
  refine forRange_invariant _ (fun m (r' : ℕ → ℤ) => ∀ p, r' p =
    if addr / pageSize ≤ p ∧ p < addr / pageSize + m then r p + 1 else r p) r (Nat.zero_le n)
    (fun p => by rw [if_neg (by omega)]) ?_ p
  intro i r' _ _ hr' q
  rw [pageRef, page_of_offset, Function.update_apply]
  split_ifs with h1 h2 h3
  · rw [hr', h1, if_neg (by omega)]
  · omega
  · rw [hr', if_pos (by omega)]
  · rw [hr', if_neg (by omega)]

theorem claimLastPageRefs_spec (addr n off : ℕ) (r r0 : ℕ → ℤ)
    (hr : ∀ p, r p = if addr / pageSize ≤ p ∧ p < addr / pageSize + off then 0 else r0 p)
    (h1 : ∀ p, addr / pageSize ≤ p → p < addr / pageSize + off → r0 p = 1) :
    ((claimLastPageRefs addr n off r).2 = true →
      (∀ p, addr / pageSize ≤ p → p < addr / pageSize + (off + n) → r0 p = 1) ∧
      ∀ p, (claimLastPageRefs addr n off r).1 p =
        if addr / pageSize ≤ p ∧ p < addr / pageSize + (off + n) then 0 else r0 p) ∧
    ((claimLastPageRefs addr n off r).2 = false → (claimLastPageRefs addr n off r).1 = r0) := by
  induction n generalizing off r with
  | zero => exact ⟨fun _ => ⟨h1, hr⟩, fun h => by cases h⟩
  | succ n ih =>
    rw [claimLastPageRefs, page_of_offset]
    by_cases hone : r (addr / pageSize + off) = 1
    · simp only [hone, if_true]
      rw [show off + (n + 1) = off + 1 + n by omega]
      refine ih (off + 1) _ (fun p => ?_) fun p hp hp' => ?_
      · rw [Function.update_apply, hr p]
        split_ifs <;> first | rfl | omega
      · rcases Nat.lt_or_ge p (addr / pageSize + off) with h | h
        · exact h1 p hp h
        · obtain rfl : p = addr / pageSize + off := by omega
          rw [hr, if_neg (by omega)] at hone
          exact hone
    · simp only [hone, if_false]
      refine ⟨fun h => (by cases h), fun _ => funext fun p => ?_⟩
      rw [pageRef_loop, hr p]
      split_ifs with h
      · rw [h1 p h.1 h.2, zero_add]
      · rfl

theorem claimLastPageRefs_eq_true (h : (claimLastPageRefs addr n 0 r).2 = true) :
    (∀ p, addr / pageSize ≤ p → p < addr / pageSize + n → r p = 1) ∧ ∀ p, (claimLastPageRefs addr n 0 r).1 p =
      if addr / pageSize ≤ p ∧ p < addr / pageSize + n then 0 else r p := by
  have hs := (claimLastPageRefs_spec addr n 0 r r (fun p => by rw [if_neg (by omega)])
    (fun p _ _ => by omega)).1 h
  simpa only [Nat.zero_add] using hs

theorem claimLastPageRefs_eq_false (h : (claimLastPageRefs addr n 0 r).2 = false) :
    (claimLastPageRefs addr n 0 r).1 = r :=
  (claimLastPageRefs_spec addr n 0 r r (fun p => by rw [if_neg (by omega)]) (fun p _ _ => by omega)).2 h

theorem claimLastPageRefs_of_one {off : ℕ}
    (h : ∀ p, addr / pageSize + off ≤ p → p < addr / pageSize + (off + n) → r p = 1) :
    (claimLastPageRefs addr n off r).2 = true := by
  induction n generalizing off r with
  | zero => rfl
  | succ n ih =>
    rw [claimLastPageRefs, page_of_offset, if_pos (h _ le_rfl (by omega))]
    refine ih fun p hp hp' => ?_
    rw [Function.update_of_ne (by omega)]
    exact h p (by omega) (by omega)

theorem pagesAreUnreferenced_iff : pagesAreUnreferenced r addr n = true ↔
      ∀ p, addr / pageSize ≤ p → p < addr / pageSize + n → r p = 0 := by
  simp only [pagesAreUnreferenced, List.all_eq_true, List.mem_range, beq_iff_eq, page_of_offset]
  constructor
  · intro h p hp hp'
    have := h (p - addr / pageSize) (by omega)
    rwa [Nat.add_sub_cancel' hp] at this
  · intro h i hi
    exact h _ (by omega) (by omega)

theorem pagesInUse_iff {s : Buddy} {i : ℕ} : pagesInUse s i n = true ↔ ∀ p, i ≤ p → p < i + n →
      bitmapGet s.usingRegions p = true ∧ bitmapGet s.usableRegions p = true := by
  simp only [pagesInUse, List.all_eq_true, List.mem_range, Bool.and_eq_true]
  constructor
  · intro h p hp hp'
    have := h (p - i) (by omega)
    rwa [Nat.add_sub_cancel' hp] at this
  · intro h j hj
    exact h _ (by omega) (by omega)

theorem floorOrderLoop_spec (bytes fuel k : ℕ) (hk : 12 ≤ k) (hk' : k < 31) (hb : 2 ^ k ≤ bytes) :
    12 ≤ floorOrderLoop bytes fuel k ∧ floorOrderLoop bytes fuel k < 31 ∧
      2 ^ floorOrderLoop bytes fuel k ≤ bytes := by
  induction fuel generalizing k with
  | zero => exact ⟨hk, hk', hb⟩
  | succ fuel ih =>
    rw [floorOrderLoop]
    split_ifs with h
    · exact ih (k + 1) (by omega) h.1 h.2
    · exact ⟨hk, hk', hb⟩

theorem pow_ctz_dvd (fuel n : ℕ) : 2 ^ ctz fuel n ∣ n := by
  induction fuel generalizing n with
  | zero => simp [ctz]
  | succ fuel ih =>
    rw [ctz]
    split_ifs with h
    · rw [pow_succ]
      obtain ⟨c, hc⟩ := ih (n / 2)
      exact ⟨c, by rw [Nat.mul_assoc, Nat.mul_comm 2 c, ← Nat.mul_assoc, ← hc]; omega⟩
    · simp

theorem pieceOrder_spec {current stop : ℕ} (hc : pageSize ∣ current) (hs : pageSize ∣ stop)
    (h : current < stop) : pieceOrder current stop ∈ orders ∧ 2 ^ pieceOrder current stop ∣ current ∧
      current + 2 ^ pieceOrder current stop ≤ stop := by
  have hpage : 2 ^ 12 ≤ stop - current :=
    Nat.le_of_dvd (by omega) (by simpa [pageSize] using Nat.dvd_sub hs hc)
  obtain ⟨hf1, hf2, hf3⟩ := floorOrderLoop_spec (stop - current) orderCount minOrder le_rfl (by decide) hpage
  have hc12 : 2 ^ 12 ∣ current := by simpa [pageSize] using hc
  -- the order by alignment is a valid order and divides the address
  obtain ⟨al, hal, hal1, hal2⟩ : ∃ al, al = (if current = 0 then maxOrder - 1
      else min (ctz 64 current) (maxOrder - 1)) ∧ al ≤ 30 ∧ 2 ^ al ∣ current := by
    refine ⟨_, rfl, ?_, ?_⟩
    · split_ifs
      · decide
      · exact min_le_right _ _
    · split_ifs with h0
      · rw [h0]; exact dvd_zero _
      · exact (pow_dvd_pow 2 (min_le_left _ _)).trans (pow_ctz_dvd 64 current)
  have hk : pieceOrder current stop = max (min (floorOrderForSize (stop - current)) al) 12 := by
    rw [hal]; rfl
  rw [hk, floorOrderForSize]
  rcases le_total 12 (min (floorOrderLoop (stop - current) orderCount minOrder) al) with hm | hm
  · rw [max_eq_left hm]
    refine ⟨mem_orders.mpr ⟨hm, lt_of_le_of_lt (min_le_left _ _) hf2⟩,
      (pow_dvd_pow 2 (min_le_right _ _)).trans hal2, ?_⟩
    have := Nat.pow_le_pow_right (n := 2) (by norm_num)
      (min_le_left (floorOrderLoop (stop - current) orderCount minOrder) al)
    omega
  · rw [max_eq_right hm]
    exact ⟨mem_orders.mpr ⟨le_rfl, by norm_num⟩, hc12, by omega⟩

end CoolPotOS
