import Mathlib

namespace Dyadic

open Multiset Nat

/-- `x` lies in the cell of order `k` at `a`. -/
def InCell (k a x : ℕ) : Prop := a ≤ x ∧ x < a + 2 ^ k

instance (k a x : ℕ) : Decidable (InCell k a x) := inferInstanceAs (Decidable (_ ∧ _))

theorem inCell_self (k a : ℕ) : InCell k a a := ⟨le_rfl, Nat.lt_add_of_pos_right (by positivity)⟩

theorem xor_pow_of_dvd {k a : ℕ} (h : 2 ^ (k + 1) ∣ a) : a ^^^ 2 ^ k = a + 2 ^ k := by
  obtain ⟨c, rfl⟩ := h
  have h1 : 2 ^ (k + 1) * c = (2 * c) <<< k := by rw [shiftLeft_eq, pow_succ]; ring
  have h2 : 2 ^ k = 1 <<< k := by rw [shiftLeft_eq, Nat.one_mul]
  rw [h1, h2, ← shiftLeft_xor_distrib, xor_one_of_even (even_two_mul c), shiftLeft_eq,
    shiftLeft_eq, shiftLeft_eq]
  ring

theorem xor_pow_add_of_dvd {k a : ℕ} (h : 2 ^ (k + 1) ∣ a) : (a + 2 ^ k) ^^^ 2 ^ k = a := by
  rw [← xor_pow_of_dvd h, Nat.xor_assoc, Nat.xor_self, xor_zero]

theorem dvd_or_dvd_sub {k a : ℕ} (h : 2 ^ k ∣ a) :
    2 ^ (k + 1) ∣ a ∨ ∃ b, 2 ^ (k + 1) ∣ b ∧ a = b + 2 ^ k := by
  obtain ⟨c, rfl⟩ := h
  rcases even_or_odd' c with ⟨d, rfl | rfl⟩
  · exact .inl ⟨d, by rw [pow_succ]; ring⟩
  · exact .inr ⟨2 ^ (k + 1) * d, dvd_mul_right _ _, by rw [pow_succ]; ring⟩

theorem xor_pow_mod (k a : ℕ) : (a ^^^ 2 ^ k) % 2 ^ k = a % 2 ^ k := by
  rw [xor_mod_two_pow, mod_self, xor_zero]

theorem dvd_xor_pow {k a : ℕ} : 2 ^ k ∣ a ^^^ 2 ^ k ↔ 2 ^ k ∣ a := by
  rw [dvd_iff_mod_eq_zero, dvd_iff_mod_eq_zero, xor_pow_mod]

theorem xor_pow_ne (k a : ℕ) : a ^^^ 2 ^ k ≠ a := by
  intro h
  have h2 : a ^^^ 2 ^ k ^^^ a = a ^^^ a := by rw [h]
  rw [xor_right_comm, Nat.xor_self, Nat.zero_xor] at h2
  exact (by positivity : 2 ^ k ≠ 0) h2

theorem inCell_succ_iff {k a x : ℕ} (h : 2 ^ k ∣ a) :
    InCell (k + 1) (min a (a ^^^ 2 ^ k)) x ↔ InCell k a x ∨ InCell k (a ^^^ 2 ^ k) x := by
  have hp : 2 ^ (k + 1) = 2 ^ k + 2 ^ k := by rw [pow_succ]; ring
  rcases dvd_or_dvd_sub h with hd | ⟨b, hd, rfl⟩
  · rw [xor_pow_of_dvd hd]
    simp only [InCell, hp]
    omega
  · rw [xor_pow_add_of_dvd hd]
    simp only [InCell, hp]
    omega

theorem not_inCell_xor {k a x : ℕ} (h : 2 ^ k ∣ a) (hx : InCell k a x) : ¬ InCell k (a ^^^ 2 ^ k) x := by
  rcases dvd_or_dvd_sub h with hd | ⟨b, hd, rfl⟩
  · rw [xor_pow_of_dvd hd]
    simp only [InCell] at *
    omega
  · rw [xor_pow_add_of_dvd hd]
    simp only [InCell] at *
    omega

theorem dvd_min_xor {k a : ℕ} (h : 2 ^ k ∣ a) : 2 ^ (k + 1) ∣ min a (a ^^^ 2 ^ k) := by
  rcases dvd_or_dvd_sub h with hd | ⟨b, hd, rfl⟩
  · rwa [xor_pow_of_dvd hd, min_eq_left (Nat.le_add_right _ _)]
  · rwa [xor_pow_add_of_dvd hd, min_eq_right (Nat.le_add_right _ _)]

theorem eq_or_eq_xor_of_div_eq {k a b : ℕ} (ha : 2 ^ k ∣ a) (hb : 2 ^ k ∣ b)
    (h : a / 2 ^ (k + 1) = b / 2 ^ (k + 1)) : b = a ∨ b = a ^^^ 2 ^ k := by
  have hp : 2 ^ (k + 1) = 2 ^ k * 2 := pow_succ 2 k
  have hpos : 0 < 2 ^ (k + 1) := by positivity
  have key : ∀ c, 2 ^ (k + 1) ∣ c → c / 2 ^ (k + 1) * 2 ^ (k + 1) = c := fun c hc =>
    Nat.div_mul_cancel hc
  have half : ∀ c, 2 ^ (k + 1) ∣ c → (c + 2 ^ k) / 2 ^ (k + 1) = c / 2 ^ (k + 1) := by
    rintro c ⟨d, rfl⟩
    rw [mul_add_div hpos, Nat.mul_div_cancel_left d hpos, div_eq_of_lt]
    · omega
    · rw [hp]; have : 0 < 2 ^ k := by positivity
      omega
  rcases dvd_or_dvd_sub ha with hd | ⟨c, hc, rfl⟩ <;> rcases dvd_or_dvd_sub hb with he | ⟨d, hd', rfl⟩
  · left; rw [← key a hd, ← key b he, h]
  · right; rw [half d hd'] at h; rw [xor_pow_of_dvd hd, ← key a hd, ← key d hd', h]
  · right; rw [half c hc] at h; rw [xor_pow_add_of_dvd hc, ← key c hc, ← key b he, h]
  · left; rw [half c hc, half d hd'] at h; rw [← key c hc, ← key d hd', h]

theorem nested {k j a b x : ℕ} (hkj : k ≤ j) (ha : 2 ^ k ∣ a) (hb : 2 ^ j ∣ b)
    (hxa : InCell k a x) (hxb : InCell j b x) : b ≤ a ∧ a + 2 ^ k ≤ b + 2 ^ j := by
  obtain ⟨c, rfl⟩ := ha
  obtain ⟨f, hf⟩ : 2 ^ k ∣ 2 ^ j := pow_dvd_pow 2 hkj
  obtain ⟨e, rfl⟩ : 2 ^ k ∣ b := (pow_dvd_pow 2 hkj).trans hb
  obtain ⟨ha1, ha2⟩ := hxa
  obtain ⟨hb1, hb2⟩ := hxb
  rw [hf] at hb2 ⊢
  have h1 : e < c + 1 := by
    apply Nat.lt_of_mul_lt_mul_left (a := 2 ^ k)
    calc 2 ^ k * e ≤ x := hb1
      _ < 2 ^ k * c + 2 ^ k := ha2
      _ = 2 ^ k * (c + 1) := by ring
  have h2 : c < e + f := by
    apply Nat.lt_of_mul_lt_mul_left (a := 2 ^ k)
    calc 2 ^ k * c ≤ x := ha1
      _ < 2 ^ k * e + 2 ^ k * f := hb2
      _ = 2 ^ k * (e + f) := by ring
  constructor
  · exact Nat.mul_le_mul_left _ (by omega)
  · calc 2 ^ k * c + 2 ^ k = 2 ^ k * (c + 1) := by ring
      _ ≤ 2 ^ k * (e + f) := Nat.mul_le_mul_left _ (by omega)
      _ = 2 ^ k * e + 2 ^ k * f := by ring

def CellIn (S : Set ℕ) (k a : ℕ) : Prop := ∀ x, InCell k a x → x ∈ S

/-- An aligned cell inside `S`, of an order between `m` and `M`, that no larger
aligned cell of order at most `M` inside `S` contains. -/
structure IsMaximal (S : Set ℕ) (m M k a : ℕ) : Prop where
  order_ge : m ≤ k
  order_le : k ≤ M
  aligned : 2 ^ k ∣ a
  inside : CellIn S k a
  maximal : ∀ j b, k < j → j ≤ M → 2 ^ j ∣ b → b ≤ a → a + 2 ^ k ≤ b + 2 ^ j → ¬ CellIn S j b

/-- A tiling of `S` by aligned cells of orders between `m` and `M`, without a pair
of buddies below order `M`. -/
structure Tiling (B : Set (ℕ × ℕ)) (S : Set ℕ) (m M : ℕ) : Prop where
  order_ge : ∀ k a, (k, a) ∈ B → m ≤ k
  order_le : ∀ k a, (k, a) ∈ B → k ≤ M
  aligned : ∀ k a, (k, a) ∈ B → 2 ^ k ∣ a
  covers : ∀ x, x ∈ S ↔ ∃ k a, (k, a) ∈ B ∧ InCell k a x
  disjoint : ∀ k a j b x, (k, a) ∈ B → (j, b) ∈ B → InCell k a x → InCell j b x → k = j ∧ a = b
  noBuddies : ∀ k a, (k, a) ∈ B → k < M → (k, a ^^^ 2 ^ k) ∉ B

section Tiling

variable {B : Set (ℕ × ℕ)} {S : Set ℕ} {m M : ℕ}

/-- Every aligned cell inside `S` lies in one cell of the tiling: otherwise its two
halves would be buddies of the tiling. -/
theorem Tiling.exists_mem (hB : Tiling B S m M) {k a : ℕ} (hm : m ≤ k) (hM : k ≤ M)
    (ha : 2 ^ k ∣ a) (hin : CellIn S k a) : ∃ j b, (j, b) ∈ B ∧ k ≤ j ∧ b ≤ a ∧ a + 2 ^ k ≤ b + 2 ^ j := by
  induction k, hm using le_induction generalizing a with
  | base =>
    obtain ⟨j, b, hb, hx⟩ := (hB.covers a).mp (hin a (inCell_self m a))
    have hj := hB.order_ge j b hb
    exact ⟨j, b, hb, hj, nested hj ha (hB.aligned j b hb) (inCell_self m a) hx⟩
  | succ k hm ih =>
    have hp : 2 ^ (k + 1) = 2 ^ k + 2 ^ k := by rw [pow_succ]; ring
    have ha0 : 2 ^ k ∣ a := (pow_dvd_pow 2 (le_succ k)).trans ha
    have ha1 : 2 ^ k ∣ a + 2 ^ k := Nat.dvd_add ha0 dvd_rfl
    obtain ⟨j, b, hb, hj, hba, hab⟩ := ih (by omega) ha0 fun x hx => hin x (by
      simp only [InCell] at *; omega)
    obtain ⟨j', b', hb', hj', hba', hab'⟩ := ih (by omega) ha1 fun x hx => hin x (by
      simp only [InCell] at *; omega)
    -- a cell of the tiling above either half and of a larger order contains the whole cell
    have wide : ∀ i c x, (i, c) ∈ B → k + 1 ≤ i → InCell (k + 1) a x → InCell i c x →
        ∃ j b, (j, b) ∈ B ∧ k + 1 ≤ j ∧ b ≤ a ∧ a + 2 ^ (k + 1) ≤ b + 2 ^ j :=
      fun i c x hc hi hxa hxc => ⟨i, c, hc, hi, nested hi ha (hB.aligned i c hc) hxa hxc⟩
    rcases Nat.lt_or_ge k j with h | h
    · refine wide j b a hb h (inCell_self _ _) ⟨hba, ?_⟩
      have : 0 < 2 ^ k := by positivity
      omega
    rcases Nat.lt_or_ge k j' with h' | h'
    · have : 0 < 2 ^ k := by positivity
      exact wide j' b' (a + 2 ^ k) hb' h' ⟨by omega, by omega⟩ ⟨hba', by omega⟩
    obtain rfl : j = k := by omega
    obtain rfl : j' = j := by omega
    obtain rfl : b = a := by omega
    obtain rfl : b' = b + 2 ^ j' := by omega
    exact absurd hb' (xor_pow_of_dvd ha ▸ hB.noBuddies j' b hb (by omega))

theorem Tiling.mem_iff (hB : Tiling B S m M) (k a : ℕ) : (k, a) ∈ B ↔ IsMaximal S m M k a := by
  constructor
  · intro h
    refine ⟨hB.order_ge k a h, hB.order_le k a h, hB.aligned k a h,
      fun x hx => (hB.covers x).mpr ⟨k, a, h, hx⟩, ?_⟩
    intro j b hkj hjM hb hba hab hin
    obtain ⟨i, c, hc, hi, hcb, hbc⟩ := hB.exists_mem ((hB.order_ge k a h).trans hkj.le) hjM hb hin
    have hpos : 0 < 2 ^ k := by positivity
    have hx : InCell i c a := ⟨hcb.trans hba, by omega⟩
    obtain ⟨rfl, -⟩ := hB.disjoint k a i c a h hc (inCell_self k a) hx
    omega
  · intro h
    obtain ⟨j, b, hb, hj, hba, hab⟩ := hB.exists_mem h.order_ge h.order_le h.aligned h.inside
    rcases Nat.eq_or_lt_of_le hj with rfl | hlt
    · obtain rfl : b = a := by omega
      exact hb
    · exact absurd (fun x hx => (hB.covers x).mpr ⟨j, b, hb, hx⟩)
        (h.maximal j b hlt (hB.order_le j b hb) (hB.aligned j b hb) hba hab)

end Tiling

/-- Aligned cells of one order inside `[lo, hi)`, no two of them in one pair, number
at most one more than the pairs that fit. -/
theorem card_le_of_pairs_nodup {s : Multiset ℕ} {k lo hi : ℕ} (hal : ∀ a ∈ s, 2 ^ k ∣ a)
    (hin : ∀ a ∈ s, lo ≤ a ∧ a + 2 ^ k ≤ hi) (hnd : (s.map (· / 2 ^ (k + 1))).Nodup) :
    s.card ≤ (hi - lo) / 2 ^ (k + 1) + 1 := by
  have hpos : 0 < 2 ^ (k + 1) := by positivity
  have hp : 2 ^ (k + 1) = 2 ^ k + 2 ^ k := by rw [pow_succ]; ring
  -- an aligned cell starts in the first or in the second half of its pair
  have hhalf : ∀ a ∈ s, a ≤ a / 2 ^ (k + 1) * 2 ^ (k + 1) + 2 ^ k := by
    intro a ha
    rcases dvd_or_dvd_sub (hal a ha) with hd | ⟨b, hd, rfl⟩
    · rw [Nat.div_mul_cancel hd]; omega
    · obtain ⟨c, rfl⟩ := hd
      have hk : 0 < 2 ^ k := by positivity
      rw [mul_add_div hpos, div_eq_of_lt (by omega : 2 ^ k < 2 ^ (k + 1))]
      exact le_of_eq (by ring)
  rcases s.empty_or_exists_mem with rfl | ⟨a0, ha₀⟩
  · simp
  set t := (s.map (· / 2 ^ (k + 1))).toFinset with ht
  have hcard : t.card = s.card := by
    rw [ht, toFinset_card_of_nodup hnd, card_map]
  have hne : t.Nonempty := ⟨a0 / 2 ^ (k + 1), by
    rw [ht, mem_toFinset]; exact mem_map_of_mem _ ha₀⟩
  have hmem : ∀ c ∈ t, ∃ a ∈ s, a / 2 ^ (k + 1) = c := fun c hc => by
    rw [ht, mem_toFinset, mem_map] at hc; exact hc
  obtain ⟨a, ha, hac⟩ := hmem _ (t.min'_mem hne)
  obtain ⟨b, hb, hbc⟩ := hmem _ (t.max'_mem hne)
  have hsub : t ⊆ Finset.Icc (t.min' hne) (t.max' hne) := fun c hc =>
    Finset.mem_Icc.mpr ⟨t.min'_le c hc, t.le_max' c hc⟩
  have hle := Finset.card_le_card hsub
  rw [card_Icc, hcard] at hle
  have hspan : (t.max' hne - t.min' hne) * 2 ^ (k + 1) ≤ hi - lo := by
    have h1 := hhalf a ha
    have h2 := (hin a ha).1
    have h3 := (hin b hb).2
    have h4 : b / 2 ^ (k + 1) * 2 ^ (k + 1) ≤ b := div_mul_le_self _ _
    rw [hac] at h1
    rw [hbc] at h4
    rw [Nat.sub_mul]
    omega
  have := (Nat.le_div_iff_mul_le hpos).mpr hspan
  omega

theorem card_le_of_nodup {s : Multiset ℕ} {k lo hi : ℕ} (hal : ∀ a ∈ s, 2 ^ k ∣ a)
    (hin : ∀ a ∈ s, lo ≤ a ∧ a + 2 ^ k ≤ hi) (hnd : s.Nodup) : s.card ≤ (hi - lo) / 2 ^ k := by
  have hpos : 0 < 2 ^ k := by positivity
  rw [Nat.le_div_iff_mul_le hpos]
  have hinj : Set.InjOn (· / 2 ^ k) (s.toFinset : Set ℕ) := by
    intro a ha b hb h
    rw [Finset.mem_coe, mem_toFinset] at ha hb
    have h' : a / 2 ^ k = b / 2 ^ k := h
    rw [← Nat.div_mul_cancel (hal a ha), ← Nat.div_mul_cancel (hal b hb), h']
  rcases s.empty_or_exists_mem with rfl | ⟨a0, ha₀⟩
  · simp
  have hsub : s.toFinset.image (· / 2 ^ k) ⊆ Finset.Ico ((lo + 2 ^ k - 1) / 2 ^ k) (hi / 2 ^ k) := by
    intro c hc
    obtain ⟨a, ha, rfl⟩ := Finset.mem_image.mp hc
    rw [mem_toFinset] at ha
    obtain ⟨d, rfl⟩ := hal a ha
    obtain ⟨h1, h2⟩ := hin _ ha
    rw [Finset.mem_Ico, Nat.mul_div_cancel_left d hpos]
    constructor
    · rw [div_le_iff_le_mul_add_pred hpos]
      omega
    · exact (Nat.le_div_iff_mul_le hpos).mpr (by rw [succ_mul, Nat.mul_comm]; exact h2)
  have hle := Finset.card_le_card hsub
  rw [Finset.card_image_of_injOn hinj, toFinset_card_of_nodup hnd, card_Ico] at hle
  have h1 : hi / 2 ^ k * 2 ^ k ≤ hi := div_mul_le_self _ _
  have h2 : lo ≤ (lo + 2 ^ k - 1) / 2 ^ k * 2 ^ k := by
    have := div_add_mod (lo + 2 ^ k - 1) (2 ^ k)
    have := mod_lt (lo + 2 ^ k - 1) hpos
    rw [Nat.mul_comm]
    omega
  calc s.card * 2 ^ k ≤ (hi / 2 ^ k - (lo + 2 ^ k - 1) / 2 ^ k) * 2 ^ k :=
        Nat.mul_le_mul_right _ hle
    _ ≤ hi - lo := by rw [Nat.sub_mul]; omega

end Dyadic
