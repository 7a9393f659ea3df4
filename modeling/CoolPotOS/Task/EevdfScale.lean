import CoolPotOS.Task.Eevdf

namespace CoolPotOS

theorem lt_two_pow_fls (x : ℕ) : x < 2 ^ fls x := by
  unfold fls
  split_ifs with hx
  · rw [hx]
    decide
  · exact Nat.lt_log2_self

theorem two_pow_fls_le {x : ℕ} (hx : x ≠ 0) : 2 ^ (fls x - 1) ≤ x := by
  unfold fls
  rw [if_neg hx, Nat.add_sub_cancel]
  exact Nat.log2_self_le hx

theorem normalizeFact_spec {fact : ℕ} (hfact : fact < 2 ^ 64) (shift : ℤ) :
    ∃ fs : ℕ, normalizeFact fact shift = (fact / 2 ^ fs, shift - fs) ∧ fact / 2 ^ fs < 2 ^ 32 ∧
      (fs = 0 ∨ 2 ^ (fs + 31) ≤ fact) := by
  have hhi : fact / 2 ^ 32 % 2 ^ 32 = fact / 2 ^ 32 := by
    apply Nat.mod_eq_of_lt
    rw [Nat.div_lt_iff_lt_mul (by decide)]
    exact hfact
  unfold normalizeFact
  dsimp only
  rw [hhi]
  by_cases hzero : fact / 2 ^ 32 = 0
  · rw [if_pos hzero]
    refine ⟨0, ?_, ?_, .inl rfl⟩
    · simp
    · rw [pow_zero, Nat.div_one]
      exact (Nat.div_eq_zero_iff_lt (by decide)).mp hzero
  · rw [if_neg hzero]
    refine ⟨fls (fact / 2 ^ 32), rfl, ?_, .inr ?_⟩
    · have hlt := lt_two_pow_fls (fact / 2 ^ 32)
      rw [Nat.div_lt_iff_lt_mul (by decide)] at hlt
      rw [Nat.div_lt_iff_lt_mul (Nat.two_pow_pos _), Nat.mul_comm]
      exact hlt
    · have hpos : 1 ≤ fls (fact / 2 ^ 32) := by
        unfold fls
        rw [if_neg hzero]
        exact Nat.succ_pos _
      have hle := two_pow_fls_le hzero
      rw [Nat.le_div_iff_mul_le (by decide), ← pow_add] at hle
      have hexp : fls (fact / 2 ^ 32) - 1 + 32 = fls (fact / 2 ^ 32) + 31 := by omega
      rwa [hexp] at hle

variable {lw : LoadWeight}

theorem invWeight_updateInvWeight (h : lw.invWeight < 2 ^ 32) : (updateInvWeight lw).invWeight < 2 ^ 32 := by
  unfold updateInvWeight
  split_ifs
  · exact h
  · dsimp only
    split_ifs
    · dsimp only
      decide
    · dsimp only
      decide
    · exact (Nat.div_le_self _ _).trans_lt (by decide)

/-- The factor and the shift that `__calc_delta` passes to `mul_u64_u32_shr`. -/
def deltaFactor (weight : ℕ) (lw : LoadWeight) : ℕ × ℤ :=
  let (fact, shift) := normalizeFact (scaleLoadDown weight) 32
  normalizeFact (wrap (fact * (updateInvWeight lw).invWeight)) shift

theorem calcDelta_eq (delta weight : ℕ) (lw : LoadWeight) : calcDelta delta weight lw =
      (mulU64U32Shr delta (deltaFactor weight lw).1 (deltaFactor weight lw).2.toNat, updateInvWeight lw) :=
  rfl

/-- The 128-bit value that `mul_u64_u32_shr` computes, before it is narrowed. -/
def scaledDelta (delta weight : ℕ) (lw : LoadWeight) : ℕ :=
  delta * (deltaFactor weight lw).1 / 2 ^ (deltaFactor weight lw).2.toNat

theorem deltaFactor_nice0Load (h : lw.invWeight < 2 ^ 32) : ∃ fs : ℕ, fs ≤ 10 ∧
      deltaFactor nice0Load lw = (2 ^ (10 - fs) * (updateInvWeight lw).invWeight, 32 - (fs : ℤ)) ∧
      2 ^ (10 - fs) * (updateInvWeight lw).invWeight < 2 ^ 32 := by
  have hinv := invWeight_updateInvWeight h
  have hfirst : normalizeFact (scaleLoadDown nice0Load) 32 = (1024, 32) := by decide
  have hfactor : deltaFactor nice0Load lw =
      normalizeFact (wrap (1024 * (updateInvWeight lw).invWeight)) 32 := by
    unfold deltaFactor
    rw [hfirst]
  rw [hfactor]
  generalize (updateInvWeight lw).invWeight = inv at hinv
  have hlt : 1024 * inv < 2 ^ 42 := by omega
  have hwrap : wrap (1024 * inv) = 1024 * inv := Nat.mod_eq_of_lt (by omega)
  obtain ⟨fs, hnorm, hfact, hfs⟩ := normalizeFact_spec (show 1024 * inv < 2 ^ 64 by omega) 32
  have hten : fs ≤ 10 := by
    obtain rfl | hle := hfs
    · exact Nat.zero_le 10
    · have hpow := (Nat.pow_lt_pow_iff_right (by decide)).mp (hle.trans_lt hlt)
      omega
  have hsplit : 1024 * inv = 2 ^ fs * (2 ^ (10 - fs) * inv) := by
    rw [← Nat.mul_assoc, ← pow_add, Nat.add_sub_cancel' hten]
    rfl
  have hdiv : 1024 * inv / 2 ^ fs = 2 ^ (10 - fs) * inv := by
    rw [hsplit, Nat.mul_div_cancel_left _ (Nat.two_pow_pos fs)]
  rw [hdiv] at hnorm hfact
  exact ⟨fs, hten, hwrap.symm ▸ hnorm, hfact⟩

theorem scaledDelta_eq (h : lw.invWeight < 2 ^ 32) (delta : ℕ) :
    scaledDelta delta nice0Load lw = delta * 1024 * (updateInvWeight lw).invWeight / 2 ^ 32 := by
  obtain ⟨fs, hten, hfactor, -⟩ := deltaFactor_nice0Load h
  unfold scaledDelta
  rw [hfactor]
  dsimp only
  have hshift : (32 - (fs : ℤ)).toNat = 32 - fs := by omega
  have hpow : 2 ^ 32 = 2 ^ fs * 2 ^ (32 - fs) := by
    rw [← pow_add, Nat.add_sub_cancel' (by omega)]
  have hscale : 2 ^ fs * 2 ^ (10 - fs) = 1024 := by
    rw [← pow_add, Nat.add_sub_cancel' hten]
    rfl
  have hnum : delta * 1024 * (updateInvWeight lw).invWeight =
      2 ^ fs * (delta * (2 ^ (10 - fs) * (updateInvWeight lw).invWeight)) := by
    rw [← hscale]
    ring
  rw [hshift, hnum, hpow, Nat.mul_div_mul_left _ _ (Nat.two_pow_pos fs)]

def exactDelta (delta : ℕ) (lw : LoadWeight) : ℚ :=
  delta * 1024 * (updateInvWeight lw).invWeight / 2 ^ 32

/-- The call of `__calc_delta` for `NICE_0_LOAD`: the factor is not truncated to 32 bits, the shift is one
of a word of 64 bits, the product fits in 128 bits, and the value before the narrowing is below the
exact quotient by less than the bound. -/
structure DeltaScaled (delta : ℕ) (lw : LoadWeight) : Prop where
  factor : (deltaFactor nice0Load lw).1 < 2 ^ 32
  shift_nonneg : 0 ≤ (deltaFactor nice0Load lw).2
  shift_le : (deltaFactor nice0Load lw).2 ≤ 63
  product : delta * (deltaFactor nice0Load lw).1 < 2 ^ 128
  lower : exactDelta delta lw - delta * 2 ^ 10 / 2 ^ 32 - 1 ≤ scaledDelta delta nice0Load lw
  upper : scaledDelta delta nice0Load lw ≤ exactDelta delta lw
  result : (calcDelta delta nice0Load lw).1 = scaledDelta delta nice0Load lw % 2 ^ 64

theorem scaledDelta_bounds (h : lw.invWeight < 2 ^ 32) (delta : ℕ) :
    exactDelta delta lw - 1 < scaledDelta delta nice0Load lw ∧
      scaledDelta delta nice0Load lw ≤ exactDelta delta lw := by
  rw [scaledDelta_eq h]
  unfold exactDelta
  generalize (updateInvWeight lw).invWeight = inv
  have hcast : ((delta : ℚ) * 1024 * inv / 2 ^ 32) = ((delta * 1024 * inv : ℕ) : ℚ) / ((2 ^ 32 : ℕ) : ℚ) := by
    push_cast
    rfl
  rw [hcast, ← Nat.floor_div_eq_div (K := ℚ)]
  exact ⟨Nat.sub_one_lt_floor _, Nat.floor_le (by positivity)⟩

theorem calcDelta_deltaScaled {delta : ℕ} (hdelta : delta < 2 ^ 64) (h : lw.invWeight < 2 ^ 32) :
    DeltaScaled delta lw := by
  obtain ⟨fs, hten, hfactor, hlt⟩ := deltaFactor_nice0Load h
  obtain ⟨hlower, hupper⟩ := scaledDelta_bounds h delta
  have hfact : (deltaFactor nice0Load lw).1 < 2 ^ 32 := by
    rw [hfactor]
    exact hlt
  constructor
  · exact hfact
  · rw [hfactor]
    dsimp only
    omega
  · rw [hfactor]
    dsimp only
    omega
  · calc
      delta * (deltaFactor nice0Load lw).1 < 2 ^ 64 * 2 ^ 32 := Nat.mul_lt_mul'' hdelta hfact
      _ < 2 ^ 128 := by decide
  · have hslack : (0 : ℚ) ≤ delta * 2 ^ 10 / 2 ^ 32 := by positivity
    linarith
  · exact hupper
  · rw [calcDelta_eq]
    unfold mulU64U32Shr scaledDelta wrap
    dsimp only
    rw [Nat.mod_eq_of_lt hfact]

theorem calcDeltaFair_mono {delta delta' : ℕ} {se : SchedEntity} (h : se.load.invWeight < 2 ^ 32)
    (hle : delta' ≤ delta) (hdelta : delta < 2 ^ 64) (hfits : exactDelta delta se.load < 2 ^ 64) :
    (calcDeltaFair delta' se).1 ≤ (calcDeltaFair delta se).1 := by
  unfold calcDeltaFair
  split_ifs
  · exact hle
  · dsimp only
    rw [(calcDelta_deltaScaled (hle.trans_lt hdelta) h).result, (calcDelta_deltaScaled hdelta h).result]
    have hbelow : scaledDelta delta nice0Load se.load < 2 ^ 64 := by
      have hupper := (scaledDelta_bounds h delta).2.trans_lt hfits
      exact_mod_cast hupper
    have hmono : scaledDelta delta' nice0Load se.load ≤ scaledDelta delta nice0Load se.load := by
      rw [scaledDelta_eq h, scaledDelta_eq h]
      exact Nat.div_le_div_right (Nat.mul_le_mul_right _ (Nat.mul_le_mul_right _ hle))
    rw [Nat.mod_eq_of_lt hbelow, Nat.mod_eq_of_lt (hmono.trans_lt hbelow)]
    exact hmono

/-- For every time of 64 bits and every load with an inverse weight of 32 bits, the call of
`__calc_delta` by `calc_delta_fair` is safe and rounds down within the bound, and scaling keeps the
order of the times whose exact quotient fits in 64 bits. -/
theorem calcDelta_scales (delta : ℕ) (se : SchedEntity) (hdelta : delta < 2 ^ 64)
    (hinv : se.load.invWeight < 2 ^ 32) :
    (se.load.weight ≠ nice0Load →
        calcDeltaFair delta se = ((calcDelta delta nice0Load se.load).1,
          { se with load := (calcDelta delta nice0Load se.load).2 })) ∧
      DeltaScaled delta se.load ∧
      (exactDelta delta se.load < 2 ^ 64 →
        ∀ delta' ≤ delta, (calcDeltaFair delta' se).1 ≤ (calcDeltaFair delta se).1) := by
  refine ⟨?_, calcDelta_deltaScaled hdelta hinv, ?_⟩
  · intro hweight
    unfold calcDeltaFair
    rw [if_neg hweight]
  · exact fun hfits delta' hle => calcDeltaFair_mono hinv hle hdelta hfits

/-- The longest time, with the inverse weight of the highest priority. -/
theorem calcDelta_scales_longest :
    DeltaScaled (2 ^ 64 - 1) ⟨88761 * 2 ^ 10, 48388⟩ :=
  (calcDelta_scales (2 ^ 64 - 1) { (default : SchedEntity) with load := ⟨88761 * 2 ^ 10, 48388⟩ }
    (by decide) (by decide)).2.1

end CoolPotOS
