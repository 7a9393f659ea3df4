import CoolPotOS.Mem.PageMap

namespace CoolPotOS

/-- The address in an entry for a table or a page of `2 ^ shift` bytes. -/
def addressField (width shift : ℕ) (entry : BitVec 64) : ℕ :=
  entry.toNat % 2 ^ width / 2 ^ shift * 2 ^ shift

def mmuTranslate (width : ℕ) (mem : ℕ → ℕ → BitVec 64) (cr3 va : ℕ) : Option ℕ :=
  let pml4e := mem cr3 (tableIndex 39 va)
  if !hasFlag pml4e ptePresent then none
  else
    let pdpte := mem (addressField width 12 pml4e) (tableIndex 30 va)
    if !hasFlag pdpte ptePresent then none
    else if hasFlag pdpte pteHuge then some (addressField width 30 pdpte + va % 2 ^ 30)
    else
      let pde := mem (addressField width 12 pdpte) (tableIndex 21 va)
      if !hasFlag pde ptePresent then none
      else if hasFlag pde pteHuge then some (addressField width 21 pde + va % 2 ^ 21)
      else
        let pte := mem (addressField width 12 pde) (tableIndex 12 va)
        if !hasFlag pte ptePresent then none
        else some (addressField width 12 pte + va % pageSize)

def mmuEntries (width : ℕ) (mem : ℕ → ℕ → BitVec 64) (cr3 va : ℕ) : List (BitVec 64) :=
  let pml4e := mem cr3 (tableIndex 39 va)
  if !hasFlag pml4e ptePresent then []
  else pml4e ::
    let pdpte := mem (addressField width 12 pml4e) (tableIndex 30 va)
    if !hasFlag pdpte ptePresent then []
    else pdpte ::
      if hasFlag pdpte pteHuge then []
      else
        let pde := mem (addressField width 12 pdpte) (tableIndex 21 va)
        if !hasFlag pde ptePresent then []
        else pde ::
          if hasFlag pde pteHuge then []
          else
            let pte := mem (addressField width 12 pde) (tableIndex 12 va)
            if !hasFlag pte ptePresent then [] else [pte]

/-- `arch_virt_to_phys` reads tables in physical memory only. -/
def ReadsTables (width : ℕ) (mem : ℕ → ℕ → BitVec 64) (pml4 va : ℕ) : Prop :=
  let pml4e := mem pml4 (tableIndex 39 va)
  hasFlag pml4e ptePresent = true → (pml4e &&& pageMask).toNat < 2 ^ width ∧
    let pdpte := mem (pml4e &&& pageMask).toNat (tableIndex 30 va)
    hasFlag pdpte ptePresent = true → hasFlag pdpte pteHuge = false →
      (pdpte &&& pageMask).toNat < 2 ^ width ∧
      let pde := mem (pdpte &&& pageMask).toNat (tableIndex 21 va)
      hasFlag pde ptePresent = true → hasFlag pde pteHuge = false → (pde &&& pageMask).toNat < 2 ^ width

/-- `arch_virt_to_phys` finds what the processor finds, and 0 when there is no mapping and only then. -/
structure TranslatesAsMmu (width : ℕ) (mem : ℕ → ℕ → BitVec 64) (pml4 va : ℕ) : Prop where
  reads : ReadsTables width mem pml4 va
  value : ∀ pa, mmuTranslate width mem pml4 va = some pa → (archVirtToPhys mem pml4 va).toNat = pa
  zero : archVirtToPhys mem pml4 va = 0 ↔ mmuTranslate width mem pml4 va = none

/-- No entry on the way has a bit above the frame field, and address 0 is not mapped there. -/
def PlainEntries (width : ℕ) (mem : ℕ → ℕ → BitVec 64) (pml4 va : ℕ) : Prop :=
  (∀ e ∈ mmuEntries width mem pml4 va, e.toNat < 2 ^ width) ∧ mmuTranslate width mem pml4 va ≠ some 0

section Masks

variable {width shift : ℕ} {e : BitVec 64}

theorem and_add_and_not (e mask : BitVec 64) : (e &&& mask).toNat + (e &&& ~~~mask).toNat = e.toNat := by
  have hdisjoint : (e &&& mask) &&& (e &&& ~~~mask) = 0 := by
    ext i hi
    simp only [BitVec.getElem_and, BitVec.getElem_not]
    cases e[i] <;> cases mask[i] <;> simp
  have hjoin : (e &&& mask) ||| (e &&& ~~~mask) = e := by
    ext i hi
    simp only [BitVec.getElem_or, BitVec.getElem_and, BitVec.getElem_not]
    cases e[i] <;> cases mask[i] <;> rfl
  rw [← BitVec.toNat_add_of_and_eq_zero hdisjoint, BitVec.add_eq_or_of_and_eq_zero _ _ hdisjoint, hjoin]

theorem toNat_and_not_low (hshift : shift < 64) (e : BitVec 64) :
    (e &&& ~~~(BitVec.ofNat 64 (2 ^ shift - 1))).toNat = e.toNat / 2 ^ shift * 2 ^ shift := by
  have hpow : 2 ^ shift < 2 ^ 64 := Nat.pow_lt_pow_right (by norm_num) hshift
  have hlow : (e &&& BitVec.ofNat 64 (2 ^ shift - 1)).toNat = e.toNat % 2 ^ shift := by
    rw [BitVec.toNat_and, BitVec.toNat_ofNat, Nat.mod_eq_of_lt (by omega), Nat.and_two_pow_sub_one_eq_mod]
  have hparts := and_add_and_not e (BitVec.ofNat 64 (2 ^ shift - 1))
  have hdiv := Nat.div_add_mod' e.toNat (2 ^ shift)
  omega

theorem pageMask_eq : pageMask = ~~~(BitVec.ofNat 64 (2 ^ 12 - 1)) := by decide

theorem div_mul_lt_iff {n : ℕ} (hle : shift ≤ width) : n / 2 ^ shift * 2 ^ shift < 2 ^ width ↔ n < 2 ^ width := by
  obtain ⟨k, rfl⟩ := Nat.exists_eq_add_of_le hle
  rw [pow_add, mul_comm (2 ^ shift), Nat.mul_lt_mul_right (Nat.two_pow_pos shift),
    Nat.div_lt_iff_lt_mul (Nat.two_pow_pos shift)]

theorem toNat_and_pageMask_lt_iff (hle : 12 ≤ width) (e : BitVec 64) :
    (e &&& pageMask).toNat < 2 ^ width ↔ e.toNat < 2 ^ width := by
  rw [pageMask_eq, toNat_and_not_low (by norm_num), div_mul_lt_iff hle]

theorem toNat_and_pageMask (hlt : e.toNat < 2 ^ width) :
    (e &&& pageMask).toNat = addressField width 12 e := by
  rw [pageMask_eq, toNat_and_not_low (by norm_num), addressField, Nat.mod_eq_of_lt hlt]

theorem leaf_iff (hshift : shift < 64) (hle : shift ≤ width) (e : BitVec 64) (va : ℕ) :
    ((e &&& ~~~(BitVec.ofNat 64 (2 ^ shift - 1))) + BitVec.ofNat 64 (va % 2 ^ shift)).toNat =
      addressField width shift e + va % 2 ^ shift ↔ e.toNat < 2 ^ width := by
  have hpos := Nat.two_pow_pos shift
  have hoffset := Nat.mod_lt va hpos
  have hpow : 2 ^ shift < 2 ^ 64 := Nat.pow_lt_pow_right (by norm_num) hshift
  -- the sum of the rounded entry and the offset stays in its page, and so below `2 ^ 64`
  have hsum : e.toNat / 2 ^ shift * 2 ^ shift + va % 2 ^ shift < 2 ^ 64 := by
    have hmod : (e.toNat / 2 ^ shift * 2 ^ shift + va % 2 ^ shift) / 2 ^ shift = e.toNat / 2 ^ shift := by
      rw [Nat.add_comm, Nat.add_mul_div_right _ _ hpos, Nat.div_eq_of_lt hoffset, Nat.zero_add]
    rw [← div_mul_lt_iff hshift.le, hmod, div_mul_lt_iff hshift.le]
    exact e.isLt
  rw [BitVec.toNat_add, toNat_and_not_low hshift, BitVec.toNat_ofNat,
    Nat.mod_eq_of_lt (hoffset.trans hpow), Nat.mod_eq_of_lt hsum, Nat.add_right_cancel_iff, addressField]
  constructor
  · intro heq
    rw [← div_mul_lt_iff hle, heq, div_mul_lt_iff hle]
    exact Nat.mod_lt _ (Nat.two_pow_pos width)
  · intro hlt
    rw [Nat.mod_eq_of_lt hlt]

end Masks

section Walk

variable {width shift : ℕ} {mem : ℕ → ℕ → BitVec 64} {pml4 va : ℕ}

theorem translatesAsMmu_iff_and : TranslatesAsMmu width mem pml4 va ↔ ReadsTables width mem pml4 va ∧
    (∀ pa, mmuTranslate width mem pml4 va = some pa → (archVirtToPhys mem pml4 va).toNat = pa) ∧
    (archVirtToPhys mem pml4 va = 0 ↔ mmuTranslate width mem pml4 va = none) :=
  ⟨fun h => ⟨h.reads, h.value, h.zero⟩, fun h => ⟨h.1, h.2.1, h.2.2⟩⟩

theorem leaf_agrees (hshift : shift < 64) (hle : shift ≤ width) (e : BitVec 64) (va : ℕ) :
    ((∀ pa, some (addressField width shift e + va % 2 ^ shift) = some pa →
        ((e &&& ~~~(BitVec.ofNat 64 (2 ^ shift - 1))) + BitVec.ofNat 64 (va % 2 ^ shift)).toNat = pa) ∧
      ((e &&& ~~~(BitVec.ofNat 64 (2 ^ shift - 1))) + BitVec.ofNat 64 (va % 2 ^ shift) = 0 ↔
        some (addressField width shift e + va % 2 ^ shift) = none)) ↔
      e.toNat < 2 ^ width ∧ some (addressField width shift e + va % 2 ^ shift) ≠ some 0 := by
  have hleaf := leaf_iff hshift hle e va
  generalize (e &&& ~~~(BitVec.ofNat 64 (2 ^ shift - 1))) + BitVec.ofNat 64 (va % 2 ^ shift) = v at hleaf ⊢
  generalize addressField width shift e + va % 2 ^ shift = pa at hleaf ⊢
  rw [← hleaf]
  constructor
  · rintro ⟨hvalue, hzero⟩
    have hv := hvalue pa rfl
    refine ⟨hv, fun hnull => ?_⟩
    have hpa : pa = 0 := Option.some.inj hnull
    have hv0 : v = 0 := BitVec.eq_of_toNat_eq (hv.trans hpa)
    cases hzero.mp hv0
  · rintro ⟨hv, hne⟩
    refine ⟨fun pa' hpa' => hv.trans (Option.some.inj hpa'), ⟨fun hv0 => ?_, nofun⟩⟩
    rw [hv0] at hv
    exact absurd (congrArg some hv.symm) hne

/-- At an entry that leads to a table: one with a bit above the frame field leads the code out of the memory,
and else both walks go on to the same table. -/
theorem table_agrees (hle : 12 ≤ width) (e : BitVec 64) {R V L T : Prop}
    (hnext : e.toNat < 2 ^ width → (R ∧ V ↔ L ∧ T)) :
    ((e &&& pageMask).toNat < 2 ^ width ∧ R) ∧ V ↔ (e.toNat < 2 ^ width ∧ L) ∧ T := by
  rw [toNat_and_pageMask_lt_iff hle, and_assoc, and_assoc]
  exact and_congr_right hnext

/-- `arch_virt_to_phys` agrees with the processor exactly where no entry on the way has a bit above the frame
field and address 0 is not what is mapped. -/
theorem translatesAsMmu_iff (hwidth : 30 ≤ width) :
    TranslatesAsMmu width mem pml4 va ↔ PlainEntries width mem pml4 va := by
  rw [translatesAsMmu_iff_and]
  unfold PlainEntries ReadsTables archVirtToPhys mmuTranslate mmuEntries
  dsimp only
  generalize mem pml4 (tableIndex 39 va) = pml4e
  cases h4 : hasFlag pml4e ptePresent with
  | false => simp
  | true =>
  simp only [Bool.not_true, Bool.false_eq_true, if_false, forall_const, List.forall_mem_cons]
  refine table_agrees (by omega) pml4e fun hp4 => ?_
  rw [toNat_and_pageMask hp4]
  generalize mem (addressField width 12 pml4e) (tableIndex 30 va) = pdpte
  cases h3 : hasFlag pdpte ptePresent with
  | false => simp
  | true =>
  simp only [Bool.not_true, Bool.false_eq_true, if_false, forall_const, List.forall_mem_cons]
  cases hhuge3 : hasFlag pdpte pteHuge with
  | true =>
    simp only [if_true, List.not_mem_nil, Bool.true_eq_false, false_implies, implies_true, and_true, true_and]
    exact leaf_agrees (by norm_num) hwidth pdpte va
  | false =>
  simp only [Bool.false_eq_true, if_false, forall_const]
  refine table_agrees (by omega) pdpte fun hp3 => ?_
  rw [toNat_and_pageMask hp3]
  generalize mem (addressField width 12 pdpte) (tableIndex 21 va) = pde
  cases h2 : hasFlag pde ptePresent with
  | false => simp
  | true =>
  simp only [Bool.not_true, Bool.false_eq_true, if_false, forall_const, List.forall_mem_cons]
  cases hhuge2 : hasFlag pde pteHuge with
  | true =>
    have hshift : 21 < 64 := by norm_num
    simp only [if_true, List.not_mem_nil, Bool.true_eq_false, false_implies, implies_true, and_true, true_and]
    exact leaf_agrees hshift (by omega) pde va
  | false =>
  simp only [Bool.false_eq_true, if_false, forall_const]
  rw [← and_true ((pde &&& pageMask).toNat < 2 ^ width)]
  refine table_agrees (by omega) pde fun hp2 => ?_
  rw [toNat_and_pageMask hp2]
  generalize mem (addressField width 12 pde) (tableIndex 12 va) = pte
  cases h1 : hasFlag pte ptePresent with
  | false => simp
  | true =>
  simp only [Bool.not_true, Bool.false_eq_true, if_false, List.forall_mem_singleton, true_and]
  rw [pageMask_eq]
  exact leaf_agrees (by norm_num) (by omega) pte va

/-- Two addresses have the same futex key exactly when they lead to the same word, if both are translated as
the processor does. -/
theorem archVirtToPhys_eq_iff {mem' : ℕ → ℕ → BitVec 64} {pml4' va' pa pa' : ℕ}
    (h : TranslatesAsMmu width mem pml4 va) (h' : TranslatesAsMmu width mem' pml4' va')
    (hpa : mmuTranslate width mem pml4 va = some pa) (hpa' : mmuTranslate width mem' pml4' va' = some pa') :
    archVirtToPhys mem pml4 va = archVirtToPhys mem' pml4' va' ↔ pa = pa' := by
  rw [← h.value pa hpa, ← h'.value pa' hpa', BitVec.toNat_inj]

/-- When `arch_virt_to_phys` is the translation of the processor. Two addresses of this kind have the same futex
key exactly when they lead to the same word. -/
theorem archVirtToPhys_translates (hwidth : 30 ≤ width) (mem : ℕ → ℕ → BitVec 64) (pml4 va : ℕ) :
    (TranslatesAsMmu width mem pml4 va ↔ PlainEntries width mem pml4 va) ∧
      ∀ mem' pml4' va' pa pa', PlainEntries width mem pml4 va → PlainEntries width mem' pml4' va' →
        mmuTranslate width mem pml4 va = some pa → mmuTranslate width mem' pml4' va' = some pa' →
        (archVirtToPhys mem pml4 va = archVirtToPhys mem' pml4' va' ↔ pa = pa') := by
  refine ⟨translatesAsMmu_iff hwidth, fun mem' pml4' va' pa pa' h h' hpa hpa' => ?_⟩
  exact archVirtToPhys_eq_iff ((translatesAsMmu_iff hwidth).mpr h) ((translatesAsMmu_iff hwidth).mpr h') hpa hpa'

end Walk

/-- One frame that is mapped at three pages, at the third one without execution. -/
def threeViews (table index : ℕ) : BitVec 64 :=
  if table = 0x1000 ∧ index = 0 then 0x2003
  else if table = 0x2000 ∧ index = 0 then 0x3003
  else if table = 0x3000 ∧ index = 0 then 0x4003
  else if table = 0x4000 ∧ (index = 1 ∨ index = 2) then 0x5003
  else if table = 0x4000 ∧ index = 3 then 0x5003 ||| pteNoExecute
  else 0

theorem plainEntries_threeViews {va : ℕ} (h : va = 0x1008 ∨ va = 0x2008) : PlainEntries 47 threeViews 0x1000 va := by
  have hentries : mmuEntries 47 threeViews 0x1000 va = [0x2003, 0x3003, 0x4003, 0x5003] := by
    rcases h with rfl | rfl <;> decide
  have hmmu : mmuTranslate 47 threeViews 0x1000 va = some 0x5008 := by
    rcases h with rfl | rfl <;> decide
  refine ⟨?_, hmmu ▸ by decide⟩
  rw [hentries]
  simp

theorem archVirtToPhys_translates_threeViews :
    TranslatesAsMmu 47 threeViews 0x1000 0x1008 ∧
      (archVirtToPhys threeViews 0x1000 0x1008 = archVirtToPhys threeViews 0x1000 0x2008 ↔ 0x5008 = 0x5008) := by
  have hboth := archVirtToPhys_translates (by norm_num : 30 ≤ 47) threeViews 0x1000 0x1008
  have hplain : PlainEntries 47 threeViews 0x1000 0x1008 := plainEntries_threeViews (.inl rfl)
  have hplain' : PlainEntries 47 threeViews 0x1000 0x2008 := plainEntries_threeViews (.inr rfl)
  refine ⟨hboth.1.mpr hplain, ?_⟩
  exact hboth.2 _ _ _ 0x5008 0x5008 hplain hplain' (by decide) (by decide)

/-- For a page that is not executable bit 63 of the entry becomes part of the address, so that the same word has
another futex key there. -/
theorem archVirtToPhys_noExecute :
    mmuTranslate 47 threeViews 0x1000 0x3008 = some 0x5008 ∧
      (archVirtToPhys threeViews 0x1000 0x3008).toNat = 0x8000000000005008 ∧
      ¬ TranslatesAsMmu 47 threeViews 0x1000 0x3008 ∧
      mmuTranslate 47 threeViews 0x1000 0x1008 = some 0x5008 ∧
      archVirtToPhys threeViews 0x1000 0x1008 ≠ archVirtToPhys threeViews 0x1000 0x3008 := by
  have hmmu : mmuTranslate 47 threeViews 0x1000 0x3008 = some 0x5008 := by decide
  have hcode : (archVirtToPhys threeViews 0x1000 0x3008).toNat = 0x8000000000005008 := by decide
  refine ⟨hmmu, hcode, fun h => ?_, by decide, by decide⟩
  rw [h.value _ hmmu] at hcode
  omega

end CoolPotOS
