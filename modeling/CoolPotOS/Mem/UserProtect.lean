import CoolPotOS.Mem.UserAccess

namespace CoolPotOS

open Function Option

section Attributes

variable {pages : PageEntries} {tabled : ℕ → Bool} {flags : BitVec 64} {i j n : ℕ}

theorem wrap_next (hn : j + (n + 1) ≤ 2 ^ 36) : wrap (j * pageSize + pageSize) = (j + 1) * pageSize := by
  rw [← Nat.succ_mul]
  apply wrap_of_lt
  unfold pageSize
  omega

theorem pageIndex_mul (hj : j < 2 ^ 36) : pageIndex (j * pageSize) = j := by
  unfold pageIndex
  rw [Nat.mul_div_cancel j (by decide), Nat.mod_eq_of_lt hj]

theorem UserSpace.changeAttribute_apply (hn : j + n ≤ 2 ^ 36) :
    changeAttribute tabled flags n (j * pageSize) pages i =
      if j ≤ i ∧ i < j + n then changedEntry tabled flags i (pages i) else pages i := by
  induction n generalizing pages j with
  | zero => exact (if_neg (by omega)).symm
  | succ n ih =>
    have hidx : pageIndex (j * pageSize) = j := pageIndex_mul (by omega)
    rw [changeAttribute, wrap_next hn, ih (by omega), hidx]
    obtain rfl | hne := eq_or_ne i j
    · rw [update_self, if_neg (by omega), if_pos (by omega)]
    · rw [update_of_ne hne]
      by_cases hi : j ≤ i ∧ i < j + (n + 1)
      · rw [if_pos hi, if_pos (by omega)]
      · rw [if_neg hi, if_neg (by omega)]

end Attributes

section Populate

variable {s : UserSpace} {ps : List (ℕ × Vma)} {files : ℕ → Except Errno (Option (ℕ × BitVec 64))}
  {frames : ℕ → ℕ} {j n : ℕ}

/-- The page at `x` gets a frame from its file, or a new one. -/
def Vma.Served (files : ℕ → Except Errno (Option (ℕ × BitVec 64))) (frames : ℕ → ℕ) (x : ℕ) (v : Vma) : Prop :=
  if v.vmType = .file ∧ v.vmFd ≥ 0 then ∃ e, files x = .ok (some e) ∧ e.1 ≠ 0 else frames x ≠ 0

theorem UserSpace.virtToPhys_congr {s' : UserSpace} {x : ℕ} (h : s'.pages (pageIndex x) = s.pages (pageIndex x)) :
    s'.virtToPhys x = s.virtToPhys x := by
  unfold virtToPhys
  rw [h]

theorem UserSpace.entry_of_virtToPhys (hj : j < 2 ^ 36) (h : s.virtToPhys (j * pageSize) ≠ 0) :
    ∃ e, s.pages j = some e ∧ e.1 ≠ 0 := by
  unfold virtToPhys at h
  rw [pageIndex_mul hj, Nat.mul_mod_left] at h
  cases hp : s.pages j with
  | none =>
    rw [hp] at h
    exact absurd rfl h
  | some e =>
    obtain ⟨frame, flags⟩ := e
    rw [hp] at h
    dsimp only at h
    split_ifs at h with hpresent
    · exact ⟨_, rfl, h⟩
    · exact absurd rfl h

theorem PagedInv.populate_step (h : PagedInv s.mgr ps) (prot : BitVec 64) (hj : j + (n + 1) ≤ 2 ^ 36)
    (habsent : s.virtToPhys (j * pageSize) = 0) {v : Vma} (hv : v ∈ ps.map Prod.snd)
    (hvx : v.vmStart ≤ j * pageSize ∧ j * pageSize < v.vmEnd)
    (hserved : v.Served files frames (j * pageSize)) :
    ∃ e : ℕ × BitVec 64, e.1 ≠ 0 ∧ UserSpace.populate prot files frames (n + 1) (j * pageSize) s =
      UserSpace.populate prot files frames n ((j + 1) * pageSize)
        { s with pages := update s.pages j (some e) } := by
  obtain ⟨-, hfree⟩ | ⟨l1, p, w, l2, hfind, rfl, hw⟩ := h.find_cases (j * pageSize)
  · exact absurd hvx (hfree v hv)
  -- the area that is found is the one that holds the address
  obtain rfl : w = v := h.ok.eq_of_mem (by simp) hv hw hvx
  rw [UserSpace.populate, if_neg (not_not.mpr habsent), wrap_next hj, pageIndex_mul (by omega)]
  unfold Vma.Served at hserved
  simp only [hfind, h.linked.get, bind_eq_bind, bind_some, map_some, decide_eq_true_eq]
  split_ifs at hserved ⊢ with hfile
  · obtain ⟨e, he, hne⟩ := hserved
    refine ⟨e, hne, ?_⟩
    rw [he]
  · exact ⟨(frames (j * pageSize), ptFlagsFromProt prot), hserved, rfl⟩

theorem PagedInv.populate_spec (h : PagedInv s.mgr ps) (prot : BitVec 64) (hj : j + n ≤ 2 ^ 36)
    (hserved : ∀ k, j ≤ k → k < j + n → ∃ v ∈ ps.map Prod.snd, (v.vmStart ≤ k * pageSize ∧ k * pageSize < v.vmEnd) ∧
      (s.virtToPhys (k * pageSize) = 0 → v.Served files frames (k * pageSize))) :
    ∃ pages, UserSpace.populate prot files frames n (j * pageSize) s = some ({ s with pages := pages }, none) ∧
      (∀ i, ¬(j ≤ i ∧ i < j + n) → pages i = s.pages i) ∧
      ∀ i, j ≤ i → i < j + n → ∃ e, pages i = some e ∧ e.1 ≠ 0 := by
  induction n generalizing s j with
  | zero => exact ⟨s.pages, rfl, fun _ _ => rfl, fun i h1 h2 => by omega⟩
  | succ n ih =>
    by_cases hpresent : s.virtToPhys (j * pageSize) ≠ 0
    · obtain ⟨e, he, hne⟩ := UserSpace.entry_of_virtToPhys (by omega) hpresent
      obtain ⟨pages, hrun, hout, hin⟩ := ih (j := j + 1) h (by omega) fun k h1 h2 => hserved k (by omega) (by omega)
      refine ⟨pages, ?_, fun i hi => hout i (by omega), fun i h1 h2 => ?_⟩
      · rw [UserSpace.populate, if_pos hpresent, wrap_next hj, hrun]
      · obtain rfl | hlt := h1.eq_or_lt
        · exact ⟨e, (hout j (by omega)).trans he, hne⟩
        · exact hin i hlt (by omega)
    · rw [not_not] at hpresent
      obtain ⟨v, hv, hvx, hv'⟩ := hserved j le_rfl (by omega)
      obtain ⟨e, hne, hstep⟩ := h.populate_step prot hj hpresent hv hvx (hv' hpresent)
      -- the other pages are as before
      have hsame : ∀ k, j < k → k < j + (n + 1) →
          ({ s with pages := update s.pages j (some e) } : UserSpace).virtToPhys (k * pageSize) =
            s.virtToPhys (k * pageSize) := by
        intro k h1 h2
        apply UserSpace.virtToPhys_congr
        rw [pageIndex_mul (by omega)]
        exact update_of_ne h1.ne' _ _
      obtain ⟨pages, hrun, hout, hin⟩ := ih (s := { s with pages := update s.pages j (some e) })
        (j := j + 1) h (by omega) fun k h1 h2 => by
          obtain ⟨w, hw, hwx, hw'⟩ := hserved k (by omega) (by omega)
          rw [hsame k (by omega) (by omega)]
          exact ⟨w, hw, hwx, hw'⟩
      refine ⟨pages, hstep.trans hrun, fun i hi => ?_, fun i h1 h2 => ?_⟩
      · exact (hout i (by omega)).trans (update_of_ne (by omega) _ _)
      · obtain rfl | hlt := h1.eq_or_lt
        · exact ⟨e, (hout j (by omega)).trans (update_self _ _ _), hne⟩
        · exact hin i hlt (by omega)

/-- The pages and the flags of the range after `mprotect`. -/
structure RangeProtected (s : UserSpace) (ps : List (ℕ × Vma)) (prot : BitVec 64) (a b : ℕ) (s' : UserSpace)
    (ps' : List (ℕ × Vma)) : Prop where
  inv : PagedInv s'.mgr ps'
  queue : s'.virtQueue = s.virtQueue
  flags : ∀ x, s'.mgr.flagsAt x = (s.mgr.flagsAt x).map fun f => if a ≤ x ∧ x < b then protFlags f prot else f
  outside : ∀ i, ¬(a ≤ i * pageSize ∧ i * pageSize < b) → s'.pages i = s.pages i
  inside : ∀ i, a ≤ i * pageSize → i * pageSize < b → ∃ e : ℕ × BitVec 64, e.1 ≠ 0 ∧
    s'.pages i = some (e.1, (e.2 &&& pageMask) ||| getArchPageTableFlags (ptFlagsFromProt prot))

theorem PagedInv.mprotect_spec (h : PagedInv s.mgr ps) {addr length prot : BitVec 64} (tabled : ℕ → Bool)
    {b : ℕ} (hb : wrap (paddingDown addr.toNat + paddingUp length.toNat) = b) (hle : b ≤ 2 ^ 48) (hprot : prot ≠ 0)
    (hover : checkUserOverflow (paddingDown addr.toNat) (paddingUp length.toNat) = false)
    (hgranted : s.mgr.Granted) (hserved : ∀ k, paddingDown addr.toNat ≤ k * pageSize → k * pageSize < b →
      ∃ v ∈ ps.map Prod.snd, (v.vmStart ≤ k * pageSize ∧ k * pageSize < v.vmEnd) ∧
        (s.virtToPhys (k * pageSize) = 0 → v.Served files frames (k * pageSize))) :
    ∃ s' ps', s.mprotect addr length prot files frames tabled = some (s', .ok 0) ∧
      RangeProtected s ps prot (paddingDown addr.toNat) b s' ps' := by
  have hdvd : pageSize ∣ b := hb ▸ dvd_wrap (dvd_add (Nat.dvd_mul_left _ _) (Nat.dvd_mul_left _ _))
  obtain ⟨m, ps', hm, hinv, hflags⟩ := h.mprotect_flags prot hgranted hover
  rw [hb] at hflags
  set j := addr.toNat / pageSize with hjdef
  have hj : paddingDown addr.toNat = j * pageSize := rfl
  rw [hj] at hserved hflags hover hb ⊢
  have hcount : pageCount (b - j * pageSize) * pageSize = b - j * pageSize :=
    pageCount_of_dvd (Nat.dvd_sub hdvd (Nat.dvd_mul_left _ _))
  have hiff : ∀ i, (j ≤ i ∧ i < j + pageCount (b - j * pageSize)) ↔ j * pageSize ≤ i * pageSize ∧ i * pageSize < b := by
    intro i
    unfold pageSize at hcount ⊢
    omega
  obtain hempty | hlt := le_or_gt b (j * pageSize)
  · -- a range that wraps around
    have hzero : pageCount (b - j * pageSize) = 0 := by
      rw [Nat.sub_eq_zero_of_le hempty]
      rfl
    refine ⟨{ s with mgr := m }, ps', ?_, hinv, rfl, hflags, fun _ _ => rfl, fun i h1 h2 => ?_⟩
    · unfold UserSpace.mprotect
      rw [hj]
      simp only [hover, Bool.false_eq_true, if_false, hb, hzero, if_pos hprot, UserSpace.populate,
        UserSpace.changeAttribute, hm, bind_eq_bind, bind_some, pure_def]
    · omega
  have hsum : j + pageCount (b - j * pageSize) ≤ 2 ^ 36 := by
    unfold pageSize at hcount hlt ⊢
    omega
  obtain ⟨pages, hrun, hout, hin⟩ := h.populate_spec prot hsum fun k h1 h2 =>
    hserved k ((hiff k).mp ⟨h1, h2⟩).1 ((hiff k).mp ⟨h1, h2⟩).2
  refine ⟨{ s with
    mgr := m
    pages := UserSpace.changeAttribute tabled (getArchPageTableFlags (ptFlagsFromProt prot))
      (pageCount (b - j * pageSize)) (j * pageSize) pages }, ps', ?_, hinv, rfl, hflags, fun i hi => ?_,
        fun i h1 h2 => ?_⟩
  · unfold UserSpace.mprotect
    rw [hj]
    simp only [hover, Bool.false_eq_true, if_false, hb, if_pos hprot, hrun, hm, bind_eq_bind,
      bind_some, pure_def]
  · rw [← hiff] at hi
    dsimp only
    rw [UserSpace.changeAttribute_apply hsum, if_neg hi, hout i hi]
  · obtain ⟨h1', h2'⟩ := (hiff i).mpr ⟨h1, h2⟩
    obtain ⟨e, he, hne⟩ := hin i h1' h2'
    refine ⟨e, hne, ?_⟩
    dsimp only
    rw [UserSpace.changeAttribute_apply hsum, if_pos ⟨h1', h2'⟩, he]
    rfl

end Populate

end CoolPotOS
