import CoolPotOS.Mem.UserStale
import CoolPotOS.Mem.UserProtect

namespace CoolPotOS

open BitVec List Option UserSpace

/-- The entry is for users, and its area can be read, and written when the entry can. -/
structure Fits (pte vm : BitVec 64) : Prop where
  present : hasFlag pte ptePresent = true
  user : hasFlag pte pteUser = true
  read : hasFlag vm vmaRead = true
  write : hasFlag pte pteWriteable = hasFlag vm vmaWriteFlag

section Flags

theorem hasFlag_ite (c : Bool) (m k : BitVec 64) :
    hasFlag (if c = true then m else 0) k = (c && hasFlag m k) := by
  cases c
  · exact decide_eq_false fun h => h (zero_and ..)
  · rfl

theorem ptFlagsFromProt_flags {prot : BitVec 64} (hprot : prot ≠ 0) :
    hasFlag (ptFlagsFromProt prot) ptePresent = true ∧ hasFlag (ptFlagsFromProt prot) pteUser = true ∧
      hasFlag (ptFlagsFromProt prot) pteWriteable = hasFlag prot protWrite := by
  unfold ptFlagsFromProt
  rw [if_pos hprot]
  simp only [hasFlag_or, hasFlag_ite]
  simp [hasFlag, ptePresent, pteUser, pteWriteable, pteNoExecute]

theorem getArchPageTableFlags_flags (flags : BitVec 64) :
    hasFlag (getArchPageTableFlags flags) ptePresent = true ∧
      hasFlag (getArchPageTableFlags flags) pteUser = hasFlag flags pteUser ∧
      hasFlag (getArchPageTableFlags flags) pteWriteable = hasFlag flags pteWriteable := by
  unfold getArchPageTableFlags
  simp only [hasFlag_or, hasFlag_ite]
  simp [hasFlag, ptePresent, pteUser, pteWriteable, pteDisCache, ptePwt]

theorem hasFlag_changed {old flags m : BitVec 64} (hm : pageMask &&& m = 0#64) :
    hasFlag ((old &&& pageMask) ||| flags) m = hasFlag flags m := by
  rw [hasFlag_or, pageMask, hasFlag_cleared hm, Bool.false_or]

theorem mmapVma_flags (prot flags : BitVec 64) (fd : ℤ) (offset : BitVec 64) :
    hasFlag (mmapVma 0 0 prot flags fd offset).vmFlags vmaRead = hasFlag prot protRead ∧
      hasFlag (mmapVma 0 0 prot flags fd offset).vmFlags vmaWriteFlag = hasFlag prot protWrite := by
  have hzero : ∀ m, hasFlag 0 m = false := fun m => decide_eq_false fun h => h (zero_and ..)
  unfold mmapVma addProtFlags
  dsimp only
  by_cases hanon : hasFlag flags mapAnonymous = true
  · simp only [if_pos hanon, hasFlag_or, hasFlag_ite, hzero]
    simp [hasFlag, vmaRead, vmaWriteFlag, vmaExec, vmaShared, vmaAnon]
  · simp only [if_neg hanon, hasFlag_or, hasFlag_ite, hzero]
    simp [hasFlag, vmaRead, vmaWriteFlag, vmaExec, vmaShared]

theorem fits_mmap {prot : BitVec 64} (hread : hasFlag prot protRead = true) (flags : BitVec 64) (fd : ℤ)
    (offset : BitVec 64) : Fits (ptFlagsFromProt prot) (mmapVma 0 0 prot flags fd offset).vmFlags := by
  have hprot : prot ≠ 0 := by
    rintro rfl
    exact absurd hread (by decide)
  obtain ⟨hpresent, huser, hwrite⟩ := ptFlagsFromProt_flags hprot
  obtain ⟨hvread, hvwrite⟩ := mmapVma_flags prot flags fd offset
  exact ⟨hpresent, huser, hvread.trans hread, hwrite.trans hvwrite.symm⟩

theorem fits_mprotect {prot : BitVec 64} (hread : hasFlag prot protRead = true) (old f : BitVec 64) :
    Fits ((old &&& pageMask) ||| getArchPageTableFlags (ptFlagsFromProt prot)) (protFlags f prot) := by
  have hprot : prot ≠ 0 := by
    rintro rfl
    exact absurd hread (by decide)
  obtain ⟨-, huser, hwrite⟩ := ptFlagsFromProt_flags hprot
  obtain ⟨hpresent', huser', hwrite'⟩ := getArchPageTableFlags_flags (ptFlagsFromProt prot)
  obtain ⟨hvread, hvwrite, -⟩ := protFlags_match f prot
  refine ⟨?_, ?_, hvread.trans hread, ?_⟩
  · rw [hasFlag_changed (by decide)]
    exact hpresent'
  · rw [hasFlag_changed (by decide), huser']
    exact huser
  · rw [hasFlag_changed (by decide), hwrite', hwrite]
    exact hvwrite.symm

theorem and_eq_iff_hasFlag (f : BitVec 64) {k : ℕ} (hk : k < 64) :
    f &&& twoPow 64 k = twoPow 64 k ↔ hasFlag f (twoPow 64 k) = true := by
  have hne : twoPow 64 k ≠ 0#64 := by
    intro h
    have hbit := congrArg (fun w => w.getLsbD k) h
    simp [hk] at hbit
  unfold hasFlag
  rw [decide_eq_true_eq, and_twoPow]
  split_ifs
  · exact iff_of_true rfl hne
  · exact iff_of_false hne.symm (not_not.mpr rfl)

end Flags

/-- The pages of a new mapping. The readable ones get their flags from the protection, and the entries of a
file fit the area. A fixed mapping that does not clear its range finds no page there that waits, and none
that is present but where the file has its own. -/
structure MmapFits (s : UserSpace) (addr length prot flags : BitVec 64) (fd : ℤ) (offset : BitVec 64)
    (file : List (ℕ × BitVec 64)) : Prop where
  readable : hasFlag flags mapAnonymous = true → prot = 0 ∨ hasFlag prot protRead = true
  entries : hasFlag flags mapAnonymous = false → ∀ e ∈ file, hasFlag e.2 ptePresent = true →
    e.1 ≠ 0 ∧ Fits e.2 (mmapVma 0 0 prot flags fd offset).vmFlags
  fixed : hasFlag flags mapFixed = true → hasFlag flags mapAnonymous = false ∨ prot = 0 →
    ∀ x, paddingDown addr.toNat ≤ x → x < paddingDown addr.toNat + paddingUp length.toNat →
      ¬Queued s.virtQueue x ∧ (s.Present (x / pageSize) → hasFlag flags mapAnonymous = false ∧
        x < paddingDown addr.toNat + file.length * pageSize)

/-- The range of `mprotect` is in readable areas, its pages do not wait for their first access, and those
that are not present get frames. -/
def MprotectFits (s : UserSpace) (addr length prot : BitVec 64)
    (files : ℕ → Except Errno (Option (ℕ × BitVec 64))) (frames : ℕ → ℕ) : Prop :=
  let a := paddingDown addr.toNat
  let b := wrap (a + paddingUp length.toNat)
  checkUserOverflow a (paddingUp length.toNat) = false →
    s.mgr.Granted ∧ b ≤ userHalf ∧ hasFlag prot protRead = true ∧
      ∀ x, a ≤ x → x < b → ¬Queued s.virtQueue x ∧ ∃ v ∈ s.mgr.areas, (v.vmStart ≤ x ∧ x < v.vmEnd) ∧
        (pageSize ∣ x → s.virtToPhys x = 0 → v.Served files frames x)

def AccessCall.Agrees (s : UserSpace) : AccessCall → Prop
  | .mmap addr length prot flags fd offset fdOpen _ file =>
    MmapBelow userHalf s.mgr addr length flags fdOpen ∧ FixedReady s.mgr addr length flags fdOpen ∧
      MmapFits s addr length prot flags fd offset file
  | .munmap addr size =>
    size ≠ 0 → checkUserOverflow (paddingDown addr.toNat) (paddingUp size.toNat) = false →
      s.mgr.Granted ∧ paddingUp size.toNat ≠ 0 ∧ paddingDown addr.toNat + paddingUp size.toNat ≤ userHalf
  | .mprotect addr length prot files frames _ => MprotectFits s addr length prot files frames
  | .fault _ phys => phys ≠ 0

/-- The pages that are present, and those that wait for their first access, fit their areas. -/
structure AccessInv (kernel : PageEntries) (s : UserSpace) (ps : List (ℕ × Vma)) : Prop
    extends HalfInv kernel s ps where
  present : ∀ i < userPages, ∀ e, s.pages i = some e → hasFlag e.2 ptePresent = true →
    e.1 ≠ 0 ∧ ∃ f, s.mgr.flagsAt (i * pageSize) = some f ∧ Fits e.2 f
  lazy : ∀ e ∈ s.virtQueue, ∀ x, e.Covers x → ∃ f, s.mgr.flagsAt x = some f ∧ Fits e.pteFlags f

section Invariant

variable {kernel : PageEntries} {s s' : UserSpace} {ps ps' : List (ℕ × Vma)} {x i : ℕ}

theorem Inv.covered_iff {mgr : VmaManager} (h : Inv mgr ps) :
    Covered (ps.map Prod.snd) x ↔ ∃ f, mgr.flagsAt x = some f := by
  rw [h.flagsAt_eq]
  constructor
  · rintro ⟨v, hv, hx⟩
    exact ⟨v.vmFlags, h.ok.flagsOf_of_mem hv hx⟩
  · rintro ⟨f, hf⟩
    obtain ⟨v, hv, hx, -⟩ := mem_of_flagsOf hf
    exact ⟨v, hv, hx⟩

theorem PagedInv.flagsAt_congr {mgr : VmaManager} (h : PagedInv mgr ps) {y : ℕ}
    (hxy : x / pageSize = y / pageSize) : mgr.flagsAt x = mgr.flagsAt y := by
  rw [h.flagsAt_eq, h.flagsAt_eq]
  have hcongr : ∀ {x y : ℕ}, x / pageSize = y / pageSize → ∀ f, flagsOf (ps.map Prod.snd) x = some f →
      flagsOf (ps.map Prod.snd) y = some f := by
    intro x y hxy f hf
    obtain ⟨v, hv, hx, rfl⟩ := mem_of_flagsOf hf
    obtain ⟨hstart, hend⟩ := h.aligned v hv
    refine h.ok.flagsOf_of_mem hv ?_
    rw [← mem_pages_iff hstart hend] at hx ⊢
    rw [← hxy]
    exact hx
  cases hx : flagsOf (ps.map Prod.snd) x with
  | some f => exact (hcongr hxy f hx).symm
  | none =>
    cases hy : flagsOf (ps.map Prod.snd) y with
    | none => rfl
    | some f =>
      rw [hcongr hxy.symm f hy] at hx
      cases hx

theorem AccessInv.lt_userHalf (h : AccessInv kernel s ps) {f : BitVec 64} (hf : s.mgr.flagsAt x = some f) :
    x < userHalf := h.below x (h.paged.toInv.covered_iff.mpr ⟨f, hf⟩)

theorem UserSpace.lazyTryalloc_cases (hq : QueueBelow userHalf s.virtQueue) (address phys : ℕ) :
    s.lazyTryalloc address phys = none ∧ ¬Queued s.virtQueue address ∨
      ∃ s' e, s.lazyTryalloc address phys = some s' ∧ e ∈ s.virtQueue ∧ e.Covers address ∧ s'.mgr = s.mgr ∧
        s'.pages = Function.update s.pages (address / pageSize) (some (phys, e.pteFlags)) ∧
        ∀ p ∈ s'.virtQueue, ∃ e' ∈ s.virtQueue, p.pteFlags = e'.pteFlags ∧ ∀ x, p.Covers x → e'.Covers x := by
  have hhalf : userHalf < 2 ^ 48 := by decide
  unfold lazyTryalloc
  cases hk : s.virtQueue.findIdx? fun e => decide (address ≥ e.start ∧ address < e.stop) with
  | none =>
    refine Or.inl ⟨rfl, fun ⟨e, he, hx⟩ => ?_⟩
    have hnot := findIdx?_eq_none_iff.mp hk e he
    rw [decide_eq_false_iff_not, (hq e he).stop_eq (by omega)] at hnot
    exact hnot hx
  | some k =>
    obtain ⟨hlt, hin, -⟩ := findIdx?_eq_some_iff_getElem.mp hk
    set e := s.virtQueue[k] with he
    have hmem : e ∈ s.virtQueue := getElem_mem hlt
    have hbelow := hq e hmem
    rw [decide_eq_true_eq, hbelow.stop_eq (by omega)] at hin
    obtain ⟨⟨j, hj⟩, hle⟩ := id hbelow
    -- the page of the entry is the page of the address
    have hidx : pageIndex (wrap (e.start + (address - e.start) / pageSize * pageSize)) = address / pageSize := by
      have hdown : e.start + (address - e.start) / pageSize * pageSize = address / pageSize * pageSize := by
        rw [hj] at hin ⊢
        unfold pageSize at hin ⊢
        omega
      have hpage : address / pageSize * pageSize ≤ address := Nat.div_mul_le_self _ _
      rw [hdown, wrap_of_lt (by omega), pageIndex_of_lt (by omega), Nat.mul_div_cancel _ (by decide)]
    have hi : (address - e.start) / pageSize < e.count := by
      rw [Nat.div_lt_iff_lt_mul (by decide)]
      omega
    refine Or.inr ⟨{ s with
      pages := Function.update s.pages (address / pageSize) (some (phys, e.pteFlags))
      virtQueue := (s.virtQueue ++ faultPieces e ((address - e.start) / pageSize)).eraseIdx k }, e, ?_, hmem, hin,
      rfl, rfl, fun p hp => ?_⟩
    · rw [← hidx, bind_eq_bind, bind_some, List.getElem?_eq_getElem hlt]
      rfl
    · obtain hp | hp := mem_append.mp (mem_of_mem_eraseIdx hp)
      · exact ⟨p, hp, rfl, fun _ hx => hx⟩
      · exact ⟨e, hmem, faultPieces_pteFlags hp, (faultPieces_spec hbelow (by omega) hi hp).2⟩

theorem AccessInv.fault (h : AccessInv kernel s ps) (address : ℕ) {phys : ℕ} (hphys : phys ≠ 0) :
    AccessInv kernel (s.pageFault address phys) ps := by
  have hhalf := h.toHalfInv.fault address phys
  unfold pageFault at hhalf ⊢
  split_ifs at hhalf ⊢ with hlow
  · exact h
  obtain ⟨hnone, -⟩ | ⟨s', e, hs', he, hx, hmgr, hpages, hqueue⟩ := lazyTryalloc_cases h.queue address phys
  · rw [hnone]
    exact h
  rw [hs', getD_some] at hhalf ⊢
  refine ⟨hhalf, fun i hi e' he' hpresent => ?_, fun p hp x hx => ?_⟩
  · rw [hpages] at he'
    rw [hmgr]
    obtain rfl | hne := eq_or_ne i (address / pageSize)
    · rw [Function.update_self, some.injEq] at he'
      subst he'
      obtain ⟨f, hf, hfits⟩ := h.lazy e he address hx
      refine ⟨hphys, f, ?_, hfits⟩
      rw [← hf]
      exact h.paged.flagsAt_congr (Nat.mul_div_cancel _ (by decide))
    · rw [Function.update_of_ne hne] at he'
      exact h.present i hi e' he' hpresent
  · obtain ⟨e', he', hpte, hcovers⟩ := hqueue p hp
    obtain ⟨f, hf, hfits⟩ := h.lazy e' he' x (hcovers x hx)
    exact ⟨f, by rw [hmgr]; exact hf, hpte ▸ hfits⟩

theorem UserSpace.munmap_eq {addr size : BitVec 64} {m : VmaManager} {c : ℕ} (hsize : size ≠ 0)
    (hm : CoolPotOS.munmap s.mgr addr size = some (m, .ok c)) :
    s.munmap addr size = some (({ s with
      mgr := m
      virtQueue := unmapVirtualPage s.virtQueue (paddingDown addr.toNat) (paddingUp size.toNat) } :
        UserSpace).unmapPageRange (paddingDown addr.toNat) (paddingUp size.toNat), .ok c) := by
  rw [munmap, if_neg hsize, hm]
  rfl

theorem AccessInv.munmap (h : AccessInv kernel s ps) {addr size : BitVec 64}
    (hok : (AccessCall.munmap addr size).Agrees s) :
    ∃ s' ps', s.accessStep (.munmap addr size) = some s' ∧ AccessInv kernel s' ps' := by
  obtain rfl | hsize := eq_or_ne size 0
  · exact ⟨s, ps, rfl, h⟩
  by_cases hover : checkUserOverflow (paddingDown addr.toNat) (paddingUp size.toNat) = true
  · refine ⟨s, ps, ?_, h⟩
    simp only [accessStep, UserSpace.munmap, CoolPotOS.munmap, if_neg hsize, if_pos hover, bind_eq_bind,
      bind_some, Option.pure_def, map_some]
  rw [Bool.not_eq_true] at hover
  obtain ⟨hgranted, hne, hle⟩ := hok hsize hover
  have hsafe : MunmapSafe s.mgr addr size := fun _ _ => splitsSafe_of_heap (.inl (hgranted _ le_rfl))
  obtain ⟨s', r, ps', hrun, hhalf, -⟩ := h.toHalfInv.munmap ⟨hsafe, fun _ _ => hle⟩
  obtain ⟨m, -, hm, -⟩ := h.paged.munmap_covered hsize hover hsafe
  have hdvd : pageSize ∣ paddingDown addr.toNat := Nat.dvd_mul_left _ _
  have hdvd' : pageSize ∣ paddingUp size.toNat := Nat.dvd_mul_left _ _
  have hlimit : userHalf < 2 ^ 48 := by decide
  have hflags := h.paged.munmap_flags hgranted hne (by omega) hm
  rw [munmap_eq hsize hm, Option.some.injEq, Prod.mk.injEq] at hrun
  obtain ⟨rfl, rfl⟩ := hrun
  refine ⟨_, ps', by rw [accessStep, munmap_eq hsize hm]; rfl, hhalf,
    fun i hi e he hpresent => ?_, fun e he x hx => ?_⟩
  · rw [unmapPageRange_pages hdvd hdvd' (by omega)] at he
    split_ifs at he with hin
    obtain ⟨hframe, f, hf, hfits⟩ := h.present i hi e he hpresent
    exact ⟨hframe, f, ((hflags _).trans (if_neg hin)).trans hf, hfits⟩
  · obtain ⟨-, ⟨e', he', hpte, hcovers⟩, hout⟩ := unmapVirtualPage_parts (by omega) hdvd hdvd' (by omega) h.queue e he
    obtain ⟨f, hf, hfits⟩ := h.lazy e' he' x (hcovers x hx)
    exact ⟨f, ((hflags x).trans (if_neg (hout x hx))).trans hf, hpte ▸ hfits⟩

theorem AccessInv.mprotect (h : AccessInv kernel s ps) {addr length prot : BitVec 64}
    {files : ℕ → Except Errno (Option (ℕ × BitVec 64))} {frames : ℕ → ℕ} (tabled : ℕ → Bool)
    (hok : MprotectFits s addr length prot files frames) :
    ∃ s' ps', s.accessStep (.mprotect addr length prot files frames tabled) = some s' ∧ AccessInv kernel s' ps' := by
  unfold MprotectFits at hok
  dsimp only at hok
  by_cases hover : checkUserOverflow (paddingDown addr.toNat) (paddingUp length.toNat) = true
  · refine ⟨s, ps, ?_, h⟩
    simp only [accessStep, UserSpace.mprotect, if_pos hover, Option.pure_def, map_some]
  rw [Bool.not_eq_true] at hover
  obtain ⟨hgranted, hle, hread, hrange⟩ := hok hover
  have hprot : prot ≠ 0 := by
    rintro rfl
    exact absurd hread (by decide)
  rw [h.paged.areas_eq] at hrange
  have hlimit : userHalf < 2 ^ 48 := by decide
  set b := wrap (paddingDown addr.toNat + paddingUp length.toNat) with hb
  obtain ⟨s', ps', hrun, hdone⟩ := h.paged.mprotect_spec tabled hb.symm (by omega) hprot hover hgranted
    fun k h1 h2 => by
      obtain ⟨-, v, hv, hvx, hserved⟩ := hrange _ h1 h2
      exact ⟨v, hv, hvx, hserved (Nat.dvd_mul_left _ _)⟩
  refine ⟨s', ps', by rw [accessStep, hrun]; rfl, ⟨hdone.inv, fun x hx => ?_, hdone.queue ▸ h.queue,
    fun i hi => ?_⟩, fun i hi e he hpresent => ?_, fun e he x hx => ?_⟩
  · obtain ⟨f, hf⟩ := hdone.inv.toInv.covered_iff.mp hx
    rw [hdone.flags] at hf
    obtain ⟨f0, hf0, -⟩ := map_eq_some_iff.mp hf
    exact h.lt_userHalf hf0
  · rw [hdone.outside i (not_mem_of_userPages hi hle)]
    exact h.pages i hi
  · by_cases hin : paddingDown addr.toNat ≤ i * pageSize ∧ i * pageSize < b
    · -- a page of the range, in an area that gets the same protection
      obtain ⟨e0, hne, he0⟩ := hdone.inside i hin.1 hin.2
      obtain ⟨-, v, hv, hvx, -⟩ := hrange _ hin.1 hin.2
      obtain ⟨f, hf⟩ := h.paged.toInv.covered_iff.mp ⟨v, hv, hvx⟩
      rw [he0, Option.some.injEq] at he
      subst he
      refine ⟨hne, protFlags f prot, ?_, fits_mprotect hread _ _⟩
      rw [hdone.flags, hf, map_some, if_pos hin]
    · rw [hdone.outside i hin] at he
      obtain ⟨hne, f, hf, hfits⟩ := h.present i hi e he hpresent
      refine ⟨hne, f, ?_, hfits⟩
      rw [hdone.flags, hf, map_some, if_neg hin]
  · rw [hdone.queue] at he
    obtain ⟨f, hf, hfits⟩ := h.lazy e he x hx
    have hout : ¬(paddingDown addr.toNat ≤ x ∧ x < b) := fun hin => (hrange x hin.1 hin.2).1 ⟨e, he, hx⟩
    refine ⟨f, ?_, hfits⟩
    rw [hdone.flags, hf, map_some, if_neg hout]

/-- The pages and the queue of the range of a new mapping. -/
structure RangeFits (s s' : UserSpace) (a b : ℕ) (vmFlags : BitVec 64) : Prop where
  outside : ∀ i, ¬(a ≤ i * pageSize ∧ i * pageSize < b) → s'.pages i = s.pages i
  inside : ∀ i, a ≤ i * pageSize → i * pageSize < b → ∀ e, s'.pages i = some e → hasFlag e.2 ptePresent = true →
    e.1 ≠ 0 ∧ Fits e.2 vmFlags
  queue : ∀ p ∈ s'.virtQueue, (∃ e ∈ s.virtQueue, p.pteFlags = e.pteFlags ∧
      ∀ x, p.Covers x → e.Covers x ∧ ¬(a ≤ x ∧ x < b)) ∨
    Fits p.pteFlags vmFlags ∧ ∀ x, p.Covers x → a ≤ x ∧ x < b

theorem RangeFits.congr {s1 : UserSpace} {a b : ℕ} {vmFlags : BitVec 64} (h : RangeFits s s1 a b vmFlags)
    (hpages : s'.pages = s1.pages) (hqueue : s'.virtQueue = s1.virtQueue) : RangeFits s s' a b vmFlags := by
  obtain ⟨h1, h2, h3⟩ := h
  rw [← hpages] at h1 h2
  rw [← hqueue] at h3
  exact ⟨h1, h2, h3⟩

theorem AccessInv.mapped (h : AccessInv kernel s ps) (hhalf : HalfInv kernel s' ps') {a b : ℕ} {vmFlags : BitVec 64}
    (hflags : ∀ x, s'.mgr.flagsAt x = if a ≤ x ∧ x < b then some vmFlags else s.mgr.flagsAt x)
    (hfits : RangeFits s s' a b vmFlags) : AccessInv kernel s' ps' := by
  refine ⟨hhalf, fun i hi e he hpresent => ?_, fun p hp x hx => ?_⟩
  · by_cases hin : a ≤ i * pageSize ∧ i * pageSize < b
    · obtain ⟨hne, hfit⟩ := hfits.inside i hin.1 hin.2 e he hpresent
      exact ⟨hne, vmFlags, (hflags _).trans (if_pos hin), hfit⟩
    · rw [hfits.outside i hin] at he
      obtain ⟨hne, f, hf, hfit⟩ := h.present i hi e he hpresent
      exact ⟨hne, f, ((hflags _).trans (if_neg hin)).trans hf, hfit⟩
  · obtain ⟨e, he, hpte, hcovers⟩ | ⟨hfit, hcovers⟩ := hfits.queue p hp
    · obtain ⟨f, hf, hfit⟩ := h.lazy e he x (hcovers x hx).1
      exact ⟨f, ((hflags _).trans (if_neg (hcovers x hx).2)).trans hf, hpte ▸ hfit⟩
    · exact ⟨vmFlags, (hflags _).trans (if_pos (hcovers x hx)), hfit⟩

def UserSpace.mappedAt (s : UserSpace) (b len : ℕ) (prot flags : BitVec 64) (file : List (ℕ × BitVec 64)) : UserSpace :=
  if hasFlag flags mapAnonymous = false then
    { s with pages := setPages s.pages b ((file.map some).take (pageCount len)) }
  else if prot = 0 then s
  else s.lazyInfoalloc b len (ptFlagsFromProt prot) flags

theorem UserSpace.mmap_eq {addr length prot flags offset : BitVec 64} {fd : ℤ} {fdOpen : Bool} {mapped b c : ℕ}
    {m : VmaManager} (hm : CoolPotOS.mmap s.mgr addr length prot flags fd offset fdOpen mapped = some (m, .ok c))
    (hplace : mmapPlace s.mgr (paddingDown addr.toNat) (paddingUp length.toNat) flags = some (some b))
    (file : List (ℕ × BitVec 64)) : s.mmap addr length prot flags fd offset fdOpen mapped file =
      some (({ s with mgr := m } : UserSpace).mappedAt b (paddingUp length.toNat) prot flags file, .ok c) := by
  unfold mmap mappedAt
  simp only [hm, hplace, bind_eq_bind, bind_some, Option.pure_def]
  cases hasFlag flags mapAnonymous with
  | false => rfl
  | true =>
    simp only [Bool.not_true, Bool.false_eq_true, Bool.true_eq_false, if_false]
    split_ifs <;> rfl

theorem UserSpace.mmap_error {addr length prot flags offset : BitVec 64} {fd : ℤ} {fdOpen : Bool} {mapped : ℕ}
    {e : Errno} {m : VmaManager} {place : Option ℕ}
    (hm : CoolPotOS.mmap s.mgr addr length prot flags fd offset fdOpen mapped = some (m, .error e))
    (hplace : mmapPlace s.mgr (paddingDown addr.toNat) (paddingUp length.toNat) flags = some place)
    (file : List (ℕ × BitVec 64)) :
    s.mmap addr length prot flags fd offset fdOpen mapped file = some ({ s with mgr := m }, .error e) := by
  unfold mmap
  simp only [hm, hplace, bind_eq_bind, bind_some, Option.pure_def]

section Mapping

variable {b len : ℕ} {prot flags vmFlags : BitVec 64} {file : List (ℕ × BitVec 64)}

def UserSpace.Unused (s : UserSpace) (b len : ℕ) (flags : BitVec 64) (file : List (ℕ × BitVec 64)) : Prop :=
  ∀ x, b ≤ x → x < b + len → ¬Queued s.virtQueue x ∧
    (s.Present (x / pageSize) → hasFlag flags mapAnonymous = false ∧ x < b + file.length * pageSize)

theorem UserSpace.Unused.queue (h : s.Unused b len flags file) {p : VirtPage} (hp : p ∈ s.virtQueue) :
    ∃ e ∈ s.virtQueue, p.pteFlags = e.pteFlags ∧ ∀ x, p.Covers x → e.Covers x ∧ ¬(b ≤ x ∧ x < b + len) :=
  ⟨p, hp, rfl, fun x hx => ⟨hx, fun hin => (h x hin.1 hin.2).1 ⟨p, hp, hx⟩⟩⟩

theorem UserSpace.Unused.absent (h : s.Unused b len flags file) (hanon : hasFlag flags mapAnonymous = true)
    (h1 : b ≤ i * pageSize) (h2 : i * pageSize < b + len) : ¬s.Present i := by
  intro hi
  obtain ⟨-, hx⟩ := h (i * pageSize) h1 h2
  rw [Nat.mul_div_cancel i (by decide)] at hx
  exact absurd hanon (by rw [(hx hi).1]; decide)

theorem rangeFits_file (hb : pageSize ∣ b) (hlen : pageSize ∣ len) (hle : b + len ≤ userHalf)
    (hunused : s.Unused b len flags file)
    (hfile : ∀ e ∈ file, hasFlag e.2 ptePresent = true → e.1 ≠ 0 ∧ Fits e.2 vmFlags) :
    RangeFits s { s with pages := setPages s.pages b ((file.map some).take (pageCount len)) } b (b + len) vmFlags := by
  have hlimit : userHalf < 2 ^ 48 := by decide
  have hcount := pageCount_of_dvd hlen
  set es := (file.map some).take (pageCount len) with hes
  have hlength : es.length = min (pageCount len) file.length := by rw [hes, length_take, length_map]
  have hfit : es.length * pageSize ≤ len := by
    calc es.length * pageSize ≤ pageCount len * pageSize :=
          Nat.mul_le_mul_right _ (hlength ▸ Nat.min_le_left _ _)
      _ = len := hcount
  refine ⟨fun i hi => setPages_of_not_mem hb (by omega) hfit hi, fun i h1 h2 e he hpresent => ?_,
    fun p hp => Or.inl (hunused.queue hp)⟩
  obtain ⟨j, rfl⟩ := hb
  have hdiv : pageSize * j / pageSize = j := Nat.mul_div_cancel_left j (by decide)
  have hji : j ≤ i := by
    unfold pageSize at h1
    omega
  dsimp only at he
  by_cases hk : i - j < es.length
  · have hget : setPages s.pages (pageSize * j) es i = es[i - j] := by
      have hget : setPages s.pages (pageSize * j) es (pageSize * j / pageSize + (i - j)) = es[i - j] :=
        setPages_get (by omega) hk
      rw [hdiv, Nat.add_sub_cancel' hji] at hget
      exact hget
    rw [hget] at he
    have hmem : some e ∈ file.map some := mem_of_mem_take (he ▸ getElem_mem hk)
    exact hfile e (by simpa using hmem) hpresent
  · -- no entry of the file, and no page before
    exfalso
    rw [setPages_outside (by omega) (by rw [hdiv]; omega)] at he
    obtain ⟨-, hx⟩ := hunused (i * pageSize) h1 h2
    rw [Nat.mul_div_cancel i (by decide)] at hx
    have hlt := (hx ⟨e.1, e.2, he, hpresent⟩).2
    rw [hlength] at hk
    unfold pageSize at hlt h2 hcount
    omega

theorem rangeFits_none (hanon : hasFlag flags mapAnonymous = true) (hunused : s.Unused b len flags file) :
    RangeFits s s b (b + len) vmFlags := by
  refine ⟨fun _ _ => rfl, fun i h1 h2 e he hpresent => ?_, fun p hp => Or.inl (hunused.queue hp)⟩
  exact absurd ⟨e.1, e.2, he, hpresent⟩ (hunused.absent hanon h1 h2)

theorem rangeFits_lazy (hq : QueueBelow userHalf s.virtQueue) (hb : pageSize ∣ b) (hlen : pageSize ∣ len)
    (hle : b + len ≤ userHalf) {pteFlags : BitVec 64} (hfits : Fits pteFlags vmFlags)
    (hanon : hasFlag flags mapAnonymous = true)
    (hunused : hasFlag flags mapFixed = false → s.Unused b len flags file) :
    RangeFits s (s.lazyInfoalloc b len pteFlags flags) b (b + len) vmFlags := by
  have hlimit : userHalf < 2 ^ 48 := by decide
  have hcovers : ∀ x, (⟨b, pageCount len, pteFlags⟩ : VirtPage).Covers x → b ≤ x ∧ x < b + len := by
    intro x hx
    have hx' : b ≤ x ∧ x < b + pageCount len * pageSize := hx
    rw [pageCount_of_dvd hlen] at hx'
    exact hx'
  unfold lazyInfoalloc
  cases hfixed : hasFlag flags mapFixed with
  | false =>
    refine ⟨fun _ _ => rfl, fun i h1 h2 e he hpresent => ?_, fun p hp => ?_⟩
    · exact absurd ⟨e.1, e.2, he, hpresent⟩ ((hunused hfixed).absent hanon h1 h2)
    · obtain hp | hp := mem_append.mp hp
      · exact Or.inl ((hunused hfixed).queue hp)
      · obtain rfl := mem_singleton.mp hp
        exact Or.inr ⟨hfits, hcovers⟩
  | true =>
    have hpages := fun i => unmapPageRange_pages
      (s := { s with virtQueue := unmapVirtualPage s.virtQueue b len }) (i := i) hb hlen (by omega)
    refine ⟨fun i hi => (hpages i).trans (if_neg hi), fun i h1 h2 e he _ => ?_, fun p hp => ?_⟩
    · cases ((hpages i).trans (if_pos ⟨h1, h2⟩)).symm.trans he
    · obtain hp | hp := mem_append.mp hp
      · obtain ⟨-, ⟨e, he, hpte, hx⟩, hout⟩ := unmapVirtualPage_parts (by omega) hb hlen (by omega) hq p hp
        exact Or.inl ⟨e, he, hpte, fun x h => ⟨hx x h, hout x h⟩⟩
      · obtain rfl := mem_singleton.mp hp
        exact Or.inr ⟨hfits, hcovers⟩

theorem AccessInv.unused_of_free (h : AccessInv kernel s ps) (hle : b + len ≤ userHalf)
    (hfree : ∀ x, b ≤ x → x < b + len → ¬Covered (ps.map Prod.snd) x) : s.Unused b len flags file := by
  intro x h1 h2
  have hnone : ∀ f, s.mgr.flagsAt x ≠ some f := fun f hf => hfree x h1 h2 (h.paged.toInv.covered_iff.mpr ⟨f, hf⟩)
  refine ⟨fun ⟨e, he, hx⟩ => ?_, fun ⟨frame, pte, hpage, hpresent⟩ => ?_⟩
  · obtain ⟨f, hf, -⟩ := h.lazy e he x hx
    exact hnone f hf
  · exfalso
    have hi : x / pageSize < userPages := by
      unfold userHalf at hle
      unfold userPages pageSize
      omega
    obtain ⟨-, f, hf, -⟩ := h.present _ hi _ hpage hpresent
    refine hnone f ?_
    rw [← hf]
    exact h.paged.flagsAt_congr (Nat.mul_div_cancel _ (by decide)).symm

end Mapping

theorem AccessInv.mmap (h : AccessInv kernel s ps) {addr length prot flags offset : BitVec 64} {fd : ℤ}
    {fdOpen : Bool} (mapped : ℕ) {file : List (ℕ × BitVec 64)}
    (hbelow : MmapBelow userHalf s.mgr addr length flags fdOpen) (hready : FixedReady s.mgr addr length flags fdOpen)
    (hfits : MmapFits s addr length prot flags fd offset file) :
    ∃ s' ps', s.accessStep (.mmap addr length prot flags fd offset fdOpen mapped file) = some s' ∧
      AccessInv kernel s' ps' := by
  obtain ⟨s', r, ps', hrun, hhalf, -⟩ := h.toHalfInv.mmap prot offset fd mapped file hbelow
  obtain ⟨m, r1, hm, hcases⟩ := h.paged.mmap_flags (by decide) prot fd offset mapped hbelow hready
  obtain ⟨place, hplace⟩ := h.paged.mmapPlace_some (paddingDown addr.toNat) (paddingUp length.toNat) flags
  refine ⟨s', ps', by rw [accessStep, hrun]; rfl, ?_⟩
  obtain ⟨⟨e, rfl⟩, hsame⟩ | ⟨b, c, rfl, hb, hflags⟩ := hcases
  · rw [mmap_error hm hplace, Option.some.injEq, Prod.mk.injEq] at hrun
    obtain ⟨rfl, -⟩ := hrun
    refine ⟨hhalf, fun i hi e he hpresent => ?_, fun p hp x hx => ?_⟩
    · obtain ⟨hne, f, hf, hfit⟩ := h.present i hi e he hpresent
      exact ⟨hne, f, (hsame _).trans hf, hfit⟩
    · obtain ⟨f, hf, hfit⟩ := h.lazy p hp x hx
      exact ⟨f, (hsame x).trans hf, hfit⟩
  obtain ⟨s1, r2, ps1, hrun1, -, ⟨⟨e, rfl⟩, -⟩ | ⟨b', hb', hfixed, hdone, -⟩⟩ :=
    h.paged.mmap_cases (by decide) h.queue prot offset fd mapped file hbelow
  · cases (mmap_eq hm hb file).symm.trans hrun1
  obtain rfl : b' = b := by simpa using hb'.symm.trans hb
  rw [mmap_eq hm hb, Option.some.injEq, Prod.mk.injEq] at hrun
  obtain ⟨rfl, -⟩ := hrun
  have hdvd : pageSize ∣ paddingUp length.toNat := Nat.dvd_mul_left _ _
  have hunused : hasFlag flags mapFixed = false ∨ hasFlag flags mapAnonymous = false ∨ prot = 0 →
      s.Unused b' (paddingUp length.toNat) flags file := by
    intro hcase
    cases hf : hasFlag flags mapFixed with
    | false => exact h.unused_of_free hdone.le (hdone.free hf)
    | true =>
      rw [hfixed hf]
      exact hfits.fixed hf (hcase.resolve_left (by simp [hf]))
  have hmgr : (({ s with mgr := m } : UserSpace).mappedAt b' (paddingUp length.toNat) prot flags file).mgr = m := by
    unfold mappedAt
    split_ifs
    · rfl
    · rfl
    · exact lazyInfoalloc_mgr ..
  refine h.mapped hhalf (fun x => by rw [hmgr]; exact hflags x) ?_
  unfold mappedAt
  split_ifs with hanon hprot
  · exact (rangeFits_file hdone.dvd hdvd hdone.le (hunused (Or.inr (Or.inl hanon))) (hfits.entries hanon)).congr
      rfl rfl
  · rw [Bool.not_eq_false] at hanon
    exact (rangeFits_none hanon (hunused (Or.inr (Or.inr hprot)))).congr rfl rfl
  · rw [Bool.not_eq_false] at hanon
    have hread := (hfits.readable hanon).resolve_left hprot
    refine (rangeFits_lazy h.queue hdone.dvd hdvd hdone.le (fits_mmap hread flags fd offset) hanon
      fun hfree => hunused (Or.inl hfree)).congr ?_ ?_
    all_goals
      unfold lazyInfoalloc
      cases hasFlag flags mapFixed <;> rfl

end Invariant

end CoolPotOS
