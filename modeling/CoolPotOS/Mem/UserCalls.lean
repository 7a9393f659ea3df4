import CoolPotOS.Mem.UserCover

namespace CoolPotOS

open List Option Prod UserSpace

def QueueBelow (limit : ℕ) (queue : List VirtPage) : Prop := ∀ e ∈ queue, e.Below limit

def Queued (queue : List VirtPage) (x : ℕ) : Prop := ∃ e ∈ queue, e.Covers x

section Pages

theorem mem_pages_iff {a b x : ℕ} (ha : pageSize ∣ a) (hb : pageSize ∣ b) :
    a ≤ x / pageSize * pageSize ∧ x / pageSize * pageSize < b ↔ a ≤ x ∧ x < b := by
  obtain ⟨j, rfl⟩ := ha
  obtain ⟨k, rfl⟩ := hb
  unfold pageSize
  omega

variable {s : UserSpace} {va size frame i : ℕ} {flags : BitVec 64}

theorem pageCount_of_dvd {n : ℕ} (h : pageSize ∣ n) : pageCount n * pageSize = n := by
  obtain ⟨k, rfl⟩ := h
  unfold pageCount pageSize
  omega

theorem UserSpace.unmapPageRange_pages (hva : pageSize ∣ va) (hsize : pageSize ∣ size)
    (hle : va + size ≤ 2 ^ 48) : (s.unmapPageRange va size).pages i =
      if va ≤ i * pageSize ∧ i * pageSize < va + size then none else s.pages i := by
  have hcount := pageCount_of_dvd hsize
  obtain ⟨k, rfl⟩ := hva
  have hwrap : wrap (pageSize * k + size) - pageSize * k = size := by
    rw [wrap_of_lt (by omega), Nat.add_sub_cancel_left]
  have hdiv : pageSize * k / pageSize = k := Nat.mul_div_cancel_left k (by decide)
  show setPages s.pages (pageSize * k) (replicate (pageCount (wrap (pageSize * k + size) -
    pageSize * k)) none) i = _
  rw [hwrap]
  have hlen : (replicate (pageCount size) (none : Option (ℕ × BitVec 64))).length = pageCount size :=
    length_replicate
  split_ifs with hin
  · apply eq_of_mem_replicate (n := pageCount size)
    apply setPages_inside
    · rw [hlen]
      omega
    · rw [hdiv]
      unfold pageSize at hin
      omega
    · rw [hdiv, hlen]
      unfold pageSize at hin hcount
      omega
  · apply setPages_outside
    · rw [hlen]
      omega
    · rw [hdiv, hlen]
      unfold pageSize at hin hcount
      omega

theorem setPages_of_not_mem {pages : PageEntries} {es : List (Option (ℕ × BitVec 64))} (hva : pageSize ∣ va)
    (hle : va + size ≤ 2 ^ 48) (hes : es.length * pageSize ≤ size)
    (hi : ¬(va ≤ i * pageSize ∧ i * pageSize < va + size)) : setPages pages va es i = pages i := by
  obtain ⟨k, rfl⟩ := hva
  have hdiv : pageSize * k / pageSize = k := Nat.mul_div_cancel_left k (by decide)
  apply setPages_outside
  · omega
  · rw [hdiv]
    unfold pageSize at hi hes
    omega

theorem UserSpace.pageMapRange_pages (hva : pageSize ∣ va) (hsize : pageSize ∣ size)
    (hle : va + size ≤ 2 ^ 48) (hi : ¬(va ≤ i * pageSize ∧ i * pageSize < va + size)) :
    (s.pageMapRange va frame size flags).pages i = s.pages i := by
  refine setPages_of_not_mem hva hle ?_ hi
  rw [length_map, length_range, pageCount_of_dvd hsize]

end Pages

section Munmap

variable {s : UserSpace} {ps : List (ℕ × Vma)} {limit : ℕ} {addr size : BitVec 64}

/-- The range from `a` to `b` is taken out of the address space. Enough memory to split an area makes
the areas exact. -/
structure RangeRemoved (limit : ℕ) (s : UserSpace) (ps : List (ℕ × Vma)) (a b : ℕ) (s' : UserSpace)
    (ps' : List (ℕ × Vma)) : Prop where
  inv : PagedInv s'.mgr ps'
  dvd : pageSize ∣ a ∧ pageSize ∣ b
  le : b ≤ limit
  sub : ∀ x, Covered (ps'.map Prod.snd) x → Covered (ps.map Prod.snd) x
  same : (∀ v ∈ ps.map Prod.snd, v.spans a b → a < b ∧
      s.mgr.heap s.mgr.mallocs = true ∧ s.mgr.heap (s.mgr.mallocs + 1) = true) →
    ∀ x, Covered (ps'.map Prod.snd) x ↔ Covered (ps.map Prod.snd) x ∧ ¬(a ≤ x ∧ x < b)
  pages : ∀ i, s'.pages i = if a ≤ i * pageSize ∧ i * pageSize < b then none else s.pages i
  below : QueueBelow limit s'.virtQueue
  queue : ∀ x, Queued s'.virtQueue x → Queued s.virtQueue x ∧ ¬(a ≤ x ∧ x < b)

/-- An accepted range of `munmap` ends at or below the limit, and an area around it can be split. -/
def MunmapBelow (limit : ℕ) (mgr : VmaManager) (addr size : BitVec 64) : Prop :=
  MunmapSafe mgr addr size ∧ (size ≠ 0 →
    checkUserOverflow (paddingDown addr.toNat) (paddingUp size.toNat) = false →
      paddingDown addr.toNat + paddingUp size.toNat ≤ limit)

theorem PagedInv.munmap_cases (h : PagedInv s.mgr ps) (hlimit : limit ≤ 2 ^ 48)
    (hq : QueueBelow limit s.virtQueue) (hbelow : MunmapBelow limit s.mgr addr size) :
    ∃ s' r, s.munmap addr size = some (s', r) ∧ (s' = s ∧ (size = 0 ∨ r = .error .fault) ∨
        ∃ ps', RangeRemoved limit s ps (paddingDown addr.toNat)
          (paddingDown addr.toNat + paddingUp size.toNat) s' ps') := by
  obtain ⟨hsafe, hle⟩ := hbelow
  by_cases hsize : size = 0
  · exact ⟨s, .ok 0, by rw [UserSpace.munmap, if_pos hsize]; rfl, Or.inl ⟨rfl, Or.inl hsize⟩⟩
  by_cases hover : checkUserOverflow (paddingDown addr.toNat) (paddingUp size.toNat) = true
  · refine ⟨s, .error .fault, ?_, Or.inl ⟨rfl, Or.inr rfl⟩⟩
    rw [UserSpace.munmap, if_neg hsize]
    simp only [munmap, if_neg hsize, if_pos hover, bind_eq_bind, bind_some, Option.pure_def]
  have hover' : checkUserOverflow (paddingDown addr.toNat) (paddingUp size.toNat) = false := by
    simpa using hover
  replace hle := hle hsize hover'
  have hdvd : pageSize ∣ paddingDown addr.toNat := Nat.dvd_mul_left _ _
  have hdvd' : pageSize ∣ paddingUp size.toNat := Nat.dvd_mul_left _ _
  obtain ⟨m, ps', hm, hinv, hsub, hiff⟩ := h.munmap_covered hsize hover' hsafe
  rw [wrap_of_lt (by omega)] at hiff
  refine ⟨({ s with
      mgr := m
      virtQueue := unmapVirtualPage s.virtQueue (paddingDown addr.toNat) (paddingUp size.toNat) } :
        UserSpace).unmapPageRange (paddingDown addr.toNat) (paddingUp size.toNat), .ok 0, ?_,
    Or.inr ⟨ps', hinv, ⟨hdvd, dvd_add hdvd hdvd'⟩, hle, hsub, hiff,
      fun i => unmapPageRange_pages hdvd hdvd' (hle.trans hlimit), ?_, ?_⟩⟩
  · rw [UserSpace.munmap, if_neg hsize, hm]
    rfl
  · intro p hp
    exact (unmapVirtualPage_spec (by omega) hdvd hdvd' (by omega) hq p hp).1
  · rintro x ⟨p, hp, hx⟩
    exact (unmapVirtualPage_spec (by omega) hdvd hdvd' (by omega) hq p hp).2 x hx

end Munmap

section Mremap

variable {s : UserSpace} {ps l1 l2 : List (ℕ × Vma)} {limit : ℕ} {p : ℕ} {v : Vma}

/-- The areas cover the range from `a` to `b`, which was free, and only its pages are changed. -/
structure RangeAdded (s : UserSpace) (ps : List (ℕ × Vma)) (a b : ℕ) (s' : UserSpace)
    (ps' : List (ℕ × Vma)) : Prop where
  inv : PagedInv s'.mgr ps'
  dvd : pageSize ∣ a ∧ pageSize ∣ b
  free : ∀ x, a ≤ x → x < b → ¬Covered (ps.map Prod.snd) x
  covered : ∀ x, Covered (ps'.map Prod.snd) x ↔ Covered (ps.map Prod.snd) x ∨ a ≤ x ∧ x < b
  pages : ∀ i, ¬(a ≤ i * pageSize ∧ i * pageSize < b) → s'.pages i = s.pages i
  queue : s'.virtQueue = s.virtQueue

/-- The areas lose the range from `a` to `b`, and nothing else is changed. -/
structure AreaCut (s : UserSpace) (ps : List (ℕ × Vma)) (a b : ℕ) (s' : UserSpace)
    (ps' : List (ℕ × Vma)) : Prop where
  inv : PagedInv s'.mgr ps'
  covered : ∀ x, Covered (ps'.map Prod.snd) x ↔ Covered (ps.map Prod.snd) x ∧ ¬(a ≤ x ∧ x < b)
  pages : s'.pages = s.pages
  queue : s'.virtQueue = s.virtQueue

/-- The area keeps at least a page, its new end does not wrap around, and a range that is mapped or
unmapped ends at or below the limit. -/
def MremapBelow (limit : ℕ) (mgr : VmaManager) (oldAddr oldSize newSize flags : BitVec 64) : Prop :=
  let old := paddingDown oldAddr.toNat
  let oldSize := paddingUp oldSize.toNat
  let newSize := paddingUp newSize.toNat
  ∀ v ∈ mgr.areas, v.vmStart = old →
    newSize ≠ 0 ∧ (v.size < newSize → v.vmStart + newSize < 2 ^ 64 ∧
      ((∀ w ∈ mgr.areas, w.meets v.vmEnd (v.vmStart + newSize) = false) → v.vmStart + newSize ≤ limit) ∧
      ((∃ w ∈ mgr.areas, w.meets v.vmEnd (v.vmStart + newSize) = true) →
        hasFlag flags mremapMayMove = true →
          (∀ b, FirstFit mgr.areas newSize b → b + newSize ≤ limit) ∧
          (oldSize ≠ 0 → checkUserOverflow old oldSize = false → old + oldSize ≤ limit)))

theorem covered_replace {w : Vma} {x : ℕ} : Covered ((l1 ++ (p, w) :: l2).map snd) x ↔
      Covered ((l1 ++ l2).map snd) x ∨ w.vmStart ≤ x ∧ x < w.vmEnd := by
  simp only [map_append, map_cons, covered_append, covered_cons]
  tauto

theorem PagedInv.write (h : PagedInv s.mgr (l1 ++ (p, v) :: l2)) {b : ℕ} (hb : pageSize ∣ b)
    (hok : AreasOk ((l1 ++ (p, v.upTo b) :: l2).map snd)) :
    ∃ mgr', vmaWrite s.mgr p (v.upTo b) = some mgr' ∧ PagedInv mgr' (l1 ++ (p, v.upTo b) :: l2) := by
  obtain ⟨m, hm, hk⟩ := h.toInv.write hok
  refine ⟨m, hm, hk.inv, fun w hw => ?_⟩
  have haligned := h.aligned
  simp only [map_append, map_cons, mem_append, mem_cons] at haligned hw
  obtain hw | rfl | hw := hw
  · exact haligned w (Or.inl hw)
  · exact ⟨(haligned v (Or.inr (Or.inl rfl))).1, hb⟩
  · exact haligned w (Or.inr (Or.inr hw))

theorem Inv.not_covered_others {mgr : VmaManager} (h : Inv mgr (l1 ++ (p, v) :: l2)) {x : ℕ}
    (hx : v.vmStart ≤ x ∧ x < v.vmEnd) : ¬Covered ((l1 ++ l2).map snd) x := by
  have hok := h.ok
  rw [map_append, map_cons] at hok
  obtain ⟨hl, hr, hlr⟩ := areasOk_append.mp hok
  obtain ⟨-, -, -, hv⟩ := areasOk_cons.mp hr
  rw [map_append, covered_append]
  rintro (⟨w, hw, hwx⟩ | ⟨w, hw, hwx⟩)
  · have hle : w.vmEnd ≤ v.vmStart := hlr w hw v mem_cons_self
    omega
  · have hle : v.vmEnd ≤ w.vmStart := hv w hw
    omega

theorem PagedInv.mremap_shrink (h : PagedInv s.mgr (l1 ++ (p, v) :: l2)) {b : ℕ} (hb : pageSize ∣ b)
    (hpos : v.vmStart < b) (hle : b ≤ v.vmEnd) :
    ∃ mgr', vmaWrite s.mgr p (v.upTo b) = some mgr' ∧ AreaCut s (l1 ++ (p, v) :: l2) b v.vmEnd
        { (s.unmapPageRange v.vmEnd (wrapSub b v.vmEnd)) with mgr := mgr' } (l1 ++ (p, v.upTo b) :: l2) := by
  have hok := h.ok
  rw [map_append, map_cons] at hok
  have hword := h.ok.word v (by simp)
  obtain ⟨m, hm, hinv⟩ := h.write hb (by
    rw [map_append, map_cons]
    exact hok.shrink hpos hle)
  refine ⟨m, hm, hinv, fun x => ?_, ?_, rfl⟩
  · rw [covered_replace, covered_replace]
    have hothers : v.vmStart ≤ x ∧ x < v.vmEnd → ¬Covered ((l1 ++ l2).map snd) x :=
      h.toInv.not_covered_others
    simp only [Vma.upTo_vmStart, Vma.upTo_vmEnd]
    constructor
    · rintro (hx | hx)
      · exact ⟨Or.inl hx, fun hin => hothers ⟨by omega, by omega⟩ hx⟩
      · exact ⟨Or.inr ⟨by omega, by omega⟩, by omega⟩
    · rintro ⟨hx | hx, hout⟩
      · exact Or.inl hx
      · exact Or.inr (by omega)
  · -- the loop ends before its first iteration
    have hstop : wrap (v.vmEnd + wrapSub b v.vmEnd) - v.vmEnd = 0 := by
      unfold wrap wrapSub
      omega
    show setPages s.pages v.vmEnd (replicate (pageCount (wrap (v.vmEnd + wrapSub b v.vmEnd) -
      v.vmEnd)) none) = s.pages
    rw [hstop]
    rfl

theorem PagedInv.mremap_grow (h : PagedInv s.mgr (l1 ++ (p, v) :: l2)) {b : ℕ} (frame : ℕ)
    (flags : BitVec 64) (hlimit : limit ≤ 2 ^ 48) (hb : pageSize ∣ b) (hlt : v.vmEnd < b) (hle : b ≤ limit)
    (hmeet : ∀ w ∈ (l1 ++ (p, v) :: l2).map snd, w.meets v.vmEnd b = false) :
    ∃ mgr', vmaWrite s.mgr p (v.upTo b) = some mgr' ∧ RangeAdded s (l1 ++ (p, v) :: l2) v.vmEnd b
        { (s.pageMapRange v.vmEnd frame (wrapSub b v.vmEnd) flags) with mgr := mgr' }
        (l1 ++ (p, v.upTo b) :: l2) := by
  have hok := h.ok
  rw [map_append, map_cons] at hok
  have hv : v ∈ (l1 ++ (p, v) :: l2).map snd := by simp
  have hne := h.ok.nonempty v hv
  obtain ⟨-, hend⟩ := h.aligned v hv
  obtain ⟨m, hm, hinv⟩ := h.write hb (by
    rw [map_append, map_cons] at hmeet ⊢
    exact hok.grow hlt (by omega) hmeet)
  have hsub : wrapSub b v.vmEnd = b - v.vmEnd := wrapSub_of_le hlt.le (by omega)
  refine ⟨m, hm, hinv, ⟨hend, hb⟩, fun x h1 h2 => not_covered_of_meets hmeet h1 h2, fun x => ?_, fun i hi => ?_, rfl⟩
  · rw [covered_replace, covered_replace]
    simp only [Vma.upTo_vmStart, Vma.upTo_vmEnd]
    constructor
    · rintro (hx | hx)
      · exact Or.inl (Or.inl hx)
      · by_cases hlow : x < v.vmEnd
        · exact Or.inl (Or.inr ⟨hx.1, hlow⟩)
        · exact Or.inr ⟨by omega, hx.2⟩
    · rintro ((hx | hx) | hx)
      · exact Or.inl hx
      · exact Or.inr ⟨hx.1, by omega⟩
      · exact Or.inr ⟨by omega, hx.2⟩
  · show (s.pageMapRange v.vmEnd frame (wrapSub b v.vmEnd) flags).pages i = s.pages i
    rw [hsub]
    refine pageMapRange_pages hend (Nat.dvd_sub hb hend) (by omega) ?_
    rw [Nat.add_sub_cancel' hlt.le]
    exact hi

theorem PagedInv.mremapMove_cases (h : PagedInv s.mgr ps) (hlimit : limit ≤ 2 ^ 48) {a old oldSize newSize : ℕ}
    (ha : pageSize ∣ a) (hnew : newSize ≠ 0) (hdvd : pageSize ∣ newSize) (hle : a + newSize ≤ limit)
    (hfree : ∀ w ∈ ps.map snd, w.meets a (a + newSize) = false) :
    (∃ mgr', s.mremapMove v a old oldSize newSize = some ({ s with mgr := mgr' }, .error .nomem) ∧
      PagedInv mgr' ps) ∨
    ∃ s1 ps1, RangeAdded s ps a (a + newSize) s1 ps1 ∧
      (∀ w, w ∈ ps1.map snd → w ∈ ps.map snd ∨ w = v.movedTo a newSize) ∧
      (∀ w ∈ ps.map snd, w ∈ ps1.map snd) ∧
      s1.pages = (s.pageMapRange a (s.virtToPhys old) newSize mremapFlags).pages ∧
      s.mremapMove v a old oldSize newSize =
        (s1.munmap (BitVec.ofNat 64 old) (BitVec.ofNat 64 oldSize)).bind fun r => some (r.1, .ok a) := by
  by_cases hheap : s.mgr.heap s.mgr.mallocs = true
  swap
  · refine Or.inl ⟨_, ?_, (h.toInv.keeps_malloc True 1).inv, h.aligned⟩
    rw [UserSpace.mremapMove, vmaAlloc, if_neg hheap]
    rfl
  have hend : (v.movedTo a newSize).vmEnd = a + newSize := wrap_of_lt (by omega)
  have hne : (v.movedTo a newSize).vmStart < (v.movedTo a newSize).vmEnd := by
    rw [hend]
    exact Nat.lt_add_of_pos_right (Nat.pos_of_ne_zero hnew)
  obtain ⟨m, m1, halloc, hwrite, hk1, hc1, hlt1⟩ := h.toInv.allocNew (v.movedTo a newSize) hheap
  obtain ⟨m2, hins, hk2, -⟩ := hk1.inv.insert h.fresh hlt1 hc1 hne (by rw [hend]; omega)
    (by rw [hend]; exact hfree)
  have hmem : ∀ w, w ∈ (insertArea (s.mgr.mallocs, v.movedTo a newSize) ps).map snd ↔
      w ∈ ps.map snd ∨ w = v.movedTo a newSize := by
    intro w
    simp only [List.mem_map, mem_insertArea, Prod.exists]
    aesop
  refine Or.inr ⟨({ s with mgr := m2 } : UserSpace).pageMapRange a (s.virtToPhys old) newSize
    mremapFlags, _, ⟨⟨hk2.inv, fun w hw => ?_⟩, ⟨ha, dvd_add ha hdvd⟩,
      fun x h1 h2 => not_covered_of_meets hfree h1 h2,
      fun x => ?_, fun i hi => ?_, rfl⟩, fun w hw => (hmem w).mp hw, fun w hw => (hmem w).mpr (Or.inl hw),
      rfl, ?_⟩
  · obtain hw | rfl := (hmem w).mp hw
    · exact h.aligned w hw
    · exact ⟨ha, hend ▸ dvd_add ha hdvd⟩
  · rw [covered_insertArea, hend]
    rfl
  · exact pageMapRange_pages ha hdvd (hle.trans hlimit) hi
  · simp only [UserSpace.mremapMove, halloc, hwrite, hins, bind_eq_bind, bind_some,
      Option.pure_def, Bool.not_true, Bool.false_eq_true, if_false]

theorem PagedInv.munmapBelow_of_start (h : PagedInv s.mgr ps) (hv : v ∈ ps.map snd) {oldSize : ℕ}
    (hsize : paddingUp oldSize = oldSize)
    (hle : oldSize ≠ 0 → checkUserOverflow v.vmStart oldSize = false → v.vmStart + oldSize ≤ limit) :
    MunmapBelow limit s.mgr (BitVec.ofNat 64 v.vmStart) (BitVec.ofNat 64 oldSize) := by
  have hne := h.ok.nonempty v hv
  have hword := h.ok.word v hv
  have hold64 : v.vmStart % 2 ^ 64 = v.vmStart := Nat.mod_eq_of_lt (by omega)
  have hsize64 : oldSize % 2 ^ 64 = oldSize := Nat.mod_eq_of_lt (hsize ▸ paddingUp_lt oldSize)
  have hold : paddingDown v.vmStart = v.vmStart := Nat.div_mul_cancel (h.aligned v hv).1
  unfold MunmapBelow MunmapSafe
  rw [BitVec.toNat_ofNat, BitVec.toNat_ofNat, hold64, hsize64, hold, hsize, h.areas_eq]
  constructor
  · intro start len _ _
    apply splitsSafe_of_not_spans
    intro w hw
    exact h.ok.not_spans hv hw _
  · intro hne
    exact hle (fun e => hne (by rw [e]; rfl))

theorem PagedInv.mremap_cases (h : PagedInv s.mgr ps) (hlimit : limit ≤ 2 ^ 48)
    (hq : QueueBelow limit s.virtQueue) {oldAddr oldSize newSize flags : BitVec 64}
    (hbelow : MremapBelow limit s.mgr oldAddr oldSize newSize flags) :
    ∃ s' r, s.mremap oldAddr oldSize newSize flags = some (s', r) ∧
      (∀ c, r = .ok c → c + paddingUp newSize.toNat < 2 ^ 64) ∧
      ((PagedInv s'.mgr ps ∧ s'.pages = s.pages ∧ s'.virtQueue = s.virtQueue) ∨
      (∃ v ∈ ps.map snd, v.vmStart = paddingDown oldAddr.toNat ∧
        ∃ ps', AreaCut s ps (v.vmStart + paddingUp newSize.toNat) v.vmEnd s' ps') ∨
      (∃ a b ps', b ≤ limit ∧ RangeAdded s ps a b s' ps') ∨
      ∃ a b s1 ps1, b ≤ limit ∧ RangeAdded s ps a b s1 ps1 ∧ (s' = s1 ∨ ∃ ps',
        RangeRemoved limit s1 ps1 (paddingDown oldAddr.toNat)
          (paddingDown oldAddr.toNat + paddingUp oldSize.toNat) s' ps' ∧
        ∀ v ∈ ps1.map snd, ¬v.spans (paddingDown oldAddr.toNat)
          (paddingDown oldAddr.toNat + paddingUp oldSize.toNat))) := by
  unfold MremapBelow at hbelow
  unfold UserSpace.mremap
  rw [h.areas_eq] at hbelow
  set old := paddingDown oldAddr.toNat with hold
  set osize := paddingUp oldSize.toNat with hosize
  have hdvd : pageSize ∣ paddingUp newSize.toNat := Nat.dvd_mul_left _ _
  set nsize := paddingUp newSize.toNat
  dsimp only at hbelow ⊢
  rcases h.find_cases old with ⟨hfind, -⟩ | ⟨l1, p, v, l2, hfind, rfl, -, -⟩
  · exact ⟨s, .error .inval, by rw [hfind]; rfl, nofun, Or.inl ⟨h, rfl, rfl⟩⟩
  simp only [hfind, h.linked.get, bind_eq_bind, bind_some]
  by_cases hstart : v.vmStart = old
  swap
  · exact ⟨s, .error .inval, if_pos hstart, nofun, Or.inl ⟨h, rfl, rfl⟩⟩
  have hv : v ∈ (l1 ++ (p, v) :: l2).map snd := by simp
  have hne := h.ok.nonempty v hv
  have hword := h.ok.word v hv
  obtain ⟨hvs, hve⟩ := h.aligned v hv
  have hb : pageSize ∣ v.vmStart + nsize := dvd_add hvs hdvd
  obtain ⟨hnew, hgrow⟩ := hbelow v hv hstart
  rw [if_neg (not_not.mpr hstart)]
  rw [wrapSub_of_le hne.le hword]
  by_cases hle : nsize ≤ v.vmEnd - v.vmStart
  · rw [if_pos hle, wrap_of_lt (by omega)]
    obtain ⟨m, hm, hcut⟩ := h.mremap_shrink hb (by omega) (by omega)
    refine ⟨_, .ok old, ?_, fun c hc => ?_, Or.inr (Or.inl ⟨v, hv, hstart, _, hcut⟩)⟩
    swap
    · cases hc
      omega
    show (vmaWrite s.mgr p (v.upTo (v.vmStart + nsize))).bind _ = _
    rw [hm]
    rfl
  · rw [if_neg hle]
    obtain ⟨hlt, hfree, hmove⟩ := hgrow (not_le.mp hle)
    rw [wrap_of_lt hlt]
    rcases h.findIntersection_cases v.vmEnd (v.vmStart + nsize) with
      ⟨hnone, hmeet⟩ | ⟨k1, q, w, k2, hmeets, hl, hw⟩
    · obtain ⟨m, hm, hadded⟩ := h.mremap_grow (wrap (s.virtToPhys old + (v.vmEnd - v.vmStart)))
        v.vmFlags hlimit hb (by omega) (hfree hmeet) hmeet
      refine ⟨_, .ok old, ?_, fun c hc => ?_, Or.inr (Or.inr (Or.inl ⟨v.vmEnd, _, _, hfree hmeet, hadded⟩))⟩
      swap
      · cases hc
        omega
      rw [hnone, bind_some]
      show (vmaWrite s.mgr p (v.upTo (v.vmStart + nsize))).bind _ = _
      rw [hm]
      rfl
    · rw [hmeets, bind_some]
      by_cases hmay : hasFlag flags mremapMayMove = true
      swap
      · exact ⟨s, .error .nomem, by rw [if_pos (by simpa using hmay)]; rfl, nofun, Or.inl ⟨h, rfl, rfl⟩⟩
      rw [if_neg (by simpa using hmay)]
      have hwmem : w ∈ (l1 ++ (p, v) :: l2).map snd := by
        rw [hl]
        simp
      obtain ⟨hfit, hunmap⟩ := hmove ⟨w, hwmem, hw⟩ hmay
      rcases h.findFree_cases nsize with hnofit | ⟨a, hfound, hfirst⟩
      · exact ⟨s, .error .nomem, by rw [hnofit]; rfl, nofun, Or.inl ⟨h, rfl, rfl⟩⟩
      rw [hfound, bind_some]
      have hale := hfit a hfirst
      obtain ⟨k, ha, -, hfreea, -⟩ := id hfirst
      rw [wrap_of_lt (by omega)] at hfreea
      have hadvd : pageSize ∣ a := by
        rw [ha]
        exact dvd_add (by decide) (Nat.dvd_mul_left _ _)
      rcases h.mremapMove_cases hlimit hadvd hnew hdvd hale hfreea with
        ⟨m, hm, hinv⟩ | ⟨s1, ps1, hadded, -, hmem, -, hm⟩
      · exact ⟨_, _, hm, nofun, Or.inl ⟨hinv, rfl, rfl⟩⟩
      have hv1 := hmem v hv
      have hosize' : paddingUp osize = osize := paddingUp_idem _
      have hbelow1 := hadded.inv.munmapBelow_of_start hv1 hosize' (hstart ▸ hunmap)
      have hq1 : QueueBelow limit s1.virtQueue := hadded.queue ▸ hq
      obtain ⟨s', r, hs', hcases⟩ := hadded.inv.munmap_cases hlimit hq1 hbelow1
      refine ⟨s', .ok a, ?_, fun c hc => ?_,
        Or.inr (Or.inr (Or.inr ⟨a, a + nsize, s1, ps1, hale, hadded, ?_⟩))⟩
      swap
      · cases hc
        omega
      · show s.mremapMove v a old osize nsize = _
        rw [hm, ← hstart, hs']
        rfl
      obtain ⟨hsame, -⟩ | ⟨ps', hremoved⟩ := hcases
      · exact Or.inl hsame
      · refine Or.inr ⟨ps', ?_, fun w hw => ?_⟩
        · have hold64 : v.vmStart % 2 ^ 64 = v.vmStart := Nat.mod_eq_of_lt (by omega)
          have hsize64 : osize % 2 ^ 64 = osize := Nat.mod_eq_of_lt (hosize' ▸ paddingUp_lt osize)
          have hold' : paddingDown v.vmStart = v.vmStart := Nat.div_mul_cancel hvs
          rw [BitVec.toNat_ofNat, BitVec.toNat_ofNat, hold64, hsize64, hosize', hold', hstart] at hremoved
          exact hremoved
        · rw [← hstart]
          exact hadded.inv.ok.not_spans hv1 hw _

end Mremap

section Mmap

variable {s : UserSpace} {ps : List (ℕ × Vma)} {limit b len : ℕ} {prot flags : BitVec 64}

/-- Only the pages and the queue of the range from `b` on are changed. An anonymous mapping with `MAP_FIXED`
removes the pages of the range, unless it allows no access. -/
structure RangeMapped (limit : ℕ) (s : UserSpace) (prot flags : BitVec 64) (b len : ℕ) (s' : UserSpace) :
    Prop where
  pages : ∀ i, ¬(b ≤ i * pageSize ∧ i * pageSize < b + len) → s'.pages i = s.pages i
  below : QueueBelow limit s'.virtQueue
  queue : ∀ x, Queued s'.virtQueue x → Queued s.virtQueue x ∨ b ≤ x ∧ x < b + len
  cleared : hasFlag flags mapAnonymous = true → hasFlag flags mapFixed = true → prot ≠ 0 →
    ∀ i, b ≤ i * pageSize → i * pageSize < b + len → s'.pages i = none
  kept : hasFlag flags mapAnonymous = true → hasFlag flags mapFixed = false ∨ prot = 0 → s'.pages = s.pages

theorem lazyInfoalloc_mapped (hlimit : limit ≤ 2 ^ 48) (hq : QueueBelow limit s.virtQueue)
    (hb : pageSize ∣ b) (hlen : pageSize ∣ len) (hle : b + len ≤ limit) (hprot : prot ≠ 0)
    (pteFlags : BitVec 64) : RangeMapped limit s prot flags b len (s.lazyInfoalloc b len pteFlags flags) := by
  have hcount := pageCount_of_dvd hlen
  have hentry : (⟨b, pageCount len, pteFlags⟩ : VirtPage).Below limit := ⟨hb, by rw [hcount]; exact hle⟩
  have hcovers : ∀ x, (⟨b, pageCount len, pteFlags⟩ : VirtPage).Covers x → b ≤ x ∧ x < b + len := by
    intro x hx
    have hx' : b ≤ x ∧ x < b + pageCount len * pageSize := hx
    rw [hcount] at hx'
    exact hx'
  unfold lazyInfoalloc
  cases hfixed : hasFlag flags mapFixed with
  | false =>
    refine ⟨fun _ _ => rfl, ?_, ?_, fun _ h => ?_, fun _ _ => rfl⟩
    · intro e he
      obtain he | he := mem_append.mp he
      · exact hq e he
      · obtain rfl := mem_singleton.mp he
        exact hentry
    · rintro x ⟨e, he, hx⟩
      obtain he | he := mem_append.mp he
      · exact Or.inl ⟨e, he, hx⟩
      · obtain rfl := mem_singleton.mp he
        exact Or.inr (hcovers x hx)
    · cases hfixed.symm.trans h
  | true =>
    have hspec : ∀ p ∈ unmapVirtualPage s.virtQueue b len, p.Below limit ∧ ∀ x, p.Covers x →
        (∃ e ∈ s.virtQueue, e.Covers x) ∧ ¬(b ≤ x ∧ x < b + len) :=
      unmapVirtualPage_spec (by omega) hb hlen (by omega) hq
    have hpages := fun i => unmapPageRange_pages
      (s := { s with virtQueue := unmapVirtualPage s.virtQueue b len }) (i := i) hb hlen (hle.trans hlimit)
    refine ⟨fun i hi => ?_, ?_, ?_, fun _ _ _ i h1 h2 => ?_, ?_⟩
    · exact (hpages i).trans (if_neg hi)
    · intro e he
      obtain he | he := mem_append.mp he
      · exact (hspec e he).1
      · obtain rfl := mem_singleton.mp he
        exact hentry
    · rintro x ⟨e, he, hx⟩
      obtain he | he := mem_append.mp he
      · exact Or.inl ((hspec e he).2 x hx).1
      · obtain rfl := mem_singleton.mp he
        exact Or.inr (hcovers x hx)
    · exact (hpages i).trans (if_pos ⟨h1, h2⟩)
    · rintro - (h | h)
      · cases hfixed.symm.trans h
      · exact absurd h hprot

theorem lazyInfoalloc_mgr (vaddr length : ℕ) (pteFlags : BitVec 64) :
    (s.lazyInfoalloc vaddr length pteFlags flags).mgr = s.mgr := by
  unfold lazyInfoalloc
  cases hasFlag flags mapFixed <;> rfl

theorem PagedInv.mmapPlace_some (h : PagedInv s.mgr ps) (addr len : ℕ) (flags : BitVec 64) :
    ∃ place, mmapPlace s.mgr addr len flags = some place := by
  unfold mmapPlace
  split_ifs
  · exact ⟨_, rfl⟩
  · rcases h.findFree_cases len with hnone | ⟨a, hfound, -⟩
    · exact ⟨_, hnone⟩
    · exact ⟨_, hfound⟩

theorem mmap_refused {addr length offset : BitVec 64} {fd : ℤ} {fdOpen : Bool} {mapped : ℕ}
    {file : List (ℕ × BitVec 64)} {s' : UserSpace} {r : Except Errno ℕ}
    (hover : checkUserOverflow (paddingDown addr.toNat) (paddingUp length.toNat) = true)
    (hrun : s.mmap addr length prot flags fd offset fdOpen mapped file = some (s', r)) : r = .error .fault := by
  have hm : CoolPotOS.mmap s.mgr addr length prot flags fd offset fdOpen mapped =
      some (s.mgr, .error .fault) := by
    simp only [CoolPotOS.mmap, if_pos hover, Option.pure_def]
  unfold UserSpace.mmap at hrun
  simp only [hm, bind_eq_bind, bind_some] at hrun
  obtain ⟨place, -, hrest⟩ := bind_eq_some_iff.mp hrun
  cases hrest
  rfl

theorem PagedInv.mmap_cases (h : PagedInv s.mgr ps) (hlimit : limit ≤ 2 ^ 48)
    (hq : QueueBelow limit s.virtQueue) {addr length : BitVec 64} {fdOpen : Bool}
    (prot offset : BitVec 64) (fd : ℤ) (mapped : ℕ) (file : List (ℕ × BitVec 64))
    (hbelow : MmapBelow limit s.mgr addr length flags fdOpen) :
    ∃ s' r ps', s.mmap addr length prot flags fd offset fdOpen mapped file = some (s', r) ∧
      PagedInv s'.mgr ps' ∧ ((∃ e, r = .error e) ∧ s'.pages = s.pages ∧ s'.virtQueue = s.virtQueue ∧
          MmapFailed s.mgr (ps.map snd) (ps'.map snd) flags (paddingDown addr.toNat)
            (paddingUp length.toNat) ∨
        ∃ b, mmapPlace s.mgr (paddingDown addr.toNat) (paddingUp length.toNat) flags = some (some b) ∧
          (hasFlag flags mapFixed = true → b = paddingDown addr.toNat) ∧
          MmapDone limit s.mgr (ps.map snd) (ps'.map snd) flags (paddingUp length.toNat) b ∧
          RangeMapped limit s prot flags b (paddingUp length.toNat) s') := by
  obtain ⟨m, r, ps', hm, hinv, hcases⟩ := h.mmap_covered (by omega) prot fd offset mapped hbelow
  have hdvd : pageSize ∣ paddingUp length.toNat := Nat.dvd_mul_left _ _
  obtain ⟨place, hplace⟩ := h.mmapPlace_some (paddingDown addr.toNat) (paddingUp length.toNat) flags
  unfold UserSpace.mmap
  simp only [hm, hplace, bind_eq_bind, bind_some, Option.pure_def]
  obtain ⟨⟨e, rfl⟩, hfailed⟩ | ⟨b, c, rfl, hb, hfixed, hdone⟩ := hcases
  · exact ⟨{ s with mgr := m }, .error e, ps', rfl, hinv, Or.inl ⟨⟨e, rfl⟩, rfl, rfl, hfailed⟩⟩
  obtain rfl := Option.some.inj (hplace.symm.trans hb)
  dsimp only
  cases hanon : hasFlag flags mapAnonymous with
  | false =>
    -- a file, which maps its own pages
    refine ⟨_, _, ps', rfl, hinv, Or.inr ⟨b, rfl, hfixed, hdone, fun i hi => ?_, hq, ?_, ?_, ?_⟩⟩
    · refine setPages_of_not_mem hdone.dvd (hdone.le.trans hlimit) ?_ hi
      calc _ ≤ pageCount (paddingUp length.toNat) * pageSize :=
            Nat.mul_le_mul_right _ (length_take_le _ _)
        _ = paddingUp length.toNat := pageCount_of_dvd hdvd
    · exact fun x hx => Or.inl hx
    · exact fun h => absurd h (by simp [hanon])
    · exact fun h => absurd h (by simp [hanon])
  | true =>
    by_cases hprot : prot = 0
    · refine ⟨_, _, ps', if_pos hprot, hinv, Or.inr ⟨b, rfl, hfixed, hdone, fun _ _ => rfl, hq, ?_, ?_, ?_⟩⟩
      · exact fun x hx => Or.inl hx
      · exact fun _ _ hne => absurd hprot hne
      · exact fun _ _ => rfl
    · obtain ⟨h1, h2, h3, h4, h5⟩ := lazyInfoalloc_mapped (s := { s with mgr := m }) hlimit hq
        hdone.dvd hdvd hdone.le hprot (ptFlagsFromProt prot)
      refine ⟨_, _, ps', if_neg hprot, ?_, Or.inr ⟨b, rfl, hfixed, hdone, h1, h2, h3, h4, h5⟩⟩
      show PagedInv (lazyInfoalloc { s with mgr := m } _ _ _ _).mgr ps'
      rw [lazyInfoalloc_mgr]
      exact hinv

end Mmap

section Fault

variable {s : UserSpace} {limit : ℕ}

theorem pageFault_cases (hlimit : limit ≤ 2 ^ 48) (hq : QueueBelow limit s.virtQueue) (address phys : ℕ) :
    (s.pageFault address phys).mgr = s.mgr ∧ QueueBelow limit (s.pageFault address phys).virtQueue ∧
      (∀ x, Queued (s.pageFault address phys).virtQueue x → Queued s.virtQueue x) ∧
      ∀ i, (∃ x, x / pageSize = i ∧ Queued s.virtQueue x) ∨
        (s.pageFault address phys).pages i = s.pages i := by
  have hsame : s.mgr = s.mgr ∧ QueueBelow limit s.virtQueue ∧
      (∀ x, Queued s.virtQueue x → Queued s.virtQueue x) ∧
      ∀ i, (∃ x, x / pageSize = i ∧ Queued s.virtQueue x) ∨ s.pages i = s.pages i :=
    ⟨rfl, hq, fun _ hx => hx, fun _ => Or.inr rfl⟩
  unfold pageFault
  by_cases hlow : address < 0x1000
  · rw [if_pos hlow]
    exact hsame
  rw [if_neg hlow]
  cases hk : s.virtQueue.findIdx? fun e => decide (address ≥ e.start ∧ address < e.stop) with
  | none =>
    have hnone : s.lazyTryalloc address phys = none := by
      unfold lazyTryalloc
      rw [hk]
      rfl
    rw [hnone]
    exact hsame
  | some k =>
    obtain ⟨hlt, hin, -⟩ := findIdx?_eq_some_iff_getElem.mp hk
    set e := s.virtQueue[k] with he
    have hmem : e ∈ s.virtQueue := getElem_mem hlt
    have hbelow := hq e hmem
    rw [decide_eq_true_eq, hbelow.stop_eq (by omega)] at hin
    set i := (address - e.start) / pageSize with hidef
    have hi : i < e.count := by
      rw [hidef, Nat.div_lt_iff_lt_mul (by decide)]
      omega
    have hpage : (i + 1) * pageSize ≤ e.count * pageSize := Nat.mul_le_mul_right _ hi
    have hsome : s.lazyTryalloc address phys = some { s with
        pages := Function.update s.pages (pageIndex (wrap (e.start + i * pageSize))) (some (phys, e.pteFlags))
        virtQueue := (s.virtQueue ++ faultPieces e i).eraseIdx k } := by
      unfold lazyTryalloc
      rw [hk, bind_eq_bind, bind_some, List.getElem?_eq_getElem hlt]
      rfl
    rw [hsome, getD_some]
    have hpieces : ∀ p ∈ (s.virtQueue ++ faultPieces e i).eraseIdx k, p.Below limit ∧
        ∀ x, p.Covers x → Queued s.virtQueue x := by
      intro p hp
      obtain hp | hp := mem_append.mp (mem_of_mem_eraseIdx hp)
      · exact ⟨hq p hp, fun x hx => ⟨p, hp, hx⟩⟩
      · obtain ⟨h1, h2⟩ := faultPieces_spec hbelow (by omega) hi hp
        exact ⟨h1, fun x hx => ⟨e, hmem, h2 x hx⟩⟩
    refine ⟨rfl, fun p hp => (hpieces p hp).1, ?_, fun j => ?_⟩
    · rintro x ⟨p, hp, hx⟩
      exact (hpieces p hp).2 x hx
    · have hwrap : wrap (e.start + i * pageSize) = e.start + i * pageSize := by
        have hle := hbelow.2
        unfold pageSize at hpage hle ⊢
        exact wrap_of_lt (by omega)
      have hcovers : e.Covers (e.start + i * pageSize) := by
        unfold VirtPage.Covers
        unfold pageSize at hpage ⊢
        omega
      have hle := hbelow.2
      have hindex : pageIndex (e.start + i * pageSize) = (e.start + i * pageSize) / pageSize :=
        pageIndex_of_lt (hcovers.2.trans_le (hle.trans hlimit))
      by_cases hj : j = (e.start + i * pageSize) / pageSize
      · exact Or.inl ⟨_, hj.symm, e, hmem, hcovers⟩
      · refine Or.inr ?_
        show Function.update s.pages (pageIndex (wrap (e.start + i * pageSize))) (some (phys, e.pteFlags)) j = _
        rw [hwrap, hindex, Function.update_of_ne hj]

end Fault

end CoolPotOS
