import CoolPotOS.Mem.Mremap

namespace CoolPotOS

open Option UserSpace

section Move

variable {s s' s₁ : UserSpace} {ps ps₁ : List (ℕ × Vma)} {v : Vma} {allocated : ℕ → Prop}
  {mem : ℕ → BitVec 8} {r n oldSize x : ℕ}

theorem UserSpace.frameOf_virtToPhys (hentries : ∀ i e, s.pages i = some e → EntryOk e) (hx : pageSize ∣ x) :
    frameOf (BitVec.ofNat 64 (s.virtToPhys x)) = (s.frameAt x).getD 0 := by
  have hmod : x % pageSize = 0 := Nat.mod_eq_zero_of_dvd hx
  unfold virtToPhys frameAt
  cases hp : s.pages (pageIndex x) with
  | none => exact frameOf_ofNat_zero
  | some e =>
    obtain ⟨frame, flags⟩ := e
    have hok : EntryOk (frame, flags) := hentries _ _ hp
    dsimp only
    rw [hmod, Nat.add_zero]
    split
    · rw [getD_some, entryFrame_of_ok hok]
      exact hok.1
    · exact frameOf_ofNat_zero

theorem UserSpace.mem_munmapFreed {f : ℕ} (hx : x + oldSize ≤ userHalf) (hsize : oldSize ≠ 0)
    (hf : s.frameAt x = some f) : f ∈ s.munmapFreed x oldSize := by
  unfold userHalf at hx
  have hover : checkUserOverflow x oldSize = false := by
    unfold checkUserOverflow kernelAreaMem
    rw [wrap_of_lt (by omega), decide_eq_false_iff_not]
    omega
  have hpos : 0 < pageCount (wrap (x + oldSize) - x) := by
    rw [wrap_of_lt (by omega)]
    unfold pageCount pageSize
    omega
  have hfirst : wrap (x + 0 * pageSize) = x := by
    rw [Nat.zero_mul, Nat.add_zero]
    apply wrap_of_lt
    omega
  unfold munmapFreed freedFrames
  rw [if_neg (by simp [hsize, hover]), List.mem_filterMap]
  refine ⟨0, List.mem_range.mpr hpos, ?_⟩
  rw [hfirst]
  unfold frameAt at hf
  cases hp : s.pages (pageIndex x) with
  | none =>
    rw [hp] at hf
    cases hf
  | some e =>
    obtain ⟨frame, flags⟩ := e
    rw [hp] at hf
    dsimp only at hf
    split at hf
    · exact hf
    · cases hf

theorem UserSpace.Remapped.frame_ne_zero (h : s.Remapped mem allocated v oldSize n s' r)
    (hzero : ¬allocated 0) (hlow : r ≤ x) (hhigh : x < r + n) : s'.frameAt x ≠ some 0 := by
  intro hx
  obtain ⟨f, hf, ⟨hown, -⟩, -⟩ | ⟨hnone, -⟩ := (h.served x hlow hhigh).2
  · obtain rfl := Option.some.inj (hx.symm.trans hf)
    exact hzero hown
  · rw [hx] at hnone
    cases hnone

theorem UserSpace.Remapped.same_page (h : s.Remapped mem allocated v oldSize n s' r) {f y : ℕ}
    (hlow : r ≤ x) (hhigh : x < r + n) (hx : s'.frameAt x = some f) (hy : y < userHalf)
    (hfy : s'.frameAt y = some f) : y / pageSize = x / pageSize := by
  have hhalf : userHalf ≤ 2 ^ 48 := by decide
  obtain ⟨hxhalf, ⟨f', hf', -, honly⟩ | ⟨hnone, -⟩⟩ := h.served x hlow hhigh
  · obtain rfl := Option.some.inj (hx.symm.trans hf')
    have hidx := honly y hy (by omega) hfy
    rwa [pageIndex_of_lt (by omega), pageIndex_of_lt (by omega)] at hidx
  · rw [hx] at hnone
    cases hnone

/-- The move before the old range is unmapped: the new range begins with the frame of the first page. -/
structure MovedFirst (s : UserSpace) (ps : List (ℕ × Vma)) (v : Vma) (oldSize n r : ℕ) (s₁ : UserSpace)
    (ps₁ : List (ℕ × Vma)) : Prop where
  added : RangeAdded s ps r (r + n) s₁ ps₁
  area : v ∈ ps₁.map Prod.snd
  first : s₁.frameAt r = some ((s.frameAt v.vmStart).getD 0)
  old : s₁.frameAt v.vmStart = s.frameAt v.vmStart
  freed : s.frameAt v.vmStart ≠ none → v.vmStart + oldSize ≤ userHalf → oldSize ≠ 0 →
    (s.frameAt v.vmStart).getD 0 ∈ s.mremapFreed v.vmStart oldSize n r

theorem PagedInv.movedFirst (h : PagedInv s.mgr ps) (hentries : ∀ i e, s.pages i = some e → EntryOk e)
    (hv : v ∈ s.mgr.areas) (hcov : v.vmStart < userHalf) (hn : v.size < n) (hdvd : pageSize ∣ n)
    (hfit : FirstFit s.mgr.areas n r) (hhalf : r + n ≤ userHalf)
    (hrun : s.mremapMove v r v.vmStart oldSize n = some (s', .ok r)) :
    ∃ s₁ ps₁ e, MovedFirst s ps v oldSize n r s₁ ps₁ ∧
      s₁.munmap (BitVec.ofNat 64 v.vmStart) (BitVec.ofNat 64 oldSize) = some (s', e) := by
  have hlimit : userHalf ≤ 2 ^ 48 := by decide
  rw [h.areas_eq] at hv hfit
  have hne := h.ok.nonempty v hv
  have halign := h.aligned v hv
  obtain ⟨k, hk, -, hmeets, -⟩ := hfit
  have hdvdr : pageSize ∣ r := hk ▸ dvd_add (by decide) (Nat.dvd_mul_left _ _)
  rw [wrap_of_lt (by unfold userHalf at hhalf; omega)] at hmeets
  have hapart := Vma.meets_eq_false.mp (hmeets v hv)
  rcases h.mremapMove_cases hlimit hdvdr (by omega) hdvd hhalf hmeets with
    ⟨m, hm, -⟩ | ⟨s₁, ps₁, hadded, -, hmem, hpages, hm⟩
  · rw [hm] at hrun
    cases hrun
  rw [hm] at hrun
  obtain ⟨⟨s2, e⟩, hmunmap, hret⟩ := bind_eq_some_iff.mp hrun
  obtain rfl : s' = s2 := (congrArg Prod.fst (Option.some.inj hret)).symm
  have hfirst : (s.pageMapRange r (s.virtToPhys v.vmStart) n mremapFlags).frameAt v.vmStart =
      s.frameAt v.vmStart := by
    apply frameAt_pageMapRange hdvdr hdvd (hhalf.trans hlimit) (hcov.trans_le hlimit)
    omega
  refine ⟨s₁, ps₁, e, ⟨hadded, hmem v hv, ?_, ?_, fun hsome hold hsize => ?_⟩, hmunmap⟩
  · have hat := s.pageMapRange_at (s.virtToPhys v.vmStart) mremapFlags hdvdr hdvd
      (hhalf.trans hlimit) le_rfl (by omega)
    have hpresent : hasFlag mremapFlags ptePresent = true := by decide
    have hflags : mremapFlags &&& pteFrameMask = 0 := by decide
    unfold frameAt
    rw [hpages, hat]
    dsimp only
    rw [if_pos hpresent, paddingDown_of_dvd hdvdr, Nat.sub_self, Nat.add_zero, entryFrame_wrap,
      entryFrame_eq hflags, frameOf_virtToPhys hentries halign.1]
    rfl
  · exact (frameAt_congr hpages _).trans hfirst
  · obtain ⟨f, hf⟩ := ne_none_iff_exists'.mp hsome
    unfold mremapFreed
    rw [if_neg (by omega), hf, getD_some]
    exact mem_munmapFreed hold hsize (hfirst.trans hf)

/-- A move maps the frame of the first page a second time, or keeps it and frees it, or there was none and
it maps frame `0`. -/
theorem PagedInv.not_remapped_of_move (h : PagedInv s.mgr ps) (hq : QueueBelow userHalf s.virtQueue)
    (hentries : ∀ i e, s.pages i = some e → EntryOk e) (hzero : ¬allocated 0) (hv : v ∈ s.mgr.areas)
    (hcov : v.vmStart < userHalf) (hn : v.size < n) (hdvd : pageSize ∣ n)
    (hfit : FirstFit s.mgr.areas n r) (hosize : paddingUp oldSize = oldSize)
    (hold : v.vmStart + oldSize ≤ userHalf) (hrun : s.mremapMove v r v.vmStart oldSize n = some (s', .ok r)) :
    ¬s.Remapped mem allocated v oldSize n s' r := by
  intro hremap
  have hhalf : r + n ≤ userHalf := by
    have hlast := (hremap.served (r + n - 1) (by omega) (by omega)).1
    omega
  have hlimit : userHalf ≤ 2 ^ 48 := by decide
  have hrn : r < r + n := by omega
  obtain ⟨s₁, ps₁, e, hmoved, hmunmap⟩ := h.movedFirst hentries hv hcov hn hdvd hfit hhalf hrun
  have hsome : s'.frameAt r = s₁.frameAt r → s.frameAt v.vmStart ≠ none := by
    intro hr hnone
    rw [hmoved.first, hnone] at hr
    exact hremap.frame_ne_zero hzero le_rfl hrn hr
  -- nothing is unmapped
  have hsame : s' ≠ s₁ := by
    intro heq
    subst heq
    obtain ⟨f, hf⟩ := ne_none_iff_exists'.mp (hsome rfl)
    have hfirst := hmoved.first
    have hfold := hmoved.old
    rw [hf] at hfirst hfold
    have hpage := hremap.same_page le_rfl hrn hfirst hcov hfold
    rw [h.areas_eq] at hv
    have hne := h.ok.nonempty v hv
    obtain ⟨i, hi⟩ := (h.aligned v hv).1
    obtain ⟨j, hj⟩ := hmoved.added.dvd.1
    have hstart : v.vmStart = r := by
      unfold pageSize at hi hj hpage
      omega
    exact hmoved.added.free r le_rfl hrn ⟨v, hv, hstart.le, by omega⟩
  by_cases hsize : oldSize = 0
  · rw [hsize] at hmunmap
    unfold UserSpace.munmap at hmunmap
    rw [if_pos (by rfl)] at hmunmap
    exact hsame (congrArg Prod.fst (Option.some.inj hmunmap)).symm
  have hinv := hmoved.added.inv
  have hbelow := hinv.munmapBelow_of_start hmoved.area hosize fun _ _ => hold
  obtain ⟨s3, e3, hmunmap3, hcases⟩ := hinv.munmap_cases hlimit (hmoved.added.queue ▸ hq) hbelow
  obtain ⟨rfl, rfl⟩ := Prod.mk.inj (Option.some.inj (hmunmap.symm.trans hmunmap3))
  obtain ⟨heq, -⟩ | ⟨ps', hremoved⟩ := hcases
  · exact hsame heq
  have hold64 : v.vmStart % 2 ^ 64 = v.vmStart := Nat.mod_eq_of_lt (by omega)
  have hsize64 : oldSize % 2 ^ 64 = oldSize := Nat.mod_eq_of_lt (hosize ▸ paddingUp_lt oldSize)
  rw [BitVec.toNat_ofNat, BitVec.toNat_ofNat, hold64, hsize64, hosize,
    paddingDown_of_dvd (h.aligned v (h.areas_eq ▸ hv)).1] at hremoved
  -- the new area is still there, so that its first page was not in the old range
  obtain ⟨w, hw, hwstart, hwend, -⟩ := hremap.area
  rw [hremoved.inv.areas_eq] at hw
  have hin := (hremoved.same (fun u hu hspan => absurd hspan (hinv.ok.not_spans hmoved.area hu _)) r).mp
    ⟨w, hw, hwstart.le, by omega⟩
  have hpage : s'.frameAt r = s₁.frameAt r := by
    unfold frameAt
    rw [hremoved.pages, if_neg]
    rw [pageIndex_of_lt (by omega), mem_pages_iff hremoved.dvd.1 hremoved.dvd.2]
    exact hin.2
  exact hremap.kept r (by omega) _ (hpage.trans hmoved.first) (hmoved.freed (hsome hpage) hold hsize)

end Move

section InPlace

variable {s s' : UserSpace} {v : Vma} {allocated : ℕ → Prop} {mem : ℕ → BitVec 8} {pages : PageEntries}
  {access : BitVec 64} {r n a b oldSize x : ℕ}

theorem MremapInPlace.remapped_iff (h : MremapInPlace s v n pages s' r) (hword : v.vmStart + n < 2 ^ 64)
    (hframe : ∀ x, v.vmStart ≤ x → x < v.vmStart + n → Covered s.mgr.areas x → s'.frameAt x = s.frameAt x) :
    s.Remapped mem allocated v oldSize n s' r ↔
      ∀ x, v.vmStart ≤ x → x < v.vmStart + n → s'.Serves allocated v.access 0 0 x := by
  obtain ⟨rfl, harea, -, hqueue⟩ := h
  have hfreed : s.mremapFreed v.vmStart oldSize n v.vmStart = [] := if_pos rfl
  have hown : (fun f => allocated f ∧ f ∉ s.mremapFreed v.vmStart oldSize n v.vmStart) = allocated := by
    funext f
    rw [hfreed]
    simp
  rw [wrap_of_lt hword] at harea
  constructor
  · intro h
    have hserved := h.served
    rwa [hown] at hserved
  · intro h
    refine ⟨fun k hk byte hreads => ?_, ⟨_, harea, rfl, rfl, rfl⟩, by rwa [hown], fun x _ f _ => ?_⟩
    · obtain ⟨hcov, hbyte⟩ := hreads
      unfold UserSpace.Reads
      rw [hframe _ (by omega) (by omega) hcov, hqueue]
      exact ⟨⟨_, harea, Nat.le_add_right _ _, by simp only [Vma.upTo_vmEnd]; omega⟩, hbyte⟩
    · rw [hfreed]
      exact List.not_mem_nil

theorem UserSpace.serves_congr (hframe : ∀ x, s'.frameAt x = s.frameAt x) (hqueue : s'.virtQueue = s.virtQueue) :
    s'.Serves allocated access a b x ↔ s.Serves allocated access a b x := by
  unfold UserSpace.Serves UserSpace.OwnFrame
  simp only [hframe, hqueue]

/-- The pages of an area that has grown: the new ones lead to the next frames, if the area can be read. -/
structure Grown (s : UserSpace) (v : Vma) (stop : ℕ) (s' : UserSpace) : Prop where
  queue : s'.virtQueue = s.virtQueue
  outside : ∀ x < userHalf, ¬(v.vmEnd ≤ x ∧ x < stop) → s'.frameAt x = s.frameAt x
  inside : ∀ x, v.vmEnd ≤ x → x < stop →
    s'.frameAt x = if hasFlag v.vmFlags vmaRead then some (s.nextFrame v x) else none

theorem MremapInPlace.grown (h : MremapInPlace s v n (s.pageMapRange v.vmEnd
      (wrap (s.virtToPhys v.vmStart + v.size)) (wrapSub (v.vmStart + n) v.vmEnd) v.vmFlags).pages s' r)
    (halign : v.Aligned) (hne : v.vmStart < v.vmEnd) (hn : v.size < n) (hdvd : pageSize ∣ n)
    (hhalf : v.vmStart + n ≤ userHalf) : Grown s v (v.vmStart + n) s' := by
  have hlimit : userHalf ≤ 2 ^ 48 := by decide
  have hgrow : v.vmEnd < v.vmStart + n := by
    unfold Vma.size at hn
    omega
  have hdvd' : pageSize ∣ v.vmStart + n - v.vmEnd := Nat.dvd_sub (dvd_add halign.1 hdvd) halign.2
  have hstop : v.vmEnd + (v.vmStart + n - v.vmEnd) = v.vmStart + n := by omega
  have hpages := h.pages
  rw [wrapSub_of_le hgrow.le (by omega)] at hpages
  refine ⟨h.queue, fun x hx hout => ?_, fun x hlow hhigh => ?_⟩
  · rw [← hstop] at hout
    rw [frameAt_congr hpages]
    exact frameAt_pageMapRange halign.2 hdvd' (by omega) (hx.trans_le hlimit) hout
  · have hat := s.pageMapRange_at (wrap (s.virtToPhys v.vmStart + v.size)) v.vmFlags halign.2 hdvd'
      (by omega) hlow (by omega)
    have hpad : v.vmEnd ≤ paddingDown x := by
      obtain ⟨j, hj⟩ := halign.2
      unfold paddingDown
      unfold pageSize at hj ⊢
      omega
    have hframe : wrap (wrap (s.virtToPhys v.vmStart + v.size) + (paddingDown x - v.vmEnd)) =
        wrap (s.virtToPhys v.vmStart + (paddingDown x - v.vmStart)) := by
      unfold wrap Vma.size
      rw [Nat.mod_add_mod]
      congr 1
      omega
    unfold frameAt
    rw [hpages, hat, hframe]
    rfl

theorem mem_range_of_pageIndex {y : ℕ} (ha : pageSize ∣ a) (hb : pageSize ∣ b) (hx : x < userHalf)
    (hy : y < userHalf) (hidx : pageIndex y = pageIndex x) : a ≤ y ∧ y < b ↔ a ≤ x ∧ x < b := by
  have hlimit : userHalf ≤ 2 ^ 48 := by decide
  rw [pageIndex_of_lt (by omega), pageIndex_of_lt (by omega)] at hidx
  rw [← mem_pages_iff ha hb, hidx, mem_pages_iff ha hb]

theorem Grown.serves_iff (h : Grown s v (v.vmStart + n) s') (halign : v.Aligned) (hdvd : pageSize ∣ n)
    (hne : v.vmStart < v.vmEnd) (hgrow : v.vmEnd ≤ v.vmStart + n) (hhalf : v.vmStart + n ≤ userHalf)
    (hfree : ∀ w ∈ s.mgr.areas, w.meets v.vmEnd (v.vmStart + n) = false) :
    (∀ x, v.vmStart ≤ x → x < v.vmStart + n → s'.Serves allocated v.access 0 0 x) ↔
      s.Grows allocated v (v.vmStart + n) := by
  have hstop : pageSize ∣ v.vmStart + n := dvd_add halign.1 hdvd
  constructor
  · intro hserved
    have hnew : ∀ x, v.vmEnd ≤ x → x < v.vmStart + n → s'.Serves allocated v.access 0 0 x :=
      fun x hlow hhigh => hserved x (hne.le.trans hlow) hhigh
    refine ⟨hfree, hhalf, fun x hlow hhigh => ?_, fun hread x hlow hhigh => ?_, fun hread x hlow hhigh => ?_⟩
    · have hx := hserved x hlow (by omega)
      unfold UserSpace.Serves UserSpace.OwnFrame at hx ⊢
      rw [h.outside x hx.1 (by omega), h.queue] at hx
      obtain ⟨hxhalf, ⟨f, hf, hown, honly⟩ | hwait⟩ := hx
      · refine ⟨hxhalf, Or.inl ⟨f, hf, hown, fun y hy hout hfy => ?_⟩⟩
        exact honly y hy (by omega) ((h.outside y hy hout).trans hfy)
      · exact ⟨hxhalf, Or.inr hwait⟩
    · have hframe := h.inside x hlow hhigh
      rw [if_pos hread] at hframe
      obtain ⟨hxhalf, ⟨f, hf, hown, honly⟩ | ⟨hnone, -⟩⟩ := hnew x hlow hhigh
      · obtain rfl := some.inj (hframe.symm.trans hf)
        refine ⟨hown, fun y hy hout hfy => ?_, fun y hylow hyhigh heq => ?_⟩
        · have hidx := honly y hy (by omega) ((h.outside y hy hout).trans hfy)
          exact hout ((mem_range_of_pageIndex halign.2 hstop hxhalf hy hidx).mpr ⟨hlow, hhigh⟩)
        · have hy := h.inside y hylow hyhigh
          rw [if_pos hread, heq] at hy
          exact honly y (hyhigh.trans_le hhalf) (by omega) hy
      · rw [hframe] at hnone
        cases hnone
    · have hframe := h.inside x hlow hhigh
      rw [if_neg (by rw [hread]; exact Bool.false_ne_true)] at hframe
      obtain ⟨-, ⟨f, hf, -, -⟩ | ⟨-, hwait⟩⟩ := hnew x hlow hhigh
      · rw [hframe] at hf
        cases hf
      · rwa [h.queue] at hwait
  · intro hgrows x hlow hhigh
    have hxhalf : x < userHalf := hhigh.trans_le hhalf
    refine ⟨hxhalf, ?_⟩
    -- the old pages before the new ones
    by_cases hold : x < v.vmEnd
    · obtain ⟨-, hx⟩ := hgrows.stay x hlow hold
      unfold UserSpace.OwnFrame at hx ⊢
      rw [h.outside x hxhalf (by omega), h.queue]
      obtain ⟨f, hf, hown, honly⟩ | hwait := hx
      · refine Or.inl ⟨f, hf, hown, fun y hy _ hfy => ?_⟩
        by_cases hin : v.vmEnd ≤ y ∧ y < v.vmStart + n
        · rw [h.inside y hin.1 hin.2] at hfy
          split at hfy
          · rename_i hread
            exact absurd (hf.trans hfy.symm) ((hgrows.next hread y hin.1 hin.2).outside x hxhalf (by omega))
          · cases hfy
        · exact honly y hy hin ((h.outside y hy hin).symm.trans hfy)
      · exact Or.inr hwait
    · have hframe := h.inside x (not_lt.mp hold) hhigh
      unfold UserSpace.OwnFrame
      rw [hframe, h.queue]
      cases hread : hasFlag v.vmFlags vmaRead with
      | true =>
        obtain ⟨hown, hout, hin⟩ := hgrows.next hread x (not_lt.mp hold) hhigh
        refine Or.inl ⟨_, rfl, hown, fun y hy _ hfy => ?_⟩
        by_cases hyin : v.vmEnd ≤ y ∧ y < v.vmStart + n
        · rw [h.inside y hyin.1 hyin.2, if_pos hread] at hfy
          exact hin y hyin.1 hyin.2 (some.inj hfy)
        · exact absurd ((h.outside y hy hyin).symm.trans hfy) (hout y hy hyin)
      | false => exact Or.inr ⟨rfl, hgrows.waits hread x (not_lt.mp hold) hhigh⟩

end InPlace

/-- The areas, the queue and the page tables of an address space are in order, and frame `0` is not
allocated to it. -/
structure UserSpace.Sound (s : UserSpace) (allocated : ℕ → Prop) : Prop where
  half : ∃ ps, HalfInv s.pages s ps
  entries : ∀ i e, s.pages i = some e → EntryOk e
  zero : ¬allocated 0

/-- What is asked of `mremap` when it has returned `r`. -/
def MremapKeeps (mem : ℕ → BitVec 8) (allocated : ℕ → Prop) (s : UserSpace)
    (oldAddr oldSize newSize : BitVec 64) (s' : UserSpace) (r : ℕ) : Prop :=
  ∃ v ∈ s.mgr.areas, v.vmStart = paddingDown oldAddr.toNat ∧
    s.Remapped mem allocated v (paddingUp oldSize.toNat) (paddingUp newSize.toNat) s' r

def MremapStays (allocated : ℕ → Prop) (s : UserSpace) (oldAddr newSize : BitVec 64) : Prop :=
  ∃ v ∈ s.mgr.areas, v.vmStart = paddingDown oldAddr.toNat ∧ s.Stays allocated v (paddingUp newSize.toNat)

section Condition

variable {s s' : UserSpace} {ps : List (ℕ × Vma)} {v : Vma} {allocated : ℕ → Prop} {mem : ℕ → BitVec 8}
  {oldAddr oldSize newSize flags : BitVec 64} {r : ℕ}

theorem AreasOk.eq_of_start {vs : List Vma} (h : AreasOk vs) {w : Vma} (hv : v ∈ vs) (hw : w ∈ vs)
    (heq : v.vmStart = w.vmStart) : v = w := by
  induction vs with
  | nil => cases hv
  | cons a vs ih =>
    obtain ⟨hne, -, hok, hle⟩ := areasOk_cons.mp h
    rcases List.mem_cons.mp hv with rfl | hv' <;> rcases List.mem_cons.mp hw with rfl | hw'
    · rfl
    · have hstart := hle w hw'
      omega
    · have hstart := hle v hv'
      omega
    · exact ih hok hv' hw'

theorem UserSpace.Sound.remapped_iff (h : s.Sound allocated) (hv : v ∈ s.mgr.areas)
    (hstart : v.vmStart = paddingDown oldAddr.toNat)
    (hrun : s.mremap oldAddr oldSize newSize flags = some (s', .ok r)) :
    (s.Stays allocated v (paddingUp newSize.toNat) →
        s.Remapped mem allocated v (paddingUp oldSize.toNat) (paddingUp newSize.toNat) s' r) ∧
      (v.vmStart + paddingUp oldSize.toNat ≤ userHalf →
        s.Remapped mem allocated v (paddingUp oldSize.toNat) (paddingUp newSize.toNat) s' r →
          s.Stays allocated v (paddingUp newSize.toNat)) := by
  obtain ⟨⟨ps, hhalf⟩, hentries, hzero⟩ := h
  have hpaged := hhalf.paged
  obtain ⟨w, hw, hwstart, hcases⟩ := hpaged.mremap_ok hrun
  rw [hpaged.areas_eq] at hv hw
  obtain rfl := hpaged.ok.eq_of_start hv hw (hstart.trans hwstart.symm)
  have hne := hpaged.ok.nonempty v hv
  have hword := hpaged.ok.word v hv
  have halign := hpaged.aligned v hv
  have hdvd : pageSize ∣ paddingUp newSize.toNat := Nat.dvd_mul_left _ _
  set n := paddingUp newSize.toNat
  unfold UserSpace.Stays
  obtain ⟨hle, hplace⟩ | ⟨hlt, ⟨hmeets, hplace⟩ | ⟨⟨u, hu, hmeet⟩, hfit, hmove⟩⟩ := hcases
  · -- the area is cut off, or keeps its size
    rw [if_pos hle]
    have hsize : v.vmStart + n ≤ v.vmEnd := by
      unfold Vma.size at hle
      omega
    have hserves : s.Remapped mem allocated v (paddingUp oldSize.toNat) n s' r ↔ _ :=
      hplace.remapped_iff (by omega) fun x _ _ _ => frameAt_congr hplace.pages x
    simp only [serves_congr (frameAt_congr hplace.pages) hplace.queue] at hserves
    exact ⟨hserves.mpr, fun _ => hserves.mp⟩
  · -- the area grows
    rw [if_neg (not_le.mpr hlt)]
    have hgrow : v.vmEnd ≤ v.vmStart + n := by
      unfold Vma.size at hlt
      omega
    have hgrows : v.vmStart + n ≤ userHalf → (s.Remapped mem allocated v (paddingUp oldSize.toNat) n s' r ↔
          s.Grows allocated v (v.vmStart + n)) := by
      intro hle
      have hsum : v.vmStart + n < 2 ^ 64 := hle.trans_lt (by decide)
      rw [wrap_of_lt hsum] at hplace hmeets
      have hgrown := hplace.grown halign hne hlt hdvd hle
      rw [← hgrown.serves_iff halign hdvd hne hgrow hle hmeets]
      refine hplace.remapped_iff hsum fun x hlow hhigh hcov => hgrown.outside x (by omega) fun hin => ?_
      rw [hpaged.areas_eq] at hcov hmeets
      exact not_covered_of_meets hmeets hin.1 hin.2 hcov
    refine ⟨fun h => (hgrows h.half).mpr h, fun _ h => (hgrows ?_).mp h⟩
    have hlast := (h.served (r + n - 1) (by omega) (by omega)).1
    rw [hplace.ret] at hlast
    omega
  · -- the area is moved
    rw [if_neg (not_le.mpr hlt)]
    constructor
    · intro h
      have hle := h.half
      rw [wrap_of_lt (hle.trans_lt (by decide)), h.free u hu] at hmeet
      cases hmeet
    · intro hold h
      have hcov := hhalf.below v.vmStart ⟨v, hv, le_rfl, hne⟩
      rw [← hpaged.areas_eq] at hv
      exact absurd h (hpaged.not_remapped_of_move hhalf.queue hentries hzero hv hcov hlt hdvd hfit
        (paddingUp_idem _) hold hmove)

/-- A call that succeeds does what is asked of it if the area stays in place and its pages are served, the
new ones by the frames behind the first one. If the old range lies in the lower half, it does so only then. -/
theorem mremap_keeps_iff (h : s.Sound allocated) (mem : ℕ → BitVec 8)
    (hrun : s.mremap oldAddr oldSize newSize flags = some (s', .ok r)) :
    (MremapStays allocated s oldAddr newSize → MremapKeeps mem allocated s oldAddr oldSize newSize s' r) ∧
      (paddingDown oldAddr.toNat + paddingUp oldSize.toNat ≤ userHalf →
        MremapKeeps mem allocated s oldAddr oldSize newSize s' r →
          MremapStays allocated s oldAddr newSize) := by
  constructor
  · rintro ⟨v, hv, hstart, hstays⟩
    exact ⟨v, hv, hstart, (h.remapped_iff hv hstart hrun).1 hstays⟩
  · rintro hold ⟨v, hv, hstart, hkeeps⟩
    exact ⟨v, hv, hstart, (h.remapped_iff hv hstart hrun).2 (hstart ▸ hold) hkeeps⟩

end Condition

/-- The second of two pages that wait for their first access is cut off. -/
theorem mremap_keeps_shrunk :
    ∃ s s' r, (UserSpace.empty (fun _ => true) fun _ => none).step (.mmap 0x10000 0x2000 (protRead ||| protWrite)
      mapAnonymous (-1) 0 false 0 []) = some s ∧
      s.mremap 0x10000 0x2000 0x1000 0 = some (s', .ok r) ∧
      MremapKeeps (fun _ => 0) (fun f => f = 0x5000) s 0x10000 0x2000 0x1000 s' r := by
  have hempty : HalfInv (fun _ => none) (.empty (fun _ => true) fun _ => none) [] :=
    ⟨⟨inv_empty _, nofun⟩, fun x hx => absurd hx covered_nil, nofun, fun _ _ => rfl⟩
  have hbelow : MmapBelow userHalf (UserSpace.empty (fun _ => true) fun _ => none).mgr 0x10000 0x2000
      mapAnonymous false := by
    intro _ _
    rw [if_neg (by decide), if_pos (by decide)]
    exact fun _ _ => by decide
  obtain ⟨s, e, ps, hmap, hinv, hcases⟩ := hempty.paged.mmap_cases (by decide) hempty.queue
    (protRead ||| protWrite) 0 (-1) 0 [] hbelow
  have hfacts : ((UserSpace.empty (fun _ => true) fun _ => none).mmap 0x10000 0x2000
      (protRead ||| protWrite) mapAnonymous (-1) 0 false 0 []).bind (fun s =>
        (s.1.mremap 0x10000 0x2000 0x1000 0).map fun s' =>
          (s.2, s.1.virtQueue, s.1.mgr.areas.map fun v => (v.vmStart, v.vmEnd), s'.2)) =
      some (.ok 0x10000, [⟨0x10000, 2, ptFlagsFromProt (protRead ||| protWrite)⟩], [(0x10000, 0x12000)],
        .ok 0x10000) := by
    decide
  rw [hmap, Option.bind_some, Option.map_eq_some_iff] at hfacts
  obtain ⟨⟨s', e'⟩, hrun, heq⟩ := hfacts
  obtain ⟨rfl, hqueue, hareas, rfl⟩ : e = .ok 0x10000 ∧ s.virtQueue = _ ∧ _ ∧ e' = .ok 0x10000 := by
    simpa only [Prod.mk.injEq] using heq
  obtain ⟨⟨_, he⟩, -⟩ | ⟨b, -, -, hdone, hmapped⟩ := hcases
  · simp at he
  have hhalf := hempty.mapped hinv hdone hmapped
  have hpages : s.pages = fun _ => none := hmapped.kept (by decide) (Or.inl (by decide))
  have hsound : s.Sound fun f => f = 0x5000 := by
    refine ⟨⟨ps, hhalf.paged, hhalf.below, hhalf.queue, fun _ _ => rfl⟩, fun i e he => ?_, by decide⟩
    rw [hpages] at he
    cases he
  refine ⟨s, s', 0x10000, ?_, hrun, (mremap_keeps_iff hsound _ hrun).1 ?_⟩
  · dsimp only [UserSpace.step]
    rw [hmap, Option.map_some]
  · obtain ⟨v, hv, hvs⟩ := List.map_eq_singleton_iff.mp hareas
    obtain ⟨hstart, hend⟩ := Prod.mk.inj hvs
    refine ⟨v, by simp [hv], hstart, ?_⟩
    unfold UserSpace.Stays Vma.size
    rw [hstart, hend, if_pos (by decide)]
    intro x hlow hhigh
    have hhigh' : x < 0x11000 := hhigh
    have hqueued : Queued s.virtQueue x := by
      rw [hqueue]
      refine ⟨_, List.mem_singleton_self _, hlow, ?_⟩
      show x < 0x10000 + 2 * 4096
      omega
    refine ⟨hhigh'.trans (by decide), Or.inr ⟨?_, Or.inl hqueued⟩⟩
    unfold UserSpace.frameAt
    rw [hpages]

/-- A page at `0x10000`, in a process without mappings. -/
def mapPage : UserCall :=
  .mmap 0x10000 0x1000 (protRead ||| protWrite) mapAnonymous (-1) 0 false 0 []

/-- A page that has been touched has frame `0x5000`. The area grows to two pages, and the second one
leads to the next frame, which is not allocated to the process. -/
theorem mremap_not_keeps : ∃ s s' r,
    Runs.run UserSpace.step [mapPage, .fault 0x10000 0x5000] (.empty (fun _ => true) fun _ => none) = some s ∧
      s.mremap 0x10000 0x1000 0x2000 0 = some (s', .ok r) ∧
      ∀ mem, ¬MremapKeeps mem (fun f => f = 0x5000) s 0x10000 0x1000 0x2000 s' r := by
  have hfacts : (Runs.run UserSpace.step [mapPage, .fault 0x10000 0x5000]
      (.empty (fun _ => true) fun _ => none)).bind (fun s => (s.mremap 0x10000 0x1000 0x2000 0).map fun s' =>
        (s'.2, s'.1.frameAt 0x11000)) = some (.ok 0x10000, some 0x6000) := by
    decide
  obtain ⟨s, hs, hmap⟩ := Option.bind_eq_some_iff.mp hfacts
  obtain ⟨⟨s', e⟩, hrun, heq⟩ := Option.map_eq_some_iff.mp hmap
  obtain ⟨rfl, hframe⟩ := Prod.mk.inj heq
  refine ⟨s, s', 0x10000, hs, hrun, ?_⟩
  rintro mem ⟨v, -, -, hkeeps⟩
  obtain ⟨f, hf, ⟨hown, -⟩, -⟩ | ⟨hnone, -⟩ := (hkeeps.served 0x11000 (by decide) (by decide)).2
  · rw [hown] at hf
    cases hframe.symm.trans hf
  · cases hframe.symm.trans hnone

end CoolPotOS
