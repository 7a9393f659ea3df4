import CoolPotOS.Mem.FrameExact

namespace CoolPotOS

open Dyadic

/-- Runs from `s₀` with the list of the outstanding allocations, as pairs of the
address and the count that was asked for. -/
inductive PairedRun (s₀ : Buddy) : List (ℕ × ℕ) → Buddy → Prop
  | init : PairedRun s₀ [] s₀
  | alloc {out s s' count addr} : PairedRun s₀ out s → allocFrames s count = some (s', addr) →
      PairedRun s₀ (if addr = 0 then out else (addr, count) :: out) s'
  | allocDma32 {out s s' count addr} : PairedRun s₀ out s →
      allocFramesDma32 s count = some (s', addr) →
      PairedRun s₀ (if addr = 0 then out else (addr, count) :: out) s'
  | free {out s s' addr count} : PairedRun s₀ out s → (addr, count) ∈ out →
      freeFrames s addr count = some s' → PairedRun s₀ (out.erase (addr, count)) s'

def outPages (x : ℕ × ℕ) : Set ℕ :=
  {p | ∃ k n, countToOrder x.2 = some (k, n) ∧ p ∈ cellPages k x.1}

variable {count addr : ℕ} {M : Set ℕ} {s s' : Buddy} {out : List (ℕ × ℕ)}

theorem outPages_eq (addr : ℕ) {k n : ℕ} (h : countToOrder count = some (k, n)) :
    outPages (addr, count) = cellPages k addr := by
  ext p
  constructor
  · rintro ⟨k', n', h', hp⟩
    cases h.symm.trans h'
    exact hp
  · exact fun hp => ⟨k, n, h, hp⟩

/-- The outstanding allocations are aligned blocks, each inside one zone; they are
disjoint, make up the pages handed out, and hold one reference to each. -/
structure Outstanding (s : Buddy) (out : List (ℕ × ℕ)) : Prop where
  block : ∀ x ∈ out, ∃ k n, countToOrder x.2 = some (k, n) ∧ x.1 ≠ 0 ∧ pageSize ∣ x.1 ∧ 2 ^ k ∣ x.1 ∧
    ∀ p ∈ cellPages k x.1, physToZoneType (p * pageSize) = physToZoneType x.1
  disjoint : out.Pairwise fun x y => Disjoint (outPages x) (outPages y)
  used : ∀ p, p ∈ handedOut s ↔ ∃ x ∈ out, p ∈ outPages x
  refs : ∀ p ∈ handedOut s, s.refcount p = 1

theorem Outstanding.alloc {types : List ZoneType} (ho : Outstanding s out) (hs : Sound M s) (ht : AllTidy s)
    (h : allocFramesFrom types s count = some (s', addr)) :
    Outstanding s' (if addr = 0 then out else (addr, count) :: out) := by
  obtain ⟨-, -, -, -, hzero, hne⟩ := allocFramesFrom_sound hs h
  by_cases ha : addr = 0
  · obtain ⟨h1, h2⟩ := hzero ha
    rw [if_pos ha]
    exact ⟨ho.block, ho.disjoint, by rw [h1]; exact ho.used, by rw [h1, h2]; exact ho.refs⟩
  obtain ⟨t, n, hout⟩ := hne ha
  have hpages := outPages_eq addr hout.order
  rw [if_neg ha]
  refine ⟨fun x hx => ?_, List.pairwise_cons.mpr ⟨fun y hy => ?_, ho.disjoint⟩, fun p => ?_, fun p hp => ?_⟩
  · rcases List.mem_cons.mp hx with rfl | hx
    · exact ⟨t, n, hout.order, ha, hout.fresh.page, hout.fresh.aligned ht, hout.fresh.zone⟩
    · exact ho.block x hx
  · rw [hpages]
    refine Set.disjoint_left.mpr fun p hp hp' => (hout.fresh.sub hp).2 ?_
    exact (ho.used p).mpr ⟨y, hy, hp'⟩
  · rw [hout.out, Set.mem_union, ho.used p, ← hpages]
    simp only [List.mem_cons, exists_eq_or_imp]
    exact or_comm
  · by_cases hc : p ∈ cellPages t addr
    · exact hout.refs p hc
    · rw [hout.frame p hc]
      rw [hout.out] at hp
      exact ho.refs p (hp.resolve_right hc)

theorem Outstanding.release (ho : Outstanding s out) (hs : Sound M s) (hx : (addr, count) ∈ out)
    (hus : ∀ p ∈ M, bitmapGet s.usableRegions p = true)
    (hlen : s.memorySize / pageSize ≤ s.usableRegions.length) :
    ∃ k n z r, Release s addr count k n z r ∧ 2 ^ k ∣ addr ∧
      freeFrames s addr count = releaseFrames s (physToZoneType addr) z r addr k n := by
  have hblock := ho.block _ hx
  dsimp only at hblock
  obtain ⟨k, n, hc, h0, hpage, hal, hzone⟩ := hblock
  obtain ⟨hko, hn, -⟩ := countToOrder_eq_some hc
  have hcell : ∀ p, p ∈ cellPages k addr ↔ addr / pageSize ≤ p ∧ p < addr / pageSize + n := fun p => by
    rw [hn]; exact mem_cellPages hko hpage
  have hout : ∀ p ∈ cellPages k addr, p ∈ handedOut s := fun p hp =>
    (ho.used p).mpr ⟨_, hx, k, n, hc, hp⟩
  have hpos : 0 < n := by rw [hn, orderToPages]; positivity
  have hfirst := (hcell (addr / pageSize)).mpr ⟨le_rfl, by omega⟩
  have hlast := (hcell (addr / pageSize + (n - 1))).mpr ⟨by omega, by omega⟩
  have hbound := (hout _ hlast).1
  -- the block lies in the zone of its address, because its last page does
  obtain ⟨z, hz, hz1, hz2⟩ := hs.at_.layout _ hbound
  rw [hzone _ hlast] at hz
  obtain ⟨w, hw, hw1, -⟩ := hs.at_.layout _ (hout _ hfirst).1
  rw [hzone _ hfirst, hz] at hw
  cases hw
  have hsize : n * pageSize = 2 ^ k := by rw [hn]; exact orderToPages_mul hko
  have haddr : addr / pageSize * pageSize = addr := Nat.div_mul_cancel hpage
  have hend : addr + 2 ^ k = (addr / pageSize + n) * pageSize := by rw [Nat.add_mul, haddr, hsize]
  have hin : BlockIn z k addr := by
    refine ⟨hpage, ?_, ?_⟩
    · rw [zonePhysStart, ← haddr]
      exact Nat.mul_le_mul_right _ hw1
    · rw [zonePhysEnd, hend]
      exact Nat.mul_le_mul_right _ (by omega)
  have hlen' := hs.at_.length
  have huse : ∀ p, addr / pageSize ≤ p → p < addr / pageSize + n →
      bitmapGet s.usingRegions p = true ∧ bitmapGet s.usableRegions p = true := fun p hp hp' => by
    have hp1 := hout p ((hcell p).mpr ⟨hp, hp'⟩)
    exact ⟨hp1.2, hus p (hs.at_.used hp1)⟩
  obtain ⟨r, hrel, hfree⟩ := freeFrames_eq_releaseFrames hs.at_ h0 hc hz hin (by omega) (by omega)
    huse fun p hp hp' => ho.refs p (hout p ((hcell p).mpr ⟨hp, hp'⟩))
  exact ⟨k, n, z, r, hrel, hal, hfree⟩

theorem Outstanding.free (ho : Outstanding s out) (hs : Sound M s) (ht : AllTidy s) (hx : (addr, count) ∈ out)
    (hus : ∀ p ∈ M, bitmapGet s.usableRegions p = true)
    (hlen : s.memorySize / pageSize ≤ s.usableRegions.length) (h : freeFrames s addr count = some s') :
    Sound M s' ∧ AllTidy s' ∧ Outstanding s' (out.erase (addr, count)) ∧
      s'.memorySize = s.memorySize ∧ s'.usableRegions = s.usableRegions := by
  obtain ⟨k, n, z, r, hrel, hal, hfree⟩ := ho.release hs hx hus hlen
  rw [hfree] at h
  obtain ⟨hs', hm, hu, href, hsub, hout, htidy⟩ := releaseFrames_sound hs hrel h
  have hpages := outPages_eq addr hrel.order
  have hperm := List.perm_cons_erase hx
  have hdis := (hperm.pairwise_iff fun h => Disjoint.symm h).mp ho.disjoint
  rw [List.pairwise_cons, hpages] at hdis
  refine ⟨hs', htidy hal ht, ⟨fun x hx' => ho.block x (List.mem_of_mem_erase hx'), hdis.2, fun p => ?_,
    fun p hp => ?_⟩, hm, hu⟩
  · have hmem : p ∈ handedOut s ↔ p ∈ cellPages k addr ∨
        ∃ x ∈ out.erase (addr, count), p ∈ outPages x := by
      rw [ho.used p, ← hpages]
      simp only [hperm.mem_iff, List.mem_cons, exists_eq_or_imp]
    rw [hout, Set.mem_sdiff, hmem]
    constructor
    · rintro ⟨hp | hp, hn⟩
      · exact absurd hp hn
      · exact hp
    · rintro ⟨x, hx', hp⟩
      exact ⟨.inr ⟨x, hx', hp⟩, fun hc => Set.disjoint_left.mp (hdis.1 x hx') hc hp⟩
  · rw [hout] at hp
    have hn : ¬ (addr / pageSize ≤ p ∧ p < addr / pageSize + n) := by
      obtain ⟨hko, hn, -⟩ := countToOrder_eq_some hrel.order
      rw [hn, ← mem_cellPages hko hrel.inside.page]
      exact hp.2
    rw [href, hrel.refs p, if_neg hn]
    exact ho.refs p hp.1

theorem PairedRun.invariant {s0 : Buddy} (hs0 : Sound M s0) (ht0 : AllTidy s0) (hout0 : handedOut s0 = ∅)
    (hus : ∀ p ∈ M, bitmapGet s0.usableRegions p = true)
    (hlen : s0.memorySize / pageSize ≤ s0.usableRegions.length) (h : PairedRun s0 out s) :
    Sound M s ∧ AllTidy s ∧ Outstanding s out ∧ s.memorySize = s0.memorySize ∧
      s.usableRegions = s0.usableRegions := by
  have halloc : ∀ {types out s s' count addr}, (Sound M s ∧ AllTidy s ∧ Outstanding s out ∧
      s.memorySize = s0.memorySize ∧ s.usableRegions = s0.usableRegions) →
      allocFramesFrom types s count = some (s', addr) →
      Sound M s' ∧ AllTidy s' ∧ Outstanding s' (if addr = 0 then out else (addr, count) :: out) ∧
        s'.memorySize = s0.memorySize ∧ s'.usableRegions = s0.usableRegions := by
    rintro types out s s' count addr ⟨hs, ht, ho, hm, hu⟩ ha
    obtain ⟨hs', hm', hu', ht', -⟩ := allocFramesFrom_sound hs ha
    exact ⟨hs', ht' ht, ho.alloc hs ht ha, hm'.trans hm, hu'.trans hu⟩
  induction h with
  | init =>
    exact ⟨hs0, ht0, ⟨by simp, List.Pairwise.nil, by simp [hout0], by simp [hout0]⟩, rfl, rfl⟩
  | alloc _ ha ih => exact halloc ih ha
  | allocDma32 _ ha ih => exact halloc ih ha
  | free _ hx hf ih =>
    obtain ⟨hs, ht, ho, hm, hu⟩ := ih
    obtain ⟨hs', ht', ho', hm', hu'⟩ := ho.free hs ht hx (by rw [hu]; exact hus)
      (by rw [hm, hu]; exact hlen) hf
    exact ⟨hs', ht', ho', hm'.trans hm, hu'.trans hu⟩

/-- The free pages of a zone: managed, not handed out, and frames of the zone. -/
def zoneFreePages (M : Set ℕ) (s : Buddy) (type : ZoneType) : Set ℕ :=
  {p | p ∈ M ∧ p ∉ handedOut s ∧ physToZoneType (p * pageSize) = type}

theorem Sound.freePagesOf_eq (hs : Sound M s) {t : ZoneType} {z : Zone} (hz : s.zones t = some z) :
    freePagesOf M (handedOut s) z = zoneFreePages M s t := by
  ext p
  constructor
  · rintro ⟨h1, h2, h3, h4⟩
    exact ⟨h1, h2, hs.at_.type t z hz p h3 h4⟩
  · rintro ⟨h1, h2, h3⟩
    obtain ⟨w, hw, hw1⟩ := hs.at_.layout p (hs.at_.managed p h1).2
    rw [h3, hz] at hw
    cases hw
    exact ⟨h1, h2, hw1⟩

theorem Sound.mem_freeBlocks_iff (hs : Sound M s) (ht : AllTidy s) (b : FreeBlock) : b ∈ freeBlocks s ↔
      IsMaximal (pageBytes (zoneFreePages M s b.zone)) minOrder (maxOrder - 1) b.order b.addr := by
  rw [mem_freeBlocks]
  rcases hz : s.zones b.zone with - | z
  · refine ⟨fun ⟨z, hz', _⟩ => (by cases hz'), fun h => ?_⟩
    -- a zone that does not exist has no frames, so there is no cell to be maximal
    obtain ⟨h1, -, h3⟩ := h.inside b.addr (inCell_self _ _)
    obtain ⟨w, hw, -⟩ := hs.at_.layout _ (hs.at_.managed _ h1).2
    rw [h3, hz] at hw
    cases hw
  · rw [← hs.freePagesOf_eq hz, ← (ht _ z hz).mem_blocks_iff (hs.at_.zone _ z hz)]
    simp

theorem freeBlocks_nodup (h : FreeListsExact M s) : (freeBlocks s).Nodup := by
  refine List.Pairwise.imp_of_mem (fun {b c} hb _ hd => ?_) h.disjoint
  rintro rfl
  obtain ⟨z, -, hp, -⟩ := h.inside b hb
  have hself : b.addr / pageSize ∈ b.pages := by
    show InCell b.order b.addr (b.addr / pageSize * pageSize)
    rw [Nat.div_mul_cancel hp]
    exact inCell_self _ _
  exact Set.disjoint_left.mp hd hself hself

theorem Sound.freeBlocks_perm (hs : Sound M s) (ht : AllTidy s) (hs' : Sound M s') (ht' : AllTidy s')
    (h : ∀ p ∈ M, p ∈ handedOut s' ↔ p ∈ handedOut s) : (freeBlocks s').Perm (freeBlocks s) := by
  refine (List.perm_ext_iff_of_nodup (freeBlocks_nodup hs'.freeListsExact)
    (freeBlocks_nodup hs.freeListsExact)).mpr fun b => ?_
  have hfree : zoneFreePages M s' b.zone = zoneFreePages M s b.zone := by
    ext p
    exact and_congr_right fun hp => and_congr_left fun _ => not_congr (h p hp)
  rw [hs'.mem_freeBlocks_iff ht', hs.mem_freeBlocks_iff ht, hfree]

/-- After start-up, in every state of a run in which frees return outstanding
allocations: the free blocks of a zone are the maximal cells of its free pages, no
two of them are buddies, they depend on the free pages only, and once everything is
freed they are those of the start. -/
theorem freeBlocks_eq_maximal_cells (boot : Boot) (regions : List Region) (s₀ s : Buddy)
    (out : List (ℕ × ℕ)) (hr : ∀ r ∈ regions, r.IsPageRange ∧ 0 ∉ r.pages)
    (hd : regions.Pairwise fun r r' => Disjoint r.pages r'.pages)
    (hlen : boot.memorySize / pageSize ≤ boot.usableRegions.length)
    (hus : ∀ p ∈ managedPages boot.memorySize regions, bitmapGet boot.usableRegions p = true)
    (h₀ : bootAndRun boot regions [] = some s₀) (h : PairedRun s₀ out s) :
    (∀ type order addr, ⟨type, order, addr⟩ ∈ freeBlocks s ↔
      IsMaximal (pageBytes (zoneFreePages (managedPages boot.memorySize regions) s type)) minOrder
        (maxOrder - 1) order addr) ∧
    (∀ b ∈ freeBlocks s, b.order < maxOrder - 1 →
      { b with addr := b.addr ^^^ orderToBytes b.order } ∉ freeBlocks s) ∧
    (∀ out' s', PairedRun s₀ out' s' →
      (∀ p ∈ managedPages boot.memorySize regions, p ∈ handedOut s' ↔ p ∈ handedOut s) →
      (freeBlocks s').Perm (freeBlocks s)) ∧
    (out = [] → (freeBlocks s).Perm (freeBlocks s₀)) := by
  obtain ⟨s₁, h₁, h₂⟩ := Option.bind_eq_some_iff.mp h₀
  obtain ⟨s₂, h₂, h₃⟩ := Option.bind_eq_some_iff.mp h₂
  cases h₃
  obtain ⟨hs₀, ht₀, hf, hm, hout₀⟩ := addRegions_boot h₁ hr hd h₂
  have hu : s₀.usableRegions = boot.usableRegions :=
    hf.usableRegions.trans (buddyInit_eq_some h₁).usable
  have hinv := fun {s out} (h : PairedRun s₀ out s) => h.invariant hs₀ ht₀ hout₀
    (by rw [hu]; exact hus) (by rw [hm, hu]; exact hlen)
  obtain ⟨hs, ht, ho, -⟩ := hinv h
  refine ⟨fun type order addr => hs.mem_freeBlocks_iff ht ⟨type, order, addr⟩, fun b hb hlt hb' => ?_,
    fun out' s' h' hfree => ?_, fun hnil => ?_⟩
  · obtain ⟨z, hz, hk, ha⟩ := mem_freeBlocks.mp hb
    obtain ⟨w, hw, -, ha'⟩ := mem_freeBlocks.mp hb'
    cases hz.symm.trans hw
    exact (ht _ z hz).noBuddies _ hk hlt _ ha ha'
  · obtain ⟨hs', ht', -⟩ := hinv h'
    exact hs.freeBlocks_perm ht hs' ht' hfree
  · have hempty : ∀ p, p ∉ handedOut s := fun p hp => by
      rw [ho.used p, hnil] at hp
      simp at hp
    refine hs₀.freeBlocks_perm ht₀ hs ht fun p _ => ?_
    rw [hout₀]
    exact iff_of_false (hempty p) (Set.notMem_empty p)

/-- Four frames are taken and given back while one frame stays out. -/
theorem freeBlocks_eq_maximal_cells_smallBoot :
    ∃ s₀ s out, bootAndRun smallBoot smallRegions [] = some s₀ ∧ PairedRun s₀ out s ∧
      out.length = 1 ∧ ∀ type order addr, ⟨type, order, addr⟩ ∈ freeBlocks s ↔
        IsMaximal (pageBytes (zoneFreePages (managedPages smallBoot.memorySize smallRegions) s type))
          minOrder (maxOrder - 1) order addr := by
  have hsome : ((bootAndRun smallBoot smallRegions []).bind fun s₀ => (allocFrames s₀ 4).bind fun r₁ =>
      (allocFrames r₁.1 1).bind fun r₂ => if r₁.2 = 0 ∨ r₂.2 = 0 then none
        else freeFrames r₂.1 r₁.2 4).isSome = true := by decide +kernel
  obtain ⟨s, hs⟩ := Option.isSome_iff_exists.mp hsome
  obtain ⟨s₀, h₀, hs⟩ := Option.bind_eq_some_iff.mp hs
  obtain ⟨⟨s₁, a₁⟩, h₁, hs⟩ := Option.bind_eq_some_iff.mp hs
  obtain ⟨⟨s₂, a₂⟩, h₂, hs⟩ := Option.bind_eq_some_iff.mp hs
  dsimp only at h₂ hs
  split_ifs at hs with hne
  rw [not_or] at hne
  have hinit : PairedRun s₀ [] s₀ := PairedRun.init
  have hrun := (hinit.alloc h₁).alloc h₂
  rw [if_neg hne.1, if_neg hne.2] at hrun
  have hrun' := hrun.free (by simp) hs
  refine ⟨s₀, s, _, h₀, hrun', ?_, (freeBlocks_eq_maximal_cells smallBoot smallRegions s₀ s _
    smallRegions_ok.1 smallRegions_ok.2 (by decide) (fun p hp => ?_) h₀ hrun').1⟩
  · rw [List.length_erase_of_mem (by simp)]
    rfl
  · obtain ⟨r, -, hp⟩ := hp
    have hlt : p < 16 := hp.2.1
    have hbits : ∀ p < 16, bitmapGet smallBoot.usableRegions p = true := by decide
    exact hbits p hlt

end CoolPotOS
