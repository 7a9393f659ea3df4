import CoolPotOS.Mem.BuddyBoot

namespace CoolPotOS

open Dyadic
open List hiding Disjoint

structure FreeBlock where
  zone : ZoneType
  order : ℕ
  addr : ℕ

def FreeBlock.pages (b : FreeBlock) : Set ℕ := cellPages b.order b.addr

instance (b : FreeBlock) (p : ℕ) : Decidable (p ∈ b.pages) :=
  inferInstanceAs (Decidable (InCell b.order b.addr (p * pageSize)))

def zoneBlocks (type : ZoneType) (zone : Zone) : List FreeBlock :=
  (List.range' minOrder orderCount).flatMap fun k =>
    ((zone.area k).flatMap PageList.entries).map fun a => ⟨type, k, a⟩

def freeBlocks (s : Buddy) : List FreeBlock :=
  [.dma, .dma32, .normal].flatMap fun type => (s.zones type).elim [] (zoneBlocks type)

/-- The free lists hold the managed pages that are not handed out, once each. -/
structure FreeListsExact (M : Set ℕ) (s : Buddy) : Prop where
  disjoint : (freeBlocks s).Pairwise fun b c => Disjoint b.pages c.pages
  inside : ∀ b ∈ freeBlocks s, ∃ z, s.zones b.zone = some z ∧ pageSize ∣ b.addr ∧
    zonePhysStart z ≤ b.addr ∧ b.addr + orderToBytes b.order ≤ zonePhysEnd z
  idle : ∀ b ∈ freeBlocks s, Disjoint b.pages (handedOut s)
  counted : ∀ t z, s.zones t = some z →
    z.freePages = (((freeBlocks s).filter (·.zone = t)).map fun b => orderToPages b.order).sum
  managed : ∀ p ∈ M, (p ∈ handedOut s ∧ ∀ b ∈ freeBlocks s, p ∉ b.pages) ∨
    (p ∉ handedOut s ∧ (freeBlocks s).countP (p ∈ ·.pages) = 1)

theorem zoneBlocks_sum (t : ZoneType) (zone : Zone) (f : ℕ → ℕ → ℕ) :
    ((zoneBlocks t zone).map fun b => f b.order b.addr).sum = zone.weigh f := by
  have ho : orders = (range' minOrder orderCount).toFinset := by decide
  rw [Zone.weigh, ho, sum_toFinset _ nodup_range', zoneBlocks, map_flatMap,
    flatMap, sum_flatten, map_map]
  congr 1
  refine map_congr_left fun k _ => ?_
  simp [Zone.blocks, blocksOf, Function.comp_def]

theorem mem_zoneBlocks {t : ZoneType} {zone : Zone} {b : FreeBlock} :
    b ∈ zoneBlocks t zone ↔ b.zone = t ∧ b.order ∈ orders ∧ b.addr ∈ zone.blocks b.order := by
  simp only [zoneBlocks, mem_flatMap, mem_map, mem_range'_1]
  constructor
  · rintro ⟨k, hk, a, ha, rfl⟩
    exact ⟨rfl, mem_orders.mpr ⟨hk.1, hk.2⟩, Multiset.mem_coe.mpr (mem_flatMap.mpr ha)⟩
  · rintro ⟨rfl, hk, ha⟩
    rw [mem_orders] at hk
    exact ⟨b.order, ⟨hk.1, hk.2⟩, b.addr, mem_flatMap.mp (Multiset.mem_coe.mp ha), rfl⟩

theorem mem_freeBlocks {s : Buddy} {b : FreeBlock} :
    b ∈ freeBlocks s ↔ ∃ z, s.zones b.zone = some z ∧ b.order ∈ orders ∧ b.addr ∈ z.blocks b.order := by
  have hone : ∀ t, b ∈ (s.zones t).elim [] (zoneBlocks t) ↔ b.zone = t ∧ ∃ z, s.zones t = some z ∧
      b.order ∈ orders ∧ b.addr ∈ z.blocks b.order := by
    intro t
    rcases s.zones t with - | z
    · simp
    · simp [mem_zoneBlocks]
  simp only [freeBlocks, mem_flatMap, hone]
  constructor
  · rintro ⟨t, -, rfl, h⟩
    exact h
  · intro h
    exact ⟨b.zone, by cases b.zone <;> simp, rfl, h⟩

theorem countP_zoneBlocks (t : ZoneType) (zone : Zone) (p : ℕ) :
    (zoneBlocks t zone).countP (p ∈ ·.pages) = zone.cover (p * pageSize) := by
  have hsum : ∀ l : List FreeBlock, l.countP (p ∈ ·.pages) =
      (l.map fun b => if InCell b.order b.addr (p * pageSize) then 1 else 0).sum := by
    intro l
    induction l with
    | nil => rfl
    | cons b l ih =>
      have hb : p ∈ b.pages ↔ InCell b.order b.addr (p * pageSize) := Iff.rfl
      rw [countP_cons, map_cons, sum_cons, ih, Nat.add_comm]
      by_cases h : InCell b.order b.addr (p * pageSize) <;> simp [hb, h]
  rw [hsum, zoneBlocks_sum t zone fun k a => if InCell k a (p * pageSize) then 1 else 0, Zone.cover]

theorem SoundAt.countP_freeBlocks {M U : Set ℕ} {s : Buddy} (hs : SoundAt M U s) (p : ℕ) :
    (freeBlocks s).countP (p ∈ ·.pages) = ind (M \ U) p := by
  have hone : ∀ t, ((s.zones t).elim [] (zoneBlocks t)).countP (p ∈ ·.pages) =
      if t = physToZoneType (p * pageSize) then ind (M \ U) p else 0 := by
    intro t
    rcases hz : s.zones t with - | z
    · split_ifs with ht
      · rw [Option.elim_none, countP_nil, ind_of_notMem]
        rintro ⟨hp, -⟩
        obtain ⟨z, hz', -⟩ := hs.layout p (hs.managed p hp).2
        rw [← ht, hz] at hz'
        cases hz'
      · rfl
    rw [Option.elim_some, countP_zoneBlocks, (hs.zone t z hz).cover,
      Nat.mul_div_cancel _ (by norm_num [pageSize])]
    split_ifs with ht
    · by_cases hp : p ∈ M \ U
      · rw [ind_of_mem hp, ind_of_mem]
        obtain ⟨w, hw, hw1⟩ := hs.layout p (hs.managed p hp.1).2
        rw [← ht, hz] at hw
        cases hw
        exact ⟨hp.1, hp.2, hw1⟩
      · rw [ind_of_notMem hp, ind_of_notMem fun h => hp ⟨h.1, h.2.1⟩]
    · exact ind_of_notMem fun h => ht (hs.type t z hz p h.2.2.1 h.2.2.2).symm
  simp only [freeBlocks, flatMap_cons, flatMap_nil, append_nil, countP_append, hone]
  generalize physToZoneType (p * pageSize) = t
  cases t <;> simp

theorem pairwise_disjoint_of_countP_le {l : List FreeBlock}
    (h : ∀ p, l.countP (p ∈ ·.pages) ≤ 1) : l.Pairwise fun b c => Disjoint b.pages c.pages := by
  induction l with
  | nil => exact List.Pairwise.nil
  | cons b l ih =>
    refine pairwise_cons.mpr ⟨fun c hc => Set.disjoint_left.mpr fun p hpb hpc => ?_, ih fun p => ?_⟩
    · have h1 := h p
      have h2 : 0 < l.countP (p ∈ ·.pages) := countP_pos_iff.mpr ⟨c, hc, by simpa using hpc⟩
      rw [countP_cons, if_pos (by simpa using hpb)] at h1
      omega
    · have h1 := h p
      rw [countP_cons] at h1
      omega

theorem filter_freeBlocks {s : Buddy} {t : ZoneType} {z : Zone} (hz : s.zones t = some z) :
    (freeBlocks s).filter (·.zone = t) = zoneBlocks t z := by
  have hone : ∀ u, ((s.zones u).elim [] (zoneBlocks u)).filter (·.zone = t) =
      if u = t then zoneBlocks t z else [] := by
    intro u
    have hu : ∀ b ∈ (s.zones u).elim [] (zoneBlocks u), b.zone = u := by
      rcases s.zones u with - | w
      · simp
      · exact fun b hb => (mem_zoneBlocks.mp hb).1
    split_ifs with ht
    · subst ht
      rw [filter_eq_self.mpr fun b hb => by simpa using hu b hb, hz, Option.elim_some]
    · exact filter_eq_nil_iff.mpr fun b hb => by simpa using fun h => ht ((hu b hb).symm.trans h)
  simp only [freeBlocks, flatMap_cons, flatMap_nil, append_nil, filter_append, hone]
  cases t <;> simp

theorem Sound.freeListsExact {M : Set ℕ} {s : Buddy} (hs : Sound M s) : FreeListsExact M s := by
  have hcount := hs.at_.countP_freeBlocks
  have hfree : ∀ b ∈ freeBlocks s, ∀ p ∈ b.pages, p ∈ M \ handedOut s := by
    intro b hb p hp
    by_contra hn
    have hc := hcount p
    rw [ind_of_notMem hn, countP_eq_zero] at hc
    exact hc b hb (by simpa using hp)
  refine ⟨pairwise_disjoint_of_countP_le fun p => ?_, fun b hb => ?_,
    fun b hb => Set.disjoint_left.mpr fun p hp => (hfree b hb p hp).2, fun t z hz => ?_, fun p hp => ?_⟩
  · rw [hcount p]
    by_cases hp : p ∈ M \ handedOut s
    · rw [ind_of_mem hp]
    · rw [ind_of_notMem hp]; exact Nat.zero_le 1
  · obtain ⟨z, hz, hk, ha⟩ := mem_freeBlocks.mp hb
    have hin := (hs.at_.zone _ z hz).inside _ hk _ ha
    exact ⟨z, hz, hin.page, hin.ge, hin.le⟩
  · rw [filter_freeBlocks hz, (hs.at_.zone t z hz).pages, Zone.blockPages,
      ← zoneBlocks_sum t z fun k _ => orderToPages k]
  · by_cases hu : p ∈ handedOut s
    · exact .inl ⟨hu, fun b hb hpb => (hfree b hb p hpb).2 hu⟩
    · have hmem : p ∈ M \ handedOut s := ⟨hp, hu⟩
      exact .inr ⟨hu, by rw [hcount p, ind_of_mem hmem]⟩

/-- Start-up, memory regions and then any calls of the allocator. -/
def bootAndRun (boot : Boot) (regions : List Region) (ops : List FrameOp) : Option Buddy := do
  let s ← buddyInit boot
  let s ← addRegions regions s
  runOps ops s

theorem addRegions_boot {boot : Boot} {regions : List Region} {s0 s : Buddy}
    (h0 : buddyInit boot = some s0) (hr : ∀ r ∈ regions, r.IsPageRange ∧ 0 ∉ r.pages)
    (hd : regions.Pairwise fun r r' => Disjoint r.pages r'.pages) (h : addRegions regions s0 = some s) :
    Sound (managedPages boot.memorySize regions) s ∧ AllTidy s ∧ SameFields s0 s ∧
      s.memorySize = boot.memorySize ∧ handedOut s = ∅ := by
  have hb := buddyInit_eq_some h0
  obtain ⟨hs, hf, ht⟩ := addRegions_sound hb.sound hr hd (fun r _ => Set.disjoint_empty _) h
  rw [hb.memorySize, Set.empty_union] at hs
  refine ⟨hs, ht hb.tidy, hf, hf.memorySize.trans hb.memorySize, ?_⟩
  rw [← hb.handedOut]
  simp only [handedOut, hf.memorySize, hf.usingRegions]

theorem freeListsExact_of_bootAndRun (boot : Boot) (regions : List Region) (ops : List FrameOp)
    (s : Buddy) (hr : ∀ r ∈ regions, r.IsPageRange ∧ 0 ∉ r.pages)
    (hd : regions.Pairwise fun r r' => Disjoint r.pages r'.pages)
    (h : bootAndRun boot regions ops = some s) :
    FreeListsExact (managedPages boot.memorySize regions) s := by
  obtain ⟨s₀, h₀, h⟩ := Option.bind_eq_some_iff.mp h
  obtain ⟨s₁, h₁, h₂⟩ := Option.bind_eq_some_iff.mp h
  obtain ⟨hs, -⟩ := addRegions_boot h₀ hr hd h₁
  exact (runOps_sound ops hs h₂).freeListsExact

/-- Sixteen frames in the DMA zone, all but the first of them usable. -/
def smallBoot : Boot where
  memorySize := 16 * pageSize
  poolPhys := 2 ^ 20
  bitmapBuffer _ := 0xff#8
  usableRegions := { buffer := fun _ => 0xff#8, length := 16 }
  memorySize_lt := by norm_num [pageSize]

def smallRegions : List Region :=
  [⟨1 * pageSize, 6 * pageSize, .dma⟩, ⟨8 * pageSize, 16 * pageSize, .dma⟩]

theorem smallRegions_ok : (∀ r ∈ smallRegions, r.IsPageRange ∧ 0 ∉ r.pages) ∧
    smallRegions.Pairwise fun r r' => Disjoint r.pages r'.pages := by
  constructor
  · intro r hr
    simp only [smallRegions, mem_cons, not_mem_nil, or_false] at hr
    rcases hr with rfl | rfl <;>
      exact ⟨⟨by simp, by simp, by norm_num [pageSize]⟩, by simp [Region.pages, pageSize]⟩
  · simp only [smallRegions, pairwise_cons, mem_cons, not_mem_nil, or_false,
      forall_eq, Set.disjoint_left, Region.pages, Set.mem_ofPred_eq, pageSize]
    refine ⟨fun p hp => by omega, by simp⟩

theorem freeListsExact_of_smallBoot :
    ∃ s, bootAndRun smallBoot smallRegions
        [.allocFrames 3, .freeFrames (9 * pageSize) 1, .freeFrames (8 * pageSize) 4,
          .freeFrames (8 * pageSize) 4, .allocFramesDma32 1] = some s ∧
      FreeListsExact (managedPages smallBoot.memorySize smallRegions) s := by
  obtain ⟨s, hs⟩ := Option.isSome_iff_exists.mp (show (bootAndRun smallBoot smallRegions
    [.allocFrames 3, .freeFrames (9 * pageSize) 1, .freeFrames (8 * pageSize) 4,
      .freeFrames (8 * pageSize) 4, .allocFramesDma32 1]).isSome = true by decide +kernel)
  exact ⟨s, hs, freeListsExact_of_bootAndRun smallBoot smallRegions _ s smallRegions_ok.1
    smallRegions_ok.2 hs⟩

section Failed

variable {md md' : Metadata} {zone zone' : Zone} {F M U : Set ℕ} {s s' : Buddy} {count k t n : ℕ}

theorem allocSearch_empty (fuel : ℕ) (hk : 12 ≤ k) (hfuel : k + fuel = 31) (h0 : ∀ j ∈ orders, 0 ∉ zone.blocks j)
    (h : (allocSearch fuel md zone k).2.2.2 = 0) : ∀ j ∈ orders, k ≤ j → zone.blocks j = 0 := by
  induction fuel generalizing md zone k with
  | zero =>
    intro j hj
    rw [mem_orders] at hj
    omega
  | succ fuel ih =>
    have hko : k ∈ orders := mem_orders.mpr ⟨hk, by omega⟩
    by_cases hz : (zonePop md zone k).2.2 = 0
    · simp only [allocSearch, ne_eq, hz, not_true_eq_false, if_false] at h
      obtain ⟨hempty, hsame⟩ := zonePop_eq_zero hko (h0 k hko) hz
      have hlater := ih (by omega) (by omega) (fun j hj => by rw [hsame j hj]; exact h0 j hj) h
      intro j hj hkj
      rcases hkj.eq_or_lt with rfl | hlt
      · exact hempty
      · exact (hsame j hj).symm.trans (hlater j hj hlt)
    · simp only [allocSearch, ne_eq, hz, not_false_eq_true, if_true] at h

theorem ZoneSound.empty_of_lt (h : ZoneSound zone F) (hk : k ∈ orders) (hlt : zone.freePages < orderToPages k) :
    zone.blocks k = 0 := by
  refine Multiset.eq_zero_of_forall_notMem fun a ha => absurd hlt (not_lt.mpr ?_)
  rw [h.pages, Zone.blockPages, Zone.weigh]
  refine le_trans ?_ (Finset.single_le_sum (fun _ _ => Nat.zero_le _) hk)
  exact Multiset.single_le_sum (fun _ _ => Nat.zero_le _) _ (Multiset.mem_map_of_mem _ ha)

theorem ZoneSound.alloc_none (h : ZoneSound zone F) (h0 : 0 ∉ F) (hc : countToOrder count = some (t, n))
    (hf : buddyAllocZone md zone count = some (md', zone', 0)) :
    SameBlocks zone zone' ∧ ∀ j ∈ orders, t ≤ j → zone.blocks j = 0 := by
  obtain ⟨hto, hn, -⟩ := countToOrder_eq_some hc
  have hzeros := h.zero_notMem h0
  rw [buddyAllocZone, hc] at hf
  dsimp only at hf
  split_ifs at hf with hlt
  · cases hf
    refine ⟨fun _ _ => rfl, fun j hj htj => h.empty_of_lt hj (hlt.trans_le ?_)⟩
    exact hn.trans_le (Nat.pow_le_pow_right (by norm_num) (by omega))
  obtain ⟨⟨md1, zone1, b⟩, hp, hf⟩ := Option.bind_eq_some_iff.mp hf
  obtain ⟨-, hzero, -⟩ := buddyAllocOrderLocked_spec hto hzeros hp
  dsimp only at hf
  split_ifs at hf with hb
  · cases hf
    exact absurd rfl hb
  cases hf
  refine ⟨hzero rfl, ?_⟩
  rw [buddyAllocOrderLocked] at hp
  dsimp only at hp
  split_ifs at hp with hr
  · exact allocSearch_empty _ (mem_orders.mp hto).1 (by have := mem_orders.mp hto; unfold maxOrder; omega) hzeros hr
  · obtain ⟨r, -, hr'⟩ := Option.bind_eq_some_iff.mp hp
    exact absurd (congrArg (fun x => x.2.2) (Option.some.inj hr')) hr

theorem allocFromZones_none {types : List ZoneType} (hc : countToOrder count = some (t, n)) (hs : SoundAt M U s)
    (h : allocFromZones count types s = some (s', 0)) :
    ∀ type ∈ types, ∀ z, s.zones type = some z → ∀ j ∈ orders, t ≤ j → z.blocks j = 0 := by
  induction types generalizing s with
  | nil => simp
  | cons type types ih =>
    rw [allocFromZones] at h
    rw [forall_mem_cons]
    split at h
    · rename_i hz
      simpa [hz] using ih hs h
    rename_i z hz
    simp only [hz, Option.some.injEq, forall_eq']
    split_ifs at h with hmem
    · obtain ⟨⟨md', z', a⟩, hb, h⟩ := Option.bind_eq_some_iff.mp h
      dsimp only at h
      split_ifs at h with ha
      · cases h
        exact absurd rfl ha
      obtain rfl := not_not.mp ha
      obtain ⟨hsame, hnone⟩ := (hs.zone type z hz).alloc_none (hs.zero_notMem z) hc hb
      refine ⟨hnone, fun type' htype w hw j hj htj => ?_⟩
      -- the zones that are left are those of the state before, or the one tried with its blocks
      have hlater := ih (hs.skip hc hz hb) h type' htype
      by_cases heq : type' = type
      · subst heq
        cases hz.symm.trans hw
        exact hnone j hj htj
      · exact hlater w (by simpa only [Buddy.setZone, Function.update_of_ne heq] using hw) j hj htj
    · refine ⟨fun j hj _ => (hs.zone type z hz).empty_of_lt hj ?_, ih hs h⟩
      have hpos : 0 < orderToPages j := by unfold orderToPages; positivity
      simp only [zoneHasMemory, decide_eq_true_eq, not_lt] at hmem
      exact hmem.trans_lt hpos

theorem allocFrames_fails (boot : Boot) (regions : List Region) (ops : List FrameOp) (s s' : Buddy)
    (hr : ∀ r ∈ regions, r.IsPageRange ∧ 0 ∉ r.pages)
    (hd : regions.Pairwise fun r r' => Disjoint r.pages r'.pages)
    (h : bootAndRun boot regions ops = some s) (hc : countToOrder count = some (t, n))
    (hfail : allocFrames s count = some (s', 0)) : ∀ b ∈ freeBlocks s, b.order < t := by
  obtain ⟨s0, h0, h⟩ := Option.bind_eq_some_iff.mp h
  obtain ⟨s1, h1, h2⟩ := Option.bind_eq_some_iff.mp h
  obtain ⟨hs1, -⟩ := addRegions_boot h0 hr hd h1
  rw [allocFrames, allocFramesFrom, countToPages, hc] at hfail
  obtain ⟨⟨s2, a⟩, hz, hfail⟩ := Option.bind_eq_some_iff.mp hfail
  have ha : a = 0 := by
    dsimp only at hfail
    split_ifs at hfail with ha
    · exact ha
    · cases hfail
      exact absurd rfl ha
  intro b hb
  obtain ⟨z, hbz, hbo, hba⟩ := mem_freeBlocks.mp hb
  by_contra hle
  have hnone := allocFromZones_none hc (runOps_sound ops hs1 h2).at_ (ha ▸ hz) b.zone (by cases b.zone <;> simp) z hbz
  rw [hnone b.order hbo (not_lt.mp hle)] at hba
  exact Multiset.notMem_zero _ hba

theorem allocFrames_fails_smallBoot :
    ∃ s s', bootAndRun smallBoot smallRegions [.allocFrames 3] = some s ∧ allocFrames s 8 = some (s', 0) ∧
      ∀ b ∈ freeBlocks s, b.order < 15 := by
  have hsome : ((bootAndRun smallBoot smallRegions [.allocFrames 3]).bind fun s =>
      (allocFrames s 8).bind fun r => if r.2 = 0 then some () else none).isSome = true := by decide +kernel
  obtain ⟨u, hsome⟩ := Option.isSome_iff_exists.mp hsome
  obtain ⟨s, hs, hsome⟩ := Option.bind_eq_some_iff.mp hsome
  obtain ⟨⟨s', a⟩, ha, hzero⟩ := Option.bind_eq_some_iff.mp hsome
  obtain ⟨rfl, -⟩ := Option.ite_none_right_eq_some.mp hzero
  have hc : countToOrder 8 = some (15, 8) := by decide +kernel
  exact ⟨s, s', hs, ha, allocFrames_fails smallBoot smallRegions _ s s' smallRegions_ok.1 smallRegions_ok.2 hs hc ha⟩

end Failed

end CoolPotOS
