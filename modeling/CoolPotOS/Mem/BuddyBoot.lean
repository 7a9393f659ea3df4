import CoolPotOS.Mem.BuddyRun

namespace CoolPotOS

open Dyadic Function Option Set

/-- A zone of `init_zone`: one empty metadata page for each order. -/
structure EmptyZone (zone : Zone) (startPfn endPfn : ℕ) : Prop where
  start : zone.zoneStartPfn = startPfn
  stop : zone.zoneEndPfn = endPfn
  free : zone.freePages = 0
  blocks : ∀ k, zone.blocks k = 0
  chain : ∀ k ∈ orders, (zone.area k).length = 1

variable {zone : Zone} {a b : ℕ} {md : Metadata} {t : ZoneType} {boot : Boot} {done : ZoneType → Prop}
  {s s' : Buddy} {M : Set ℕ}

theorem EmptyZone.weigh (h : EmptyZone zone a b) (f : ℕ → ℕ → ℕ) :
    zone.weigh f = 0 := Finset.sum_eq_zero fun k _ => by rw [h.blocks k]; rfl

theorem EmptyZone.sound (h : EmptyZone zone a b) : ZoneSound zone ∅ where
  inside k _ a ha := by rw [h.blocks k] at ha; exact absurd ha (Multiset.notMem_zero a)
  cover x := by rw [Zone.cover, h.weigh, ind_of_notMem (notMem_empty _)]
  pages := by rw [Zone.blockPages, h.weigh, h.free]

theorem EmptyZone.chainPages (h : EmptyZone zone a b) : zone.chainPages = orderCount := by
  rw [Zone.chainPages, Finset.sum_congr rfl fun k hk => by rw [h.chain k hk]]
  rfl

theorem initAreas_eq_some {n : ℕ} {md' : Metadata} {areas : ℕ → List PageList}
    (h : initAreas n md (fun _ => []) = some (md', areas)) (hu : md.poolUsed ≤ md.poolPages) :
    md'.poolPages = md.poolPages ∧ md'.poolUsed ≤ md'.poolPages ∧ pagesOut md' = pagesOut md + n ∧
      ∀ i, blocksOf (areas i) = 0 ∧ (i < n → (areas i).length = 1) := by
  induction n generalizing md' areas with
  | zero =>
    cases h
    exact ⟨rfl, hu, by simp, fun i => ⟨rfl, fun h => absurd h (Nat.not_lt_zero i)⟩⟩
  | succ n ih =>
    rw [initAreas] at h
    rcases h1 : initAreas n md (fun _ => []) with - | ⟨md1, areas1⟩
    · simp [h1] at h
    rcases h2 : metadataPageAlloc md1 with - | ⟨md2, phys⟩
    · simp [h1, h2] at h
    simp only [h1, h2, bind_eq_bind, bind_some] at h
    cases h
    obtain ⟨hp, hu1, ho, ha⟩ := ih h1
    obtain ⟨hp', ho', hu'⟩ := metadataPageAlloc_eq_some h2
    refine ⟨hp'.trans hp, by omega, by rw [ho', ho]; push_cast; ring, fun i => ?_⟩
    rw [update_apply]
    split_ifs with hi
    · exact ⟨rfl, fun _ => rfl⟩
    · exact ⟨(ha i).1, fun h => (ha i).2 (by omega)⟩

theorem initAreas_total {n : ℕ} (hu : md.poolUsed ≤ md.poolPages) (h : pagesOut md + n ≤ md.poolPages) :
    ∃ r, initAreas n md (fun _ => []) = some r := by
  induction n with
  | zero => exact ⟨_, rfl⟩
  | succ n ih =>
    push_cast at h
    obtain ⟨⟨md1, areas⟩, h1⟩ := ih (by linarith)
    rw [initAreas]
    simp only [h1, bind_eq_bind, bind_some]
    rcases h2 : metadataPageAlloc md1 with - | ⟨md2, phys⟩
    · have hnone := metadataPageAlloc_eq_none h2
      obtain ⟨hp, -, ho, -⟩ := initAreas_eq_some h1 hu
      rw [hp, ho] at hnone
      linarith
    · exact ⟨_, rfl⟩

theorem initZone_eq_some {md' : Metadata} (h : initZone md a b = some (md', zone))
    (hu : md.poolUsed ≤ md.poolPages) : md'.poolPages = md.poolPages ∧ md'.poolUsed ≤ md'.poolPages ∧
      pagesOut md' = pagesOut md + orderCount ∧ EmptyZone zone a b := by
  rw [initZone] at h
  rcases h1 : initAreas orderCount md (fun _ => []) with - | ⟨md1, areas⟩
  · simp [h1] at h
  simp only [h1, bind_eq_bind, bind_some] at h
  cases h
  obtain ⟨hp, hu', ho, ha⟩ := initAreas_eq_some h1 hu
  refine ⟨hp, hu', ho, rfl, rfl, rfl, fun k => (ha _).1, fun k hk => (ha _).2 ?_⟩
  rw [mem_orders] at hk
  simp only [orderToIndex, orderCount, minOrder, maxOrder]
  omega

def Buddy.chainPages (s : Buddy) : ℤ :=
  ((s.zones .dma).elim 0 Zone.chainPages + (s.zones .dma32).elim 0 Zone.chainPages) +
    (s.zones .normal).elim 0 Zone.chainPages

theorem chainPages_update (s : Buddy) (md : Metadata) (t : ZoneType) (z : Option Zone) :
    Buddy.chainPages { s with metadata := md, zones := update s.zones t z } -
      s.chainPages = z.elim 0 Zone.chainPages - (s.zones t).elim 0 Zone.chainPages := by
  cases t <;> simp [Buddy.chainPages]

/-- The page numbers where the zone of a type starts and stops. -/
def zoneStart (memorySize : ℕ) : ZoneType → ℕ
  | .dma => 0
  | .dma32 => min (memorySize / pageSize) (zoneDmaEnd / pageSize)
  | .normal => min (memorySize / pageSize) (zoneDma32End / pageSize)

def zoneStop (memorySize : ℕ) : ZoneType → ℕ
  | .dma => min (memorySize / pageSize) (zoneDmaEnd / pageSize)
  | .dma32 => min (memorySize / pageSize) (zoneDma32End / pageSize)
  | .normal => memorySize / pageSize

theorem mem_zone_iff {memorySize p : ℕ} : zoneStart memorySize t ≤ p ∧ p < zoneStop memorySize t ↔
      p < memorySize / pageSize ∧ physToZoneType (p * pageSize) = t := by
  have h1 : zoneDmaEnd / pageSize = 4096 := by norm_num [zoneDmaEnd, pageSize]
  have h2 : zoneDma32End / pageSize = 1048576 := by norm_num [zoneDma32End, pageSize]
  have hp1 : p * pageSize < zoneDmaEnd ↔ p < 4096 := by simp only [zoneDmaEnd, pageSize]; omega
  have hp2 : p * pageSize < zoneDma32End ↔ p < 1048576 := by
    simp only [zoneDma32End, pageSize]; omega
  cases t <;> simp only [zoneStart, zoneStop, physToZoneType, h1, h2, hp1, hp2] <;>
    generalize memorySize / pageSize = m <;> split_ifs <;> simp <;> omega

/-- The state in the middle of `buddy_init`: the zones of the types in `done` exist,
unless they would be empty, and have no blocks. -/
structure Booting (boot : Boot) (done : ZoneType → Prop) (s : Buddy) : Prop where
  memorySize : s.memorySize = boot.memorySize
  zone : ∀ t z, s.zones t = some z →
    EmptyZone z (zoneStart boot.memorySize t) (zoneStop boot.memorySize t)
  exist : ∀ t, done t → s.zones t = none →
    zoneStop boot.memorySize t ≤ zoneStart boot.memorySize t
  new : ∀ t, ¬ done t → s.zones t = none
  bitmap : boot.memorySize / pageSize ≤ s.usingRegions.length ∧
    ∀ p < boot.memorySize / pageSize, bitmapGet s.usingRegions p = false
  usable : s.usableRegions = boot.usableRegions
  refcount : s.refcount = fun _ => 0
  pool : s.metadata.poolPages = metadataPoolPages boot.memorySize
  poolUsed : s.metadata.poolUsed ≤ s.metadata.poolPages
  out : pagesOut s.metadata = s.chainPages

theorem createZone_booting (hs : Booting boot done s) (ht : ¬ done t)
    (h : createZone s t (zoneStart boot.memorySize t) (zoneStop boot.memorySize t) = some s') :
    Booting boot (fun u => done u ∨ u = t) s' := by
  -- whatever becomes of the zone `t`, the other fields are those of `s`
  have key : ∀ (md : Metadata) (o : Option Zone), md.poolPages = s.metadata.poolPages →
      md.poolUsed ≤ md.poolPages →
      pagesOut md - pagesOut s.metadata = o.elim 0 Zone.chainPages →
      (∀ z, o = some z → EmptyZone z (zoneStart boot.memorySize t) (zoneStop boot.memorySize t)) →
      (o = none → zoneStop boot.memorySize t ≤ zoneStart boot.memorySize t) →
      Booting boot (fun u => done u ∨ u = t)
        { s with metadata := md, zones := update s.zones t o } := by
    intro md o hp hu ho hz hn
    refine ⟨hs.memorySize, fun u z hu => ?_, fun u hu hu' => ?_, fun u hu => ?_, hs.bitmap, hs.usable,
      hs.refcount, hp.trans hs.pool, hu, ?_⟩
    · by_cases hut : u = t
      · subst hut
        exact hz z (by simpa using hu)
      · exact hs.zone u z (by simpa [update_apply, hut] using hu)
    · by_cases hut : u = t
      · subst hut
        exact hn (by simpa using hu')
      · exact hs.exist u (hu.resolve_right hut) (by simpa [update_apply, hut] using hu')
    · push Not at hu
      simpa [update_apply, hu.2] using hs.new u hu.1
    · have hc := chainPages_update s md t o
      rw [hs.new t ht, elim_none] at hc
      have := hs.out
      show pagesOut md = _
      linarith
  rw [createZone] at h
  split_ifs at h with hle
  · cases h
    exact key s.metadata none rfl hs.poolUsed (by simp) (by simp) fun _ => hle
  · rcases hi : initZone s.metadata (zoneStart boot.memorySize t) (zoneStop boot.memorySize t) with
      - | ⟨md, zone⟩
    · simp [hi] at h
    simp only [hi, bind_eq_bind, bind_some] at h
    cases h
    obtain ⟨hp, hu, ho, hz⟩ := initZone_eq_some hi hs.poolUsed
    refine key md (some zone) hp hu ?_ (fun z hz' => Option.some.inj hz' ▸ hz) (by simp)
    rw [elim_some, hz.chainPages, ho]
    ring

theorem resetBuddy_booting (boot : Boot) : Booting boot (fun _ => False) (resetBuddy boot) := by
  have hbytes : ∀ n : ℕ, n ≤ (if (n + 7) / 8 = 0 then 1 else (n + 7) / 8) * 8 := by
    intro n
    split_ifs <;> omega
  exact ⟨rfl, by simp [resetBuddy], by simp, fun _ _ => rfl, ⟨hbytes _, fun p hp =>
    bitmapInit_get _ _ _ (hp.trans_le (hbytes _))⟩, rfl, rfl, rfl, Nat.zero_le _,
    by simp [resetBuddy, pagesOut, Buddy.chainPages]⟩

theorem createZone_total (hs : Booting boot done s) (ht : ¬ done t) (a b : ℕ) :
    ∃ s', createZone s t a b = some s' := by
  rw [createZone]
  split_ifs with hle
  · exact ⟨_, rfl⟩
  have hzone : ∀ u, (s.zones u).elim 0 Zone.chainPages ≤ 19 := by
    intro u
    rcases hu : s.zones u with - | z
    · simp
    · rw [elim_some, (hs.zone u z hu).chainPages]
      rfl
  have hchain : s.chainPages ≤ 38 := by
    have h1 := hzone .dma
    have h2 := hzone .dma32
    have h3 := hzone .normal
    have h0 := hs.new t ht
    rw [Buddy.chainPages]
    cases t <;> rw [h0, elim_none] <;> linarith
  have hpool : 57 ≤ s.metadata.poolPages := by
    rw [hs.pool, metadataPoolPages, show orderCount * 3 + 16 = 73 by rfl]
    exact Nat.le_add_left_of_le (by norm_num)
  obtain ⟨⟨md, areas⟩, hi⟩ := initAreas_total (n := orderCount) hs.poolUsed (by
    have hpool' : (57 : ℤ) ≤ s.metadata.poolPages := by exact_mod_cast hpool
    rw [hs.out, show ((orderCount : ℕ) : ℤ) = 19 by rfl]
    linarith)
  simp only [initZone, hi, bind_eq_bind, bind_some]
  exact ⟨_, rfl⟩

theorem buddyInit_total (boot : Boot) : ∃ s, buddyInit boot = some s := by
  have b0 := resetBuddy_booting boot
  obtain ⟨s1, h1⟩ := createZone_total b0 (t := .dma) id (zoneStart boot.memorySize .dma)
    (zoneStop boot.memorySize .dma)
  have b1 := createZone_booting b0 id h1
  obtain ⟨s2, h2⟩ := createZone_total b1 (t := .dma32) (by simp) (zoneStart boot.memorySize .dma32)
    (zoneStop boot.memorySize .dma32)
  have b2 := createZone_booting b1 (by simp) h2
  obtain ⟨s3, h3⟩ := createZone_total b2 (t := .normal) (by simp)
    (zoneStart boot.memorySize .normal) (zoneStop boot.memorySize .normal)
  refine ⟨s3, ?_⟩
  simp only [buddyInit, bind_eq_bind]
  exact bind_eq_some_iff.mpr ⟨s1, h1, bind_eq_some_iff.mpr ⟨s2, h2, h3⟩⟩

theorem buddyInit_eq_some (h : buddyInit boot = some s) : Booting boot (fun _ => True) s := by
  simp only [buddyInit, bind_eq_bind] at h
  obtain ⟨s1, h1, h⟩ := bind_eq_some_iff.mp h
  obtain ⟨s2, h2, h3⟩ := bind_eq_some_iff.mp h
  have b1 := createZone_booting (t := .dma) (resetBuddy_booting boot) id h1
  have b2 := createZone_booting (t := .dma32) b1 (by simp) h2
  have b3 := createZone_booting (t := .normal) b2 (by simp) h3
  have hall : ∀ u : ZoneType, (((False ∨ u = .dma) ∨ u = .dma32) ∨ u = .normal) ↔ True := by
    intro u
    cases u <;> simp
  simpa only [hall] using b3

theorem Booting.handedOut (hs : Booting boot (fun _ => True) s) : handedOut s = ∅ := by
  ext p
  simp only [CoolPotOS.handedOut, mem_ofPred_eq, mem_empty_iff_false, iff_false, hs.memorySize]
  rintro ⟨hp, hg⟩
  rw [hs.bitmap.2 p hp] at hg
  cases hg

theorem Booting.sound (hs : Booting boot (fun _ => True) s) : Sound ∅ s := by
  refine ⟨?_, fun p _ _ => by rw [hs.refcount]⟩
  rw [hs.handedOut]
  refine ⟨fun t z hz => ?_, fun t z hz p hp hp' => ?_, fun t z hz => ?_, ?_, ?_, fun p hp => ?_,
    fun p hp => absurd hp (notMem_empty p), empty_subset _⟩
  · have hF : freePagesOf ∅ ∅ z = ∅ := by ext p; simp [freePagesOf]
    rw [hF]
    exact (hs.zone t z hz).sound
  · have he := hs.zone t z hz
    exact (mem_zone_iff.mp ⟨he.start ▸ hp, he.stop ▸ hp'⟩).2
  · have he := hs.zone t z hz
    rw [he.stop, hs.memorySize]
    cases t <;> simp only [zoneStop]
    · exact min_le_left _ _
    · exact min_le_left _ _
    · exact le_rfl
  · rw [hs.memorySize]; exact boot.memorySize_lt
  · rw [hs.memorySize]; exact hs.bitmap.1
  · rw [hs.memorySize] at hp
    have hin := mem_zone_iff.mpr ⟨hp, rfl⟩
    rcases hz : s.zones (physToZoneType (p * pageSize)) with - | z
    · have := hs.exist _ trivial hz
      omega
    · have he := hs.zone _ z hz
      exact ⟨z, rfl, by rw [he.start]; exact hin.1, by rw [he.stop]; exact hin.2⟩

theorem EmptyZone.tidy (h : EmptyZone zone a b) : Tidy zone where
  aligned k _ a ha := by rw [h.blocks k] at ha; exact absurd ha (Multiset.notMem_zero a)
  noBuddies k _ _ a ha := by rw [h.blocks k] at ha; exact absurd ha (Multiset.notMem_zero a)

theorem Booting.tidy (hs : Booting boot done s) : AllTidy s := fun t z hz => (hs.zone t z hz).tidy

structure Region.IsPageRange (r : Region) : Prop where
  start : pageSize ∣ r.start
  stop : pageSize ∣ r.stop
  lt : r.stop < 2 ^ 64

def Region.pages (r : Region) : Set ℕ := {p | r.start ≤ p * pageSize ∧ p * pageSize < r.stop}

/-- The pages of the region that are frames of the zone it names. -/
def Region.frames (memorySize : ℕ) (r : Region) : Set ℕ :=
  {p | p ∈ r.pages ∧ p < memorySize / pageSize ∧ physToZoneType (p * pageSize) = r.type}

/-- The pages that the regions bring under the control of the allocator. -/
def managedPages (memorySize : ℕ) (regions : List Region) : Set ℕ :=
  {p | ∃ r ∈ regions, p ∈ r.frames memorySize}

theorem addMemoryRegion_sameFields {start stop : ℕ} {type : ZoneType}
    (h : addMemoryRegion s start stop type = some s') : SameFields s s' := by
  rw [addMemoryRegion] at h
  split at h
  · cases h; exact ⟨rfl, rfl, rfl, rfl⟩
  rename_i zone hz
  dsimp only at h
  split_ifs at h <;> try (cases h; exact ⟨rfl, rfl, rfl, rfl⟩)
  all_goals
    obtain ⟨⟨md, zone'⟩, -, he⟩ := bind_eq_some_iff.mp h
    cases he
    exact ⟨rfl, rfl, rfl, rfl⟩

theorem addMemoryRegion_cases {U : Set ℕ} {r : Region} (hs : SoundAt M U s) (hr : r.IsPageRange) :
    (addMemoryRegion s r.start r.stop r.type = some s ∧ r.frames s.memorySize = ∅) ∨
    ∃ z start stop, s.zones r.type = some z ∧ pageSize ∣ start ∧ pageSize ∣ stop ∧
      zonePhysStart z ≤ start ∧ stop ≤ zonePhysEnd z ∧ start < stop ∧
      addMemoryRegion s r.start r.stop r.type =
        (addPieces stop ((stop - start) / pageSize) s.metadata z start).bind
          (fun x => some (s.setZone x.1 r.type x.2)) ∧
      (∀ p, p ∈ r.frames s.memorySize ↔ start ≤ p * pageSize ∧ p * pageSize < stop) ∧
      ∀ p, p ∈ r.frames s.memorySize → z.zoneStartPfn ≤ p ∧ p < z.zoneEndPfn := by
  have hmem : ∀ p, p ∈ r.frames s.memorySize → ∃ z, s.zones r.type = some z ∧
      z.zoneStartPfn ≤ p ∧ p < z.zoneEndPfn := by
    rintro p ⟨-, hp, ht⟩
    rw [← ht]
    exact hs.layout p hp
  have hnone : (∀ p, p ∉ r.frames s.memorySize) → r.frames s.memorySize = ∅ := eq_empty_of_forall_notMem
  rw [addMemoryRegion]
  rcases hz : s.zones r.type with - | z
  · refine .inl ⟨rfl, hnone fun p hp => ?_⟩
    obtain ⟨z, hz', -⟩ := hmem p hp
    rw [hz] at hz'
    cases hz'
  dsimp only
  by_cases h1 : r.start ≥ r.stop
  · rw [if_pos h1]
    exact .inl ⟨rfl, hnone fun p hp => absurd (hp.1.1.trans_lt hp.1.2) (not_lt.mpr h1)⟩
  rw [if_neg h1]
  simp only [paddingUp_of_dvd hr.start ((not_le.mp h1).trans hr.lt), paddingDown_of_dvd hr.stop]
  rw [if_neg h1]
  have hstart : (if r.start < zonePhysStart z then zonePhysStart z else r.start) =
      max r.start (zonePhysStart z) := by
    rw [max_def]; split_ifs <;> omega
  have hstop : (if r.stop > zonePhysEnd z then zonePhysEnd z else r.stop) =
      min r.stop (zonePhysEnd z) := by
    rw [min_def]; split_ifs <;> omega
  simp only [hstart, hstop]
  have hiff : ∀ p, p ∈ r.frames s.memorySize ↔
      max r.start (zonePhysStart z) ≤ p * pageSize ∧ p * pageSize < min r.stop (zonePhysEnd z) := by
    intro p
    have hzp : zonePhysStart z ≤ p * pageSize ∧ p * pageSize < zonePhysEnd z ↔
        z.zoneStartPfn ≤ p ∧ p < z.zoneEndPfn := by
      simp only [zonePhysStart, zonePhysEnd, pageSize]
      omega
    rw [max_le_iff, lt_min_iff]
    constructor
    · intro hp
      obtain ⟨w, hw, hw1⟩ := hmem p hp
      obtain rfl : w = z := Option.some.inj (hw.symm.trans hz)
      exact ⟨⟨hp.1.1, (hzp.mpr hw1).1⟩, hp.1.2, (hzp.mpr hw1).2⟩
    · rintro ⟨⟨ha, hb⟩, hc, hd⟩
      obtain ⟨he, hf⟩ := hzp.mp ⟨hb, hd⟩
      exact ⟨⟨ha, hc⟩, hf.trans_le (hs.stop _ z hz), hs.type _ z hz p he hf⟩
  split_ifs with h2
  · exact .inl ⟨rfl, hnone fun p hp => by
      obtain ⟨ha, hb⟩ := (hiff p).mp hp
      exact absurd (ha.trans_lt hb) (not_lt.mpr h2)⟩
  refine .inr ⟨z, _, _, rfl, ?_, ?_, le_max_right _ _, min_le_right _ _, not_le.mp h2, rfl, hiff,
    fun p hp => ?_⟩
  · rcases max_choice r.start (zonePhysStart z) with hm | hm <;> rw [hm]
    · exact hr.start
    · exact dvd_mul_left _ _
  · rcases min_choice r.stop (zonePhysEnd z) with hm | hm <;> rw [hm]
    · exact hr.stop
    · exact dvd_mul_left _ _
  · obtain ⟨w, hw, hw1⟩ := hmem p hp
    obtain rfl : w = z := Option.some.inj (hw.symm.trans hz)
    exact hw1

theorem addMemoryRegion_sound {r : Region} (hs : Sound M s) (hr : r.IsPageRange) (h0 : 0 ∉ r.pages)
    (hd : Disjoint r.pages M) (h : addMemoryRegion s r.start r.stop r.type = some s') :
    Sound (M ∪ r.frames s.memorySize) s' ∧ (AllTidy s → AllTidy s') := by
  rcases addMemoryRegion_cases hs.at_ hr with
    ⟨he, hnone⟩ | ⟨z, start, stop, hz, h1, h2, hge, hle, hlt, he, hiff, hin⟩
  · rw [he] at h
    cases h
    rw [hnone, union_empty]
    exact ⟨hs, id⟩
  rw [he] at h
  obtain ⟨⟨md, z'⟩, hp, h⟩ := bind_eq_some_iff.mp h
  cases h
  have hfree : ∀ p ∈ freePagesOf M (handedOut s) z, ¬ (start ≤ p * pageSize ∧ p * pageSize < stop) :=
    fun p hp hc => disjoint_left.mp hd ((hiff p).mpr hc).1 hp.1
  have hfuel : stop ≤ start + (stop - start) / pageSize * pageSize := by
    rw [Nat.div_mul_cancel (Nat.dvd_sub h2 h1)]
    omega
  obtain ⟨-, -, -, -, hzs, hb, htidy⟩ := (hs.at_.zone _ z hz).addPieces h1 h2 hge hle
    (hs.at_.physEnd_lt hz) hlt.le hfuel hfree hp
  have hnew : ∀ p ∈ r.frames s.memorySize, p ∉ handedOut s := fun p hp hu =>
    disjoint_left.mp hd hp.1 (hs.at_.used hu)
  have hset : SoundAt (M ∪ r.frames s.memorySize) (handedOut s) (s.setZone md r.type z') := by
    refine hs.at_.setZone hz hb md ?_ (fun p => ?_) (fun p _ => Iff.rfl)
      (hs.at_.used.trans subset_union_left)
    · have hF : freePagesOf (M ∪ r.frames s.memorySize) (handedOut s) z' =
          freePagesOf M (handedOut s) z ∪ {p | start ≤ p * pageSize ∧ p * pageSize < stop} := by
        ext p
        simp only [freePagesOf, hb.start, hb.stop, mem_ofPred_eq, mem_union, ← hiff p]
        constructor
        · rintro ⟨hp | hp, hrest⟩
          · exact .inl ⟨hp, hrest⟩
          · exact .inr hp
        · rintro (⟨hp, hrest⟩ | hp)
          · exact ⟨.inl hp, hrest⟩
          · exact ⟨.inr hp, hnew p hp, hin p hp⟩
      rw [hF]
      exact hzs
    · rw [mem_union]
      refine ⟨fun hp => hp.imp_right fun hq => ⟨.inr hq, ?_, hin p hq⟩, fun hp => hp.elim .inl And.left⟩
      rintro rfl
      exact h0 hq.1
  exact ⟨⟨hset, hs.idle⟩, fun ht => ht.setZone (htidy (ht _ z hz)) md _⟩

theorem addRegions_sound {regions : List Region} (hs : Sound M s)
    (hr : ∀ r ∈ regions, r.IsPageRange ∧ 0 ∉ r.pages)
    (hd : regions.Pairwise fun r r' => Disjoint r.pages r'.pages) (hM : ∀ r ∈ regions, Disjoint r.pages M)
    (h : addRegions regions s = some s') :
    Sound (M ∪ managedPages s.memorySize regions) s' ∧ SameFields s s' ∧ (AllTidy s → AllTidy s') := by
  induction regions generalizing M s with
  | nil =>
    cases h
    have hnil : managedPages s'.memorySize [] = ∅ := by simp [managedPages]
    rw [hnil, union_empty]
    exact ⟨hs, ⟨rfl, rfl, rfl, rfl⟩, id⟩
  | cons r regions ih =>
    rw [addRegions] at h
    obtain ⟨s1, h1, h2⟩ := bind_eq_some_iff.mp h
    obtain ⟨hpr, h0⟩ := hr r List.mem_cons_self
    obtain ⟨hs1, ht1⟩ := addMemoryRegion_sound hs hpr h0 (hM r List.mem_cons_self) h1
    have hf1 := addMemoryRegion_sameFields h1
    rw [List.pairwise_cons] at hd
    obtain ⟨hs', hf', ht'⟩ := ih hs1 (fun r' hr' => hr r' (List.mem_cons_of_mem r hr')) hd.2
      (fun r' hr' => disjoint_union_right.mpr ⟨hM r' (List.mem_cons_of_mem r hr'),
        (hd.1 r' hr').symm.mono_right fun p hp => hp.1⟩) h2
    refine ⟨?_, ⟨hf'.1.trans hf1.1, hf'.2.trans hf1.2, hf'.3.trans hf1.3, hf'.4.trans hf1.4⟩, ht' ∘ ht1⟩
    convert hs' using 1
    rw [union_assoc, hf1.memorySize]
    congr 1
    ext p
    simp [managedPages]

end CoolPotOS
