import CoolPotOS.Mem.BuddyPool
import CoolPotOS.Mem.FrameExact

namespace CoolPotOS

open Dyadic Option
open List hiding Disjoint

/-- The metadata pages that the chains of all zones can come to have. -/
def Buddy.limit (s : Buddy) : ℕ :=
  (s.zones .dma).elim 0 zoneLimit + (s.zones .dma32).elim 0 zoneLimit +
    (s.zones .normal).elim 0 zoneLimit

/-- All chains are below their limits, and the pool has a page for each of them. -/
structure Pooled (s : Buddy) : Prop where
  chains : ∀ t z, s.zones t = some z → ∀ k ∈ orders, (z.area k).length ≤ chainLimit z k
  out : pagesOut s.metadata = s.chainPages
  pool : s.limit ≤ s.metadata.poolPages

variable {s : Buddy} {z : Zone} {n : ℕ}

theorem Pooled.chainPages_le (h : Pooled s) (t : ZoneType) :
    (s.zones t).elim 0 Zone.chainPages ≤ ((s.zones t).elim 0 zoneLimit : ℕ) := by
  rcases hz : s.zones t with - | z
  · simp
  · rw [elim_some, elim_some, Zone.chainPages, zoneLimit, Nat.cast_sum]
    exact Finset.sum_le_sum fun k hk => Int.ofNat_le.mpr (h.chains t z hz k hk)

theorem Pooled.roomy (h : Pooled s) {t : ZoneType} (hz : s.zones t = some z) : Roomy s.metadata z := by
  refine ⟨h.chains t z hz, ?_⟩
  have hpool : (s.limit : ℤ) ≤ s.metadata.poolPages := Int.ofNat_le.mpr h.pool
  have h1 := h.chainPages_le .dma
  have h2 := h.chainPages_le .dma32
  have h3 := h.chainPages_le .normal
  rw [Buddy.limit] at hpool
  push_cast at hpool
  rw [h.out, Buddy.chainPages]
  cases t <;> simp only [hz, elim_some] at h1 h2 h3 hpool ⊢ <;> linarith

theorem Pooled.setZone (h : Pooled s) {t : ZoneType} {z' : Zone} {md' : Metadata} (hz : s.zones t = some z)
    (hr : Roomy md' z') (hp : PoolStep s.metadata z md' z') : Pooled (s.setZone md' t z') := by
  refine ⟨fun t' w hw => ?_, ?_, ?_⟩
  · simp only [Buddy.setZone, Function.update_apply] at hw
    split_ifs at hw with ht
    · cases hw; exact hr.chains
    · exact h.chains t' w hw
  · have hc := chainPages_update s md' t (some z')
    rw [hz, elim_some, elim_some] at hc
    have h1 := hp.out
    have h2 := h.out
    show pagesOut md' = Buddy.chainPages { s with metadata := md', zones := _ }
    linarith
  · have hlim : (s.setZone md' t z').limit = s.limit := by
      have he := zoneLimit_congr hp.bounds
      cases t <;> simp [Buddy.limit, Buddy.setZone, hz, he]
    rw [hlim]
    exact h.pool.trans hp.poolPages.ge

section Calls

variable {M : Set ℕ} {s : Buddy}

theorem allocFromZones_total {U : Set ℕ} {count t : ℕ} (hc : countToOrder count = some (t, n))
    (types : List ZoneType) (hs : SoundAt M U s) (hp : Pooled s) :
    ∃ s' addr, allocFromZones count types s = some (s', addr) ∧ Pooled s' := by
  induction types generalizing s with
  | nil => exact ⟨s, 0, rfl, hp⟩
  | cons type types ih =>
    rw [allocFromZones]
    rcases hz : s.zones type with - | z
    · exact ih hs hp
    dsimp only
    split_ifs
    · obtain ⟨md', z', addr, hb, hr, hst⟩ := (hp.roomy hz).alloc
        ((hs.zone type z hz).zero_notMem (hs.zero_notMem z)) count
      simp only [hb, bind_eq_bind, bind_some]
      have hp' := hp.setZone hz hr hst
      split_ifs with ha
      · exact ⟨_, addr, rfl, hp'⟩
      · obtain rfl : addr = 0 := not_not.mp ha
        exact ih (hs.skip hc hz hb) hp'
    · exact ih hs hp

theorem allocFramesFrom_total (types : List ZoneType) (count : ℕ) (hs : Sound M s) (hp : Pooled s) :
    ∃ s' addr, allocFramesFrom types s count = some (s', addr) ∧ Pooled s' := by
  rw [allocFramesFrom, countToPages]
  rcases hc : countToOrder count with - | ⟨t, n⟩
  · exact ⟨s, 0, rfl, hp⟩
  obtain ⟨s', addr, ha, hp'⟩ := allocFromZones_total hc types hs.at_ hp
  simp only [map_some, ha, bind_eq_bind, bind_some]
  split_ifs
  · exact ⟨s', 0, rfl, hp'⟩
  · exact ⟨_, addr, rfl, hp'.chains, hp'.out, hp'.pool⟩

theorem freeFramesCommon_total {addr count : ℕ} (released : Bool)
    (hal : ∀ k n, countToOrder count = some (k, n) → 2 ^ k ∣ addr) (hs : Sound M s) (ht : AllTidy s)
    (hp : Pooled s) : ∃ s', freeFramesCommon s addr count released = some s' ∧ AllTidy s' ∧ Pooled s' := by
  rcases freeFramesCommon_cases hs.at_ addr count released with hr | ⟨k, n, z, r, hrel, -, hr⟩
  · exact ⟨s, hr, ht, hp⟩
  obtain ⟨hko, hn, -⟩ := countToOrder_eq_some hrel.order
  have hz := hrel.zone
  have hdis : Disjoint (freePagesOf M (handedOut s) z) (cellPages k addr) := by
    refine Set.disjoint_left.mpr fun p hp hcell => hp.2.1 ⟨hp.2.2.2.trans_le (hs.at_.stop _ z hz), ?_⟩
    rw [mem_cellPages hko hrel.inside.page, ← hn] at hcell
    exact (hrel.inUse p hcell.1 hcell.2).1
  obtain ⟨md', z', hf, hroom, hst⟩ := (hp.roomy hz).free (hs.at_.zone _ z hz) (ht _ z hz) hko
    hrel.inside (hal k n hrel.order) (hs.at_.physEnd_lt hz) hdis
  have hrun : releaseFrames s (physToZoneType addr) z r addr k n =
      some { s.setZone md' (physToZoneType addr) z' with
        usingRegions := bitmapSetRange s.usingRegions (addr / pageSize) (addr / pageSize + n) false
        refcount := r } := by
    rw [releaseFrames, hf]
    rfl
  obtain ⟨-, -, -, -, -, -, htidy⟩ := releaseFrames_sound hs hrel hrun
  have hset := hp.setZone hz hroom hst
  exact ⟨_, hr.trans hrun, htidy (hal k n hrel.order) ht, hset.chains, hset.out, hset.pool⟩

theorem addMemoryRegion_total {r : Region} (hr : r.IsPageRange) (hd : Disjoint r.pages M)
    (hs : Sound M s) (ht : AllTidy s) (hp : Pooled s) :
    ∃ s', addMemoryRegion s r.start r.stop r.type = some s' ∧ Pooled s' := by
  rcases addMemoryRegion_cases hs.at_ hr with
    ⟨he, -⟩ | ⟨z, start, stop, hz, h1, h2, hge, hle, hlt, he, hiff, -⟩
  · exact ⟨s, he, hp⟩
  have hfree : ∀ p ∈ freePagesOf M (handedOut s) z, ¬ (start ≤ p * pageSize ∧ p * pageSize < stop) :=
    fun p hp hc => Set.disjoint_left.mp hd ((hiff p).mpr hc).1 hp.1
  have hfuel : stop ≤ start + (stop - start) / pageSize * pageSize := by
    rw [Nat.div_mul_cancel (Nat.dvd_sub h2 h1)]
    omega
  obtain ⟨md', z', hf, hroom, hst⟩ := (hp.roomy hz).addPieces (hs.at_.zone _ z hz) (ht _ z hz) h1 h2
    hge hle (hs.at_.physEnd_lt hz) hlt.le hfuel hfree
  rw [he, hf]
  exact ⟨_, rfl, hp.setZone hz hroom hst⟩

end Calls

inductive MemOp
  | addMemoryRegion (r : Region)
  | frames (op : FrameOp)

def MemOp.run (s : Buddy) : MemOp → Option Buddy
  | .addMemoryRegion r => CoolPotOS.addMemoryRegion s r.start r.stop r.type
  | .frames op => op.run s

def runMem : List MemOp → Buddy → Option Buddy
  | [], s => some s
  | op :: ops, s => do
    let s ← op.run s
    runMem ops s

def MemOp.region : MemOp → Option Region
  | .addMemoryRegion r => some r
  | .frames _ => none

/-- A free names an address that is a multiple of the size of the freed block. -/
def FrameOp.Aligned : FrameOp → Prop
  | .freeFrames addr count => ∀ k n, countToOrder count = some (k, n) → 2 ^ k ∣ addr
  | .freeFramesReleased addr count => ∀ k n, countToOrder count = some (k, n) → 2 ^ k ∣ addr
  | _ => True

def MemOp.Aligned : MemOp → Prop
  | .addMemoryRegion _ => True
  | .frames op => op.Aligned

theorem FrameOp.run_total {M : Set ℕ} (op : FrameOp) (hal : op.Aligned) (hs : Sound M s) (ht : AllTidy s)
    (hp : Pooled s) : ∃ s', op.run s = some s' ∧ Sound M s' ∧ AllTidy s' ∧ Pooled s' := by
  have halloc : ∀ types count, ∃ s', (allocFramesFrom types s count).map Prod.fst = some s' ∧
      Sound M s' ∧ AllTidy s' ∧ Pooled s' := by
    intro types count
    obtain ⟨s', addr, ha, hp'⟩ := allocFramesFrom_total types count hs hp
    obtain ⟨hs', -, -, ht', -⟩ := allocFramesFrom_sound hs ha
    exact ⟨s', by rw [ha]; rfl, hs', ht' ht, hp'⟩
  have hfree : ∀ addr count released, (∀ k n, countToOrder count = some (k, n) → 2 ^ k ∣ addr) →
      ∃ s', freeFramesCommon s addr count released = some s' ∧ Sound M s' ∧ AllTidy s' ∧ Pooled s' := by
    intro addr count released h
    obtain ⟨s', hf, ht', hp'⟩ := freeFramesCommon_total released h hs ht hp
    exact ⟨s', hf, freeFramesCommon_sound hs hf, ht', hp'⟩
  cases op with
  | allocFrames count => exact halloc _ count
  | allocFramesDma32 count => exact halloc _ count
  | freeFrames addr count => exact hfree addr count false hal
  | freeFramesReleased addr count => exact hfree addr count true hal

theorem runMem_total {M : Set ℕ} (ops : List MemOp)
    (hr : ∀ r ∈ ops.filterMap MemOp.region, r.IsPageRange ∧ 0 ∉ r.pages)
    (hd : (ops.filterMap MemOp.region).Pairwise fun r r' => Disjoint r.pages r'.pages)
    (hM : ∀ r ∈ ops.filterMap MemOp.region, Disjoint r.pages M) (hal : ∀ op ∈ ops, op.Aligned) (hs : Sound M s)
    (ht : AllTidy s) (hp : Pooled s) : ∃ s', runMem ops s = some s' := by
  induction ops generalizing M s with
  | nil => exact ⟨s, rfl⟩
  | cons op ops ih =>
    have hal' : ∀ op ∈ ops, op.Aligned := fun op' h => hal op' (mem_cons_of_mem op h)
    rw [runMem]
    cases op with
    | addMemoryRegion r =>
      rw [filterMap_cons_some (rfl : MemOp.region (.addMemoryRegion r) = some r)] at hr hd hM
      rw [pairwise_cons] at hd
      obtain ⟨hpr, h0⟩ := hr r mem_cons_self
      have hdM := hM r mem_cons_self
      obtain ⟨s1, h1, hp1⟩ := addMemoryRegion_total hpr hdM hs ht hp
      obtain ⟨hs1, ht1⟩ := addMemoryRegion_sound hs hpr h0 hdM h1
      simp only [MemOp.run, h1, bind_eq_bind, bind_some]
      refine ih (fun r' h => hr r' (mem_cons_of_mem r h)) hd.2 (fun r' h => ?_) hal' hs1 (ht1 ht) hp1
      exact Set.disjoint_union_right.mpr ⟨hM r' (mem_cons_of_mem r h),
        (hd.1 r' h).symm.mono_right fun p hp => hp.1⟩
    | frames op =>
      rw [filterMap_cons_none (rfl : MemOp.region (.frames op) = none)] at hr hd hM
      obtain ⟨s1, h1, hs1, ht1, hp1⟩ := op.run_total (hal _ mem_cons_self) hs ht hp
      simp only [MemOp.run, h1, bind_eq_bind, bind_some]
      exact ih hr hd hM hal' hs1 ht1 hp1

theorem Booting.pooled {boot : Boot} (hs : Booting boot (fun _ => True) s) : Pooled s := by
  refine ⟨fun t z hz k hk => ?_, hs.out, ?_⟩
  · rw [(hs.zone t z hz).chain k hk, chainLimit]
    exact Nat.le_add_right 1 _
  have hzone : ∀ t, (s.zones t).elim 0 zoneLimit ≤ orderCount +
      (zoneStop boot.memorySize t - zoneStart boot.memorySize t) / pageListEntryCapacity := by
    intro t
    rcases hz : s.zones t with - | z
    · exact Nat.zero_le _
    · have he := hs.zone t z hz
      rw [elim_some, ← he.start, ← he.stop]
      exact zoneLimit_le z
  have h1 := hzone .dma
  have h2 := hzone .dma32
  have h3 := hzone .normal
  rw [Buddy.limit, hs.pool, metadataPoolPages]
  have hcap : pageListEntryCapacity = 510 := rfl
  have hord : orderCount = 19 := rfl
  have hdma : zoneDmaEnd / pageSize = 4096 := by norm_num [zoneDmaEnd, pageSize]
  have hdma32 : zoneDma32End / pageSize = 1048576 := by norm_num [zoneDma32End, pageSize]
  simp only [zoneStart, zoneStop, hcap, hord, hdma, hdma32] at h1 h2 h3 ⊢
  generalize boot.memorySize / pageSize = m at h1 h2 h3 ⊢
  omega

theorem metadata_pool_never_dry (boot : Boot) (ops : List MemOp)
    (hr : ∀ r ∈ ops.filterMap MemOp.region, r.IsPageRange ∧ 0 ∉ r.pages)
    (hd : (ops.filterMap MemOp.region).Pairwise fun r r' => Disjoint r.pages r'.pages)
    (hal : ∀ op ∈ ops, op.Aligned) : ∃ s, (buddyInit boot).bind (runMem ops) = some s := by
  obtain ⟨s₀, h₀⟩ := buddyInit_total boot
  have hb := buddyInit_eq_some h₀
  obtain ⟨s, hs⟩ := runMem_total ops hr hd (fun r _ => Set.disjoint_empty _) hal hb.sound hb.tidy
    hb.pooled
  exact ⟨s, by rw [h₀]; exact hs⟩

theorem metadata_pool_never_dry_smallBoot :
    ∃ s, (buddyInit smallBoot).bind (runMem [.addMemoryRegion ⟨1 * pageSize, 6 * pageSize, .dma⟩,
      .frames (.allocFrames 2), .addMemoryRegion ⟨8 * pageSize, 16 * pageSize, .dma⟩,
      .frames (.freeFrames (8 * pageSize) 4)]) = some s := by
  refine metadata_pool_never_dry smallBoot _ smallRegions_ok.1 smallRegions_ok.2 fun op hop => ?_
  simp only [List.mem_cons, List.not_mem_nil, or_false] at hop
  rcases hop with rfl | rfl | rfl | rfl
  · trivial
  · trivial
  · trivial
  · intro k n h
    cases (show countToOrder 4 = some (14, 4) by decide).symm.trans h
    decide

end CoolPotOS
