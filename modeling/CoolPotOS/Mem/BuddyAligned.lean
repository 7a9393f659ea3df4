import CoolPotOS.Mem.FrameExact

namespace CoolPotOS

open Dyadic

/-- The free blocks of one order in a zone that there may not be. -/
def Buddy.blocks (s : Buddy) (type : ZoneType) (k : ℕ) : Multiset ℕ :=
  match s.zones type with
  | none => 0
  | some zone => zone.blocks k

def Puts (s s' : Buddy) (type : ZoneType) (k b : ℕ) : Prop :=
  (s.blocks type k).count b < (s'.blocks type k).count b

instance (s s' : Buddy) (type : ZoneType) (k b : ℕ) : Decidable (Puts s s' type k b) :=
  inferInstanceAs (Decidable (_ < _))

/-- `free_frames_common` passes all its checks. -/
structure FreePasses (s : Buddy) (addr count : ℕ) (released : Bool) (order pages : ℕ) (zone : Zone) :
    Prop where
  addr_ne : addr ≠ 0
  count_ne : count ≠ 0
  page : addr &&& (pageSize - 1) = 0
  addr_le : addr ≤ s.memorySize
  order_eq : countToOrder count = some (order, pages)
  zone_eq : s.zones (physToZoneType addr) = some zone
  inZone : ¬ (wrap (addr + pages * pageSize) < addr ∨ addr < zonePhysStart zone ∨
    wrap (addr + pages * pageSize) > zonePhysEnd zone)
  inMaps : ¬ (wrap (addr / pageSize + pages) < addr / pageSize ∨
    wrap (addr / pageSize + pages) > s.usingRegions.length ∨
    wrap (addr / pageSize + pages) > s.usableRegions.length)
  inUse : pagesInUse s (addr / pageSize) pages = true
  refs : if released then pagesAreUnreferenced s.refcount addr pages = true
    else (claimLastPageRefs addr pages 0 s.refcount).2 = true

theorem freeFramesCommon_passes (s : Buddy) (addr count : ℕ) (released : Bool) :
    (∃ r, freeFramesCommon s addr count released = some { s with refcount := r } ∧
      ∀ order pages zone, ¬ FreePasses s addr count released order pages zone) ∨
    ∃ order pages zone r, FreePasses s addr count released order pages zone ∧
      freeFramesCommon s addr count released =
        releaseFrames s (physToZoneType addr) zone r addr order pages := by
  have hself : some s = some { s with refcount := s.refcount } := rfl
  unfold freeFramesCommon
  by_cases hzero : addr = 0 ∨ count = 0
  · rw [if_pos hzero]
    exact .inl ⟨s.refcount, rfl, fun _ _ _ h => hzero.elim h.addr_ne h.count_ne⟩
  rw [if_neg hzero]
  by_cases hpage : addr &&& (pageSize - 1) ≠ 0
  · rw [if_pos hpage]
    exact .inl ⟨s.refcount, rfl, fun _ _ _ h => hpage h.page⟩
  rw [if_neg hpage]
  by_cases hle : addr > s.memorySize
  · rw [if_pos hle]
    exact .inl ⟨s.refcount, rfl, fun _ _ _ h => absurd h.addr_le (not_le.mpr hle)⟩
  rw [if_neg hle]
  cases horder : countToOrder count with
  | none =>
    refine .inl ⟨s.refcount, rfl, fun _ _ _ h => ?_⟩
    have := h.order_eq
    rw [horder] at this
    cases this
  | some x =>
    obtain ⟨order, pages⟩ := x
    dsimp only
    cases hzone : s.zones (physToZoneType addr) with
    | none =>
      refine .inl ⟨s.refcount, rfl, fun _ _ _ h => ?_⟩
      have := h.zone_eq
      rw [hzone] at this
      cases this
    | some zone =>
      -- the order, the pages and the zone are what the call has found
      have hsame : ∀ {order' pages' zone'}, FreePasses s addr count released order' pages' zone' →
          order' = order ∧ pages' = pages ∧ zone' = zone := by
        intro order' pages' zone' h
        have h1 := horder.symm.trans h.order_eq
        have h2 := hzone.symm.trans h.zone_eq
        cases h1
        cases h2
        exact ⟨rfl, rfl, rfl⟩
      dsimp only
      split_ifs with hin hmaps huse hrel hrefs hclaim
      · refine .inl ⟨s.refcount, rfl, fun _ _ _ h => ?_⟩
        obtain ⟨rfl, rfl, rfl⟩ := hsame h
        exact h.inZone hin
      · refine .inl ⟨s.refcount, rfl, fun _ _ _ h => ?_⟩
        obtain ⟨rfl, rfl, rfl⟩ := hsame h
        exact h.inMaps hmaps
      · refine .inl ⟨s.refcount, rfl, fun _ _ _ h => ?_⟩
        obtain ⟨rfl, rfl, rfl⟩ := hsame h
        rw [h.inUse] at huse
        cases huse
      · refine .inl ⟨s.refcount, rfl, fun _ _ _ h => ?_⟩
        obtain ⟨rfl, rfl, rfl⟩ := hsame h
        have := h.refs
        rw [if_pos hrel] at this
        rw [this] at hrefs
        cases hrefs
      · refine .inr ⟨order, pages, zone, s.refcount, ?_, rfl⟩
        rw [not_or] at hzero
        refine ⟨hzero.1, hzero.2, not_not.mp hpage, not_lt.mp hle, horder, hzone, hin, hmaps, ?_, ?_⟩
        · simpa using huse
        · rw [if_pos hrel]
          simpa using hrefs
      · refine .inl ⟨_, rfl, fun _ _ _ h => ?_⟩
        obtain ⟨rfl, rfl, rfl⟩ := hsame h
        have := h.refs
        rw [if_neg hrel] at this
        rw [this] at hclaim
        cases hclaim
      · refine .inr ⟨order, pages, zone, _, ?_, rfl⟩
        rw [not_or] at hzero
        refine ⟨hzero.1, hzero.2, not_not.mp hpage, not_lt.mp hle, horder, hzone, hin, hmaps, ?_, ?_⟩
        · simpa using huse
        · rw [if_neg hrel]
          simpa using hclaim

theorem zoneBlockValid_dvd {zone : Zone} {addr order : ℕ} (h : zoneBlockValid zone addr order = true) :
    2 ^ order ∣ addr := by
  unfold zoneBlockValid orderToBytes at h
  rw [Nat.and_two_pow_sub_one_eq_mod] at h
  simp only [Bool.and_eq_true, decide_eq_true_eq] at h
  exact Nat.dvd_of_mod_eq_zero h.1.2

theorem dvd_min_buddy {k addr : ℕ} (haddr : 2 ^ k ∣ addr) :
    2 ^ (k + 1) ∣ if addr ^^^ 2 ^ k < addr then addr ^^^ 2 ^ k else addr := by
  obtain hd | ⟨b, hd, rfl⟩ := dvd_or_dvd_sub haddr
  · rw [xor_pow_of_dvd hd, if_neg (by omega)]
    exact hd
  · have hpos : 0 < 2 ^ k := by positivity
    rw [xor_pow_add_of_dvd hd, if_pos (by omega)]
    exact hd

theorem freeMerge_aligned (fuel : ℕ) (md : Metadata) (zone : Zone) {addr k : ℕ} (hk : 12 ≤ k)
    (hfuel : k + fuel = 30) (haddr : 2 ^ k ∣ addr) :
    2 ^ (freeMerge fuel md zone addr k).2.2.2 ∣ (freeMerge fuel md zone addr k).2.2.1 ∧
      (freeMerge fuel md zone addr k).2.2.2 ∈ orders ∧
      ∀ j ∈ orders, (freeMerge fuel md zone addr k).2.1.blocks j ≤ zone.blocks j := by
  have hko : k ∈ orders := mem_orders.mpr ⟨hk, by omega⟩
  induction fuel generalizing md zone addr k with
  | zero => exact ⟨haddr, hko, fun _ _ => le_rfl⟩
  | succ fuel ih =>
    unfold freeMerge
    dsimp only
    by_cases hvalid : zoneBlockValid zone (addr ^^^ orderToBytes k) k = true
    · rw [hvalid, if_neg (by decide)]
      cases htake : (zoneTake md zone k (addr ^^^ orderToBytes k)).2.2 with
      | false =>
        rw [if_pos (by decide)]
        exact ⟨haddr, hko, fun j hj => ((zoneTake_eq_false hko htake).2 j hj).le⟩
      | true =>
        rw [if_neg (by decide)]
        have hadds := zoneTake_eq_true hko htake
        have hsub : ∀ j ∈ orders,
            (zoneTake md zone k (addr ^^^ orderToBytes k)).2.1.blocks j ≤ zone.blocks j := by
          intro j hj
          by_cases hjk : j = k
          · rw [hjk, hadds.self]
            exact Multiset.le_cons_self _ _
          · exact (hadds.other j hj hjk).symm.le
        obtain ⟨h1, h2, h3⟩ := ih (zoneTake md zone k (addr ^^^ orderToBytes k)).1
          (zoneTake md zone k (addr ^^^ orderToBytes k)).2.1 (by omega) (by omega)
          (dvd_min_buddy haddr) (mem_orders.mpr ⟨by omega, by omega⟩)
        exact ⟨h1, h2, fun j hj => (h3 j hj).trans (hsub j hj)⟩
    · rw [Bool.not_eq_true] at hvalid
      rw [hvalid, if_pos (by decide)]
      exact ⟨haddr, hko, fun _ _ => le_rfl⟩

theorem freeMerge_misaligned (fuel : ℕ) (md : Metadata) (zone : Zone) {addr k : ℕ}
    (haddr : ¬ 2 ^ k ∣ addr) : freeMerge fuel md zone addr k = (md, zone, addr, k) := by
  cases fuel with
  | zero => rfl
  | succ fuel =>
    have hvalid : zoneBlockValid zone (addr ^^^ orderToBytes k) k = false := by
      rw [← Bool.not_eq_true]
      exact fun h => haddr (dvd_xor_pow.mp (zoneBlockValid_dvd h))
    unfold freeMerge
    dsimp only
    rw [hvalid, if_pos (by decide)]

theorem releaseFrames_puts {s s' : Buddy} {type : ZoneType} {zone : Zone} {r : ℕ → ℤ}
    {addr order pages : ℕ} (hzone : s.zones type = some zone) (horder : order ∈ orders)
    (h : releaseFrames s type zone r addr order pages = some s') :
    (∀ type, ∀ k ∈ orders, ∀ b, Puts s s' type k b → 2 ^ k ∣ b) ↔ 2 ^ order ∣ addr := by
  have hbounds := mem_orders.mp horder
  unfold releaseFrames at h
  dsimp only at h
  obtain ⟨⟨md, zone'⟩, hfree, hs'⟩ := Option.bind_eq_some_iff.mp h
  unfold buddyFreeZoneLocked at hfree
  dsimp only at hfree
  obtain ⟨⟨md1, zone1⟩, hpush, hzone'⟩ := Option.bind_eq_some_iff.mp hfree
  have hfuel : maxOrder - 1 - order = 30 - order := rfl
  rw [hfuel] at hpush
  have hzones : s'.zones = Function.update s.zones type (some zone') := by
    rw [← Option.some.inj hs']
    rfl
  have hblocks : ∀ k, zone'.blocks k = zone1.blocks k := by
    rw [← (Prod.mk.inj (Option.some.inj hzone')).2]
    exact fun _ => rfl
  have hputs : ∀ type' k b, Puts s s' type' k b ↔
      type' = type ∧ (zone.blocks k).count b < (zone1.blocks k).count b := by
    intro type' k b
    unfold Puts Buddy.blocks
    rw [hzones]
    by_cases htype : type' = type
    · subst htype
      rw [hzone, and_iff_right rfl, Function.update_self]
      dsimp only
      rw [hblocks]
    · rw [Function.update_of_ne htype]
      simp [htype]
  constructor
  · intro hall
    by_contra hno
    rw [freeMerge_misaligned _ _ _ hno] at hpush
    obtain ⟨-, hadds, -⟩ := zonePush_eq_some horder hpush
    apply hno
    apply hall type order horder addr
    rw [hputs, hadds.self, Multiset.count_cons_self]
    exact ⟨rfl, Nat.lt_succ_self _⟩
  · intro haddr type' k hk b hput
    obtain ⟨hdvd, hmem, hsub⟩ := freeMerge_aligned (30 - order) s.metadata zone hbounds.1 (by omega) haddr
    obtain ⟨-, hadds, -⟩ := zonePush_eq_some hmem hpush
    obtain ⟨-, hlt⟩ := (hputs type' k b).mp hput
    have hle := Multiset.count_le_of_le b (hsub k hk)
    by_cases hkeq : k = (freeMerge (30 - order) s.metadata zone addr order).2.2.2
    · subst hkeq
      by_cases hb : b = (freeMerge (30 - order) s.metadata zone addr order).2.2.1
      · rw [hb]
        exact hdvd
      · rw [hadds.self, Multiset.count_cons_of_ne hb] at hlt
        exact absurd hlt (not_lt.mpr hle)
    · rw [hadds.other k hk hkeq] at hlt
      exact absurd hlt (not_lt.mpr hle)

/-- A free puts blocks on multiples of their sizes exactly when it is refused, or is of an address
on a multiple of the size for its count. -/
theorem freed_blocks_aligned (s s' : Buddy) (addr count : ℕ) (released : Bool)
    (hfree : freeFramesCommon s addr count released = some s') :
    (∀ type, ∀ k ∈ orders, ∀ b, Puts s s' type k b → 2 ^ k ∣ b) ↔
      ∀ order pages zone, FreePasses s addr count released order pages zone → 2 ^ order ∣ addr := by
  obtain ⟨r, hrefused, hno⟩ | ⟨order, pages, zone, r, hpasses, hrelease⟩ :=
    freeFramesCommon_passes s addr count released
  · obtain rfl := Option.some.inj (hrefused.symm.trans hfree)
    refine ⟨fun _ order pages zone h => absurd h (hno order pages zone), fun _ type k _ b hput => ?_⟩
    exact absurd hput (lt_irrefl _)
  · have horder := (countToOrder_eq_some hpasses.order_eq).1
    rw [releaseFrames_puts hpasses.zone_eq horder (hrelease.symm.trans hfree)]
    constructor
    · intro haddr order' pages' zone' h
      obtain ⟨rfl, rfl⟩ := Prod.mk.inj (Option.some.inj (hpasses.order_eq.symm.trans h.order_eq))
      exact haddr
    · exact fun h => h order pages zone hpasses

theorem freed_blocks_aligned_half :
    ∃ s s', bootAndRun smallBoot smallRegions [.allocFrames 3] = some s ∧
      freeFrames s (8 * pageSize) 4 = some s' ∧
      ∀ type, ∀ k ∈ orders, ∀ b, Puts s s' type k b → 2 ^ k ∣ b := by
  obtain ⟨s, hs⟩ := Option.isSome_iff_exists.mp
    (show (bootAndRun smallBoot smallRegions [.allocFrames 3]).isSome = true by decide +kernel)
  obtain ⟨s', hs'⟩ := Option.isSome_iff_exists.mp
    (show (freeFrames s (8 * pageSize) 4).isSome = true by
      have hsome : ((bootAndRun smallBoot smallRegions [.allocFrames 3]).bind fun s =>
          freeFrames s (8 * pageSize) 4).isSome = true := by decide +kernel
      rwa [hs] at hsome)
  refine ⟨s, s', hs, hs', (freed_blocks_aligned s s' _ _ false hs').mpr ?_⟩
  intro order pages zone h
  have horder := h.order_eq
  have hfour : countToOrder 4 = some (14, 4) := by decide
  rw [hfour] at horder
  obtain ⟨rfl, -⟩ := Prod.mk.inj (Option.some.inj horder)
  decide

/-- Two frames in the middle of an allocation pass all checks, and become a block that is not on a
multiple of its size. -/
theorem freed_block_misaligned :
    ¬ ∀ s s', bootAndRun smallBoot smallRegions [.allocFrames 3] = some s →
      freeFrames s (9 * pageSize) 2 = some s' →
      ∀ type, ∀ k ∈ orders, ∀ b, Puts s s' type k b → 2 ^ k ∣ b := by
  intro hall
  have hrun : ((bootAndRun smallBoot smallRegions [.allocFrames 3]).bind fun s =>
      (freeFrames s (9 * pageSize) 2).map fun s' => decide (Puts s s' .dma 13 (9 * pageSize))) =
        some true := by decide +kernel
  obtain ⟨s, hs, hput⟩ := Option.bind_eq_some_iff.mp hrun
  obtain ⟨s', hs', hput⟩ := Option.map_eq_some_iff.mp hput
  have hdvd := hall s s' hs hs' .dma 13 (by decide) _ (of_decide_eq_true hput)
  exact absurd hdvd (by decide)

end CoolPotOS
