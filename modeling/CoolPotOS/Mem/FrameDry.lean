import CoolPotOS.Mem.FramePool

namespace CoolPotOS

open Dyadic Option
open List hiding Disjoint

/-- The metadata pages of a chain that hold a block of `K`. -/
def pagesWith (K : Finset ℕ) (chain : List PageList) : ℕ :=
  chain.countP fun list => list.entries.any (· ∈ K)

/-- What an operation that takes no block of `K` off a chain leaves of it. -/
structure Thins (K : Finset ℕ) (md : Metadata) (chain : List PageList) (md' : Metadata)
    (chain' : List PageList) : Prop where
  pages : pagesWith K chain ≤ pagesWith K chain'
  capped : Capped chain → Capped chain'
  used : md'.poolUsed = md.poolUsed

section Chain

variable {K : Finset ℕ} {md md' : Metadata} {c c' : List PageList} {p q : PageList} {b t phys : ℕ}

theorem pagesWith_cons : pagesWith K (p :: c) =
    pagesWith K c + if p.entries.any (· ∈ K) then 1 else 0 := countP_cons

theorem Thins.refl (K : Finset ℕ) (md : Metadata) (c : List PageList) : Thins K md c md c :=
  ⟨le_rfl, id, rfl⟩

theorem Thins.cons (h : Thins K md c md' c') (hlen : q.entries.length ≤ p.entries.length)
    (hany : p.entries.any (· ∈ K) = q.entries.any (· ∈ K)) : Thins K md (p :: c) md' (q :: c') := by
  refine ⟨?_, fun hc => ?_, h.used⟩
  · rw [pagesWith_cons, pagesWith_cons, hany]
    exact Nat.add_le_add_right h.pages _
  · intro l hl
    obtain rfl | hl := List.mem_cons.mp hl
    · exact hlen.trans (hc p mem_cons_self)
    · exact h.capped (fun l hl => hc l (mem_cons_of_mem p hl)) l hl

theorem Thins.drop (h : Thins K (metadataPageFree md phys) c md' c')
    (hany : p.entries.any (· ∈ K) = false) : Thins K md (p :: c) md' c' := by
  refine ⟨?_, fun hc => h.capped fun l hl => hc l (mem_cons_of_mem p hl), h.used⟩
  rw [pagesWith_cons, hany]
  exact h.pages

theorem popWalk_thins (first : Bool) (md : Metadata) (h : (popWalk first md c).2.2 ∉ K) :
    Thins K md c (popWalk first md c).1 (popWalk first md c).2.1 := by
  induction c generalizing first md with
  | nil => exact Thins.refl K md []
  | cons p ps ih =>
    rw [popWalk] at h ⊢
    by_cases hp : p.entries ≠ []
    · rw [dif_pos hp] at h ⊢
      have hlast : p.entries.getLast hp ∉ K := by
        dsimp only at h
        split_ifs at h <;> exact h
      have hany : p.entries.any (· ∈ K) = p.entries.dropLast.any (· ∈ K) := by
        conv_lhs => rw [← dropLast_append_getLast hp, any_append]
        simp [hlast]
      dsimp only
      split_ifs with hfree
      · refine (Thins.refl K _ ps).drop ?_
        rw [hany, length_eq_zero_iff.mp hfree.1]
        rfl
      · refine (Thins.refl K md ps).cons ?_ hany
        rw [length_dropLast]
        exact Nat.sub_le _ _
    · have h0 : p.entries = [] := not_not.mp hp
      rw [dif_neg hp] at h ⊢
      split_ifs at h ⊢ with hfirst
      · refine (ih first _ h).drop ?_
        rw [h0]
        rfl
      · exact (ih false md h).cons le_rfl rfl

theorem takeWalk_thins (first : Bool) (md : Metadata) (h : t ∉ K) :
    Thins K md c (takeWalk t first md c).1 (takeWalk t first md c).2.1 := by
  induction c generalizing first md with
  | nil => exact Thins.refl K md []
  | cons p ps ih =>
    rw [takeWalk]
    by_cases ht : t ∈ p.entries
    · have hperm := takeEntry_perm ht
      have hany : p.entries.any (· ∈ K) = (takeEntry t p.entries).any (· ∈ K) := by
        rw [← hperm.any_eq, any_cons]
        simp [h]
      rw [if_pos ht]
      dsimp only
      split_ifs with hfree
      · refine (Thins.refl K _ ps).drop ?_
        rw [hany, length_eq_zero_iff.mp hfree.1]
        rfl
      · refine (Thins.refl K md ps).cons ?_ hany
        rw [← hperm.length_eq, length_cons]
        exact Nat.le_succ _
    · rw [if_neg ht]
      split_ifs with hfree
      · refine (ih first _).drop ?_
        rw [length_eq_zero_iff.mp hfree.2]
        rfl
      · exact (ih false md).cons le_rfl rfl

theorem pushWalk_pagesWith (b : ℕ) (first : Bool) (md : Metadata) :
    pagesWith K c ≤ pagesWith K (pushWalk b first md c).2.1 := by
  induction c generalizing first md with
  | nil => exact le_rfl
  | cons p ps ih =>
    rw [pushWalk]
    split_ifs with hroom hfree
    · have hany : p.entries.any (· ∈ K) = true → (p.entries ++ [b]).any (· ∈ K) = true := by
        intro hp
        rw [any_append, hp, Bool.true_or]
      rw [pagesWith_cons, pagesWith_cons]
      split_ifs with h1 h2
      · exact le_rfl
      · exact absurd (hany h1) h2
      · exact Nat.le_succ _
      · exact le_rfl
    · rw [pagesWith_cons, length_eq_zero_iff.mp hfree.2]
      exact ih first _
    · rw [pagesWith_cons, pagesWith_cons]
      exact Nat.add_le_add_right (ih false md) _

theorem pageListPush_pagesWith (h : pageListPush md c b = some (md', c')) :
    pagesWith K c ≤ pagesWith K c' := by
  have hw := pushWalk_pagesWith (K := K) (c := c) b true md
  revert h
  rw [pageListPush]
  split <;> rename_i md1 c1 hr <;> intro h <;> rw [hr] at hw
  · cases h
    exact hw
  · obtain ⟨⟨md2, phys⟩, -, h⟩ := Option.bind_eq_some_iff.mp h
    cases h
    exact hw.trans (by rw [pagesWith_cons]; exact Nat.le_add_right _ _)

/-- One block from each page that holds any. -/
theorem exists_pagesWith (hc : Capped c) (hnd : (blocksOf c).Nodup) :
    ∃ K : Finset ℕ, (∀ b ∈ K, b ∈ blocksOf c) ∧
      (blocksOf c).card ≤ pageListEntryCapacity * K.card ∧ K.card ≤ pagesWith K c := by
  induction c with
  | nil => exact ⟨∅, fun b hb => absurd hb (Finset.notMem_empty b), Nat.zero_le _, le_rfl⟩
  | cons p ps ih =>
    rw [blocksOf_cons] at hnd ⊢
    obtain ⟨-, hps, hdis⟩ := Multiset.nodup_add.mp hnd
    obtain ⟨K, hK, hcard, hpages⟩ := ih (fun l hl => hc l (mem_cons_of_mem p hl)) hps
    cases he : p.entries with
    | nil =>
      refine ⟨K, fun b hb => Multiset.mem_add.mpr (.inr (hK b hb)), by simpa using hcard, ?_⟩
      exact hpages.trans (by rw [pagesWith_cons]; exact Nat.le_add_right _ _)
    | cons b bs =>
      have hb : b ∉ K := fun hbK => Multiset.disjoint_left.mp hdis
        (Multiset.mem_coe.mpr (he ▸ mem_cons_self)) (hK b hbK)
      have hlen := hc p mem_cons_self
      rw [he] at hlen
      refine ⟨insert b K, fun x hx => ?_, ?_, ?_⟩
      · obtain rfl | hx := Finset.mem_insert.mp hx
        · exact Multiset.mem_add.mpr (.inl (Multiset.mem_coe.mpr mem_cons_self))
        · exact Multiset.mem_add.mpr (.inr (hK x hx))
      · rw [Finset.card_insert_of_notMem hb, Multiset.card_add, Multiset.coe_card, Nat.mul_succ]
        omega
      · have hmono : pagesWith K ps ≤ pagesWith (insert b K) ps := by
          refine countP_mono_left fun l _ hl => ?_
          simp only [List.any_eq_true, decide_eq_true_eq] at hl ⊢
          obtain ⟨x, hx, hxK⟩ := hl
          exact ⟨x, hx, Finset.mem_insert_of_mem hxK⟩
        rw [Finset.card_insert_of_notMem hb, pagesWith_cons, if_pos (by simp [he])]
        omega

end Chain

/-- What an operation on the lists of a zone that takes none of the blocks `K` leaves of it. -/
structure ZoneThins (K : ℕ → Finset ℕ) (md : Metadata) (zone : Zone) (md' : Metadata)
    (zone' : Zone) : Prop where
  step : PoolStep md zone md' zone'
  pages : ∀ k ∈ orders, pagesWith (K k) (zone.area k) ≤ pagesWith (K k) (zone'.area k)
  capped : (∀ k ∈ orders, Capped (zone.area k)) → ∀ k ∈ orders, Capped (zone'.area k)
  used : md.poolUsed ≤ md.poolPages → md'.poolUsed ≤ md'.poolPages

section Zone

variable {K : ℕ → Finset ℕ} {md md' md1 md2 md3 : Metadata} {z z' z1 z2 z3 : Zone}
  {c : List PageList} {a b k t n count : ℕ}

theorem ZoneThins.refl (K : ℕ → Finset ℕ) (md : Metadata) (z : Zone) : ZoneThins K md z md z :=
  ⟨(ListStep.refl md z).poolStep, fun _ _ => le_rfl, id, id⟩

theorem ZoneThins.trans (h : ZoneThins K md1 z1 md2 z2) (h' : ZoneThins K md2 z2 md3 z3) :
    ZoneThins K md1 z1 md3 z3 :=
  ⟨h.step.trans h'.step, fun k hk => (h.pages k hk).trans (h'.pages k hk),
    fun hc => h'.capped (h.capped hc), fun hu => h'.used (h.used hu)⟩

theorem ZoneThins.of_area (harea : z'.freeArea = z.freeArea) (hstart : z'.zoneStartPfn = z.zoneStartPfn)
    (hstop : z'.zoneEndPfn = z.zoneEndPfn) : ZoneThins K md z md z' := by
  have hj : ∀ j, z'.area j = z.area j := fun j => by rw [Zone.area, harea]; rfl
  exact ⟨⟨⟨hstart, hstop⟩, rfl, by simp only [Zone.chainPages, hj]; ring⟩, fun k _ => by rw [hj],
    fun hc k hk => by rw [hj]; exact hc k hk, id⟩

theorem zoneThins_setArea (hk : k ∈ orders) (hs : ListStep md z md' (z.setArea k c))
    (hpages : pagesWith (K k) (z.area k) ≤ pagesWith (K k) c) (hcap : Capped (z.area k) → Capped c)
    (hused : md.poolUsed ≤ md.poolPages → md'.poolUsed ≤ md'.poolPages) :
    ZoneThins K md z md' (z.setArea k c) := by
  refine ⟨hs.poolStep, fun j hj => ?_, fun hc j hj => ?_, hused⟩
  · rw [area_setArea hk hj]
    split_ifs with hjk
    · rwa [hjk]
    · exact le_rfl
  · rw [area_setArea hk hj]
    split_ifs
    · exact hcap (hc k hk)
    · exact hc j hj

theorem zonePush_thins (hk : k ∈ orders) (h : zonePush md z k b = some (md', z')) :
    ZoneThins K md z md' z' := by
  obtain ⟨hs, -⟩ := zonePush_eq_some hk h
  obtain ⟨⟨md1, c⟩, hp, h⟩ := Option.bind_eq_some_iff.mp h
  cases h
  exact zoneThins_setArea hk hs (pageListPush_pagesWith hp) (fun hc => pageListPush_capped hc hp)
    (pageListPush_poolUsed hp)

theorem Thins.zone (hk : k ∈ orders) (h : Thins (K k) md (z.area k) md' c)
    (hs : ListStep md z md' (z.setArea k c)) : ZoneThins K md z md' (z.setArea k c) :=
  zoneThins_setArea hk hs h.pages h.capped fun hu => by rw [h.used, hs.poolPages]; exact hu

theorem zonePop_thins (hk : k ∈ orders) (h : (zonePop md z k).2.2 ∉ K k) :
    ZoneThins K md z (zonePop md z k).1 (zonePop md z k).2.1 :=
  (popWalk_thins true md h).zone hk (zonePop_listStep md z hk)

theorem zoneTake_thins (hk : k ∈ orders) (h : t ∉ K k) :
    ZoneThins K md z (zoneTake md z k t).1 (zoneTake md z k t).2.1 :=
  (takeWalk_thins true md h).zone hk (zoneTake_listStep md z t hk)

theorem allocSearch_thins (fuel : ℕ) (md : Metadata) (z : Zone) (hk : 12 ≤ k) (hfuel : k + fuel = 31)
    (h0 : ∀ j, 0 ∉ K j) (h : ∀ j, (allocSearch fuel md z k).2.2.2 ∉ K j) :
    ZoneThins K md z (allocSearch fuel md z k).1 (allocSearch fuel md z k).2.1 := by
  induction fuel generalizing md z k with
  | zero => exact ZoneThins.refl K md z
  | succ fuel ih =>
    have hko : k ∈ orders := mem_orders.mpr ⟨hk, by omega⟩
    rw [allocSearch] at h ⊢
    by_cases hz : (zonePop md z k).2.2 = 0
    · simp only [ne_eq, hz, not_true_eq_false, if_false] at h ⊢
      have hpop : (zonePop md z k).2.2 ∉ K k := by
        rw [hz]
        exact h0 k
      exact (zonePop_thins hko hpop).trans (ih _ _ (by omega) (by omega) h)
    · simp only [ne_eq, hz, not_false_eq_true, if_true] at h ⊢
      exact zonePop_thins hko (h k)

theorem allocSplit_thins (ht : 12 ≤ t) (hn : t + n < 32) (h : allocSplit t b n md z = some (md', z')) :
    ZoneThins K md z md' z' := by
  induction n generalizing md z with
  | zero =>
    cases h
    exact ZoneThins.refl K _ _
  | succ n ih =>
    obtain ⟨⟨md1, z1⟩, hp, h⟩ := Option.bind_eq_some_iff.mp h
    exact (zonePush_thins (mem_orders.mpr ⟨by omega, by omega⟩) hp).trans (ih (by omega) h)

theorem buddyAllocOrderLocked_thins (ht : t ∈ orders) (h0 : ∀ j, 0 ∉ K j) (hb : ∀ j, b ∉ K j)
    (hf : buddyAllocOrderLocked md z t = some (md', z', b)) (hzero : ∀ j ∈ orders, 0 ∉ z.blocks j) :
    ZoneThins K md z md' z' := by
  rw [mem_orders] at ht
  obtain ⟨-, -, -, hne⟩ := allocSearch_spec (maxOrder - t) md z t ht.1
    (by simp only [maxOrder]; omega) hzero
  have hsearch := allocSearch_thins (K := K) (maxOrder - t) md z ht.1 (by simp only [maxOrder]; omega) h0
  rw [buddyAllocOrderLocked] at hf
  dsimp only at hf
  split_ifs at hf with hz
  · cases hf
    exact hsearch fun j => by rw [hz]; exact h0 j
  · obtain ⟨⟨md1, z1⟩, hp, hf⟩ := Option.bind_eq_some_iff.mp hf
    cases hf
    obtain ⟨hk1, hk2, -⟩ := hne hz
    exact (hsearch hb).trans (allocSplit_thins ht.1 (by omega) hp)

theorem buddyAllocZone_thins (h0 : ∀ j, 0 ∉ K j) (hb : ∀ j, b ∉ K j) (hzero : ∀ j ∈ orders, 0 ∉ z.blocks j)
    (hf : buddyAllocZone md z count = some (md', z', b)) : ZoneThins K md z md' z' := by
  rw [buddyAllocZone] at hf
  rcases hc : countToOrder count with - | ⟨t, n⟩
  · rw [hc] at hf
    cases hf
    exact ZoneThins.refl K md z
  rw [hc] at hf
  dsimp only at hf
  split_ifs at hf with hlt
  · cases hf
    exact ZoneThins.refl K md z
  obtain ⟨⟨md1, z1, b1⟩, hp, hf⟩ := Option.bind_eq_some_iff.mp hf
  obtain ⟨hto, -, -⟩ := countToOrder_eq_some hc
  dsimp only at hf
  split_ifs at hf with hb1
  · cases hf
    exact (buddyAllocOrderLocked_thins hto h0 hb hp hzero).trans (.of_area rfl rfl rfl)
  · cases hf
    exact buddyAllocOrderLocked_thins hto h0 hb hp hzero

/-- A merging loop that finds no buddy at once. -/
theorem freeMerge_stops (fuel : ℕ) (md : Metadata) (hk : k ∈ orders)
    (hstop : zoneBlockValid z (a ^^^ 2 ^ k) k = true → a ^^^ 2 ^ k ∉ z.blocks k ∧ a ^^^ 2 ^ k ∉ K k) :
    (freeMerge fuel md z a k).2.2 = (a, k) ∧ SameBlocks z (freeMerge fuel md z a k).2.1 ∧
      ZoneThins K md z (freeMerge fuel md z a k).1 (freeMerge fuel md z a k).2.1 := by
  cases fuel with
  | zero => exact ⟨rfl, fun _ _ => rfl, ZoneThins.refl K md z⟩
  | succ fuel =>
    unfold freeMerge
    dsimp only [orderToBytes]
    by_cases hv : zoneBlockValid z (a ^^^ 2 ^ k) k = true
    · obtain ⟨hmem, hK⟩ := hstop hv
      have ht : (zoneTake md z k (a ^^^ 2 ^ k)).2.2 = false := by
        rw [← Bool.not_eq_true]
        intro ht
        rw [(zoneTake_eq_true hk ht).self] at hmem
        exact hmem (Multiset.mem_cons_self _ _)
      obtain ⟨-, hsame⟩ := zoneTake_eq_false hk ht
      simp only [hv, ht, Bool.not_true, Bool.not_false, Bool.false_eq_true, if_false, if_true]
      exact ⟨trivial, hsame, zoneTake_thins hk hK⟩
    · rw [Bool.not_eq_true] at hv
      simp only [hv, Bool.not_false, if_true]
      exact ⟨trivial, fun _ _ => rfl, ZoneThins.refl K md z⟩

theorem buddyFreeZoneLocked_alone (hk : k ∈ orders)
    (hstop : zoneBlockValid z (a ^^^ 2 ^ k) k = true → a ^^^ 2 ^ k ∉ z.blocks k ∧ a ^^^ 2 ^ k ∉ K k)
    (hf : buddyFreeZoneLocked md z a k = some (md', z')) :
    Adds z z' k a ∧ ZoneThins K md z md' z' := by
  obtain ⟨hr, hsame, hthin⟩ := freeMerge_stops (maxOrder - 1 - k) md hk hstop
  obtain ⟨⟨md1, z1⟩, hp, hf⟩ := Option.bind_eq_some_iff.mp hf
  cases hf
  rw [hr] at hp
  obtain ⟨hs, ha, -⟩ := zonePush_eq_some hk hp
  refine ⟨⟨ha.self.trans (by rw [hsame k hk]), fun j hj hjk => (ha.other j hj hjk).trans (hsame j hj)⟩, ?_⟩
  exact (hthin.trans (zonePush_thins hk hp)).trans (.of_area rfl rfl rfl)

/-- The upper half of a block is freed while the lower half is on its list and no block of the next
order is. -/
theorem buddyFreeZoneLocked_joins (hk : k ∈ orders) (hk' : k + 1 ∈ orders) (hal : 2 ^ (k + 1) ∣ a)
    (hv : zoneBlockValid z a k = true) (hmem : a ∈ z.blocks k) (ha : a ∉ K k)
    (hnext : z.blocks (k + 1) = 0) (hKnext : K (k + 1) = ∅)
    (hf : buddyFreeZoneLocked md z (a + 2 ^ k) k = some (md', z')) :
    z.blocks k = a ::ₘ z'.blocks k ∧ z'.blocks (k + 1) = {a} ∧
      (∀ j ∈ orders, j ≠ k → j ≠ k + 1 → z'.blocks j = z.blocks j) ∧ ZoneThins K md z md' z' := by
  have hxor : (a + 2 ^ k) ^^^ 2 ^ k = a := xor_pow_add_of_dvd hal
  have htake : (zoneTake md z k a).2.2 = true := by
    rw [← Bool.not_eq_false]
    exact fun h => (zoneTake_eq_false hk h).1 hmem
  have hadd := zoneTake_eq_true hk htake
  have hthin : ZoneThins K md z (zoneTake md z k a).1 (zoneTake md z k a).2.1 := zoneTake_thins hk ha
  obtain ⟨fuel, hfuel⟩ : ∃ fuel, maxOrder - 1 - k = fuel + 1 := by
    have := mem_orders.mp hk'
    exact ⟨29 - k, by simp only [maxOrder]; omega⟩
  have hlt : a < a + 2 ^ k := Nat.lt_add_of_pos_right (by positivity)
  have hnone : (zoneTake md z k a).2.1.blocks (k + 1) = 0 := by
    rw [← hadd.other (k + 1) hk' (Nat.succ_ne_self k), hnext]
  obtain ⟨hr, hsame, hthin'⟩ := freeMerge_stops (z := (zoneTake md z k a).2.1) (K := K) (a := a)
    fuel (zoneTake md z k a).1 hk' fun _ => by simp [hnone, hKnext]
  rw [buddyFreeZoneLocked, hfuel, freeMerge] at hf
  simp only [orderToBytes, hxor, hv, htake, if_pos hlt, Bool.not_true, Bool.false_eq_true, if_false] at hf
  obtain ⟨⟨md1, z1⟩, hp, hf⟩ := Option.bind_eq_some_iff.mp hf
  cases hf
  rw [hr] at hp
  obtain ⟨hs, hadd', -⟩ := zonePush_eq_some hk' hp
  refine ⟨?_, ?_, fun j hj hjk hjk' => ?_, ?_⟩
  · rw [hadd.self]
    congr 1
    exact ((hadd'.other k hk (Nat.succ_ne_self k).symm).trans (hsame k hk)).symm
  · exact hadd'.self.trans (by rw [hsame _ hk', hnone]; rfl)
  · exact ((hadd'.other j hj hjk').trans (hsame j hj)).trans (hadd.other j hj hjk).symm
  · exact ((hthin.trans hthin').trans (zonePush_thins hk' hp)).trans (.of_area rfl rfl rfl)

theorem freeMerge_thins (hK : ∀ j, K j = ∅) (fuel : ℕ) (md : Metadata) (z : Zone) (a : ℕ) (hk : 12 ≤ k)
    (hfuel : k + fuel = 30) : (freeMerge fuel md z a k).2.2.2 ∈ orders ∧
      ZoneThins K md z (freeMerge fuel md z a k).1 (freeMerge fuel md z a k).2.1 := by
  have hko : k ∈ orders := mem_orders.mpr ⟨hk, by omega⟩
  induction fuel generalizing md z a k with
  | zero => exact ⟨hko, ZoneThins.refl K md z⟩
  | succ fuel ih =>
    have htake : ZoneThins K md z (zoneTake md z k (a ^^^ orderToBytes k)).1
        (zoneTake md z k (a ^^^ orderToBytes k)).2.1 := by
      apply zoneTake_thins hko
      rw [hK]
      exact Finset.notMem_empty _
    obtain ⟨horder, hthin⟩ := ih (zoneTake md z k (a ^^^ orderToBytes k)).1
      (zoneTake md z k (a ^^^ orderToBytes k)).2.1
      (if a ^^^ orderToBytes k < a then a ^^^ orderToBytes k else a) (by omega : 12 ≤ k + 1) (by omega)
      (mem_orders.mpr ⟨by omega, by omega⟩)
    unfold freeMerge
    dsimp only
    by_cases hv : (!zoneBlockValid z (a ^^^ orderToBytes k) k) = true
    · rw [if_pos hv]
      exact ⟨hko, ZoneThins.refl K md z⟩
    rw [if_neg hv]
    by_cases ht : (!(zoneTake md z k (a ^^^ orderToBytes k)).2.2) = true
    · rw [if_pos ht]
      exact ⟨hko, htake⟩
    · rw [if_neg ht]
      exact ⟨horder, htake.trans hthin⟩

theorem addPieces_thins (hK : ∀ j, K j = ∅) {fuel stop current : ℕ} (hc : pageSize ∣ current)
    (hs : pageSize ∣ stop) (h : addPieces stop fuel md z current = some (md', z')) :
    ZoneThins K md z md' z' := by
  induction fuel generalizing md z current with
  | zero =>
    cases h
    exact ZoneThins.refl K _ _
  | succ fuel ih =>
    rw [addPieces] at h
    split_ifs at h with hlt
    · obtain ⟨hko, -⟩ := pieceOrder_spec hc hs hlt
      obtain ⟨⟨md1, z1⟩, hf, h⟩ := Option.bind_eq_some_iff.mp h
      obtain ⟨⟨md2, z2⟩, hp, hf⟩ := Option.bind_eq_some_iff.mp hf
      cases hf
      have hko' := mem_orders.mp hko
      obtain ⟨horder, hthin⟩ := freeMerge_thins hK (maxOrder - 1 - pieceOrder current stop) md z current
        hko'.1 (by simp only [maxOrder]; omega)
      have hpush := zonePush_thins (K := K) horder hp
      have hrest := ih (Nat.dvd_add hc (pageSize_dvd_pow hko'.1)) h
      refine (hthin.trans hpush).trans (ZoneThins.trans ?_ hrest)
      exact .of_area rfl rfl rfl
    · cases h
      exact ZoneThins.refl K _ _

end Zone

/-- Each block of `K` is on its list, and for each order there are as many pages with blocks of `K` as
such blocks. -/
structure HeldApart (K : ℕ → Finset ℕ) (md : Metadata) (zone : Zone) : Prop where
  kept : ∀ k ∈ orders, ∀ b ∈ K k, b ∈ zone.blocks k
  pages : ∀ k ∈ orders, (K k).card ≤ pagesWith (K k) (zone.area k)
  capped : ∀ k ∈ orders, Capped (zone.area k)
  used : md.poolUsed ≤ md.poolPages
  pool : md.poolPages = 2130
  out : zone.chainPages ≤ pagesOut md
  start : zone.zoneStartPfn = 4096
  stop : zone.zoneEndPfn = 2 ^ 20

theorem HeldApart.step {K : ℕ → Finset ℕ} {md md' : Metadata} {z z' : Zone} (h : HeldApart K md z)
    (hs : ZoneThins K md z md' z') (hkept : ∀ k ∈ orders, ∀ b ∈ K k, b ∈ z'.blocks k) : HeldApart K md' z' := by
  refine ⟨hkept, fun k hk => (h.pages k hk).trans (hs.pages k hk), hs.capped h.capped, hs.used h.used,
    hs.step.poolPages.trans h.pool, ?_, hs.step.bounds.start.trans h.start, hs.step.bounds.stop.trans h.stop⟩
  have := h.out
  have := hs.step.out
  linarith

/-- Four gigabytes, all usable. -/
def dryBoot : Boot where
  memorySize := 2 ^ 32
  poolPhys := 2 ^ 20
  bitmapBuffer _ := 0
  usableRegions := { buffer := fun _ => 0xff#8, length := 2 ^ 20 }
  memorySize_lt := by norm_num

def dryPages : Set ℕ := {p | 4096 ≤ p ∧ p < 2 ^ 20}

/-- A state that no run gets out of, with the pages `U` handed out once each. -/
structure Working (K : ℕ → Finset ℕ) (U : Set ℕ) (s : Buddy) (z : Zone) : Prop where
  runs : ∀ ops, ∃ s', runOps ops s = some s'
  sound : Sound dryPages s
  out : handedOut s = U
  refs : ∀ p ∈ U, s.refcount p = 1
  zone : s.zones .dma32 = some z
  normal : s.zones .normal = none
  memory : s.memorySize = 2 ^ 32
  usable : s.usableRegions = dryBoot.usableRegions
  held : HeldApart K s.metadata z

section Run

variable {K : ℕ → Finset ℕ} {U : Set ℕ} {s : Buddy} {z : Zone} {a k n t : ℕ}

theorem runOps_step (h : ∀ ops, ∃ s', runOps ops s = some s') (op : FrameOp) :
    ∃ s', op.run s = some s' ∧ ∀ ops, ∃ s'', runOps ops s' = some s'' := by
  obtain ⟨s'', hs⟩ := h [op]
  obtain ⟨s', hrun, -⟩ := Option.bind_eq_some_iff.mp hs
  refine ⟨s', hrun, fun ops => ?_⟩
  obtain ⟨s'', hs⟩ := h (op :: ops)
  rw [runOps, hrun] at hs
  exact ⟨s'', hs⟩

theorem bitmapGet_dryBoot {p : ℕ} (hp : p < 2 ^ 20) : bitmapGet dryBoot.usableRegions p = true := by
  have hlen : ¬ p / 8 > dryBoot.usableRegions.length := by
    show ¬ p / 8 > 2 ^ 20
    omega
  have hbit : ∀ i < 8, (0xff#8).getLsbD i = true := by decide
  rw [bitmapGet, if_neg hlen]
  exact hbit _ (Nat.mod_lt p (by norm_num))

theorem Working.sub (h : Working K U s z) {p : ℕ} (hp : p ∈ U) : 4096 ≤ p ∧ p < 2 ^ 20 :=
  h.sound.at_.used (h.out ▸ hp)

theorem Working.free (h : Working K U s z) (hc : countToOrder n = some (k, n)) (hpage : pageSize ∣ a)
    (hcell : cellPages k a ⊆ U) : ∃ s' md' z', buddyFreeZoneLocked s.metadata z a k = some (md', z') ∧
      ∀ K', HeldApart K' md' z' → Working K' (U \ cellPages k a) s' z' := by
  obtain ⟨hko, hn, -⟩ := countToOrder_eq_some hc
  have hmem : ∀ p, p ∈ cellPages k a ↔ a / pageSize ≤ p ∧ p < a / pageSize + n := fun p => by
    rw [hn]
    exact mem_cellPages hko hpage
  have hpos : 0 < n := by rw [hn, orderToPages]; positivity
  have hfirst := h.sub (hcell ((hmem (a / pageSize)).mpr ⟨le_rfl, by omega⟩))
  have hlast := h.sub (hcell ((hmem (a / pageSize + (n - 1))).mpr ⟨by omega, by omega⟩))
  have haddr : a = a / pageSize * pageSize := (Nat.div_mul_cancel hpage).symm
  have hsize : n * pageSize = 2 ^ k := by rw [hn]; exact orderToPages_mul hko
  have hdvd : 2 ^ 32 / pageSize = 2 ^ 20 := by norm_num [pageSize]
  have htype : physToZoneType a = .dma32 := by
    rw [physToZoneType, zoneDmaEnd, zoneDma32End, if_neg, if_pos]
    · simp only [pageSize] at haddr hfirst
      omega
    · simp only [pageSize] at haddr hfirst
      omega
  have hz : s.zones (physToZoneType a) = some z := by rw [htype, h.zone]
  have hin : BlockIn z k a := by
    refine ⟨hpage, ?_, ?_⟩
    · rw [zonePhysStart, h.held.start]
      simp only [pageSize] at haddr hfirst ⊢
      omega
    · rw [zonePhysEnd, h.held.stop, ← hsize]
      simp only [pageSize] at haddr hlast ⊢
      omega
  have hout : ∀ p ∈ U, bitmapGet s.usingRegions p = true := fun p hp => by
    rw [← h.out] at hp
    exact hp.2
  have hlen := h.sound.at_.length
  rw [h.memory, hdvd] at hlen
  have hlen' : s.usableRegions.length = 2 ^ 20 := by rw [h.usable]; rfl
  obtain ⟨r, hrel, hfree⟩ := freeFrames_eq_releaseFrames h.sound.at_ (by
      simp only [pageSize] at haddr hfirst
      omega) hc hz hin (by omega) (by omega)
    (fun p hp hp' => by
      have hpU := hcell ((hmem p).mpr ⟨hp, hp'⟩)
      rw [h.usable]
      exact ⟨hout p hpU, bitmapGet_dryBoot (h.sub hpU).2⟩)
    fun p hp hp' => h.refs p (hcell ((hmem p).mpr ⟨hp, hp'⟩))
  obtain ⟨s', hrun, hruns⟩ := runOps_step h.runs (.freeFrames a n)
  obtain hrun : releaseFrames s (physToZoneType a) z r a k n = some s' := hfree.symm.trans hrun
  obtain ⟨hs', hm', hu', hr', -, hout', -⟩ := releaseFrames_sound h.sound hrel hrun
  obtain ⟨⟨md', z'⟩, hf, he⟩ := Option.bind_eq_some_iff.mp hrun
  refine ⟨s', md', z', hf, fun K' hK' => ⟨hruns, hs', by rw [hout', h.out], fun p hp => ?_, ?_, ?_,
    hm'.trans h.memory, hu'.trans h.usable, ?_⟩⟩
  · rw [hr', hrel.refs, if_neg fun hc => hp.2 ((hmem p).mpr hc)]
    exact h.refs p hp.1
  · cases he
    simp [Buddy.setZone, htype]
  · cases he
    simpa [Buddy.setZone, htype] using h.normal
  · cases he
    exact hK'

theorem Working.alloc (h : Working K U s z) (hc : countToOrder n = some (t, n)) {j : ℕ} (hj : j ∈ orders)
    (htj : t ≤ j) (hne : z.blocks j ≠ 0) : ∃ s' md' z' addr, addr ≠ 0 ∧
      buddyAllocZone s.metadata z n = some (md', z', addr) ∧ cellPages t addr ⊆ dryPages \ U ∧
      ∀ K', HeldApart K' md' z' → Working K' (U ∪ cellPages t addr) s' z' := by
  obtain ⟨s', hrun, hruns⟩ := runOps_step h.runs (.allocFrames n)
  obtain ⟨⟨s1, addr⟩, ha, he⟩ := Option.map_eq_some_iff.mp hrun
  obtain rfl : s1 = s' := he
  have hzs := h.sound.at_.zone _ z h.zone
  have hmem : zoneHasMemory z = true := by
    rw [zoneHasMemory, decide_eq_true_eq, gt_iff_lt, Nat.pos_iff_ne_zero]
    intro h0
    refine hne (hzs.empty_of_lt hj ?_)
    rw [h0, orderToPages]
    positivity
  obtain ⟨hs', hm', hu', -, -, hnz⟩ := allocFramesFrom_sound h.sound ha
  rw [allocFrames, allocFramesFrom, countToPages, hc] at ha
  obtain ⟨⟨s2, a⟩, hz, ha⟩ := Option.bind_eq_some_iff.mp ha
  rw [allocFromZones, h.normal] at hz
  dsimp only at hz
  rw [allocFromZones, h.zone] at hz
  dsimp only at hz
  rw [if_pos hmem] at hz
  obtain ⟨⟨md', z', b⟩, hb, hz⟩ := Option.bind_eq_some_iff.mp hz
  have hb0 : b ≠ 0 := by
    rintro rfl
    exact hne ((hzs.alloc_none (h.sound.at_.zero_notMem z) hc hb).2 j hj htj)
  dsimp only at hz
  rw [if_pos hb0] at hz
  cases hz
  dsimp only at ha
  rw [if_neg hb0] at ha
  cases ha
  obtain ⟨t', n', hout⟩ := hnz hb0
  obtain ⟨rfl, rfl⟩ : t = t' ∧ n = n' := by simpa using hc.symm.trans hout.order
  refine ⟨_, md', z', addr, hb0, hb, ?_, fun K' hK' => ⟨hruns, hs', ?_, fun p hp => ?_, ?_, ?_,
    hm'.trans h.memory, hu'.trans h.usable, hK'⟩⟩
  · rw [← h.out]
    exact hout.fresh.sub
  · rw [hout.out, h.out]
  · by_cases hcell : p ∈ cellPages t addr
    · exact hout.refs p hcell
    · rw [hout.frame p hcell]
      exact h.refs p (hp.resolve_right hcell)
  · simp [Buddy.setZone]
  · simpa [Buddy.setZone] using h.normal

theorem buddyAllocZone_only {md md' : Metadata} {z' : Zone} (hzero : ∀ j ∈ orders, 0 ∉ z.blocks j)
    (hc : countToOrder n = some (t, n)) (hone : z.blocks t = {a}) {b : ℕ} (hb : b ≠ 0)
    (hf : buddyAllocZone md z n = some (md', z', b)) :
    b = a ∧ z'.blocks t = 0 ∧ ∀ j ∈ orders, j ≠ t → z'.blocks j = z.blocks j := by
  obtain ⟨hto, -, -⟩ := countToOrder_eq_some hc
  rw [buddyAllocZone, hc] at hf
  dsimp only at hf
  split_ifs at hf with hlt
  · cases hf
    exact absurd rfl hb
  obtain ⟨⟨md1, z1, b1⟩, hp, hf⟩ := Option.bind_eq_some_iff.mp hf
  obtain ⟨-, -, hne⟩ := buddyAllocOrderLocked_spec hto hzero hp
  dsimp only at hf
  split_ifs at hf with hb1
  swap
  · cases hf
    exact absurd hb hb1
  cases hf
  obtain ⟨k, hk, htk, hmem, hlow, hspl⟩ := (hne hb1).split
  obtain rfl : t = k := by
    refine htk.eq_of_not_lt fun hlt => ?_
    rw [hlow t le_rfl hlt] at hone
    exact Multiset.singleton_ne_zero a hone.symm
  rw [hone, Multiset.mem_singleton] at hmem
  refine ⟨hmem, ?_, fun j hj hjt => ?_⟩
  · refine (hspl t hk).trans ?_
    rw [if_neg (by omega), if_pos rfl, hone, hmem]
    exact Multiset.erase_cons_head a 0
  · refine (hspl j hj).trans ?_
    rw [if_neg (by omega), if_neg hjt]

theorem mem_cellPages_succ {p : ℕ} :
    p ∈ cellPages (k + 1) a ↔ p ∈ cellPages k a ∨ p ∈ cellPages k (a + 2 ^ k) := by
  have hp : 2 ^ (k + 1) = 2 ^ k + 2 ^ k := by rw [pow_succ]; ring
  have hpos : 0 < 2 ^ k := by positivity
  simp only [cellPages, Set.mem_ofPred_eq, InCell, hp]
  omega

theorem Working.zero_notMem (h : Working K U s z) : ∀ j ∈ orders, 0 ∉ z.blocks j :=
  (h.sound.at_.zone _ z h.zone).zero_notMem (h.sound.at_.zero_notMem z)

theorem Working.exhaust (h : Working (fun _ => ∅) U s z) :
    ∃ s' z', Working (fun _ => ∅) dryPages s' z' := by
  have hfin : dryPages.Finite := Set.finite_Ico 4096 (2 ^ 20)
  induction hn : (dryPages \ U).ncard using Nat.strong_induction_on generalizing U s z with
  | _ n ih =>
    by_cases hU : dryPages ⊆ U
    · obtain rfl : U = dryPages := Set.Subset.antisymm (fun p hp => h.sub hp) hU
      exact ⟨s, z, h⟩
    obtain ⟨p, hp, hpU⟩ := Set.not_subset.mp hU
    have hfree : p ∈ freePagesOf dryPages (handedOut s) z := by
      refine ⟨hp, by rwa [h.out], ?_, ?_⟩
      · rw [h.held.start]
        exact hp.1
      · rw [h.held.stop]
        exact hp.2
    have hcover := (h.sound.at_.zone _ z h.zone).cover (p * pageSize)
    rw [Nat.mul_div_cancel _ (by norm_num [pageSize]), ind_of_mem hfree] at hcover
    obtain ⟨j, hj, b, hb, -⟩ := cover_pos_iff.mp (hcover ▸ one_pos)
    obtain ⟨s', md', z', addr, -, halloc, hsub, hW⟩ := h.alloc (by decide : countToOrder 1 = some (12, 1)) hj
      (mem_orders.mp hj).1 (fun h0 => Multiset.notMem_zero b (h0 ▸ hb))
    have hthin := buddyAllocZone_thins (K := fun _ => ∅) (fun _ => Finset.notMem_empty 0)
      (fun _ => Finset.notMem_empty addr) h.zero_notMem halloc
    have hnext := hW _ (h.held.step hthin fun _ _ b hb => absurd hb (Finset.notMem_empty b))
    refine ih _ ?_ hnext rfl
    rw [← hn]
    refine Set.ncard_lt_ncard ⟨fun q hq => ⟨hq.1, fun hqU => hq.2 (.inl hqU)⟩, fun hall => ?_⟩
      (hfin.subset Set.sdiff_subset)
    -- the page that the call hands out
    have hcell : (addr + 4095) / 4096 ∈ cellPages 12 addr := by
      simp only [cellPages, Set.mem_ofPred_eq, InCell, pageSize]
      omega
    exact (hall (hsub hcell)).2 (.inr hcell)

theorem Working.fill (hc : countToOrder n = some (k, n)) (l : List ℕ) (h : Working K U s z)
    (hpage : ∀ a ∈ l, pageSize ∣ a)
    (hdis : l.Pairwise fun a b => Disjoint (cellPages k a) (cellPages k b))
    (hsub : ∀ a ∈ l, cellPages k a ⊆ U)
    (hstop : ∀ a ∈ l, 2 ^ k ∣ a → ∃ p ∈ U, p ∈ cellPages k (a ^^^ 2 ^ k) ∧ ∀ b ∈ l, p ∉ cellPages k b) :
    ∃ s' z', Working K {p | p ∈ U ∧ ∀ a ∈ l, p ∉ cellPages k a} s' z' ∧
      z'.blocks k = ↑l + z.blocks k ∧ ∀ j ∈ orders, j ≠ k → z'.blocks j = z.blocks j := by
  obtain ⟨hko, -, -⟩ := countToOrder_eq_some hc
  induction l generalizing U s z with
  | nil => exact ⟨s, z, by simpa using h, by simp, fun _ _ _ => rfl⟩
  | cons a l ih =>
    rw [pairwise_cons] at hdis
    obtain ⟨s1, md1, z1, hf, hW⟩ := h.free hc (hpage a mem_cons_self) (hsub a mem_cons_self)
    have hnot : zoneBlockValid z (a ^^^ 2 ^ k) k = true → a ^^^ 2 ^ k ∉ z.blocks k := by
      intro hv hmem
      have hdvd : 2 ^ k ∣ a ^^^ 2 ^ k := by
        simp only [zoneBlockValid, Bool.and_eq_true, decide_eq_true_eq, orderToBytes,
          Nat.and_two_pow_sub_one_eq_mod] at hv
        exact Nat.dvd_of_mod_eq_zero hv.1.2
      obtain ⟨p, hpU, hpc, -⟩ := hstop a mem_cons_self (dvd_xor_pow.mp hdvd)
      have hfree := (h.sound.at_.zone _ z h.zone).mem_of_inCell hko hmem hpc
      rw [Nat.mul_div_cancel _ (by norm_num [pageSize])] at hfree
      exact hfree.2.1 (h.out ▸ hpU)
    obtain ⟨hadds, hthin⟩ := buddyFreeZoneLocked_alone (K := K) hko
      (fun hv => ⟨hnot hv, fun hK => hnot hv (h.held.kept k hko _ hK)⟩) hf
    have h1 := hW K (h.held.step hthin fun j hj b hb => by
      by_cases hjk : j = k
      · subst hjk
        rw [hadds.self]
        exact Multiset.mem_cons_of_mem (h.held.kept j hj b hb)
      · rw [hadds.other j hj hjk]
        exact h.held.kept j hj b hb)
    obtain ⟨s', z', hW', hblocks, hother⟩ := ih h1 (fun b hb => hpage b (mem_cons_of_mem a hb)) hdis.2
      (fun b hb p hp => ⟨hsub b (mem_cons_of_mem a hb) hp,
        fun hpa => Set.disjoint_left.mp (hdis.1 b hb) hpa hp⟩)
      (fun b hb hd => by
        obtain ⟨p, hpU, hpc, hno⟩ := hstop b (mem_cons_of_mem a hb) hd
        exact ⟨p, ⟨hpU, hno a mem_cons_self⟩, hpc, fun c hc => hno c (mem_cons_of_mem a hc)⟩)
    refine ⟨s', z', ?_, ?_, fun j hj hjk => (hother j hj hjk).trans (hadds.other j hj hjk)⟩
    · convert hW' using 1
      ext p
      simp only [Set.mem_ofPred_eq, Set.mem_sdiff, forall_mem_cons, and_assoc]
    · rw [hblocks, hadds.self, Multiset.add_cons, ← Multiset.cons_coe, Multiset.cons_add]

/-- The upper halves of the blocks `l` are freed, and each of the joined blocks is handed out. -/
theorem Working.thin {m : ℕ} (hc : countToOrder n = some (k, n)) (hc' : countToOrder m = some (k + 1, m))
    (l : List ℕ) (h : Working K U s z) (hnd : l.Nodup) (hal : ∀ a ∈ l, 2 ^ (k + 1) ∣ a)
    (hmem : ∀ a ∈ l, a ∈ z.blocks k) (hhalf : ∀ a ∈ l, cellPages k (a + 2 ^ k) ⊆ U)
    (hK : ∀ a ∈ l, ∀ j, a ∉ K j) (h0 : ∀ j, 0 ∉ K j) (hnext : z.blocks (k + 1) = 0)
    (hKnext : K (k + 1) = ∅) : ∃ s' z', Working K (U ∪ {p | ∃ a ∈ l, p ∈ cellPages k a}) s' z' ∧
      z'.blocks (k + 1) = 0 ∧ ∀ j ∈ orders, j ≠ k → j ≠ k + 1 → z'.blocks j = z.blocks j := by
  obtain ⟨hko, -, -⟩ := countToOrder_eq_some hc
  obtain ⟨hko', -, -⟩ := countToOrder_eq_some hc'
  induction l generalizing U s z with
  | nil => exact ⟨s, z, by simpa using h, hnext, fun _ _ _ _ => rfl⟩
  | cons a l ih =>
    obtain ⟨hal', hl⟩ := nodup_cons.mp hnd
    have hda := hal a mem_cons_self
    have hin := (h.sound.at_.zone _ z h.zone).inside k hko a (hmem a mem_cons_self)
    have hend := h.sound.at_.physEnd_lt h.zone
    have hpow : pageSize ∣ 2 ^ k := pageSize_dvd_pow (mem_orders.mp hko).1
    have hpos : 0 < 2 ^ k := by positivity
    have hle := hin.le
    obtain ⟨s1, md1, z1, hf, hW⟩ := h.free hc (Nat.dvd_add hin.page hpow) (hhalf a mem_cons_self)
    have hv : zoneBlockValid z a k = true := (zoneBlockValid_iff (by omega) (by omega) hend).mpr
      ⟨hko, (pow_dvd_pow 2 (Nat.le_succ k)).trans hda, hin.ge, hin.le⟩
    obtain ⟨hself, hone, hother, hthin⟩ := buddyFreeZoneLocked_joins (K := K) hko hko' hda hv
      (hmem a mem_cons_self) (hK a mem_cons_self k) hnext hKnext hf
    have hkept : ∀ j ∈ orders, ∀ b ∈ K j, b ∈ z1.blocks j := by
      intro j hj b hb
      have hbz := h.held.kept j hj b hb
      by_cases hjk : j = k
      · subst hjk
        rw [hself] at hbz
        exact (Multiset.mem_cons.mp hbz).resolve_left fun he => hK a mem_cons_self j (he ▸ hb)
      by_cases hjk' : j = k + 1
      · subst hjk'
        rw [hKnext] at hb
        exact absurd hb (Finset.notMem_empty b)
      · rwa [hother j hj hjk hjk']
    have h1 := hW K (h.held.step hthin hkept)
    obtain ⟨s2, md2, z2, addr, haddr, halloc, -, hW2⟩ := h1.alloc hc' hko' le_rfl
      (by rw [hone]; exact Multiset.singleton_ne_zero a)
    obtain ⟨rfl, hnone, hsame⟩ := buddyAllocZone_only h1.zero_notMem hc' hone haddr halloc
    have hthin2 := buddyAllocZone_thins h0 (hK addr mem_cons_self) h1.zero_notMem halloc
    have h2 := hW2 K (h1.held.step hthin2 fun j hj b hb => by
      by_cases hjk : j = k + 1
      · subst hjk
        rw [hKnext] at hb
        exact absurd hb (Finset.notMem_empty b)
      · rw [hsame j hj hjk]
        exact hkept j hj b hb)
    obtain ⟨s', z', hW', hnext', hother'⟩ := ih h2 hl (fun b hb => hal b (mem_cons_of_mem addr hb))
      (fun b hb => by
        have hbz := hmem b (mem_cons_of_mem addr hb)
        rw [hself] at hbz
        rw [hsame k hko (Nat.succ_ne_self k).symm]
        exact (Multiset.mem_cons.mp hbz).resolve_left fun he => hal' (he ▸ hb))
      (fun b hb p hp => by
        by_cases hpa : p ∈ cellPages (k + 1) addr
        · exact .inr hpa
        · exact .inl ⟨hhalf b (mem_cons_of_mem addr hb) hp, fun hpc => hpa (mem_cellPages_succ.mpr (.inr hpc))⟩)
      (fun b hb => hK b (mem_cons_of_mem addr hb)) hnone
    refine ⟨s', z', ?_, hnext', fun j hj hjk hjk' => ?_⟩
    · convert hW' using 1
      ext p
      have hhalf' := @hhalf addr mem_cons_self p
      simp only [Set.mem_union, Set.mem_sdiff, Set.mem_ofPred_eq, mem_cellPages_succ, exists_mem_cons_iff]
      tauto
    · rw [hother' j hj hjk hjk', hsame j hj hjk', hother j hj hjk hjk']

/-- Blocks that are freed with their upper halves in use fill a chain; it keeps its pages when all of
them but one of each page are joined with their upper halves. -/
theorem Working.spread {m : ℕ} (hc : countToOrder n = some (k, n)) (hc' : countToOrder m = some (k + 1, m))
    (l : List ℕ) (h : Working K U s z) (hnd : l.Nodup) (hal : ∀ a ∈ l, 2 ^ (k + 1) ∣ a)
    (hsub : ∀ a ∈ l, cellPages (k + 1) a ⊆ U) (hK : ∀ a ∈ l, ∀ j, a ∉ K j) (h0 : ∀ j, 0 ∉ K j)
    (hempty : z.blocks k = 0) (hnext : z.blocks (k + 1) = 0) (hKnext : K (k + 1) = ∅) :
    ∃ B s' z', (∀ b ∈ B, b ∈ l) ∧ l.length ≤ pageListEntryCapacity * B.card ∧
      Working (Function.update K k B) {p | p ∈ U ∧ ∀ b ∈ B, p ∉ cellPages k b} s' z' ∧
      z'.blocks (k + 1) = 0 ∧ ∀ j ∈ orders, j ≠ k → j ≠ k + 1 → z'.blocks j = z.blocks j := by
  obtain ⟨hko, -, -⟩ := countToOrder_eq_some hc
  obtain ⟨hko', -, -⟩ := countToOrder_eq_some hc'
  have hkk : k + 1 ≠ k := Nat.succ_ne_self k
  have hpow : ∀ j, 12 ≤ j → pageSize ∣ 2 ^ j := fun j hj => pageSize_dvd_pow hj
  have h12 := (mem_orders.mp hko).1
  have hcells : ∀ a ∈ l, ∀ b ∈ l, ∀ p, p ∈ cellPages (k + 1) a → p ∈ cellPages (k + 1) b → a = b := by
    intro a ha b hb p hpa hpb
    exact Nat.le_antisymm (nested le_rfl (hal b hb) (hal a ha) hpb hpa).1
      (nested le_rfl (hal a ha) (hal b hb) hpa hpb).1
  have hupper : ∀ a ∈ l, ∀ p ∈ cellPages k (a + 2 ^ k), p ∈ U ∧ ∀ b ∈ l, p ∉ cellPages k b := by
    intro a ha p hp
    refine ⟨hsub a ha (mem_cellPages_succ.mpr (.inr hp)), fun b hb hpb => ?_⟩
    obtain rfl := hcells a ha b hb p (mem_cellPages_succ.mpr (.inr hp)) (mem_cellPages_succ.mpr (.inl hpb))
    have h1 := hp.1
    have h2 := hpb.2
    omega
  obtain ⟨s1, z1, h1, hblocks, hother⟩ := h.fill hc l (fun a ha => (hpow (k + 1) (by omega)).trans (hal a ha))
    (hnd.pairwise_of_forall_ne fun a ha b hb hab => Set.disjoint_left.mpr fun p hpa hpb =>
      hab (hcells a ha b hb p (mem_cellPages_succ.mpr (.inl hpa)) (mem_cellPages_succ.mpr (.inl hpb))))
    (fun a ha p hp => hsub a ha (mem_cellPages_succ.mpr (.inl hp)))
    (fun a ha _ => by
      have hpage : pageSize ∣ a + 2 ^ k :=
        Nat.dvd_add ((hpow (k + 1) (by omega)).trans (hal a ha)) (hpow k h12)
      have hmem : (a + 2 ^ k) / pageSize ∈ cellPages k (a + 2 ^ k) := by
        rw [mem_cellPages_div h12 hpage]
        exact inCell_self k _
      obtain ⟨hU, hno⟩ := hupper a ha _ hmem
      exact ⟨_, hU, by rwa [xor_pow_of_dvd (hal a ha)], hno⟩)
  rw [hempty, add_zero] at hblocks
  obtain ⟨B, hB, hcard, hpages⟩ := exists_pagesWith (h1.held.capped k hko) (by
    rw [show blocksOf (z1.area k) = ↑l from hblocks]
    exact Multiset.coe_nodup.mpr hnd)
  have hBl : ∀ b ∈ B, b ∈ l := fun b hb => by
    have hmem := hB b hb
    rwa [show blocksOf (z1.area k) = ↑l from hblocks, Multiset.mem_coe] at hmem
  have h1' : Working (Function.update K k B) {p | p ∈ U ∧ ∀ a ∈ l, p ∉ cellPages k a} s1 z1 := by
    refine { h1 with held := { h1.held with kept := fun j hj b hb => ?_, pages := fun j hj => ?_ } }
    · by_cases hjk : j = k
      · subst hjk
        rw [Function.update_self] at hb
        exact hB b hb
      · rw [Function.update_of_ne hjk] at hb
        exact h1.held.kept j hj b hb
    · by_cases hjk : j = k
      · subst hjk
        rwa [Function.update_self]
      · rw [Function.update_of_ne hjk]
        exact h1.held.pages j hj
  have hrest : ∀ a ∈ l.filter (· ∉ B), a ∈ l ∧ a ∉ B := fun a ha => by simpa using ha
  have hnot : ∀ a, a ∉ B → (∀ j, a ∉ K j) → ∀ j, a ∉ Function.update K k B j := by
    intro a haB haK j
    by_cases hjk : j = k
    · subst hjk
      rwa [Function.update_self]
    · rw [Function.update_of_ne hjk]
      exact haK j
  have hzero : 0 ∉ B := by
    intro h0B
    have hcell : 0 ∈ cellPages (k + 1) 0 := ⟨Nat.zero_le _, by simp⟩
    have := (h.sub (hsub 0 (hBl 0 h0B) hcell)).1
    omega
  obtain ⟨s2, z2, h2, hnext2, hother2⟩ := h1'.thin hc hc' (l.filter (· ∉ B)) (hnd.filter _)
    (fun a ha => hal a (hrest a ha).1)
    (fun a ha => by rw [hblocks]; exact Multiset.mem_coe.mpr (hrest a ha).1)
    (fun a ha p hp => hupper a (hrest a ha).1 p hp)
    (fun a ha => hnot a (hrest a ha).2 (hK a (hrest a ha).1)) (hnot 0 hzero h0)
    ((hother _ hko' hkk).trans hnext) (by rw [Function.update_of_ne hkk]; exact hKnext)
  refine ⟨B, s2, z2, hBl, ?_, ?_, hnext2, fun j hj hjk hjk' =>
    (hother2 j hj hjk hjk').trans (hother j hj hjk)⟩
  · rwa [show blocksOf (z1.area k) = ↑l from hblocks, Multiset.coe_card] at hcard
  · convert h2 using 1
    ext p
    constructor
    · rintro ⟨hpU, hpB⟩
      by_cases hp : ∃ a ∈ l, p ∈ cellPages k a
      · obtain ⟨a, ha, hpa⟩ := hp
        have haB : a ∉ B := fun haB => hpB a haB hpa
        exact .inr ⟨a, by simp [ha, haB], hpa⟩
      · exact .inl ⟨hpU, fun a ha hpa => hp ⟨a, ha, hpa⟩⟩
    · rintro (⟨hpU, hp⟩ | ⟨a, ha, hpa⟩)
      · exact ⟨hpU, fun b hb => hp b (hBl b hb)⟩
      · obtain ⟨hal, haB⟩ := hrest a ha
        refine ⟨hsub a hal (mem_cellPages_succ.mpr (.inl hpa)), fun b hb hpb => haB ?_⟩
        rwa [hcells a hal b (hBl b hb) p (mem_cellPages_succ.mpr (.inl hpa))
          (mem_cellPages_succ.mpr (.inl hpb))]

theorem Working.empty (h : Working K dryPages s z) {j : ℕ} (hj : j ∈ orders) : z.blocks j = 0 := by
  refine Multiset.eq_zero_of_forall_notMem fun b hb => ?_
  have hfree := (h.sound.at_.zone _ z h.zone).mem_of_inCell hj hb (inCell_self j b)
  exact hfree.2.1 (h.out ▸ hfree.1)

theorem Working.chains_le (h : Working K U s z) :
    (z.area 12).length + (z.area 13).length + (z.area 14).length ≤ 2130 := by
  have hsub : ({12, 13, 14} : Finset ℕ) ⊆ orders := by decide
  have hsum : ∑ k ∈ ({12, 13, 14} : Finset ℕ), ((z.area k).length : ℤ) ≤ z.chainPages :=
    Finset.sum_le_sum_of_subset_of_nonneg hsub fun _ _ _ => Int.natCast_nonneg _
  have hthree : ∑ k ∈ ({12, 13, 14} : Finset ℕ), ((z.area k).length : ℤ) =
      (z.area 12).length + ((z.area 13).length + (z.area 14).length) := by simp
  have hused := h.held.used
  have hpool := h.held.pool
  have hout := h.held.out
  rw [pagesOut] at hout
  omega

def dryRegion : Region := ⟨2 ^ 24, 2 ^ 32, .dma32⟩

theorem dryRegion_isPageRange : dryRegion.IsPageRange :=
  ⟨by norm_num [dryRegion, pageSize], by norm_num [dryRegion, pageSize], by norm_num [dryRegion]⟩

theorem managedPages_dryRegion : managedPages dryBoot.memorySize [dryRegion] = dryPages := by
  ext p
  have htype : physToZoneType (p * pageSize) = .dma32 ↔ 4096 ≤ p ∧ p < 2 ^ 20 := by
    unfold physToZoneType zoneDmaEnd zoneDma32End pageSize
    by_cases h1 : p * 4096 < 16 * 2 ^ 20
    · simp only [h1, if_true, reduceCtorEq, false_iff]
      omega
    by_cases h2 : p * 4096 < 4 * 2 ^ 30
    · simp only [h1, h2, if_true, if_false, true_iff]
      omega
    · simp only [h1, h2, if_false, reduceCtorEq, false_iff]
      omega
  simp only [managedPages, Region.frames, Region.pages, Set.mem_ofPred_eq, mem_singleton, exists_eq_left,
    dryPages]
  rw [show dryRegion.type = .dma32 from rfl, htype]
  simp only [dryRegion, dryBoot, pageSize]
  omega

theorem runMem_frames (ops : List FrameOp) (s : Buddy) : runMem (ops.map .frames) s = runOps ops s := by
  induction ops generalizing s with
  | nil => rfl
  | cons op ops ih =>
    rw [map_cons, runMem, runOps]
    simp only [ih]
    rfl

theorem buddyInit_dryBoot (h : buddyInit dryBoot = some s) :
    s.zones .normal = none ∧ ∃ z, s.zones .dma32 = some z ∧ HeldApart (fun _ => ∅) s.metadata z := by
  have hb := buddyInit_eq_some h
  refine ⟨?_, ?_⟩
  · rw [buddyInit] at h
    obtain ⟨s1, -, h⟩ := Option.bind_eq_some_iff.mp h
    obtain ⟨s2, -, h⟩ := Option.bind_eq_some_iff.mp h
    rw [createZone, if_pos (by simp only [dryBoot, zoneDma32End, pageSize]; norm_num)] at h
    cases h
    exact Function.update_self ZoneType.normal none s2.zones
  rcases hz : s.zones .dma32 with - | z
  · exact absurd (hb.exist .dma32 trivial hz) (by decide)
  have he := hb.zone .dma32 z hz
  have hnn : ∀ t, 0 ≤ (s.zones t).elim 0 Zone.chainPages := by
    intro t
    rcases ht : s.zones t with - | w
    · exact le_rfl
    · rw [elim_some, (hb.zone t w ht).chainPages]
      exact Int.natCast_nonneg _
  refine ⟨z, rfl, fun k _ b hb => absurd hb (Finset.notMem_empty b), fun _ _ => Nat.zero_le _,
    fun k _ list hl => ?_, hb.poolUsed, ?_, ?_, ?_, ?_⟩
  · have hnil : (z.area k).flatMap PageList.entries = [] := Multiset.coe_eq_zero _ |>.mp (he.blocks k)
    rw [flatMap_eq_nil_iff.mp hnil list hl]
    exact Nat.zero_le _
  · rw [hb.pool]
    decide
  · have h1 := hnn .dma
    have h2 := hnn .normal
    rw [hb.out, Buddy.chainPages, hz, elim_some]
    linarith
  · rw [he.start]
    decide
  · rw [he.stop]
    decide

theorem exists_working (h : ∀ ops : List FrameOp, ∃ s, (buddyInit dryBoot).bind
      (runMem (.addMemoryRegion dryRegion :: ops.map .frames)) = some s) :
    ∃ s z, Working (fun _ => ∅) ∅ s z := by
  obtain ⟨s0, h0⟩ := buddyInit_total dryBoot
  have hb := buddyInit_eq_some h0
  obtain ⟨hnormal, z0, hz0, hheld⟩ := buddyInit_dryBoot h0
  obtain ⟨s', hs'⟩ := h []
  rw [h0, Option.bind_some] at hs'
  obtain ⟨s1, h1, -⟩ := Option.bind_eq_some_iff.mp hs'
  obtain h1 : addMemoryRegion s0 dryRegion.start dryRegion.stop dryRegion.type = some s1 := h1
  have hreg : addRegions [dryRegion] s0 = some s1 := by
    rw [addRegions, h1]
    rfl
  obtain ⟨hs1, -, hf, hm, hout⟩ := addRegions_boot h0 (fun r hr => by
      rw [mem_singleton.mp hr]
      exact ⟨dryRegion_isPageRange, by simp [Region.pages, dryRegion]⟩)
    (pairwise_singleton _ _) hreg
  rw [managedPages_dryRegion] at hs1
  rcases addMemoryRegion_cases hb.sound.at_ dryRegion_isPageRange with
    ⟨-, hnone⟩ | ⟨z, start, stop, hz, hd, hd', -, -, -, he, -⟩
  · have hmem : 4096 ∈ managedPages dryBoot.memorySize [dryRegion] := by
      rw [managedPages_dryRegion]
      exact ⟨le_rfl, by norm_num⟩
    obtain ⟨r, hr, hp⟩ := hmem
    rw [mem_singleton.mp hr, ← hb.memorySize, hnone] at hp
    exact absurd hp (Set.notMem_empty _)
  obtain rfl : z = z0 := Option.some.inj (hz.symm.trans hz0)
  obtain ⟨⟨md', z'⟩, hp, hs⟩ := Option.bind_eq_some_iff.mp (he.symm.trans h1)
  have hthin := addPieces_thins (K := fun _ => ∅) (fun _ => rfl) hd hd' hp
  refine ⟨s1, z', fun ops => ?_, hs1, hout, fun p hp => absurd hp (Set.notMem_empty p), ?_, ?_,
    hm, hf.usableRegions.trans hb.usable, ?_⟩
  · obtain ⟨s2, hs2⟩ := h ops
    rw [h0, Option.bind_some] at hs2
    obtain ⟨s1', h1', hrun⟩ := Option.bind_eq_some_iff.mp hs2
    obtain rfl : s1 = s1' := Option.some.inj (h1.symm.trans h1')
    exact ⟨s2, (runMem_frames ops s1).symm.trans hrun⟩
  · cases hs
    exact Function.update_self ZoneType.dma32 (some z') s0.zones
  · cases hs
    exact (Function.update_of_ne (by decide : ZoneType.normal ≠ .dma32) (some z') s0.zones).trans hnormal
  · cases hs
    exact hheld.step hthin fun k _ b hb => absurd hb (Finset.notMem_empty b)

/-- The halves of the even pages outside of the blocks `B` of four pages. -/
def freeEvens (B : Finset ℕ) : Finset ℕ :=
  Finset.Ico 2048 (2 ^ 19) \ B.biUnion fun b => {b / 2 ^ 13, b / 2 ^ 13 + 1}

/-- The halves of the odd pages that are in use with the next page, when the blocks `B` of four pages and the even
pages `C` are free. -/
def usedOdds (B C : Finset ℕ) : Finset ℕ :=
  Finset.Ico 2048 (2 ^ 19 - 1) \
    ((B.biUnion fun b => {b / 2 ^ 13 - 1, b / 2 ^ 13, b / 2 ^ 13 + 1}) ∪ C.image fun c => c / 2 ^ 13 - 1)

variable {B C : Finset ℕ} {i : ℕ}

theorem mem_freeEvens : i ∈ freeEvens B ↔
    2048 ≤ i ∧ i < 2 ^ 19 ∧ ∀ b ∈ B, i ≠ b / 2 ^ 13 ∧ i ≠ b / 2 ^ 13 + 1 := by
  unfold freeEvens
  simp [and_assoc]

theorem mem_usedOdds : i ∈ usedOdds B C ↔ 2048 ≤ i ∧ i < 2 ^ 19 - 1 ∧
    (∀ b ∈ B, i ≠ b / 2 ^ 13 - 1 ∧ i ≠ b / 2 ^ 13 ∧ i ≠ b / 2 ^ 13 + 1) ∧ ∀ c ∈ C, i ≠ c / 2 ^ 13 - 1 := by
  unfold usedOdds
  simp [and_assoc, eq_comm]

theorem le_card_freeEvens (B : Finset ℕ) : 2 ^ 19 - 2048 ≤ (freeEvens B).card + B.card * 2 := by
  have hnear : (B.biUnion fun b => ({b / 2 ^ 13, b / 2 ^ 13 + 1} : Finset ℕ)).card ≤ B.card * 2 :=
    Finset.card_biUnion_le_card_mul _ _ _ fun b _ => Finset.card_le_two
  have hle := Finset.le_card_sdiff (B.biUnion fun b => ({b / 2 ^ 13, b / 2 ^ 13 + 1} : Finset ℕ))
    (Finset.Ico 2048 (2 ^ 19))
  rw [Nat.card_Ico] at hle
  unfold freeEvens
  omega

theorem le_card_usedOdds (B C : Finset ℕ) :
    2 ^ 19 - 1 - 2048 ≤ (usedOdds B C).card + (B.card * 3 + C.card) := by
  have hnear : (B.biUnion fun b => ({b / 2 ^ 13 - 1, b / 2 ^ 13, b / 2 ^ 13 + 1} : Finset ℕ)).card ≤ B.card * 3 :=
    Finset.card_biUnion_le_card_mul _ _ _ fun b _ => Finset.card_le_three
  have hboth := (Finset.card_union_le (B.biUnion fun b => ({b / 2 ^ 13 - 1, b / 2 ^ 13, b / 2 ^ 13 + 1} : Finset ℕ))
    (C.image fun c => c / 2 ^ 13 - 1)).trans (Nat.add_le_add hnear Finset.card_image_le)
  have hle := Finset.le_card_sdiff ((B.biUnion fun b => ({b / 2 ^ 13 - 1, b / 2 ^ 13, b / 2 ^ 13 + 1} : Finset ℕ)) ∪
    C.image fun c => c / 2 ^ 13 - 1) (Finset.Ico 2048 (2 ^ 19 - 1))
  rw [Nat.card_Ico] at hle
  unfold usedOdds
  omega

theorem nodup_map_mul {l : List ℕ} {c : ℕ} (hc : 0 < c) (hl : l.Nodup) : (l.map (· * c)).Nodup :=
  hl.map fun _ _ hab => Nat.mul_right_cancel hc hab

/-- Blocks of four pages, at every eighth page. -/
theorem Working.fours (h : Working (fun _ => ∅) dryPages s z) : ∃ B s' z',
    (∀ b ∈ B, ∃ i, 512 ≤ i ∧ b = i * 2 ^ 15) ∧ 130560 ≤ pageListEntryCapacity * B.card ∧
      Working (Function.update (fun _ => ∅) 14 B) {p | p ∈ dryPages ∧ ∀ b ∈ B, p ∉ cellPages 14 b} s' z' ∧
      z'.blocks 12 = 0 ∧ z'.blocks 13 = 0 := by
  obtain ⟨B, s', z', hB, hcard, hW, -, hother⟩ := h.spread (by decide : countToOrder 4 = some (14, 4))
    (by decide : countToOrder 8 = some (15, 8)) ((range' 512 130560).map (· * 2 ^ 15))
    (nodup_map_mul (by norm_num) nodup_range') (fun a ha => by
      obtain ⟨i, -, rfl⟩ := mem_map.mp ha
      exact Nat.dvd_mul_left _ _) (fun a ha p hp => by
      obtain ⟨i, hi, rfl⟩ := mem_map.mp ha
      rw [mem_range'_1] at hi
      obtain ⟨hp1, hp2⟩ := hp
      simp only [pageSize] at hp1 hp2
      simp only [dryPages, Set.mem_ofPred_eq]
      omega)
    (fun _ _ _ => Finset.notMem_empty _) (fun _ => Finset.notMem_empty _)
    (h.empty (by decide)) (h.empty (by decide)) rfl
  rw [length_map, length_range'] at hcard
  refine ⟨B, s', z', fun b hb => ?_, hcard, hW, ?_, ?_⟩
  · obtain ⟨i, hi, rfl⟩ := mem_map.mp (hB b hb)
    exact ⟨i, (mem_range'_1.mp hi).1, rfl⟩
  · exact (hother 12 (by decide) (by decide) (by decide)).trans (h.empty (by decide))
  · exact (hother 13 (by decide) (by decide) (by decide)).trans (h.empty (by decide))

/-- Single pages, at every even page outside of the blocks of four pages. -/
theorem Working.ones (hB : ∀ b ∈ B, ∃ i, 512 ≤ i ∧ b = i * 2 ^ 15)
    (h : Working (Function.update (fun _ => ∅) 14 B) {p | p ∈ dryPages ∧ ∀ b ∈ B, p ∉ cellPages 14 b} s z)
    (h12 : z.blocks 12 = 0) (h13 : z.blocks 13 = 0) : ∃ C s' z', (∀ c ∈ C, ∃ i, c = i * 2 ^ 13) ∧
      (freeEvens B).card ≤ pageListEntryCapacity * C.card ∧
      Working (Function.update (Function.update (fun _ => ∅) 14 B) 12 C)
        {p | p ∈ {p | p ∈ dryPages ∧ ∀ b ∈ B, p ∉ cellPages 14 b} ∧ ∀ c ∈ C, p ∉ cellPages 12 c} s' z' ∧
      z'.blocks 13 = 0 := by
  have hupdate : ∀ a j, a ∉ B → a ∉ Function.update (fun _ : ℕ => (∅ : Finset ℕ)) 14 B j := by
    intro a j ha
    by_cases hj : j = 14
    · subst hj
      rwa [Function.update_self]
    · rw [Function.update_of_ne hj]
      exact Finset.notMem_empty a
  have hmem : ∀ a ∈ (freeEvens B).toList.map (· * 2 ^ 13), ∃ i ∈ freeEvens B, a = i * 2 ^ 13 := by
    intro a ha
    obtain ⟨i, hi, rfl⟩ := mem_map.mp ha
    exact ⟨i, Finset.mem_toList.mp hi, rfl⟩
  obtain ⟨C, s', z', hC, hcard, hW, hnext, -⟩ := h.spread (by decide : countToOrder 1 = some (12, 1))
    (by decide : countToOrder 2 = some (13, 2)) ((freeEvens B).toList.map (· * 2 ^ 13))
    (nodup_map_mul (by norm_num) (freeEvens B).nodup_toList) (fun a ha => by
      obtain ⟨i, -, rfl⟩ := hmem a ha
      exact Nat.dvd_mul_left _ _) (fun a ha p hp => by
      obtain ⟨i, hi, rfl⟩ := hmem a ha
      obtain ⟨hi, hi', hno⟩ := mem_freeEvens.mp hi
      obtain ⟨hp1, hp2⟩ := hp
      simp only [pageSize] at hp1 hp2
      refine ⟨⟨by omega, by omega⟩, fun b hb hpb => ?_⟩
      obtain ⟨x, -, rfl⟩ := hB b hb
      obtain ⟨hpb1, hpb2⟩ := hpb
      simp only [pageSize] at hpb1 hpb2
      have := hno _ hb
      omega)
    (fun a ha j => hupdate a j fun haB => by
      obtain ⟨i, hi, rfl⟩ := hmem a ha
      exact ((mem_freeEvens.mp hi).2.2 _ haB).1 (Nat.mul_div_cancel _ (by norm_num)).symm)
    (fun j => hupdate 0 j fun h0 => by
      obtain ⟨x, hx, he⟩ := hB 0 h0
      omega)
    h12 h13 (Function.update_of_ne (by decide) _ _)
  rw [length_map, Finset.length_toList] at hcard
  refine ⟨C, s', z', fun c hc => ?_, hcard, hW, hnext⟩
  obtain ⟨i, -, rfl⟩ := hmem c (hC c hc)
  exact ⟨i, rfl⟩

/-- Blocks of two pages, at every odd page where both pages are in use. -/
theorem Working.pairs (hB : ∀ b ∈ B, ∃ i, 512 ≤ i ∧ b = i * 2 ^ 15) (hC : ∀ c ∈ C, ∃ i, c = i * 2 ^ 13)
    (h : Working K {p | p ∈ {p | p ∈ dryPages ∧ ∀ b ∈ B, p ∉ cellPages 14 b} ∧ ∀ c ∈ C, p ∉ cellPages 12 c} s z)
    (h13 : z.blocks 13 = 0) : ∃ U s' z', Working K U s' z' ∧
      (usedOdds B C).card ≤ (z'.area 13).length * pageListEntryCapacity := by
  have hmem : ∀ a ∈ (usedOdds B C).toList.map fun i => (2 * i + 1) * 2 ^ 12,
      ∃ i ∈ usedOdds B C, a = (2 * i + 1) * 2 ^ 12 := by
    intro a ha
    obtain ⟨i, hi, rfl⟩ := mem_map.mp ha
    exact ⟨i, Finset.mem_toList.mp hi, rfl⟩
  obtain ⟨s', z', hW, hblocks, -⟩ := h.fill (by decide : countToOrder 2 = some (13, 2))
    ((usedOdds B C).toList.map fun i => (2 * i + 1) * 2 ^ 12) (fun a ha => by
      obtain ⟨i, -, rfl⟩ := hmem a ha
      exact Nat.dvd_mul_left _ _)
    (pairwise_map.mpr ((usedOdds B C).nodup_toList.imp fun {i j} hij => Set.disjoint_left.mpr fun p hpi hpj => by
      obtain ⟨hp1, hp2⟩ := hpi
      obtain ⟨hp3, hp4⟩ := hpj
      simp only [pageSize] at hp1 hp2 hp3 hp4
      omega))
    (fun a ha p hp => by
      obtain ⟨i, hi, rfl⟩ := hmem a ha
      obtain ⟨hi, hi', hnoB, hnoC⟩ := mem_usedOdds.mp hi
      obtain ⟨hp1, hp2⟩ := hp
      simp only [pageSize] at hp1 hp2
      refine ⟨⟨⟨by omega, by omega⟩, fun b hb hpb => ?_⟩, fun c hc hpc => ?_⟩
      · obtain ⟨x, -, rfl⟩ := hB b hb
        obtain ⟨hpb1, hpb2⟩ := hpb
        simp only [pageSize] at hpb1 hpb2
        have := hnoB _ hb
        omega
      · obtain ⟨x, rfl⟩ := hC c hc
        obtain ⟨hpc1, hpc2⟩ := hpc
        simp only [pageSize] at hpc1 hpc2
        have := hnoC _ hc
        omega)
    (fun a ha hd => by
      obtain ⟨i, -, rfl⟩ := hmem a ha
      omega)
  have hcard := (hW.held.capped 13 (by decide)).card_le
  rw [show blocksOf (z'.area 13) = _ from hblocks, h13, add_zero, Multiset.coe_card, length_map,
    Finset.length_toList] at hcard
  exact ⟨_, s', z', hW, hcard⟩

end Run

/-- Every call names fair regions, but some of the frees do not name a multiple of the size of the block:
blocks of four pages and then of one page leave pages of their own order sparsely filled, and two-page
blocks at odd pages, which are never joined, fill most of the rest of the pool. -/
theorem metadata_pool_dry : ¬ ∀ ops : List MemOp,
    (∀ r ∈ ops.filterMap MemOp.region, r.IsPageRange ∧ 0 ∉ r.pages) →
    ((ops.filterMap MemOp.region).Pairwise fun r r' => Disjoint r.pages r'.pages) →
    ∃ s, (buddyInit dryBoot).bind (runMem ops) = some s := by
  intro hall
  obtain ⟨s, z, h⟩ := exists_working fun ops => by
    have hregion : (MemOp.addMemoryRegion dryRegion :: ops.map MemOp.frames).filterMap MemOp.region =
        [dryRegion] := by
      rw [filterMap_cons_some (rfl : MemOp.region (.addMemoryRegion dryRegion) = some dryRegion),
        filterMap_map]
      exact congrArg _ (filterMap_eq_nil_iff.mpr fun _ _ => rfl)
    refine hall _ (fun r hr => ?_) ?_
    · rw [hregion, mem_singleton] at hr
      rw [hr]
      exact ⟨dryRegion_isPageRange, by simp [Region.pages, dryRegion]⟩
    · rw [hregion]
      exact pairwise_singleton _ _
  obtain ⟨s1, z1, h1⟩ := h.exhaust
  obtain ⟨B, s2, z2, hB, hcardB, h2, h12, h13⟩ := h1.fours
  obtain ⟨C, s3, z3, hC, hcardC, h3, h13⟩ := h2.ones hB h12 h13
  obtain ⟨U, s4, z4, h4, hcard⟩ := h3.pairs hB hC h13
  -- the three chains together are longer than the pool
  have hlen := h4.chains_le
  have h14 := (h4.held.pages 14 (by decide)).trans countP_le_length
  have h12 := (h4.held.pages 12 (by decide)).trans countP_le_length
  rw [Function.update_of_ne (by decide), Function.update_self] at h14
  rw [Function.update_self] at h12
  have hevens := le_card_freeEvens B
  have hodds := le_card_usedOdds B C
  rw [show pageListEntryCapacity = 510 from rfl] at hcardB hcardC hcard
  omega

end CoolPotOS
