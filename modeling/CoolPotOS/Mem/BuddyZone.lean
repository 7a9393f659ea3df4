import CoolPotOS.Lib.Dyadic
import CoolPotOS.Mem.Buddy

namespace CoolPotOS

open Dyadic Bool Finset Option

def Zone.blocks (zone : Zone) (order : ℕ) : Multiset ℕ := blocksOf (zone.area order)

def orders : Finset ℕ := Finset.Ico minOrder maxOrder

variable {k b t a : ℕ} {zone z1 z2 z3 zone' : Zone} {c : List PageList} {md md' : Metadata}

theorem mem_orders : k ∈ orders ↔ 12 ≤ k ∧ k < 31 := mem_Ico

def Zone.weigh (zone : Zone) (f : ℕ → ℕ → ℕ) : ℕ :=
  ∑ k ∈ orders, ((zone.blocks k).map (f k)).sum

def Zone.chainPages (zone : Zone) : ℤ := ∑ k ∈ orders, ((zone.area k).length : ℤ)

theorem area_setArea {j : ℕ} (hk : k ∈ orders) (hj : j ∈ orders) :
    (zone.setArea k c).area j = if j = k then c else zone.area j := by
  rw [mem_orders] at hk hj
  have hi : orderToIndex j = orderToIndex k ↔ j = k := by
    simp only [orderToIndex, minOrder]
    omega
  simp [Zone.area, Zone.setArea, Function.update_apply, hi]

theorem chainPages_setArea (zone : Zone) (c : List PageList) (hk : k ∈ orders) :
    (zone.setArea k c).chainPages - zone.chainPages = (c.length : ℤ) - (zone.area k).length := by
  have hrest : ∑ j ∈ orders.erase k, (((zone.setArea k c).area j).length : ℤ) =
      ∑ j ∈ orders.erase k, ((zone.area j).length : ℤ) := by
    refine sum_congr rfl fun j hj => ?_
    rw [area_setArea hk (mem_of_mem_erase hj), if_neg (ne_of_mem_erase hj)]
  rw [Zone.chainPages, Zone.chainPages, ← add_sum_erase _ _ hk,
    ← add_sum_erase _ _ hk, hrest, area_setArea hk hk, if_pos rfl]
  ring

/-- What a step on the lists of a zone leaves alone: the bounds and counters of the
zone, the size of the pool, and the number of metadata pages in the kernel. -/
structure ListStep (md : Metadata) (zone : Zone) (md' : Metadata) (zone' : Zone) : Prop where
  start : zone'.zoneStartPfn = zone.zoneStartPfn
  stop : zone'.zoneEndPfn = zone.zoneEndPfn
  free : zone'.freePages = zone.freePages
  managed : zone'.managedPages = zone.managedPages
  poolPages : md'.poolPages = md.poolPages
  out : pagesOut md' - pagesOut md = zone'.chainPages - zone.chainPages

theorem ListStep.refl (md : Metadata) (zone : Zone) : ListStep md zone md zone :=
  ⟨rfl, rfl, rfl, rfl, rfl, by ring⟩

theorem ListStep.trans {md1 md2 md3 : Metadata} (h : ListStep md1 z1 md2 z2) (h' : ListStep md2 z2 md3 z3) :
    ListStep md1 z1 md3 z3 :=
  ⟨h'.start.trans h.start, h'.stop.trans h.stop, h'.free.trans h.free, h'.managed.trans h.managed,
    h'.poolPages.trans h.poolPages, by have := h.out; have := h'.out; linarith⟩

theorem Moved.listStep (hk : k ∈ orders) (h : Moved md (zone.area k) md' c) :
    ListStep md zone md' (zone.setArea k c) :=
  ⟨rfl, rfl, rfl, rfl, h.poolPages, by rw [h.out, chainPages_setArea zone c hk]⟩

/-- The lists of `zone'` are those of `zone` with one block more of order `k`. -/
structure Adds (zone zone' : Zone) (k b : ℕ) : Prop where
  self : zone'.blocks k = b ::ₘ zone.blocks k
  other : ∀ j ∈ orders, j ≠ k → zone'.blocks j = zone.blocks j

theorem Adds.weigh (h : Adds zone zone' k b) (hk : k ∈ orders) (f : ℕ → ℕ → ℕ) :
    zone'.weigh f = zone.weigh f + f k b := by
  have hrest : ∑ j ∈ orders.erase k, ((zone'.blocks j).map (f j)).sum =
      ∑ j ∈ orders.erase k, ((zone.blocks j).map (f j)).sum :=
    sum_congr rfl fun j hj => by
      rw [h.other j (mem_of_mem_erase hj) (ne_of_mem_erase hj)]
  rw [Zone.weigh, Zone.weigh, ← add_sum_erase _ _ hk, ← add_sum_erase _ _ hk, hrest,
    h.self, Multiset.map_cons, Multiset.sum_cons]
  ring

theorem adds_setArea (hk : k ∈ orders) (h : blocksOf c = b ::ₘ zone.blocks k) :
    Adds zone (zone.setArea k c) k b where
  self := by rw [Zone.blocks, area_setArea hk hk, if_pos rfl, h]
  other j hj hne := by rw [Zone.blocks, area_setArea hk hj, if_neg hne, Zone.blocks]

theorem adds_of_setArea (hk : k ∈ orders) (h : zone.blocks k = b ::ₘ blocksOf c) :
    Adds (zone.setArea k c) zone k b where
  self := by rw [Zone.blocks, Zone.blocks, area_setArea hk hk, if_pos rfl]; exact h
  other j hj hne := by rw [Zone.blocks, Zone.blocks, area_setArea hk hj, if_neg hne]

/-- A push makes the chain of its order longer only when all the pages of it are full. -/
structure Grows (zone zone' : Zone) (k : ℕ) : Prop where
  self : (zone'.area k).length = (zone.area k).length ∨
    (zone'.area k).length = (zone.area k).length + 1 ∧
      (zone.area k).length * pageListEntryCapacity ≤ (zone.blocks k).card
  other : ∀ j ∈ orders, j ≠ k → (zone'.area j).length = (zone.area j).length

/-- No chain of `zone'` is longer than in `zone`. -/
def Shrinks (zone zone' : Zone) : Prop :=
  ∀ k ∈ orders, (zone'.area k).length ≤ (zone.area k).length

theorem Shrinks.trans (h : Shrinks z1 z2) (h' : Shrinks z2 z3) : Shrinks z1 z3 :=
  fun k hk => (h' k hk).trans (h k hk)

theorem shrinks_setArea (hk : k ∈ orders) (h : c.length ≤ (zone.area k).length) :
    Shrinks zone (zone.setArea k c) := by
  intro j hj
  rw [area_setArea hk hj]
  split_ifs with hjk
  · rwa [hjk]
  · exact le_rfl

theorem zonePush_eq_some (hk : k ∈ orders) (h : zonePush md zone k b = some (md', zone')) :
    ListStep md zone md' zone' ∧ Adds zone zone' k b ∧ Grows zone zone' k := by
  rw [zonePush] at h
  rcases hp : pageListPush md (zone.area k) b with - | ⟨md1, c⟩
  · simp [hp] at h
  · simp only [hp, bind_eq_bind, bind_some] at h
    obtain ⟨hb, hm, hl⟩ := pageListPush_eq_some hp
    cases h
    refine ⟨hm.listStep hk, adds_setArea hk hb, ?_, fun j hj hjk => ?_⟩
    · rwa [area_setArea hk hk, if_pos rfl]
    · rw [area_setArea hk hj, if_neg hjk]

def SameBlocks (zone zone' : Zone) : Prop := ∀ k ∈ orders, zone'.blocks k = zone.blocks k

theorem SameBlocks.trans (h : SameBlocks z1 z2) (h' : SameBlocks z2 z3) :
    SameBlocks z1 z3 := fun k hk => (h' k hk).trans (h k hk)

theorem SameBlocks.weigh (h : SameBlocks zone zone') (f : ℕ → ℕ → ℕ) :
    zone'.weigh f = zone.weigh f := sum_congr rfl fun k hk => by rw [h k hk]

theorem sameBlocks_setArea (hk : k ∈ orders) (h : blocksOf c = zone.blocks k) :
    SameBlocks zone (zone.setArea k c) := by
  intro j hj
  rw [Zone.blocks, area_setArea hk hj]
  split_ifs with hjk
  · rw [h, hjk]
  · rfl

theorem zonePop_listStep (md : Metadata) (zone : Zone) (hk : k ∈ orders) :
    ListStep md zone (zonePop md zone k).1 (zonePop md zone k).2.1 :=
  (pageListPop_moved md (zone.area k)).listStep hk

theorem zonePop_shrinks (md : Metadata) (zone : Zone) (hk : k ∈ orders) :
    Shrinks zone (zonePop md zone k).2.1 := shrinks_setArea hk (pageListPop_length_le md (zone.area k))

theorem zonePop_eq_zero (hk : k ∈ orders) (h0 : 0 ∉ zone.blocks k) (h : (zonePop md zone k).2.2 = 0) :
    zone.blocks k = 0 ∧ SameBlocks zone (zonePop md zone k).2.1 := by
  obtain ⟨hc, hb⟩ := pageListPop_eq_zero h0 h
  exact ⟨hc, sameBlocks_setArea hk (hb.trans hc.symm)⟩

theorem zonePop_of_ne_zero (hk : k ∈ orders) (h : (zonePop md zone k).2.2 ≠ 0) :
    Adds (zonePop md zone k).2.1 zone k (zonePop md zone k).2.2 :=
  adds_of_setArea hk (pageListPop_of_ne_zero h)

theorem zoneTake_listStep (md : Metadata) (zone : Zone) (t : ℕ) (hk : k ∈ orders) :
    ListStep md zone (zoneTake md zone k t).1 (zoneTake md zone k t).2.1 :=
  (pageListTake_moved md (zone.area k) t).listStep hk

theorem zoneTake_shrinks (md : Metadata) (zone : Zone) (t : ℕ) (hk : k ∈ orders) :
    Shrinks zone (zoneTake md zone k t).2.1 :=
  shrinks_setArea hk (pageListTake_length_le md (zone.area k) t)

theorem zoneTake_eq_true (hk : k ∈ orders) (h : (zoneTake md zone k t).2.2 = true) :
    Adds (zoneTake md zone k t).2.1 zone k t :=
  adds_of_setArea hk (pageListTake_eq_true h)

theorem zoneTake_eq_false (hk : k ∈ orders) (h : (zoneTake md zone k t).2.2 = false) :
    t ∉ zone.blocks k ∧ SameBlocks zone (zoneTake md zone k t).2.1 := by
  obtain ⟨hn, hb⟩ := pageListTake_eq_false h
  exact ⟨hn, sameBlocks_setArea hk hb⟩

theorem allocSearch_spec (fuel : ℕ) (md : Metadata) (zone : Zone) (k : ℕ) (hk : 12 ≤ k)
    (hfuel : k + fuel = 31) (h0 : ∀ j ∈ orders, 0 ∉ zone.blocks j) :
    let r := allocSearch fuel md zone k
    ListStep md zone r.1 r.2.1 ∧ Shrinks zone r.2.1 ∧
    (r.2.2.2 = 0 → SameBlocks zone r.2.1) ∧
    (r.2.2.2 ≠ 0 → k ≤ r.2.2.1 ∧ r.2.2.1 < 31 ∧ Adds r.2.1 zone r.2.2.1 r.2.2.2 ∧
      ∀ j, k ≤ j → j < r.2.2.1 → zone.blocks j = 0) := by
  induction fuel generalizing md zone k with
  | zero => exact ⟨ListStep.refl md zone, fun _ _ => le_rfl, fun _ _ _ => rfl, fun h => absurd rfl h⟩
  | succ fuel ih =>
    have hko : k ∈ orders := mem_orders.mpr ⟨hk, by omega⟩
    have hs := zonePop_listStep md zone hko
    have hsh := zonePop_shrinks md zone hko
    by_cases hz : (zonePop md zone k).2.2 = 0
    · obtain ⟨hempty, hsame⟩ := zonePop_eq_zero hko (h0 k hko) hz
      obtain ⟨hs', hsh', hzero, hne⟩ := ih (zonePop md zone k).1 (zonePop md zone k).2.1 (k + 1) (by omega)
        (by omega) fun j hj => by rw [hsame j hj]; exact h0 j hj
      have hr : allocSearch (fuel + 1) md zone k =
          allocSearch fuel (zonePop md zone k).1 (zonePop md zone k).2.1 (k + 1) := by
        simp only [allocSearch, ne_eq, hz, not_true_eq_false, if_false]
      simp only [hr]
      refine ⟨hs.trans hs', hsh.trans hsh', fun h => hsame.trans (hzero h), fun h => ?_⟩
      obtain ⟨h1, h2, ha, hlow⟩ := hne h
      refine ⟨by omega, h2, ⟨by rw [← hsame _ (mem_orders.mpr ⟨by omega, h2⟩)]; exact ha.self,
        fun j hj hjk => by rw [← hsame j hj]; exact ha.other j hj hjk⟩, fun j hj hjk => ?_⟩
      rcases Nat.eq_or_lt_of_le hj with rfl | hlt
      · exact hempty
      · rw [← hsame j (mem_orders.mpr ⟨by omega, by omega⟩)]
        exact hlow j hlt hjk
    · have hr : allocSearch (fuel + 1) md zone k =
          ((zonePop md zone k).1, (zonePop md zone k).2.1, k, (zonePop md zone k).2.2) := by
        simp only [allocSearch, ne_eq, hz, not_false_eq_true, if_true]
      simp only [hr]
      exact ⟨hs, hsh, fun h => absurd h hz, fun _ => ⟨le_rfl, by omega, zonePop_of_ne_zero hko hz,
        fun j h1 h2 => by omega⟩⟩

theorem allocSplit_spec (ht : 12 ≤ t) {n : ℕ} (hn : t + n < 32)
    (h : allocSplit t b n md zone = some (md', zone')) : ListStep md zone md' zone' ∧
    (∀ j ∈ orders, zone'.blocks j =
      if t ≤ j ∧ j < t + n then (b + 2 ^ j) ::ₘ zone.blocks j else zone.blocks j) ∧
    ∀ f, zone'.weigh f = zone.weigh f + ∑ i ∈ range n, f (t + i) (b + 2 ^ (t + i)) := by
  induction n generalizing md zone with
  | zero =>
    cases h
    exact ⟨ListStep.refl _ _, fun j _ => by rw [if_neg (by omega)], fun f => by simp⟩
  | succ n ih =>
    have hko : t + n ∈ orders := mem_orders.mpr ⟨by omega, by omega⟩
    rw [allocSplit] at h
    rcases hp : zonePush md zone (t + n) (b + orderToBytes (t + n)) with - | ⟨md1, zone1⟩
    · simp [hp] at h
    simp only [hp, bind_eq_bind, bind_some] at h
    obtain ⟨hs, ha, -⟩ := zonePush_eq_some hko hp
    obtain ⟨hs', hb, hw⟩ := ih (by omega) h
    refine ⟨hs.trans hs', fun j hj => ?_, fun f => ?_⟩
    · rw [hb j hj]
      by_cases hjn : j = t + n
      · subst hjn
        rw [if_neg (by omega), if_pos (by omega), ha.self, orderToBytes]
      · rw [ha.other j hj hjn]
        split_ifs <;> first | rfl | omega
    · rw [hw f, ha.weigh hko f, sum_range_succ, orderToBytes]
      ring

theorem inCell_split (t b x n : ℕ) : (if InCell (t + n) b x then 1 else 0) = (if InCell t b x then 1 else 0) +
      ∑ i ∈ range n, (if InCell (t + i) (b + 2 ^ (t + i)) x then 1 else 0) := by
  induction n with
  | zero => simp
  | succ n ih =>
    have hp : 2 ^ (t + (n + 1)) = 2 ^ (t + n) + 2 ^ (t + n) := by rw [← Nat.add_assoc, pow_succ]; ring
    have hor : InCell (t + (n + 1)) b x ↔ InCell (t + n) b x ∨ InCell (t + n) (b + 2 ^ (t + n)) x := by
      simp only [InCell, hp]
      omega
    have hnot : InCell (t + n) b x → ¬ InCell (t + n) (b + 2 ^ (t + n)) x := by
      simp only [InCell]
      omega
    have hsum := sum_range_succ (fun i => if InCell (t + i) (b + 2 ^ (t + i)) x then 1 else 0) n
    rw [hsum, ← Nat.add_assoc (ite _ _ _), ← ih]
    by_cases h1 : InCell (t + n) b x <;> by_cases h2 : InCell (t + n) (b + 2 ^ (t + n)) x
    · exact absurd h2 (hnot h1)
    all_goals simp [hor, h1, h2]

theorem pages_split (ht : 12 ≤ t) (n : ℕ) :
    2 ^ (t + n - 12) = 2 ^ (t - 12) + ∑ i ∈ range n, 2 ^ (t + i - 12) := by
  induction n with
  | zero => simp
  | succ n ih =>
    have hp : 2 ^ (t + (n + 1) - 12) = 2 ^ (t + n - 12) + 2 ^ (t + n - 12) := by
      rw [show t + (n + 1) - 12 = t + n - 12 + 1 by omega, pow_succ]
      ring
    rw [hp, sum_range_succ]
    omega

/-- How many free blocks of the zone cover the address `x`. -/
def Zone.cover (zone : Zone) (x : ℕ) : ℕ := zone.weigh fun k a => if InCell k a x then 1 else 0

def Zone.blockPages (zone : Zone) : ℕ := zone.weigh fun k _ => orderToPages k

/-- What `buddy_alloc_order_locked` does when it finds a block. -/
structure Allocated (zone zone' : Zone) (t b : ℕ) : Prop where
  cover : ∀ x, zone.cover x = zone'.cover x + if InCell t b x then 1 else 0
  pages : zone.blockPages = zone'.blockPages + orderToPages t
  split : ∃ k ∈ orders, t ≤ k ∧ b ∈ zone.blocks k ∧ (∀ j, t ≤ j → j < k → zone.blocks j = 0) ∧
    ∀ j ∈ orders, zone'.blocks j = if t ≤ j ∧ j < k then {b + 2 ^ j}
      else if j = k then (zone.blocks k).erase b else zone.blocks j

theorem buddyAllocOrderLocked_spec (ht : t ∈ orders) (h0 : ∀ j ∈ orders, 0 ∉ zone.blocks j)
    (h : buddyAllocOrderLocked md zone t = some (md', zone', b)) :
    ListStep md zone md' zone' ∧ (b = 0 → SameBlocks zone zone') ∧ (b ≠ 0 → Allocated zone zone' t b) := by
  rw [mem_orders] at ht
  rw [buddyAllocOrderLocked] at h
  obtain ⟨hs, -, hzero, hne⟩ := allocSearch_spec (maxOrder - t) md zone t ht.1
    (by simp only [maxOrder]; omega) h0
  set r := allocSearch (maxOrder - t) md zone t with hr
  by_cases hz : r.2.2.2 = 0
  · simp only [hz, if_true] at h
    cases h
    exact ⟨hs, fun _ => hzero hz, fun hb => absurd rfl hb⟩
  simp only [hz, if_false] at h
  obtain ⟨hk1, hk2, ha, hlow⟩ := hne hz
  rcases hp : allocSplit t r.2.2.2 (r.2.2.1 - t) r.1 r.2.1 with - | ⟨md1, zone1⟩
  · simp [hp] at h
  simp only [hp, bind_eq_bind, bind_some] at h
  cases h
  have hko : r.2.2.1 ∈ orders := mem_orders.mpr ⟨by omega, hk2⟩
  obtain ⟨hs', hb, hw⟩ := allocSplit_spec ht.1 (by omega) hp
  obtain ⟨n, hn⟩ : ∃ n, r.2.2.1 = t + n := ⟨r.2.2.1 - t, by omega⟩
  have hsub : r.2.2.1 - t = n := by omega
  rw [hsub] at hw hb
  refine ⟨hs.trans hs', fun hb0 => absurd hb0 hz, fun _ => ⟨fun x => ?_, ?_, ?_⟩⟩
  · rw [Zone.cover, Zone.cover, ha.weigh hko, hw, hn, inCell_split t _ x n]
    ring
  · rw [Zone.blockPages, Zone.blockPages, ha.weigh hko, hw]
    simp only [orderToPages, minOrder, hn, pages_split ht.1 n]
    ring
  · refine ⟨r.2.2.1, hko, hk1, ?_, hlow, fun j hj => ?_⟩
    · rw [ha.self]; exact Multiset.mem_cons_self _ _
    · rw [hb j hj, ← hn]
      by_cases hjk : t ≤ j ∧ j < r.2.2.1
      · have he : r.2.1.blocks j = 0 := by
          rw [← ha.other j hj (by omega)]
          exact hlow j hjk.1 hjk.2
        rw [if_pos hjk, if_pos hjk, he]
        rfl
      · rw [if_neg hjk, if_neg hjk]
        split_ifs with hj2
        · rw [hj2, ha.self, Multiset.erase_cons_head]
        · exact (ha.other j hj hj2).symm

theorem zoneBlockValid_iff (ha : a < 2 ^ 64) (hk : 2 ^ k < 2 ^ 64) (hend : zonePhysEnd zone < 2 ^ 64) :
    zoneBlockValid zone a k = true ↔
      k ∈ orders ∧ 2 ^ k ∣ a ∧ zonePhysStart zone ≤ a ∧ a + 2 ^ k ≤ zonePhysEnd zone := by
  have hand : a &&& (2 ^ k - 1) = a % 2 ^ k := Nat.and_two_pow_sub_one_eq_mod a k
  have hord : orderValid k = true ↔ k ∈ orders := by
    rw [orderValid, decide_eq_true_eq]
    exact mem_Ico.symm
  simp only [zoneBlockValid, hord, and_eq_true, not_eq_true', decide_eq_true_eq,
    decide_eq_false_iff_not, or_eq_false_iff, Nat.dvd_iff_mod_eq_zero]
  simp only [orderToBytes, wrap, hand]
  constructor
  · rintro ⟨⟨⟨h1, h2⟩, h3⟩, h4, h5⟩
    exact ⟨h1, h3, by omega, by omega⟩
  · rintro ⟨h1, h3, h4, h5⟩
    exact ⟨⟨⟨h1, by omega⟩, h3⟩, by omega, by omega⟩

/-- A block inside the zone, at a page boundary. -/
structure BlockIn (zone : Zone) (k a : ℕ) : Prop where
  page : pageSize ∣ a
  ge : zonePhysStart zone ≤ a
  le : a + 2 ^ k ≤ zonePhysEnd zone

/-- What the merging loop does: it gathers a block that consists of the freed one
and of free blocks taken from the lists, and stops when it finds no buddy. -/
structure Merged (zone zone' : Zone) (k a k' a' : ℕ) : Prop where
  le : k ≤ k'
  lt : k' < 31
  cover : ∀ x, (zone'.cover x + if InCell k' a' x then 1 else 0) =
    zone.cover x + if InCell k a x then 1 else 0
  pages : zone'.blockPages + orderToPages k' = zone.blockPages + orderToPages k
  inside : BlockIn zone k' a'
  sub : ∀ j ∈ orders, zone'.blocks j ≤ zone.blocks j
  shrinks : Shrinks zone zone'
  aligned : 2 ^ k ∣ a → 2 ^ k' ∣ a'
  buddy : k' = 30 ∨ ¬ 2 ^ k' ∣ a' ∨ a' ^^^ 2 ^ k' ∉ zone'.blocks k'

theorem pageSize_dvd_pow (hk : 12 ≤ k) : pageSize ∣ 2 ^ k := by
  rw [show pageSize = 2 ^ 12 by norm_num [pageSize]]
  exact pow_dvd_pow 2 hk

theorem zonePhys_congr (h : zone'.zoneStartPfn = zone.zoneStartPfn) (h' : zone'.zoneEndPfn = zone.zoneEndPfn) :
    zonePhysStart zone' = zonePhysStart zone ∧ zonePhysEnd zone' = zonePhysEnd zone := by
  simp [zonePhysStart, zonePhysEnd, h, h']

theorem BlockIn.congr (h : BlockIn zone k a) (h1 : zone'.zoneStartPfn = zone.zoneStartPfn)
    (h2 : zone'.zoneEndPfn = zone.zoneEndPfn) : BlockIn zone' k a := by
  obtain ⟨e1, e2⟩ := zonePhys_congr h1 h2
  exact ⟨h.page, by rw [e1]; exact h.ge, by rw [e2]; exact h.le⟩

theorem orderToPages_succ (hk : 12 ≤ k) : orderToPages (k + 1) = orderToPages k + orderToPages k := by
  simp only [orderToPages, minOrder, show k + 1 - 12 = k - 12 + 1 by omega, pow_succ]
  ring

theorem BlockIn.merge (ha : BlockIn zone k a) (hk : 12 ≤ k) (hal : 2 ^ k ∣ a)
    (hb1 : zonePhysStart zone ≤ a ^^^ 2 ^ k) (hb2 : (a ^^^ 2 ^ k) + 2 ^ k ≤ zonePhysEnd zone) :
    BlockIn zone (k + 1) (min a (a ^^^ 2 ^ k)) := by
  have hpg : pageSize ∣ 2 ^ k := pageSize_dvd_pow hk
  have hp : 2 ^ (k + 1) = 2 ^ k + 2 ^ k := by rw [pow_succ]; ring
  have h1 := ha.ge
  have h2 := ha.le
  refine ⟨?_, le_min h1 hb1, ?_⟩
  · rcases min_choice a (a ^^^ 2 ^ k) with h | h <;> rw [h]
    · exact ha.page
    · exact hpg.trans (dvd_xor_pow.mpr hal)
  · rcases dvd_or_dvd_sub hal with hd | ⟨b, hd, rfl⟩
    · rw [xor_pow_of_dvd hd] at hb2 ⊢
      omega
    · rw [xor_pow_add_of_dvd hd] at hb2 ⊢
      omega

theorem freeMerge_spec (fuel : ℕ) (md : Metadata) (zone : Zone) (a k : ℕ) (hk : 12 ≤ k)
    (hfuel : k + fuel = 30) (hin : BlockIn zone k a) (hend : zonePhysEnd zone < 2 ^ 64)
    (hal : ∀ j ∈ orders, ∀ b ∈ zone.blocks j, BlockIn zone j b) :
    let r := freeMerge fuel md zone a k
    ListStep md zone r.1 r.2.1 ∧ Merged zone r.2.1 k a r.2.2.2 r.2.2.1 := by
  induction fuel generalizing md zone a k with
  | zero =>
    exact ⟨ListStep.refl md zone, ⟨le_rfl, by show k < 31; omega, fun _ => rfl, rfl, hin,
      fun _ _ => le_rfl, fun _ _ => le_rfl, id, .inl (by show k = 30; omega)⟩⟩
  | succ fuel ih =>
    have hko : k ∈ orders := mem_orders.mpr ⟨hk, by omega⟩
    have hsz : 2 ^ k ≤ 2 ^ 30 := Nat.pow_le_pow_right (by norm_num) (by omega)
    have hle := hin.le
    have hpos : 0 < 2 ^ k := by positivity
    have hxor : a ^^^ 2 ^ k < 2 ^ 64 := Nat.xor_lt_two_pow (by omega) (by omega)
    have hv := zoneBlockValid_iff hxor (by omega : 2 ^ k < 2 ^ 64) hend
    have hmin : (if a ^^^ orderToBytes k < a then a ^^^ orderToBytes k else a) =
        min a (a ^^^ 2 ^ k) := by
      rw [orderToBytes, min_def]
      split_ifs <;> omega
    simp only [freeMerge, hmin]
    simp only [orderToBytes]
    by_cases hval : zoneBlockValid zone (a ^^^ 2 ^ k) k = true
    · obtain ⟨-, hdb, hb1, hb2⟩ := hv.mp hval
      have hda : 2 ^ k ∣ a := dvd_xor_pow.mp hdb
      have hs := zoneTake_listStep md zone (a ^^^ 2 ^ k) hko
      simp only [hval, Bool.not_true, false_eq_true, if_false]
      by_cases htk : (zoneTake md zone k (a ^^^ 2 ^ k)).2.2 = false
      · obtain ⟨hn, hsame⟩ := zoneTake_eq_false hko htk
        simp only [htk, Bool.not_false, if_true]
        refine ⟨hs, ⟨le_rfl, by show k < 31; omega, fun x => ?_, ?_, hin,
          fun j hj => (hsame j hj).le, zoneTake_shrinks md zone _ hko, id, .inr (.inr ?_)⟩⟩
        · rw [Zone.cover, hsame.weigh]; rfl
        · rw [Zone.blockPages, hsame.weigh]; rfl
        · rw [hsame k hko]; exact hn
      · rw [not_eq_false] at htk
        have hadd := zoneTake_eq_true hko htk
        simp only [htk, Bool.not_true, false_eq_true, if_false]
        obtain ⟨e1, e2⟩ := zonePhys_congr hs.start hs.stop
        have hsub : ∀ j ∈ orders, (zoneTake md zone k (a ^^^ 2 ^ k)).2.1.blocks j ≤ zone.blocks j := by
          intro j hj
          by_cases hjk : j = k
          · subst hjk
            rw [hadd.self]
            exact Multiset.le_cons_self _ _
          · rw [hadd.other j hj hjk]
        obtain ⟨hs', hm⟩ := ih (zoneTake md zone k (a ^^^ 2 ^ k)).1 (zoneTake md zone k (a ^^^ 2 ^ k)).2.1
          (min a (a ^^^ 2 ^ k)) (k + 1) (by omega) (by omega)
          ((hin.merge hk hda hb1 hb2).congr hs.start hs.stop) (by rw [e2]; exact hend)
          (fun j hj b hb => (hal j hj b (Multiset.mem_of_le (hsub j hj) hb)).congr hs.start hs.stop)
        refine ⟨hs.trans hs', ⟨by have := hm.le; omega, hm.lt, fun x => ?_, ?_,
          hm.inside.congr hs.start.symm hs.stop.symm, fun j hj => (hm.sub j hj).trans (hsub j hj),
          (zoneTake_shrinks md zone _ hko).trans hm.shrinks, fun _ => hm.aligned (dvd_min_xor hda), hm.buddy⟩⟩
        · rw [hm.cover x, Zone.cover, Zone.cover, hadd.weigh hko]
          have hiff := inCell_succ_iff (x := x) hda
          have hnot := not_inCell_xor (x := x) hda
          by_cases h1 : InCell k a x <;> by_cases h2 : InCell k (a ^^^ 2 ^ k) x
          · exact absurd h2 (hnot h1)
          all_goals simp [h1, h2, hiff]
        · rw [hm.pages, Zone.blockPages, Zone.blockPages, hadd.weigh hko, orderToPages_succ hk]
          ring
    · simp only [not_eq_true] at hval
      simp only [hval, Bool.not_false, if_true]
      refine ⟨ListStep.refl md zone, ⟨le_rfl, by show k < 31; omega, fun _ => rfl, rfl, hin,
        fun _ _ => le_rfl, fun _ _ => le_rfl, id, ?_⟩⟩
      by_cases hda : 2 ^ k ∣ a
      · refine .inr (.inr fun hmem => ?_)
        have hb := hal k hko _ hmem
        exact absurd (hv.mpr ⟨hko, dvd_xor_pow.mpr hda, hb.ge, hb.le⟩) (by simp [hval])
      · exact .inr (.inl hda)

end CoolPotOS
