import CoolPotOS.Mem.BuddyCounts

namespace CoolPotOS

open Dyadic Multiset

/-- The pages of the block of order `k` at `a`. -/
def cellPages (k a : ℕ) : Set ℕ := {p | InCell k a (p * pageSize)}

variable {k a x p : ℕ} {F : Set ℕ}

theorem mem_cellPages_div (hk : 12 ≤ k) (ha : pageSize ∣ a) :
    x / pageSize ∈ cellPages k a ↔ InCell k a x := by
  obtain ⟨c, rfl⟩ := ha
  obtain ⟨d, hd⟩ := pageSize_dvd_pow hk
  simp only [cellPages, Set.mem_ofPred_eq, InCell, hd]
  simp only [pageSize]
  omega

theorem mem_cellPages (hk : k ∈ orders) (ha : pageSize ∣ a) :
    p ∈ cellPages k a ↔ a / pageSize ≤ p ∧ p < a / pageSize + orderToPages k := by
  obtain ⟨c, rfl⟩ := ha
  have hd := orderToPages_mul hk
  simp only [cellPages, Set.mem_ofPred_eq, InCell, ← hd]
  generalize orderToPages k = d
  simp only [pageSize]
  omega

noncomputable def ind (F : Set ℕ) (p : ℕ) : ℕ := by
  classical exact if p ∈ F then 1 else 0

theorem ind_of_mem (h : p ∈ F) : ind F p = 1 := by simp [ind, h]

theorem ind_of_notMem (h : p ∉ F) : ind F p = 0 := by simp [ind, h]

theorem ind_cellPages (hk : 12 ≤ k) (ha : pageSize ∣ a) :
    ind (cellPages k a) (x / pageSize) = if InCell k a x then 1 else 0 := by
  by_cases h : InCell k a x
  · rw [ind_of_mem ((mem_cellPages_div hk ha).mpr h), if_pos h]
  · rw [ind_of_notMem (mt (mem_cellPages_div hk ha).mp h), if_neg h]

theorem ind_union {G : Set ℕ} (h : Disjoint F G) (p : ℕ) : ind (F ∪ G) p = ind F p + ind G p := by
  by_cases hF : p ∈ F
  · rw [ind_of_mem (Or.inl hF : p ∈ F ∪ G), ind_of_mem hF, ind_of_notMem (Set.disjoint_left.mp h hF)]
  · by_cases hG : p ∈ G
    · rw [ind_of_mem (Or.inr hG : p ∈ F ∪ G), ind_of_notMem hF, ind_of_mem hG]
    · rw [ind_of_notMem (by rintro (h | h) <;> contradiction : p ∉ F ∪ G), ind_of_notMem hF, ind_of_notMem hG]

theorem cover_pos_iff {zone : Zone} : 0 < zone.cover x ↔ ∃ k ∈ orders, ∃ a ∈ zone.blocks k, InCell k a x := by
  rw [Zone.cover, Zone.weigh, pos_iff_ne_zero, ne_eq, Finset.sum_eq_zero_iff]
  push Not
  constructor
  · rintro ⟨k, hk, hne⟩
    have hex : ∃ y ∈ (zone.blocks k).map fun a => if InCell k a x then 1 else 0, y ≠ 0 := by
      by_contra! hz
      exact hne (sum_eq_zero hz)
    obtain ⟨y, hy, hy0⟩ := hex
    obtain ⟨a, ha, rfl⟩ := mem_map.mp hy
    refine ⟨k, hk, a, ha, ?_⟩
    by_contra h
    exact hy0 (if_neg h)
  · rintro ⟨k, hk, a, ha, hx⟩
    refine ⟨k, hk, ?_⟩
    obtain ⟨t, ht⟩ := exists_cons_of_mem ha
    rw [ht, map_cons, sum_cons, if_pos hx]
    omega

/-- The free blocks of the zone lie inside it and cover each page of `F` once and
no other page, and `free_pages` is their size. -/
structure ZoneSound (zone : Zone) (F : Set ℕ) : Prop where
  inside : ∀ k ∈ orders, ∀ a ∈ zone.blocks k, BlockIn zone k a
  cover : ∀ x, zone.cover x = ind F (x / pageSize)
  pages : zone.freePages = zone.blockPages

structure SameBounds (zone zone' : Zone) : Prop where
  start : zone'.zoneStartPfn = zone.zoneStartPfn
  stop : zone'.zoneEndPfn = zone.zoneEndPfn

theorem ListStep.sameBounds {md md' : Metadata} {zone zone' : Zone} (h : ListStep md zone md' zone') :
    SameBounds zone zone' := ⟨h.start, h.stop⟩

section Zone

variable {md md' : Metadata} {zone zone' : Zone} {F : Set ℕ}

theorem ZoneSound.mem_of_inCell (h : ZoneSound zone F) (hk : k ∈ orders) (ha : a ∈ zone.blocks k)
    (hx : InCell k a x) : x / pageSize ∈ F := by
  by_contra hF
  have hpos := cover_pos_iff.mpr ⟨k, hk, a, ha, hx⟩
  rw [h.cover, ind_of_notMem hF] at hpos
  exact lt_irrefl 0 hpos

theorem ZoneSound.zero_notMem (h : ZoneSound zone F) (h0 : 0 ∉ F) : ∀ k ∈ orders, 0 ∉ zone.blocks k :=
  fun k hk ha => h0 (by simpa using h.mem_of_inCell hk ha (inCell_self k 0))

theorem ZoneSound.congr (h : ZoneSound zone F) (hs : ListStep md zone md' zone')
    (hb : SameBlocks zone zone') : ZoneSound zone' F where
  inside k hk a ha := (h.inside k hk a (by rwa [← hb k hk])).congr hs.start hs.stop
  cover x := by rw [Zone.cover, hb.weigh]; exact h.cover x
  pages := by rw [hs.free, Zone.blockPages, hb.weigh]; exact h.pages

theorem ZoneSound.free (h : ZoneSound zone F) (hk : k ∈ orders) (hin : BlockIn zone k a)
    (hend : zonePhysEnd zone < 2 ^ 64) (hd : Disjoint F (cellPages k a))
    (hf : buddyFreeZoneLocked md zone a k = some (md', zone')) :
    ZoneSound zone' (F ∪ cellPages k a) ∧ SameBounds zone zone' := by
  have hk12 := (mem_orders.mp hk).1
  obtain ⟨hs, hm⟩ := freeMerge_spec (maxOrder - 1 - k) md zone a k hk12
    (by have := (mem_orders.mp hk).2; simp only [maxOrder]; omega) hin hend h.inside
  rw [buddyFreeZoneLocked] at hf
  set r := freeMerge (maxOrder - 1 - k) md zone a k
  rcases hp : zonePush r.1 r.2.1 r.2.2.2 r.2.2.1 with - | ⟨md2, zone2⟩
  · simp [hp] at hf
  simp only [hp, Option.bind_eq_bind, Option.bind_some] at hf
  cases hf
  have hko : r.2.2.2 ∈ orders := mem_orders.mpr ⟨hk12.trans hm.le, hm.lt⟩
  obtain ⟨hs', ha, -⟩ := zonePush_eq_some hko hp
  have hst := hs.trans hs'
  refine ⟨⟨fun j hj b hb => ?_, fun x => ?_, ?_⟩, ⟨hst.start, hst.stop⟩⟩
  · have hbj : BlockIn zone j b := by
      by_cases hjk : j = r.2.2.2
      · subst hjk
        rcases mem_cons.mp (ha.self ▸ hb) with rfl | hb'
        · exact hm.inside
        · exact h.inside _ hj b (mem_of_le (hm.sub _ hj) hb')
      · exact h.inside j hj b (mem_of_le (hm.sub j hj) (ha.other j hj hjk ▸ hb))
    exact hbj.congr hst.start hst.stop
  · rw [ind_union hd, ind_cellPages hk12 hin.page, ← h.cover x, ← hm.cover x]
    exact ha.weigh hko _
  · have hw : zone2.blockPages = r.2.1.blockPages + orderToPages r.2.2.2 := ha.weigh hko _
    show zone2.freePages + orderToPages k = zone2.blockPages
    rw [hw, hm.pages, hst.free, h.pages]

theorem ZoneSound.alloc (h : ZoneSound zone F) (h0 : 0 ∉ F) {count t n b : ℕ}
    (hc : countToOrder count = some (t, n)) (hf : buddyAllocZone md zone count = some (md', zone', b)) :
    SameBounds zone zone' ∧ (b = 0 → ZoneSound zone' F) ∧
      (b ≠ 0 → ZoneSound zone' (F \ cellPages t b) ∧ cellPages t b ⊆ F ∧ BlockIn zone t b) := by
  obtain ⟨hto, hn, -⟩ := countToOrder_eq_some hc
  have ht12 := (mem_orders.mp hto).1
  rw [buddyAllocZone, hc] at hf
  dsimp only at hf
  split_ifs at hf with hlt
  · cases hf
    exact ⟨⟨rfl, rfl⟩, fun _ => h, fun hb => absurd rfl hb⟩
  rcases hp : buddyAllocOrderLocked md zone t with - | ⟨md1, zone1, b1⟩
  · simp [hp] at hf
  simp only [hp, Option.bind_eq_bind, Option.bind_some] at hf
  obtain ⟨hs, hzero, hne⟩ := buddyAllocOrderLocked_spec hto (h.zero_notMem h0) hp
  split_ifs at hf with hb
  swap
  · cases hf
    exact ⟨hs.sameBounds, fun _ => h.congr hs (hzero (not_not.mp hb)), fun hb' => absurd hb' hb⟩
  cases hf
  obtain ⟨hcov, hpag, k, hk, htk, hbk, -, hspl⟩ := hne hb
  have hbin := h.inside k hk b hbk
  have hsub : cellPages t b ⊆ F := by
    intro p hp
    have hx : InCell k b (p * pageSize) :=
      ⟨hp.1, hp.2.trans_le (Nat.add_le_add_left (Nat.pow_le_pow_right (by norm_num) htk) b)⟩
    have := h.mem_of_inCell hk hbk hx
    rwa [Nat.mul_div_cancel _ (by norm_num [pageSize])] at this
  have hdis : Disjoint (F \ cellPages t b) (cellPages t b) := Set.disjoint_sdiff_left
  refine ⟨⟨hs.start, hs.stop⟩, fun hb0 => absurd hb0 hb, fun _ => ⟨⟨fun j hj c hcj => ?_, fun x => ?_, ?_⟩,
    hsub, hbin.page, hbin.ge, ?_⟩⟩
  · refine BlockIn.congr ?_ hs.start hs.stop
    change c ∈ zone1.blocks j at hcj
    rw [hspl j hj] at hcj
    split_ifs at hcj with h1 h2
    · obtain rfl := mem_singleton.mp hcj
      have hpow : 2 ^ (j + 1) ≤ 2 ^ k := Nat.pow_le_pow_right (by norm_num) h1.2
      have hle := hbin.le
      have hge := hbin.ge
      rw [pow_succ] at hpow
      exact ⟨Nat.dvd_add hbin.page (pageSize_dvd_pow (mem_orders.mp hj).1), by omega, by omega⟩
    · rw [h2]
      exact h.inside k hk c (mem_of_mem_erase hcj)
    · exact h.inside j hj c hcj
  · have hx := hcov x
    rw [h.cover, ← Set.sdiff_union_of_subset hsub, ind_union hdis, ind_cellPages ht12 hbin.page] at hx
    exact (Nat.add_right_cancel hx).symm
  · show zone1.freePages - n = zone1.blockPages
    rw [hs.free, h.pages, hpag, hn, Nat.add_sub_cancel]
  · have hpow : 2 ^ t ≤ 2 ^ k := Nat.pow_le_pow_right (by norm_num) htk
    have := hbin.le
    omega

end Zone

end CoolPotOS
