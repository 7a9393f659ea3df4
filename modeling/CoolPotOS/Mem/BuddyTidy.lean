import CoolPotOS.Mem.BuddySound

namespace CoolPotOS

open Dyadic Multiset Option

/-- All free blocks start at multiples of their size, and no two of them are buddies
that could be merged. -/
structure Tidy (zone : Zone) : Prop where
  aligned : ∀ k ∈ orders, ∀ a ∈ zone.blocks k, 2 ^ k ∣ a
  noBuddies : ∀ k ∈ orders, k < maxOrder - 1 → ∀ a ∈ zone.blocks k, a ^^^ 2 ^ k ∉ zone.blocks k

variable {b k a fuel stop current x : ℕ} {m : Multiset ℕ} {zone : Zone} {F : Set ℕ}

section Zone

variable {md md' : Metadata} {zone zone' : Zone} {F : Set ℕ}

theorem Tidy.congr (h : Tidy zone) (hb : SameBlocks zone zone') : Tidy zone' where
  aligned k hk a ha := h.aligned k hk a (by rwa [← hb k hk])
  noBuddies k hk hk' a ha := by
    rw [hb k hk] at ha ⊢
    exact h.noBuddies k hk hk' a ha

theorem Tidy.alloc (h : Tidy zone) (h0 : ∀ j ∈ orders, 0 ∉ zone.blocks j) {count t n : ℕ}
    (hc : countToOrder count = some (t, n)) (hf : buddyAllocZone md zone count = some (md', zone', b)) :
    Tidy zone' ∧ (b ≠ 0 → 2 ^ t ∣ b) := by
  obtain ⟨hto, -, -⟩ := countToOrder_eq_some hc
  rw [buddyAllocZone, hc] at hf
  dsimp only at hf
  split_ifs at hf with hlt
  · cases hf
    exact ⟨h, fun hb => absurd rfl hb⟩
  rcases hp : buddyAllocOrderLocked md zone t with - | ⟨md1, zone1, b1⟩
  · simp [hp] at hf
  simp only [hp, bind_eq_bind, bind_some] at hf
  obtain ⟨-, hzero, hne⟩ := buddyAllocOrderLocked_spec hto h0 hp
  split_ifs at hf with hb
  swap
  · cases hf
    exact ⟨h.congr (hzero (not_not.mp hb)), fun hb' => absurd hb' hb⟩
  cases hf
  obtain ⟨k, hk, htk, hbk, -, hspl⟩ := (hne hb).split
  have hdvd := h.aligned k hk b hbk
  refine ⟨⟨fun j hj a ha => ?_, fun j hj hj' a ha => ?_⟩, fun _ => (pow_dvd_pow 2 htk).trans hdvd⟩
  · change a ∈ zone1.blocks j at ha
    rw [hspl j hj] at ha
    split_ifs at ha with h1 h2
    · obtain rfl := mem_singleton.mp ha
      exact Nat.dvd_add ((pow_dvd_pow 2 h1.2.le).trans hdvd) dvd_rfl
    · rw [h2]
      exact h.aligned k hk a (mem_of_mem_erase ha)
    · exact h.aligned j hj a ha
  · change a ∈ zone1.blocks j at ha
    change a ^^^ 2 ^ j ∉ zone1.blocks j
    rw [hspl j hj] at ha ⊢
    split_ifs at ha ⊢ with h1 h2
    · obtain rfl := mem_singleton.mp ha
      rw [mem_singleton]
      exact xor_pow_ne j _
    · subst h2
      exact fun hm => h.noBuddies j hj hj' a (mem_of_mem_erase ha) (mem_of_mem_erase hm)
    · exact h.noBuddies j hj hj' a ha

theorem noBuddies_cons (hm : ∀ b ∈ m, b ^^^ 2 ^ k ∉ m) (ha : a ^^^ 2 ^ k ∉ m) :
    ∀ b ∈ a ::ₘ m, b ^^^ 2 ^ k ∉ a ::ₘ m := by
  intro b hb
  rw [mem_cons] at hb ⊢
  rintro (he | hmem)
  · rcases hb with rfl | hb
    · exact xor_pow_ne _ _ he
    · rw [← he, Nat.xor_assoc, Nat.xor_self, Nat.xor_zero] at ha
      exact ha hb
  · rcases hb with rfl | hb
    · exact ha hmem
    · exact hm b hb hmem

theorem Merged.buddy_notMem {k' a' : ℕ} (hm : Merged zone zone' k a k' a') (hal : 2 ^ k ∣ a)
    (hlt : k' < maxOrder - 1) : a' ^^^ 2 ^ k' ∉ zone'.blocks k' := by
  rcases hm.buddy with h30 | hna | hn
  · exact absurd hlt (by rw [h30]; decide)
  · exact absurd (hm.aligned hal) hna
  · exact hn

theorem Tidy.free (h : Tidy zone) (hz : ZoneSound zone F) (hk : k ∈ orders) (hin : BlockIn zone k a)
    (hal : 2 ^ k ∣ a) (hend : zonePhysEnd zone < 2 ^ 64)
    (hf : buddyFreeZoneLocked md zone a k = some (md', zone')) : Tidy zone' := by
  have hk' := mem_orders.mp hk
  obtain ⟨-, hm⟩ := freeMerge_spec (maxOrder - 1 - k) md zone a k hk'.1
    (by simp only [maxOrder]; omega) hin hend hz.inside
  rw [buddyFreeZoneLocked] at hf
  set r := freeMerge (maxOrder - 1 - k) md zone a k
  have hko : r.2.2.2 ∈ orders := mem_orders.mpr ⟨hk'.1.trans hm.le, hm.lt⟩
  rcases hp : zonePush r.1 r.2.1 r.2.2.2 r.2.2.1 with - | ⟨md2, zone2⟩
  · simp [hp] at hf
  simp only [hp, bind_eq_bind, bind_some] at hf
  cases hf
  obtain ⟨-, ha, -⟩ := zonePush_eq_some hko hp
  have hsub : ∀ j ∈ orders, ∀ b ∈ r.2.1.blocks j, b ∈ zone.blocks j := fun j hj b hb =>
    mem_of_le (hm.sub j hj) hb
  refine ⟨fun j hj b hb => ?_, fun j hj hj' b hb => ?_⟩
  · change b ∈ zone2.blocks j at hb
    by_cases hjk : j = r.2.2.2
    · rw [hjk, ha.self, mem_cons] at hb
      rcases hb with rfl | hb
      · rw [hjk]; exact hm.aligned hal
      · exact h.aligned j hj b (hsub j hj b (hjk ▸ hb))
    · rw [ha.other j hj hjk] at hb
      exact h.aligned j hj b (hsub j hj b hb)
  · change b ∈ zone2.blocks j at hb
    change b ^^^ 2 ^ j ∉ zone2.blocks j
    by_cases hjk : j = r.2.2.2
    · rw [hjk] at hb hj' ⊢
      rw [ha.self] at hb ⊢
      exact noBuddies_cons (fun c hc hc' => h.noBuddies _ hko hj' c (hsub _ hko c hc)
        (hsub _ hko _ hc')) (hm.buddy_notMem hal hj') b hb
    · rw [ha.other j hj hjk] at hb ⊢
      exact fun hmem => h.noBuddies j hj hj' b (hsub j hj b hb) (hsub j hj _ hmem)

/-- A region is added piece by piece; with one unit of fuel for each page the loop
reaches the end of the region, and it keeps whatever freeing an aligned piece keeps. -/
theorem addPieces_invariant (P : ℕ → Metadata → Zone → Prop)
    (hstep : ∀ c k md zone md' zone', P c md zone → pageSize ∣ c → k ∈ orders → 2 ^ k ∣ c → c + 2 ^ k ≤ stop → buddyFreeZoneLocked md zone c k = some (md', zone') → P (c + 2 ^ k) md' { zone' with managedPages := zone'.managedPages + orderToPages k })
    (hP : P current md zone) (hc : pageSize ∣ current) (hs : pageSize ∣ stop) (hle : current ≤ stop)
    (hfuel : stop ≤ current + fuel * pageSize) (hf : addPieces stop fuel md zone current = some (md', zone')) :
    P stop md' zone' := by
  induction fuel generalizing md zone current with
  | zero =>
    cases hf
    obtain rfl : current = stop := by omega
    exact hP
  | succ fuel ih =>
    rw [addPieces] at hf
    split_ifs at hf with hlt
    · obtain ⟨hko, hal, hfit⟩ := pieceOrder_spec hc hs hlt
      set k := pieceOrder current stop
      rcases hp : buddyFreeZoneLocked md zone current k with - | ⟨md1, zone1⟩
      · simp [hp] at hf
      simp only [hp, bind_eq_bind, bind_some] at hf
      have hpk : pageSize ∣ 2 ^ k := pageSize_dvd_pow (mem_orders.mp hko).1
      have hpp : pageSize ≤ 2 ^ k := Nat.le_of_dvd (by positivity) hpk
      refine ih (hstep current k md zone md1 zone1 hP hc hko hal hfit hp) (Nat.dvd_add hc hpk) hfit ?_ hf
      rw [Nat.succ_mul] at hfuel
      omega
    · cases hf
      obtain rfl : current = stop := by omega
      exact hP

theorem addPieces_total (P : ℕ → Metadata → Zone → Prop)
    (hstep : ∀ c k md zone, P c md zone → pageSize ∣ c → k ∈ orders → 2 ^ k ∣ c → c + 2 ^ k ≤ stop → ∃ md' zone', buddyFreeZoneLocked md zone c k = some (md', zone') ∧ P (c + 2 ^ k) md' { zone' with managedPages := zone'.managedPages + orderToPages k })
    (hP : P current md zone) (hc : pageSize ∣ current) (hs : pageSize ∣ stop) (hle : current ≤ stop)
    (hfuel : stop ≤ current + fuel * pageSize) :
    ∃ md' zone', addPieces stop fuel md zone current = some (md', zone') ∧ P stop md' zone' := by
  have hsome : ∃ r, addPieces stop fuel md zone current = some r := by
    clear hle hfuel
    induction fuel generalizing md zone current with
    | zero => exact ⟨(md, zone), rfl⟩
    | succ fuel ih =>
      rw [addPieces]
      split_ifs with hlt
      · obtain ⟨hko, hal, hfit⟩ := pieceOrder_spec hc hs hlt
        obtain ⟨md1, zone1, hp, h₁⟩ := hstep current _ md zone hP hc hko hal hfit
        simp only [hp, bind_eq_bind, bind_some]
        exact ih h₁ (Nat.dvd_add hc (pageSize_dvd_pow (mem_orders.mp hko).1))
      · exact ⟨(md, zone), rfl⟩
  obtain ⟨⟨md', zone'⟩, hf⟩ := hsome
  refine ⟨md', zone', hf, addPieces_invariant P ?_ hP hc hs hle hfuel hf⟩
  intro c k md zone md1 zone1 h hpc hk hal hfit hp
  obtain ⟨md2, zone2, hp', h'⟩ := hstep c k md zone h hpc hk hal hfit
  cases hp.symm.trans hp'
  exact h'

/-- The zone while a region is added to it: `z` has the pages of `F` and those of the
region from `current` up to `c`. -/
structure Adding (zone : Zone) (F : Set ℕ) (current stop c : ℕ) (z : Zone) : Prop where
  le : current ≤ c
  ge : zonePhysStart zone ≤ current
  stop_le : stop ≤ zonePhysEnd zone
  fresh : ∀ p ∈ F, ¬ (current ≤ p * pageSize ∧ p * pageSize < stop)
  sound : ZoneSound z (F ∪ {p | current ≤ p * pageSize ∧ p * pageSize < c})
  bounds : SameBounds zone z
  tidy : Tidy zone → Tidy z

theorem Adding.start (h : ZoneSound zone F) (hge : zonePhysStart zone ≤ current) (hle : stop ≤ zonePhysEnd zone)
    (hd : ∀ p ∈ F, ¬ (current ≤ p * pageSize ∧ p * pageSize < stop)) :
    Adding zone F current stop current zone := by
  have hempty : {p | current ≤ p * pageSize ∧ p * pageSize < current} = ∅ := by
    ext p
    simp only [Set.mem_ofPred_eq, Set.mem_empty_iff_false, iff_false]
    omega
  exact ⟨le_rfl, hge, hle, hd, by rw [hempty, Set.union_empty]; exact h, ⟨rfl, rfl⟩, id⟩

section Piece

variable {z : Zone} {stop current c k : ℕ}

theorem Adding.blockIn (h : Adding zone F current stop c z) (hc : pageSize ∣ c)
    (hfit : c + 2 ^ k ≤ stop) : BlockIn z k c := by
  obtain ⟨e1, e2⟩ := zonePhys_congr h.bounds.start h.bounds.stop
  have h1 := h.le
  have h2 := h.ge
  have h3 := h.stop_le
  exact ⟨hc, by omega, by omega⟩

theorem Adding.disjoint (h : Adding zone F current stop c z) (hfit : c + 2 ^ k ≤ stop) :
    Disjoint (F ∪ {p | current ≤ p * pageSize ∧ p * pageSize < c}) (cellPages k c) := by
  refine Set.disjoint_left.mpr fun p hp hcell => ?_
  obtain ⟨h1, h2⟩ := hcell
  rcases hp with hp | hp
  · exact h.fresh p hp ⟨h.le.trans h1, h2.trans_le hfit⟩
  · exact absurd hp.2 (not_lt.mpr h1)

theorem Adding.physEnd_lt (h : Adding zone F current stop c z) (hend : zonePhysEnd zone < 2 ^ 64) :
    zonePhysEnd z < 2 ^ 64 := by
  obtain ⟨-, e2⟩ := zonePhys_congr h.bounds.start h.bounds.stop
  omega

theorem Adding.piece {z1 : Zone} (h : Adding zone F current stop c z)
    (hend : zonePhysEnd zone < 2 ^ 64) (hc : pageSize ∣ c) (hk : k ∈ orders) (hal : 2 ^ k ∣ c)
    (hfit : c + 2 ^ k ≤ stop) (hf : buddyFreeZoneLocked md z c k = some (md', z1)) :
    Adding zone F current stop (c + 2 ^ k) { z1 with managedPages := z1.managedPages + orderToPages k } := by
  have hin := h.blockIn (k := k) hc hfit
  have hend' := h.physEnd_lt hend
  obtain ⟨hz1, hb1⟩ := h.sound.free hk hin hend' (h.disjoint hfit) hf
  have hle := h.le
  have hunion : F ∪ {p | current ≤ p * pageSize ∧ p * pageSize < c} ∪ cellPages k c =
      F ∪ {p | current ≤ p * pageSize ∧ p * pageSize < c + 2 ^ k} := by
    rw [Set.union_assoc]
    congr 1
    ext p
    simp only [cellPages, InCell, Set.mem_ofPred_eq, Set.mem_union]
    omega
  rw [hunion] at hz1
  exact ⟨hle.trans (Nat.le_add_right _ _), h.ge, h.stop_le, h.fresh,
    ⟨fun j hj b hb => (hz1.inside j hj b hb).congr rfl rfl, hz1.cover, hz1.pages⟩,
    ⟨hb1.start.trans h.bounds.start, hb1.stop.trans h.bounds.stop⟩,
    fun ht => ((h.tidy ht).free h.sound hk hin hal hend' hf).congr fun _ _ => rfl⟩

end Piece

theorem ZoneSound.addPieces (h : ZoneSound zone F) (hc : pageSize ∣ current) (hs : pageSize ∣ stop)
    (hge : zonePhysStart zone ≤ current) (hle : stop ≤ zonePhysEnd zone) (hend : zonePhysEnd zone < 2 ^ 64)
    (hcs : current ≤ stop) (hfuel : stop ≤ current + fuel * pageSize)
    (hd : ∀ p ∈ F, ¬ (current ≤ p * pageSize ∧ p * pageSize < stop))
    (hf : addPieces stop fuel md zone current = some (md', zone')) : Adding zone F current stop stop zone' :=
  addPieces_invariant (fun c _ z => Adding zone F current stop c z)
    (fun _ _ _ _ _ _ hz hpc hko hal hfit hp => hz.piece hend hpc hko hal hfit hp)
    (Adding.start h hge hle hd) hc hs hcs hfuel hf

end Zone

/-- How many blocks of order `k` cover the address `x`. -/
def Zone.hits (zone : Zone) (k x : ℕ) : ℕ :=
  ((zone.blocks k).map fun a => if InCell k a x then 1 else 0).sum

theorem cover_eq_sum_hits (zone : Zone) (x : ℕ) : zone.cover x = ∑ k ∈ orders, zone.hits k x := rfl

theorem hits_of_cons (h : zone.blocks k = a ::ₘ m) (ha : InCell k a x) :
    zone.hits k x = 1 + (m.map fun a => if InCell k a x then 1 else 0).sum := by
  rw [Zone.hits, h, map_cons, sum_cons, if_pos ha]

theorem two_le_cover_of_cons (hk : k ∈ orders) (h : zone.blocks k = a ::ₘ b ::ₘ m) (ha : InCell k a x)
    (hb : InCell k b x) : 2 ≤ zone.cover x := by
  have h2 : 2 ≤ zone.hits k x := by
    rw [hits_of_cons h ha, map_cons, sum_cons, if_pos hb]
    omega
  rw [cover_eq_sum_hits]
  exact h2.trans (Finset.single_le_sum (f := fun k => zone.hits k x) (fun _ _ => Nat.zero_le _) hk)

theorem two_le_cover {j : ℕ} (hk : k ∈ orders) (hj : j ∈ orders) (ha : a ∈ zone.blocks k)
    (hb : b ∈ zone.blocks j) (hx : InCell k a x) (hy : InCell j b x) (hne : ¬ (k = j ∧ a = b)) :
    2 ≤ zone.cover x := by
  obtain ⟨m, hm⟩ := exists_cons_of_mem ha
  by_cases hkj : k = j
  · subst hkj
    rw [hm, mem_cons] at hb
    obtain ⟨m', rfl⟩ := exists_cons_of_mem (hb.resolve_left fun h => hne ⟨rfl, h.symm⟩)
    exact two_le_cover_of_cons hk hm hx hy
  · obtain ⟨m', hm'⟩ := exists_cons_of_mem hb
    have h2 : 2 ≤ ∑ i ∈ {k, j}, zone.hits i x := by
      rw [Finset.sum_pair hkj, hits_of_cons hm hx, hits_of_cons hm' hy]
      omega
    have hsub : {k, j} ⊆ orders := by
      intro i hi
      rcases Finset.mem_insert.mp hi with rfl | hi
      · exact hk
      · rwa [Finset.mem_singleton.mp hi]
    rw [cover_eq_sum_hits]
    exact h2.trans (Finset.sum_le_sum_of_subset hsub)

theorem ZoneSound.cover_le (hz : ZoneSound zone F) (x : ℕ) : zone.cover x ≤ 1 := by
  rw [hz.cover]
  by_cases h : x / pageSize ∈ F
  · rw [ind_of_mem h]
  · rw [ind_of_notMem h]; exact Nat.zero_le 1

theorem ZoneSound.nodup (hz : ZoneSound zone F) (hk : k ∈ orders) : (zone.blocks k).Nodup := by
  rw [nodup_iff_ne_cons_cons]
  intro a m hm
  have h2 := two_le_cover_of_cons hk hm (inCell_self k a) (inCell_self k a)
  have := hz.cover_le a
  omega

def pageBytes (F : Set ℕ) : Set ℕ := {x | x / pageSize ∈ F}

theorem Tidy.tiling (h : Tidy zone) (hz : ZoneSound zone F) :
    Tiling {b | b.1 ∈ orders ∧ b.2 ∈ zone.blocks b.1} (pageBytes F) minOrder (maxOrder - 1) where
  order_ge k a hb := (mem_orders.mp hb.1).1
  order_le k a hb := Nat.le_pred_of_lt (mem_orders.mp hb.1).2
  aligned k a hb := h.aligned k hb.1 a hb.2
  covers x := by
    constructor
    · intro hx
      have hpos : 0 < zone.cover x := by rw [hz.cover, ind_of_mem (F := F) hx]; exact one_pos
      obtain ⟨k, hk, a, ha, hin⟩ := cover_pos_iff.mp hpos
      exact ⟨k, a, ⟨hk, ha⟩, hin⟩
    · rintro ⟨k, a, hb, hx⟩
      exact hz.mem_of_inCell hb.1 hb.2 hx
  disjoint k a j b x hb hc hx hy := by
    by_contra hne
    have h2 := two_le_cover hb.1 hc.1 hb.2 hc.2 hx hy hne
    have := hz.cover_le x
    omega
  noBuddies k a hb hk hc := h.noBuddies k hb.1 hk a hb.2 hc.2

theorem Tidy.mem_blocks_iff (h : Tidy zone) (hz : ZoneSound zone F) :
    k ∈ orders ∧ a ∈ zone.blocks k ↔ IsMaximal (pageBytes F) minOrder (maxOrder - 1) k a :=
  (h.tiling hz).mem_iff k a

end CoolPotOS
