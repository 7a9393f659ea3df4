import CoolPotOS.Mem.BuddyRun

namespace CoolPotOS

open Dyadic Finset Option

/-- The blocks of order `k` that can be on a list of a tidy zone, less one. -/
def blockLimit (zone : Zone) (k : ℕ) : ℕ :=
  if k < maxOrder - 1 then (zonePhysEnd zone - zonePhysStart zone) / 2 ^ (k + 1)
  else (zonePhysEnd zone - zonePhysStart zone) / 2 ^ k

/-- The metadata pages that the chain of order `k` can come to have. -/
def chainLimit (zone : Zone) (k : ℕ) : ℕ := 1 + blockLimit zone k / pageListEntryCapacity

def zoneLimit (zone : Zone) : ℕ := ∑ k ∈ orders, chainLimit zone k

variable {zone zone' : Zone} {k : ℕ}

theorem card_le_blockLimit {a : ℕ} {m : Multiset ℕ} (hal : ∀ b ∈ a ::ₘ m, 2 ^ k ∣ b)
    (hin : ∀ b ∈ a ::ₘ m, BlockIn zone k b) (hnd : (a ::ₘ m).Nodup)
    (hbud : k < maxOrder - 1 → ∀ b ∈ a ::ₘ m, b ^^^ 2 ^ k ∉ a ::ₘ m) : m.card ≤ blockLimit zone k := by
  have hin' : ∀ b ∈ a ::ₘ m, zonePhysStart zone ≤ b ∧ b + 2 ^ k ≤ zonePhysEnd zone := fun b hb =>
    ⟨(hin b hb).ge, (hin b hb).le⟩
  rw [blockLimit]
  split_ifs with hlt
  · have hpairs : ((a ::ₘ m).map (· / 2 ^ (k + 1))).Nodup := by
      refine hnd.map_on fun b hb c hc he => ?_
      rcases eq_or_eq_xor_of_div_eq (hal b hb) (hal c hc) he with h | h
      · exact h.symm
      · exact absurd (h ▸ hc) (hbud hlt b hb)
    have := card_le_of_pairs_nodup hal hin' hpairs
    rw [Multiset.card_cons] at this
    omega
  · have := card_le_of_nodup hal hin' hnd
    rw [Multiset.card_cons] at this
    omega

/-- The chains of the zone are below their limits, and the pool has a page for
everything the zone may still ask for. -/
structure Roomy (md : Metadata) (zone : Zone) : Prop where
  chains : ∀ k ∈ orders, (zone.area k).length ≤ chainLimit zone k
  room : pagesOut md - zone.chainPages + zoneLimit zone ≤ md.poolPages

theorem blockLimit_congr (hb : SameBounds zone zone') (k : ℕ) : blockLimit zone' k = blockLimit zone k := by
  obtain ⟨e1, e2⟩ := zonePhys_congr hb.start hb.stop
  rw [blockLimit, blockLimit, e1, e2]

theorem chainLimit_congr (hb : SameBounds zone zone') (k : ℕ) : chainLimit zone' k = chainLimit zone k := by
  rw [chainLimit, chainLimit, blockLimit_congr hb]

theorem zoneLimit_congr (hb : SameBounds zone zone') :
    zoneLimit zone' = zoneLimit zone := sum_congr rfl fun k _ => chainLimit_congr hb k

/-- What every step on the lists of a zone does to the pool. -/
structure PoolStep (md : Metadata) (zone : Zone) (md' : Metadata) (zone' : Zone) : Prop where
  bounds : SameBounds zone zone'
  poolPages : md'.poolPages = md.poolPages
  out : pagesOut md' - pagesOut md = zone'.chainPages - zone.chainPages

theorem ListStep.poolStep {md md' : Metadata} (h : ListStep md zone md' zone') :
    PoolStep md zone md' zone' := ⟨h.sameBounds, h.poolPages, h.out⟩

theorem PoolStep.trans {md1 md2 md3 : Metadata} {z1 z2 z3 : Zone} (h : PoolStep md1 z1 md2 z2)
    (h' : PoolStep md2 z2 md3 z3) : PoolStep md1 z1 md3 z3 :=
  ⟨⟨h'.bounds.start.trans h.bounds.start, h'.bounds.stop.trans h.bounds.stop⟩,
    h'.poolPages.trans h.poolPages, by have := h.out; have := h'.out; linarith⟩

section Zone

variable {md md' : Metadata} {zone zone' : Zone} {F : Set ℕ}

theorem Roomy.step (h : Roomy md zone) (hs : PoolStep md zone md' zone')
    (hc : ∀ k ∈ orders, (zone'.area k).length ≤ chainLimit zone k) : Roomy md' zone' := by
  refine ⟨fun k hk => by rw [chainLimit_congr hs.bounds]; exact hc k hk, ?_⟩
  have h1 := h.room
  have h2 := hs.out
  rw [zoneLimit_congr hs.bounds, hs.poolPages]
  linarith

theorem Roomy.shrinks (h : Roomy md zone) (hs : PoolStep md zone md' zone') (hsh : Shrinks zone zone') :
    Roomy md' zone' := h.step hs fun k hk => (hsh k hk).trans (h.chains k hk)

theorem Roomy.push (h : Roomy md zone) {b : ℕ} (hk : k ∈ orders)
    (hcard : (zone.blocks k).card ≤ blockLimit zone k) :
    ∃ md' zone', zonePush md zone k b = some (md', zone') ∧ Roomy md' zone' := by
  have hcap : 0 < pageListEntryCapacity := by decide
  -- a full chain is below its limit
  have hfull : (zone.area k).length * pageListEntryCapacity ≤ (zone.blocks k).card →
      (zone.area k).length + 1 ≤ chainLimit zone k := by
    intro hle
    have := (Nat.le_div_iff_mul_le hcap).mpr (hle.trans hcard)
    rw [chainLimit]
    omega
  rcases hp : zonePush md zone k b with - | ⟨md', zone'⟩
  · exfalso
    have hnone : pageListPush md (zone.area k) b = none := by
      rw [zonePush] at hp
      rcases hq : pageListPush md (zone.area k) b with - | ⟨md1, c⟩
      · rfl
      · simp [hq] at hp
    obtain ⟨hpool, hle⟩ := pageListPush_eq_none hnone
    have hlt : zone.chainPages < zoneLimit zone := by
      rw [Zone.chainPages, zoneLimit, Nat.cast_sum]
      refine sum_lt_sum (fun j hj => Int.ofNat_le.mpr (h.chains j hj)) ⟨k, hk, ?_⟩
      exact Int.ofNat_lt.mpr (hfull hle)
    have := h.room
    linarith
  · obtain ⟨hs, -, hg⟩ := zonePush_eq_some hk hp
    refine ⟨md', zone', rfl, h.step hs.poolStep fun j hj => ?_⟩
    by_cases hjk : j = k
    · subst hjk
      rcases hg.self with he | ⟨he, hle⟩
      · rw [he]; exact h.chains j hj
      · rw [he]; exact hfull hle
    · rw [hg.other j hj hjk]
      exact h.chains j hj

theorem Roomy.split {t b : ℕ} (ht : 12 ≤ t) {n : ℕ} (h : Roomy md zone) (hn : t + n < 32)
    (hempty : ∀ j, t ≤ j → j < t + n → zone.blocks j = 0) :
    ∃ md' zone', allocSplit t b n md zone = some (md', zone') ∧ Roomy md' zone' := by
  induction n generalizing md zone with
  | zero => exact ⟨md, zone, rfl, h⟩
  | succ n ih =>
    have hko : t + n ∈ orders := mem_orders.mpr ⟨by omega, by omega⟩
    obtain ⟨md1, zone1, hp, h₁⟩ := h.push (b := b + orderToBytes (t + n)) hko (by
      rw [hempty (t + n) (by omega) (by omega)]; exact Nat.zero_le _)
    obtain ⟨-, ha, -⟩ := zonePush_eq_some hko hp
    obtain ⟨md2, zone2, hq, h₂⟩ := ih h₁ (by omega) fun j hj hj' => by
      rw [ha.other j (mem_orders.mpr ⟨by omega, by omega⟩) (by omega)]
      exact hempty j hj (by omega)
    refine ⟨md2, zone2, ?_, h₂⟩
    simp only [allocSplit, hp, bind_eq_bind, bind_some]
    exact hq

theorem Roomy.alloc (h : Roomy md zone) (h0 : ∀ j ∈ orders, 0 ∉ zone.blocks j) (count : ℕ) :
    ∃ md' zone' addr, buddyAllocZone md zone count = some (md', zone', addr) ∧ Roomy md' zone' ∧
      PoolStep md zone md' zone' := by
  have hrefl : PoolStep md zone md zone := (ListStep.refl md zone).poolStep
  rw [buddyAllocZone]
  rcases hc : countToOrder count with - | ⟨t, n⟩
  · exact ⟨md, zone, 0, rfl, h, hrefl⟩
  dsimp only
  split_ifs with hlt
  · exact ⟨md, zone, 0, rfl, h, hrefl⟩
  obtain ⟨hto, -, -⟩ := countToOrder_eq_some hc
  have ht := mem_orders.mp hto
  obtain ⟨md', zone', addr, hp, h', hs'⟩ : ∃ md' zone' addr,
      buddyAllocOrderLocked md zone t = some (md', zone', addr) ∧ Roomy md' zone' ∧
        PoolStep md zone md' zone' := by
    obtain ⟨hs, hsh, -, hne⟩ := allocSearch_spec (maxOrder - t) md zone t ht.1
      (by simp only [maxOrder]; omega) h0
    rw [buddyAllocOrderLocked]
    set r := allocSearch (maxOrder - t) md zone t
    have hr := h.shrinks hs.poolStep hsh
    by_cases hz : r.2.2.2 = 0
    · rw [if_pos hz]
      exact ⟨r.1, r.2.1, 0, rfl, hr, hs.poolStep⟩
    · obtain ⟨hk1, hk2, ha, hlow⟩ := hne hz
      obtain ⟨md2, zone2, hq, h₂⟩ := hr.split (b := r.2.2.2) (n := r.2.2.1 - t) ht.1 (by omega)
        fun j hj hj' => by
          rw [← ha.other j (mem_orders.mpr ⟨by omega, by omega⟩) (by omega)]
          exact hlow j hj (by omega)
      obtain ⟨hs2, -⟩ := allocSplit_spec ht.1 (by omega) hq
      refine ⟨md2, zone2, r.2.2.2, ?_, h₂, (hs.trans hs2).poolStep⟩
      rw [if_neg hz, hq]
      rfl
  simp only [hp, bind_eq_bind, bind_some]
  split_ifs with ha
  · exact ⟨md', _, addr, rfl, ⟨h'.chains, h'.room⟩, ⟨hs'.bounds.start, hs'.bounds.stop⟩,
      hs'.poolPages, hs'.out⟩
  · exact ⟨md', zone', addr, rfl, h', hs'⟩

theorem Roomy.free (h : Roomy md zone) (hz : ZoneSound zone F) (ht : Tidy zone) {a : ℕ} (hk : k ∈ orders)
    (hin : BlockIn zone k a) (hal : 2 ^ k ∣ a) (hend : zonePhysEnd zone < 2 ^ 64)
    (hd : Disjoint F (cellPages k a)) :
    ∃ md' zone', buddyFreeZoneLocked md zone a k = some (md', zone') ∧ Roomy md' zone' ∧
      PoolStep md zone md' zone' := by
  have hk' := mem_orders.mp hk
  obtain ⟨hs, hm⟩ := freeMerge_spec (maxOrder - 1 - k) md zone a k hk'.1
    (by simp only [maxOrder]; omega) hin hend hz.inside
  rw [buddyFreeZoneLocked]
  set r := freeMerge (maxOrder - 1 - k) md zone a k
  have hko : r.2.2.2 ∈ orders := mem_orders.mpr ⟨hk'.1.trans hm.le, hm.lt⟩
  have hr := h.shrinks hs.poolStep hm.shrinks
  have hsub : ∀ b ∈ r.2.1.blocks r.2.2.2, b ∈ zone.blocks r.2.2.2 := fun b hb =>
    Multiset.mem_of_le (hm.sub _ hko) hb
  -- the merged block is not on its list: its pages were not free before
  have hnew : r.2.2.1 ∉ r.2.1.blocks r.2.2.2 := by
    intro hmem
    have hpos := cover_pos_iff.mpr ⟨_, hko, _, hmem, inCell_self r.2.2.2 r.2.2.1⟩
    have hcov := hm.cover r.2.2.1
    rw [if_pos (inCell_self _ _), hz.cover, ← ind_cellPages hk'.1 hin.page, ← ind_union hd] at hcov
    have hle : ind (F ∪ cellPages k a) (r.2.2.1 / pageSize) ≤ 1 := by
      by_cases hp : r.2.2.1 / pageSize ∈ F ∪ cellPages k a
      · rw [ind_of_mem hp]
      · rw [ind_of_notMem hp]; exact Nat.zero_le 1
    omega
  have hcard : (r.2.1.blocks r.2.2.2).card ≤ blockLimit r.2.1 r.2.2.2 := by
    rw [blockLimit_congr hs.sameBounds]
    refine card_le_blockLimit (a := r.2.2.1) ?_ ?_ ?_ ?_
    · intro b hb
      rcases Multiset.mem_cons.mp hb with rfl | hb
      · exact hm.aligned hal
      · exact ht.aligned _ hko b (hsub b hb)
    · intro b hb
      rcases Multiset.mem_cons.mp hb with rfl | hb
      · exact hm.inside
      · exact hz.inside _ hko b (hsub b hb)
    · exact Multiset.nodup_cons.mpr ⟨hnew, Multiset.nodup_of_le (hm.sub _ hko) (hz.nodup hko)⟩
    · intro hlt
      exact noBuddies_cons (fun c hc hc' => ht.noBuddies _ hko hlt c (hsub c hc) (hsub _ hc'))
        (hm.buddy_notMem hal hlt)
  obtain ⟨md', zone', hp, h'⟩ := hr.push (b := r.2.2.1) hko hcard
  obtain ⟨hs', -⟩ := zonePush_eq_some hko hp
  simp only [hp, bind_eq_bind, bind_some]
  have hst := hs.trans hs'
  exact ⟨md', _, rfl, ⟨h'.chains, h'.room⟩, ⟨hst.start, hst.stop⟩, hst.poolPages, hst.out⟩

theorem Roomy.addPieces {fuel stop current : ℕ} (h : Roomy md zone) (hz : ZoneSound zone F)
    (ht : Tidy zone) (hc : pageSize ∣ current) (hs : pageSize ∣ stop)
    (hge : zonePhysStart zone ≤ current) (hle : stop ≤ zonePhysEnd zone)
    (hend : zonePhysEnd zone < 2 ^ 64) (hcs : current ≤ stop) (hfuel : stop ≤ current + fuel * pageSize)
    (hd : ∀ p ∈ F, ¬ (current ≤ p * pageSize ∧ p * pageSize < stop)) :
    ∃ md' zone', CoolPotOS.addPieces stop fuel md zone current = some (md', zone') ∧
      Roomy md' zone' ∧ PoolStep md zone md' zone' := by
  obtain ⟨md', zone', hf, -, hr⟩ : ∃ md' zone',
      CoolPotOS.addPieces stop fuel md zone current = some (md', zone') ∧
        Adding zone F current stop stop zone' ∧ Roomy md' zone' ∧ PoolStep md zone md' zone' := by
    refine addPieces_total
      (fun c md1 z => Adding zone F current stop c z ∧ Roomy md1 z ∧ PoolStep md zone md1 z) ?_
      ⟨Adding.start hz hge hle hd, h, (ListStep.refl md zone).poolStep⟩ hc hs hcs hfuel
    rintro c k md1 z ⟨ha, hr, hp⟩ hpc hk hal hfit
    obtain ⟨md2, z2, hf, hr2, hp2⟩ := hr.free ha.sound (ha.tidy ht) hk (ha.blockIn hpc hfit) hal
      (ha.physEnd_lt hend) (ha.disjoint hfit)
    have hp' := hp.trans hp2
    exact ⟨md2, z2, hf, ha.piece hend hpc hk hal hfit hf, ⟨hr2.chains, hr2.room⟩,
      ⟨hp'.bounds.start, hp'.bounds.stop⟩, hp'.poolPages, hp'.out⟩
  exact ⟨md', zone', hf, hr⟩

end Zone

theorem sum_halves_le (n P : ℕ) : ∑ i ∈ range n, P / 2 ^ (i + 1) + P / 2 ^ n ≤ P := by
  induction n with
  | zero => simp
  | succ n ih =>
    have hhalf : P / 2 ^ (n + 1) + P / 2 ^ (n + 1) ≤ P / 2 ^ n := by
      rw [pow_succ, ← Nat.div_div_eq_div_mul]
      omega
    rw [sum_range_succ]
    omega

theorem sum_div_le_div_sum (c : ℕ) (f : ℕ → ℕ) (s : Finset ℕ) : ∑ k ∈ s, f k / c ≤ (∑ k ∈ s, f k) / c := by
  induction s using Finset.induction_on with
  | empty => simp
  | insert k s hk ih =>
    rw [sum_insert hk, sum_insert hk]
    exact (Nat.add_le_add_left ih _).trans (Nat.div_add_div_le_add_div)

theorem sum_blockLimit_le (zone : Zone) :
    ∑ k ∈ orders, blockLimit zone k ≤ zone.zoneEndPfn - zone.zoneStartPfn := by
  set P := zone.zoneEndPfn - zone.zoneStartPfn
  have hbytes : zonePhysEnd zone - zonePhysStart zone = P * 2 ^ 12 := by
    rw [zonePhysEnd, zonePhysStart, ← Nat.sub_mul]
    rfl
  have hdiv : ∀ i, P * 2 ^ 12 / 2 ^ (i + 12) = P / 2 ^ i := by
    intro i
    rw [pow_add]
    exact Nat.mul_div_mul_right P _ (by norm_num)
  have hlow : ∀ i < 18, blockLimit zone (12 + i) = P / 2 ^ (i + 1) := by
    intro i hi
    have hlt : 12 + i < maxOrder - 1 := by simp only [maxOrder]; omega
    rw [blockLimit, if_pos hlt, hbytes, show 12 + i + 1 = i + 1 + 12 by omega, hdiv]
  have hhigh : blockLimit zone (12 + 18) = P / 2 ^ 18 := by
    rw [blockLimit, if_neg (by decide), hbytes, show 12 + 18 = 18 + 12 by omega, hdiv]
  have hrange : ∑ k ∈ orders, blockLimit zone k = ∑ i ∈ range 19, blockLimit zone (12 + i) :=
    sum_Ico_eq_sum_range _ 12 31
  rw [hrange, sum_range_succ, hhigh, sum_congr rfl fun i hi => hlow i (mem_range.mp hi)]
  exact sum_halves_le 18 P

theorem zoneLimit_le (zone : Zone) :
    zoneLimit zone ≤ orderCount + (zone.zoneEndPfn - zone.zoneStartPfn) / pageListEntryCapacity := by
  have hsum : zoneLimit zone = orderCount + ∑ k ∈ orders, blockLimit zone k / pageListEntryCapacity := by
    simp only [zoneLimit, chainLimit, sum_add_distrib, sum_const, smul_eq_mul]
    rfl
  rw [hsum]
  refine Nat.add_le_add_left ((sum_div_le_div_sum _ _ _).trans ?_) _
  exact Nat.div_le_div_right (sum_blockLimit_le zone)

end CoolPotOS
