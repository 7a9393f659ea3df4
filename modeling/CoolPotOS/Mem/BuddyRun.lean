import CoolPotOS.Mem.BuddyTidy

namespace CoolPotOS

open Dyadic Option Set

/-- The free pages of a zone: managed, not handed out, and between its bounds. -/
def freePagesOf (M U : Set ℕ) (zone : Zone) : Set ℕ :=
  {p | p ∈ M ∧ p ∉ U ∧ zone.zoneStartPfn ≤ p ∧ p < zone.zoneEndPfn}

/-- The invariant of the allocator for the managed pages `M` and the pages `U`
that are handed out. -/
structure SoundAt (M U : Set ℕ) (s : Buddy) : Prop where
  zone : ∀ t z, s.zones t = some z → ZoneSound z (freePagesOf M U z)
  type : ∀ t z, s.zones t = some z →
    ∀ p, z.zoneStartPfn ≤ p → p < z.zoneEndPfn → physToZoneType (p * pageSize) = t
  stop : ∀ t z, s.zones t = some z → z.zoneEndPfn ≤ s.memorySize / pageSize
  memory : s.memorySize < 2 ^ 64
  length : s.memorySize / pageSize ≤ s.usingRegions.length
  layout : ∀ p < s.memorySize / pageSize,
    ∃ z, s.zones (physToZoneType (p * pageSize)) = some z ∧ z.zoneStartPfn ≤ p ∧ p < z.zoneEndPfn
  managed : ∀ p ∈ M, p ≠ 0 ∧ p < s.memorySize / pageSize
  used : U ⊆ M

/-- The pages whose bit is set in the using-regions bitmap. -/
def handedOut (s : Buddy) : Set ℕ :=
  {p | p < s.memorySize / pageSize ∧ bitmapGet s.usingRegions p = true}

/-- The invariant with the handed-out pages read off the bitmap; a page that is not
handed out has no references. -/
structure Sound (M : Set ℕ) (s : Buddy) : Prop where
  at_ : SoundAt M (handedOut s) s
  idle : ∀ p < s.memorySize / pageSize, p ∉ handedOut s → s.refcount p = 0

variable {z : Zone} {count addr n : ℕ} {types : List ZoneType} {s s' : Buddy} {M U : Set ℕ}

section Zones

variable {M U : Set ℕ} {s : Buddy}

theorem SoundAt.physEnd_lt (h : SoundAt M U s) {t : ZoneType} (hz : s.zones t = some z) :
    zonePhysEnd z < 2 ^ 64 := by
  have h1 := Nat.mul_le_mul_right pageSize (h.stop t z hz)
  have h2 := Nat.div_mul_le_self s.memorySize pageSize
  exact lt_of_le_of_lt (h1.trans h2) h.memory

theorem SoundAt.zero_notMem (h : SoundAt M U s) (z : Zone) : 0 ∉ freePagesOf M U z :=
  fun h0 => (h.managed 0 h0.1).1 rfl

theorem SoundAt.setZone (h : SoundAt M U s) {M' U' : Set ℕ} {t : ZoneType} {z' : Zone} (hz : s.zones t = some z)
    (hb : SameBounds z z') (md : Metadata) (hz' : ZoneSound z' (freePagesOf M' U' z'))
    (hM : ∀ p, p ∈ M' ↔ p ∈ M ∨ p ∈ M' ∧ p ≠ 0 ∧ z.zoneStartPfn ≤ p ∧ p < z.zoneEndPfn)
    (hU : ∀ p, ¬ (z.zoneStartPfn ≤ p ∧ p < z.zoneEndPfn) → (p ∈ U' ↔ p ∈ U)) (hU' : U' ⊆ M') :
    SoundAt M' U' (s.setZone md t z') := by
  have hzones : ∀ t' w, (s.setZone md t z').zones t' = some w →
      (t' = t ∧ w = z') ∨ (t' ≠ t ∧ s.zones t' = some w) := by
    intro t' w hw
    simp only [Buddy.setZone, Function.update_apply] at hw
    split_ifs at hw with ht
    · exact .inl ⟨ht, (Option.some.inj hw).symm⟩
    · exact .inr ⟨ht, hw⟩
  have hself : (s.setZone md t z').zones t = some z' := by simp [Buddy.setZone]
  refine ⟨fun t' w hw => ?_, fun t' w hw p hp hp' => ?_, fun t' w hw => ?_, h.memory, h.length,
    fun p hp => ?_, fun p hp => ?_, hU'⟩
  · rcases hzones t' w hw with ⟨rfl, rfl⟩ | ⟨hne, hw'⟩
    · exact hz'
    · have hsame : freePagesOf M' U' w = freePagesOf M U w := by
        ext p
        have hout : w.zoneStartPfn ≤ p ∧ p < w.zoneEndPfn →
            ¬ (z.zoneStartPfn ≤ p ∧ p < z.zoneEndPfn) := fun hw1 hz1 =>
          hne ((h.type t' w hw' p hw1.1 hw1.2).symm.trans (h.type t z hz p hz1.1 hz1.2))
        have hMp := hM p
        have hUp := hU p
        simp only [freePagesOf, mem_ofPred_eq]
        tauto
      rw [hsame]
      exact h.zone t' w hw'
  · rcases hzones t' w hw with ⟨rfl, rfl⟩ | ⟨-, hw'⟩
    · exact h.type t' z hz p (hb.start ▸ hp) (hb.stop ▸ hp')
    · exact h.type t' w hw' p hp hp'
  · rcases hzones t' w hw with ⟨rfl, rfl⟩ | ⟨-, hw'⟩
    · rw [hb.stop]; exact h.stop t' z hz
    · exact h.stop t' w hw'
  · obtain ⟨w, hw, hw1⟩ := h.layout p hp
    by_cases ht : physToZoneType (p * pageSize) = t
    · rw [ht] at hw ⊢
      obtain rfl : w = z := Option.some.inj (hw.symm.trans hz)
      exact ⟨z', hself, by rw [hb.start]; exact hw1.1, by rw [hb.stop]; exact hw1.2⟩
    · exact ⟨w, by simpa [Buddy.setZone, Function.update_apply, ht] using hw, hw1⟩
  · rcases (hM p).mp hp with hpM | ⟨-, hp0, hp1⟩
    · exact h.managed p hpM
    · exact ⟨hp0, hp1.2.trans_le (h.stop t z hz)⟩

end Zones

/-- The zones are tried one after the other; a zone without a block of the size
is left with the same blocks. -/
theorem allocFromZones_eq_some (P : Buddy → Prop)
    (hskip : ∀ s t z md' z', P s → s.zones t = some z → buddyAllocZone s.metadata z count = some (md', z', 0) → P (s.setZone md' t z'))
    (hP : P s) (h : allocFromZones count types s = some (s', addr)) :
    (addr = 0 ∧ P s') ∨ (addr ≠ 0 ∧ ∃ s1 t z md' z', P s1 ∧ s1.zones t = some z ∧
      buddyAllocZone s1.metadata z count = some (md', z', addr) ∧ s' = s1.setZone md' t z') := by
  induction types generalizing s with
  | nil => cases h; exact .inl ⟨rfl, hP⟩
  | cons t types ih =>
    rw [allocFromZones] at h
    split at h
    · exact ih hP h
    · rename_i z hz
      split_ifs at h
      · rcases hb : buddyAllocZone s.metadata z count with - | ⟨md', z', a⟩
        · simp [hb] at h
        simp only [hb, bind_eq_bind, bind_some] at h
        split_ifs at h with ha
        · cases h
          exact .inr ⟨ha, s, t, z, md', z', hP, hz, hb, rfl⟩
        · obtain rfl : a = 0 := not_not.mp ha
          exact ih (hskip s t z md' z' hP hz hb) h
      · exact ih hP h

/-- The fields that an allocation does not touch. -/
structure SameFields (s s' : Buddy) : Prop where
  memorySize : s'.memorySize = s.memorySize
  usingRegions : s'.usingRegions = s.usingRegions
  usableRegions : s'.usableRegions = s.usableRegions
  refcount : s'.refcount = s.refcount

def AllTidy (s : Buddy) : Prop := ∀ t z, s.zones t = some z → Tidy z

theorem AllTidy.setZone (h : AllTidy s) (hz : Tidy z) (md : Metadata) (t : ZoneType) :
    AllTidy (s.setZone md t z) := by
  intro t' w hw
  simp only [Buddy.setZone, Function.update_apply] at hw
  split_ifs at hw with ht
  · cases hw; exact hz
  · exact h t' w hw

/-- A block of order `t` at `addr` of managed pages that are not handed out, in one zone. -/
structure FreshBlock (M U : Set ℕ) (s : Buddy) (t addr : ℕ) : Prop where
  page : pageSize ∣ addr
  sub : cellPages t addr ⊆ M \ U
  lt : ∀ p ∈ cellPages t addr, p < s.memorySize / pageSize
  zone : ∀ p ∈ cellPages t addr, physToZoneType (p * pageSize) = physToZoneType addr
  aligned : AllTidy s → 2 ^ t ∣ addr

theorem SoundAt.skip {t : ℕ} (hc : countToOrder count = some (t, n)) (hs : SoundAt M U s) {type : ZoneType}
    {z' : Zone} {md' : Metadata} (hz : s.zones type = some z)
    (hb : buddyAllocZone s.metadata z count = some (md', z', 0)) : SoundAt M U (s.setZone md' type z') := by
  obtain ⟨hbd, hzero, -⟩ := (hs.zone type z hz).alloc (hs.zero_notMem z) hc hb
  refine hs.setZone hz hbd md' ?_ (fun p => ⟨.inl, fun h => h.elim id And.left⟩) (fun p _ => Iff.rfl) hs.used
  have hF : freePagesOf M U z' = freePagesOf M U z := by
    simp only [freePagesOf, hbd.start, hbd.stop]
  rw [hF]
  exact hzero rfl

theorem allocFromZones_soundAt {t : ℕ} (hc : countToOrder count = some (t, n)) (hs : SoundAt M U s)
    (h : allocFromZones count types s = some (s', addr)) :
    SameFields s s' ∧ (AllTidy s → AllTidy s') ∧ (addr = 0 → SoundAt M U s') ∧
      (addr ≠ 0 → SoundAt M (U ∪ cellPages t addr) s' ∧ FreshBlock M U s t addr) := by
  have hskip : ∀ s1 type z md' z',
      (SoundAt M U s1 ∧ SameFields s s1 ∧ (AllTidy s → AllTidy s1)) → s1.zones type = some z →
      buddyAllocZone s1.metadata z count = some (md', z', 0) →
      SoundAt M U (s1.setZone md' type z') ∧ SameFields s (s1.setZone md' type z') ∧
        (AllTidy s → AllTidy (s1.setZone md' type z')) := by
    rintro s1 type z md' z' ⟨hs1, hf1, ht1⟩ hz hb
    have h0 := (hs1.zone type z hz).zero_notMem (hs1.zero_notMem z)
    exact ⟨hs1.skip hc hz hb, ⟨hf1.1, hf1.2, hf1.3, hf1.4⟩, fun ht => (ht1 ht).setZone
      ((ht1 ht type z hz).alloc h0 hc hb).1 md' type⟩
  rcases allocFromZones_eq_some _ hskip ⟨hs, ⟨rfl, rfl, rfl, rfl⟩, id⟩ h with
    ⟨ha, hs', hf', ht'⟩ | ⟨ha, s1, type, z, md', z', ⟨hs1, hf1, ht1⟩, hz, hb, rfl⟩
  · exact ⟨hf', ht', fun _ => hs', fun h => absurd ha h⟩
  have hzs := hs1.zone type z hz
  obtain ⟨hbd, -, hne⟩ := hzs.alloc (hs1.zero_notMem z) hc hb
  obtain ⟨hzs', hsub, hin⟩ := hne ha
  have htidy := fun ht => (ht1 ht type z hz).alloc (hzs.zero_notMem (hs1.zero_notMem z)) hc hb
  refine ⟨⟨hf1.1, hf1.2, hf1.3, hf1.4⟩, fun ht => (ht1 ht).setZone (htidy ht).1 md' type,
    fun h => absurd h ha, fun _ => ⟨?_, hin.page, ?_, ?_, ?_, fun ht => (htidy ht).2 ha⟩⟩
  · refine hs1.setZone hz hbd md' ?_ (fun p => ⟨.inl, fun h => h.elim id And.left⟩) (fun p hp => ?_)
      (union_subset hs1.used fun p hp => (hsub hp).1)
    · have hF : freePagesOf M (U ∪ cellPages t addr) z' = freePagesOf M U z \ cellPages t addr := by
        ext p
        simp only [freePagesOf, hbd.start, hbd.stop, mem_ofPred_eq, mem_sdiff, mem_union]
        tauto
      rw [hF]
      exact hzs'
    · exact ⟨fun h => h.elim id fun h' => absurd (hsub h').2.2 hp, .inl⟩
  · exact fun p hp => ⟨(hsub hp).1, (hsub hp).2.1⟩
  · intro p hp
    rw [← hf1.memorySize]
    exact (hsub hp).2.2.2.trans_le (hs1.stop type z hz)
  · have htype : ∀ p ∈ cellPages t addr, physToZoneType (p * pageSize) = type := fun p hp =>
      hs1.type type z hz p (hsub hp).2.2.1 (hsub hp).2.2.2
    have hself := htype (addr / pageSize) (by
      rw [cellPages, mem_ofPred_eq, Nat.div_mul_cancel hin.page]
      exact inCell_self t addr)
    rw [Nat.div_mul_cancel hin.page] at hself
    exact fun p hp => (htype p hp).trans hself.symm

structure HandsOut (M : Set ℕ) (s s' : Buddy) (count addr t n : ℕ) : Prop where
  order : countToOrder count = some (t, n)
  fresh : FreshBlock M (handedOut s) s t addr
  out : handedOut s' = handedOut s ∪ cellPages t addr
  refs : ∀ p ∈ cellPages t addr, s'.refcount p = 1
  frame : ∀ p ∉ cellPages t addr, s'.refcount p = s.refcount p

theorem allocFramesFrom_sound (hs : Sound M s) (h : allocFramesFrom types s count = some (s', addr)) :
    Sound M s' ∧ s'.memorySize = s.memorySize ∧ s'.usableRegions = s.usableRegions ∧
      (AllTidy s → AllTidy s') ∧ (addr = 0 → handedOut s' = handedOut s ∧ s'.refcount = s.refcount) ∧
      (addr ≠ 0 → ∃ t n, HandsOut M s s' count addr t n) := by
  rw [allocFramesFrom, countToPages] at h
  rcases hc : countToOrder count with - | ⟨t, n⟩
  · simp only [hc, map_none] at h
    cases h
    exact ⟨hs, rfl, rfl, id, fun _ => ⟨rfl, rfl⟩, fun h => absurd rfl h⟩
  simp only [hc, map_some] at h
  rcases hz : allocFromZones count types s with - | ⟨s1, a⟩
  · simp [hz] at h
  simp only [hz, bind_eq_bind, bind_some] at h
  obtain ⟨hto, hn, -⟩ := countToOrder_eq_some hc
  obtain ⟨hf, htidy, hzero, hne⟩ := allocFromZones_soundAt hc hs.at_ hz
  have hout : handedOut s1 = handedOut s := by
    simp only [handedOut, hf.memorySize, hf.usingRegions]
  split_ifs at h with ha
  · cases h
    refine ⟨⟨by rw [hout]; exact hzero ha, fun p hp hp' => ?_⟩, hf.memorySize, hf.usableRegions,
      htidy, fun _ => ⟨hout, hf.refcount⟩, fun h => absurd rfl h⟩
    rw [hf.refcount]
    exact hs.idle p (hf.memorySize ▸ hp) (hout ▸ hp')
  cases h
  obtain ⟨hs1, hfresh⟩ := hne ha
  have hcell : ∀ p, p ∈ cellPages t addr ↔ addr / pageSize ≤ p ∧ p < addr / pageSize + n := fun p => by
    rw [hn]; exact mem_cellPages hto hfresh.page
  have hlen : addr / pageSize + n ≤ s1.usingRegions.length := by
    have hpos : 0 < orderToPages t := by rw [orderToPages]; positivity
    have hlast := hfresh.lt (addr / pageSize + (n - 1)) ((hcell _).mpr ⟨by omega, by omega⟩)
    have := hs1.length
    rw [hf.memorySize] at this
    omega
  set s2 : Buddy := { s1 with
    usingRegions := bitmapSetRange s1.usingRegions (addr / pageSize) (addr / pageSize + n) true
    refcount := forRange 0 n (fun offset r => pageRef r (addr + offset * pageSize)) s1.refcount }
  have hout2 : handedOut s2 = handedOut s ∪ cellPages t addr := by
    ext p
    have hg : bitmapGet s2.usingRegions p = _ :=
      bitmapSetRange_get s1.usingRegions (addr / pageSize) (addr / pageSize + n) p true hlen
    have hm : s2.memorySize = s.memorySize := hf.memorySize
    rw [hf.usingRegions] at hg
    simp only [handedOut, mem_ofPred_eq, hg, hm, mem_union, hcell p]
    split_ifs with hp
    · exact ⟨fun _ => .inr hp, fun _ => ⟨hfresh.lt p ((hcell p).mpr hp), rfl⟩⟩
    · exact ⟨fun h => .inl h, fun h => h.resolve_right hp⟩
  have href : ∀ p, s2.refcount p = if addr / pageSize ≤ p ∧ p < addr / pageSize + n
      then s.refcount p + 1 else s.refcount p := fun p => by
    rw [← hf.refcount]
    exact pageRef_loop addr n s1.refcount p
  refine ⟨⟨?_, fun p hp hp' => ?_⟩, hf.memorySize, hf.usableRegions, htidy, fun h => absurd h ha,
    fun _ => ⟨t, n, hc, hfresh, hout2, fun p hp => ?_, fun p hp => ?_⟩⟩
  · rw [hout2]
    exact ⟨hs1.zone, hs1.type, hs1.stop, hs1.memory,
      by rw [bitmapSetRange_length _ _ _ _ hlen]; exact hs1.length, hs1.layout, hs1.managed, hs1.used⟩
  · rw [hout2] at hp'
    rw [href, if_neg fun h => hp' (.inr ((hcell p).mpr h))]
    exact hs.idle p (by rw [← hf.memorySize]; exact hp) fun h => hp' (.inl h)
  · rw [href, if_pos ((hcell p).mp hp), hs.idle p (hfresh.lt p hp) (hfresh.sub hp).2, zero_add]
  · rw [href, if_neg fun h => hp ((hcell p).mpr h)]

/-- The frees that `free_frames_common` carries out. -/
structure Release (s : Buddy) (addr count k n : ℕ) (z : Zone) (r : ℕ → ℤ) : Prop where
  pos : addr ≠ 0
  order : countToOrder count = some (k, n)
  zone : s.zones (physToZoneType addr) = some z
  inside : BlockIn z k addr
  length : addr / pageSize + n ≤ s.usingRegions.length
  inUse : ∀ p, addr / pageSize ≤ p → p < addr / pageSize + n →
    bitmapGet s.usingRegions p = true ∧ bitmapGet s.usableRegions p = true
  refs : ∀ p, r p = if addr / pageSize ≤ p ∧ p < addr / pageSize + n then 0 else s.refcount p

theorem wrap_add_pages (ha : addr < 2 ^ 64) (hn : n ≤ 2 ^ 18) (h : ¬ wrap (addr + n * pageSize) < addr) :
    wrap (addr + n * pageSize) = addr + n * pageSize := by
  simp only [wrap, pageSize] at h ⊢
  omega

theorem freeFramesCommon_cases (hs : SoundAt M U s) (addr count : ℕ) (released : Bool) :
    freeFramesCommon s addr count released = some s ∨ ∃ k n z r, Release s addr count k n z r ∧
      (released = false → ∀ p, addr / pageSize ≤ p → p < addr / pageSize + n → s.refcount p = 1) ∧
      freeFramesCommon s addr count released = releaseFrames s (physToZoneType addr) z r addr k n := by
  rw [freeFramesCommon]
  by_cases h1 : addr = 0 ∨ count = 0
  · rw [if_pos h1]; exact .inl rfl
  rw [if_neg h1]
  by_cases h2 : addr &&& (pageSize - 1) ≠ 0
  · rw [if_pos h2]; exact .inl rfl
  rw [if_neg h2]
  by_cases h3 : addr > s.memorySize
  · rw [if_pos h3]; exact .inl rfl
  rw [if_neg h3]
  rcases hc : countToOrder count with - | ⟨k, n⟩
  · exact .inl rfl
  dsimp only
  rcases hz : s.zones (physToZoneType addr) with - | z
  · exact .inl rfl
  dsimp only
  obtain ⟨hko, hn, -⟩ := countToOrder_eq_some hc
  have hpage : pageSize ∣ addr := by
    rw [not_not, show pageSize - 1 = 2 ^ 12 - 1 by norm_num [pageSize], Nat.and_two_pow_sub_one_eq_mod] at h2
    rw [show pageSize = 2 ^ 12 by norm_num [pageSize]]
    exact Nat.dvd_of_mod_eq_zero h2
  have hmem := hs.memory
  have haddr : addr < 2 ^ 64 := lt_of_le_of_lt (not_lt.mp h3) hmem
  have hn18 : n ≤ 2 ^ 18 := by
    rw [hn, orderToPages, minOrder]
    have := (mem_orders.mp hko).2
    exact Nat.pow_le_pow_right (by norm_num) (by omega)
  by_cases h4 : wrap (addr + n * pageSize) < addr ∨ addr < zonePhysStart z ∨
      wrap (addr + n * pageSize) > zonePhysEnd z
  · rw [if_pos h4]; exact .inl rfl
  rw [if_neg h4]
  have hend : wrap (addr + n * pageSize) = addr + 2 ^ k := by
    rw [wrap_add_pages haddr hn18 fun h => h4 (.inl h), hn, orderToPages_mul hko]
  have hin : BlockIn z k addr := ⟨hpage, by omega, by omega⟩
  have hidx : wrap (addr / pageSize + n) = addr / pageSize + n :=
    wrap_of_lt (by have := Nat.div_le_self addr pageSize
                   have : addr / pageSize < 2 ^ 52 := by simp only [pageSize]; omega
                   omega)
  rw [hidx]
  by_cases h5 : addr / pageSize + n < addr / pageSize ∨ addr / pageSize + n > s.usingRegions.length ∨
      addr / pageSize + n > s.usableRegions.length
  · rw [if_pos h5]; exact .inl rfl
  rw [if_neg h5]
  by_cases h6 : pagesInUse s (addr / pageSize) n = true
  swap
  · simp [h6]
  simp only [h6, Bool.not_true, Bool.false_eq_true, if_false]
  have huse := pagesInUse_iff.mp h6
  cases released with
  | true =>
    simp only [if_true]
    by_cases h7 : pagesAreUnreferenced s.refcount addr n = true
    swap
    · simp [h7]
    simp only [h7, Bool.not_true, Bool.false_eq_true, if_false]
    refine .inr ⟨k, n, z, s.refcount, ⟨fun h => h1 (.inl h), hc, hz, hin, by omega, huse, fun p => ?_⟩,
      fun h => Bool.noConfusion h, rfl⟩
    split_ifs with hp
    · exact pagesAreUnreferenced_iff.mp h7 p hp.1 hp.2
    · rfl
  | false =>
    simp only [Bool.false_eq_true, if_false]
    by_cases h7 : (claimLastPageRefs addr n 0 s.refcount).2 = true
    swap
    · rw [Bool.not_eq_true] at h7
      simp [h7, claimLastPageRefs_eq_false h7]
    obtain ⟨hone, hr⟩ := claimLastPageRefs_eq_true h7
    simp only [h7, Bool.not_true, Bool.false_eq_true, if_false]
    exact .inr ⟨k, n, z, _, ⟨fun h => h1 (.inl h), hc, hz, hin, by omega, huse, hr⟩, fun _ => hone, rfl⟩

theorem freeFrames_eq_releaseFrames (hs : SoundAt M U s) {k : ℕ} (h0 : addr ≠ 0)
    (hc : countToOrder count = some (k, n)) (hz : s.zones (physToZoneType addr) = some z)
    (hin : BlockIn z k addr) (hlen : addr / pageSize + n ≤ s.usingRegions.length)
    (hlen' : addr / pageSize + n ≤ s.usableRegions.length)
    (huse : ∀ p, addr / pageSize ≤ p → p < addr / pageSize + n → bitmapGet s.usingRegions p = true ∧ bitmapGet s.usableRegions p = true)
    (hone : ∀ p, addr / pageSize ≤ p → p < addr / pageSize + n → s.refcount p = 1) :
    ∃ r, Release s addr count k n z r ∧
      freeFrames s addr count = releaseFrames s (physToZoneType addr) z r addr k n := by
  obtain ⟨hko, hn, hcn⟩ := countToOrder_eq_some hc
  have hclaim : (claimLastPageRefs addr n 0 s.refcount).2 = true :=
    claimLastPageRefs_of_one fun p hp hp' => hone p (by omega) (by omega)
  obtain ⟨-, hr⟩ := claimLastPageRefs_eq_true hclaim
  refine ⟨(claimLastPageRefs addr n 0 s.refcount).1, ⟨h0, hc, hz, hin, hlen, huse, hr⟩, ?_⟩
  have hcount : count ≠ 0 := by
    rintro rfl
    simp [countToOrder] at hc
  have hmask : addr &&& (pageSize - 1) = 0 := by
    have hpage := hin.page
    rw [show pageSize = 2 ^ 12 by norm_num [pageSize]] at hpage ⊢
    rw [Nat.and_two_pow_sub_one_eq_mod, Nat.mod_eq_zero_of_dvd hpage]
  have hle := hin.le
  have hge := hin.ge
  have hphys := hs.physEnd_lt hz
  have hmem : zonePhysEnd z ≤ s.memorySize :=
    (Nat.mul_le_mul_right pageSize (hs.stop _ z hz)).trans (Nat.div_mul_le_self _ _)
  have hsize : n * pageSize = 2 ^ k := by rw [hn]; exact orderToPages_mul hko
  have hend : wrap (addr + n * pageSize) = addr + 2 ^ k := by
    rw [hsize]
    exact wrap_of_lt (by omega)
  have hidx : wrap (addr / pageSize + n) = addr / pageSize + n := by
    refine wrap_of_lt (lt_of_le_of_lt ?_ hphys)
    have h1 : addr / pageSize ≤ addr := Nat.div_le_self _ _
    have h2 : n ≤ n * pageSize := Nat.le_mul_of_pos_right n (by norm_num [pageSize])
    omega
  have hpow : 0 < 2 ^ k := by positivity
  rw [freeFrames, freeFramesCommon, if_neg (not_or.mpr ⟨h0, hcount⟩), if_neg (not_not.mpr hmask),
    if_neg (by omega : ¬ addr > s.memorySize), hc]
  dsimp only
  rw [hz]
  dsimp only
  rw [hend, hidx, if_neg (by omega), if_neg (by omega), pagesInUse_iff.mpr huse, hclaim]
  rfl

theorem releaseFrames_sound {k : ℕ} {r : ℕ → ℤ} (hs : Sound M s) (hrel : Release s addr count k n z r)
    (h : releaseFrames s (physToZoneType addr) z r addr k n = some s') :
    Sound M s' ∧ s'.memorySize = s.memorySize ∧ s'.usableRegions = s.usableRegions ∧
      s'.refcount = r ∧ cellPages k addr ⊆ handedOut s ∧ handedOut s' = handedOut s \ cellPages k addr ∧
      (2 ^ k ∣ addr → AllTidy s → AllTidy s') := by
  obtain ⟨hko, hn, -⟩ := countToOrder_eq_some hrel.order
  have hpage := hrel.inside.page
  have hcell : ∀ p, p ∈ cellPages k addr ↔ addr / pageSize ≤ p ∧ p < addr / pageSize + n := fun p => by
    rw [hn]; exact mem_cellPages hko hpage
  rw [releaseFrames] at h
  rcases hp : buddyFreeZoneLocked s.metadata z addr k with - | ⟨md', z'⟩
  · simp [hp] at h
  simp only [hp, bind_eq_bind, bind_some] at h
  cases h
  -- the block lies in its zone, so its pages are frames of the machine
  have hinz : ∀ p ∈ cellPages k addr, z.zoneStartPfn ≤ p ∧ p < z.zoneEndPfn := by
    intro p hp
    have h1 := hrel.inside.ge
    have h2 := hrel.inside.le
    obtain ⟨h3, h4⟩ := hp
    simp only [zonePhysStart, zonePhysEnd, pageSize] at h1 h2 h3 h4
    omega
  have hstop := hs.at_.stop _ z hrel.zone
  have hsub : cellPages k addr ⊆ handedOut s := fun p hp => by
    have hpc := (hcell p).mp hp
    exact ⟨(hinz p hp).2.trans_le hstop, (hrel.inUse p hpc.1 hpc.2).1⟩
  have hdis : Disjoint (freePagesOf M (handedOut s) z) (cellPages k addr) :=
    disjoint_left.mpr fun p hp hc => hp.2.1 (hsub hc)
  obtain ⟨hzs, hbd⟩ := (hs.at_.zone _ z hrel.zone).free hko hrel.inside (hs.at_.physEnd_lt hrel.zone) hdis hp
  have hout : handedOut { s.setZone md' (physToZoneType addr) z' with
      usingRegions := bitmapSetRange s.usingRegions (addr / pageSize) (addr / pageSize + n) false
      refcount := r } = handedOut s \ cellPages k addr := by
    ext p
    have hg := bitmapSetRange_get s.usingRegions (addr / pageSize) (addr / pageSize + n) p false hrel.length
    simp only [handedOut, mem_ofPred_eq, mem_sdiff, hcell p, hg]
    show p < s.memorySize / pageSize ∧ _ ↔ _
    split_ifs with hp
    · exact ⟨fun h => absurd h.2 (by simp), fun h => absurd hp h.2⟩
    · exact ⟨fun h => ⟨h, hp⟩, fun h => h.1⟩
  refine ⟨⟨?_, fun p hp hp' => ?_⟩, rfl, rfl, rfl, hsub, hout, fun hal ht =>
    ht.setZone ((ht _ z hrel.zone).free (hs.at_.zone _ z hrel.zone) hko hrel.inside hal
      (hs.at_.physEnd_lt hrel.zone) hp) md' _⟩
  · rw [hout]
    have hset : SoundAt M (handedOut s \ cellPages k addr)
        (s.setZone md' (physToZoneType addr) z') := hs.at_.setZone hrel.zone hbd md' (by
        have hF : freePagesOf M (handedOut s \ cellPages k addr) z' =
            freePagesOf M (handedOut s) z ∪ cellPages k addr := by
          ext p
          have h1 := hinz p
          have h2 : p ∈ cellPages k addr → p ∈ M := fun hp => hs.at_.used (hsub hp)
          simp only [freePagesOf, hbd.start, hbd.stop, mem_ofPred_eq, mem_sdiff, mem_union]
          tauto
        rw [hF]
        exact hzs) (fun p => ⟨.inl, fun h => h.elim id And.left⟩)
      (fun p hp => ⟨fun h => h.1, fun h => ⟨h, fun hc => hp (hinz p hc)⟩⟩)
      (fun p hp => hs.at_.used hp.1)
    exact ⟨hset.zone, hset.type, hset.stop, hset.memory,
      by rw [bitmapSetRange_length _ _ _ _ hrel.length]; exact hset.length, hset.layout,
      hset.managed, hset.used⟩
  · rw [hout] at hp'
    show r p = 0
    rw [hrel.refs p]
    split_ifs with hpc
    · rfl
    · exact hs.idle p hp fun h => hp' ⟨h, fun hc => hpc ((hcell p).mp hc)⟩

theorem freeFramesCommon_sound {released : Bool} (hs : Sound M s)
    (h : freeFramesCommon s addr count released = some s') : Sound M s' := by
  rcases freeFramesCommon_cases hs.at_ addr count released with hr | ⟨k, n, z, r, hrel, -, hr⟩
  · rw [hr] at h
    cases h
    exact hs
  · exact (releaseFrames_sound hs hrel (hr.symm.trans h)).1

theorem FrameOp.run_sound (op : FrameOp) (hs : Sound M s) (h : op.run s = some s') : Sound M s' := by
  cases op with
  | allocFrames count =>
    obtain ⟨⟨s1, a⟩, ha, rfl⟩ := map_eq_some_iff.mp h
    exact (allocFramesFrom_sound hs ha).1
  | allocFramesDma32 count =>
    obtain ⟨⟨s1, a⟩, ha, rfl⟩ := map_eq_some_iff.mp h
    exact (allocFramesFrom_sound hs ha).1
  | freeFrames addr count => exact freeFramesCommon_sound hs h
  | freeFramesReleased addr count => exact freeFramesCommon_sound hs h

theorem runOps_sound (ops : List FrameOp) (hs : Sound M s) (h : runOps ops s = some s') : Sound M s' := by
  induction ops generalizing s with
  | nil => cases h; exact hs
  | cons op ops ih =>
    rw [runOps] at h
    rcases hr : op.run s with - | s1
    · simp [hr] at h
    · simp only [hr, bind_eq_bind, bind_some] at h
      exact ih (op.run_sound hs hr) h

end CoolPotOS
