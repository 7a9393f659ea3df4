import CoolPotOS.Mem.MpoolRun

namespace CoolPotOS

open Blocks Intrusive Runs List

/-- `mpool_alloc` returns `NULL` and leaves the pool as it is, or it returns a block of at least `size` bytes in
the pool that is apart from every block of a caller. -/
def AllocContract (s : Heap) (reqmem : Option CbReqmem) (size : ℕ) : Prop :=
  ∃ r, mpoolAlloc s.pool reqmem size = some r ∧ (r = (0, s.pool) ∨ r.1 ≠ 0 ∧ size ≤ blkSize r.2 r.1 ∧
    r.2.ptr < r.1 ∧ r.1 + blkSize r.2 r.1 < r.2.ptr + r.2.size ∧ ∀ a ∈ s.live, blkSize r.2 a = blkSize s.pool a ∧
      (r.1 + blkSize r.2 r.1 < a ∨ a + blkSize r.2 a < r.1))

/-- The size does not wrap around where a block is found. Where there is none and memory is granted, the pool
can grow by what it asks for, and then has a block that is large enough. -/
def AllocOk (p : Mpool) (reqmem : Option CbReqmem) (size : ℕ) : Prop :=
  (AnyPasses p (sizeFits (paddedSize size)) → size ≤ paddedSize size) ∧
    (¬ AnyPasses p (sizeFits (paddedSize size)) → Granted p reqmem (paddedSize size) →
      GrowsEnough p (paddedSize size) (sizeEnough (paddedSize size)))

variable {F : List PoolBlock → Prop} {p p' : Mpool} {B' : List PoolBlock} {t newsize : ℕ}

section Contracts

variable {s : Heap} {B : List PoolBlock} {L : Option ℕ → List ℕ} {b : PoolBlock} {reqmem : Option CbReqmem}
  {size n : ℕ}

theorem paddedSize_cases (h : size < 2 ^ 64) : size ≤ paddedSize size ∨ paddedSize size = 0 ∧ 2 ^ 64 - 16 < size := by
  unfold paddedSize padding wrap
  split <;> omega

theorem ne_zero_of_padding16k (h : padding16k n ≠ 0) : n ≠ 0 := by
  unfold padding16k wrap at h
  omega

theorem HeapBlocks.handed_contract {r : ℕ × Mpool} (h : HeapBlocks s B L)
    (hr : mpoolAlloc s.pool reqmem size = some r) (hhand : Handed s.pool B n F r) :
    (AllocContract s reqmem size ↔ size ≤ blkSize r.2 r.1) ∧ n ≤ blkSize r.2 r.1 ∧ blkSize r.2 r.1 < 2 ^ 64 - 16 := by
  have hne := hhand.ne_zero
  obtain ⟨t, B', L', hhands, hok, -, -, hnt⟩ := hhand
  have hperm := hhands.live rfl
  have hnew : (⟨r.1, t, .live⟩ : PoolBlock) ∈ B' := (mem_liveBlocks.mp (hperm.mem_iff.mpr mem_cons_self)).1
  have hsize := hok.blkSize_eq hnew
  have hplace := hok.place hnew
  have htop := hok.top
  dsimp only at hsize hplace
  rw [hsize]
  refine ⟨⟨?_, fun hle => ⟨r, hr, .inr ⟨hne, ?_, ?_, ?_, fun a ha => ?_⟩⟩⟩, hnt, by omega⟩
  · rintro ⟨r', hr', hnull | ⟨-, hle, -⟩⟩
    · rw [hr] at hr'
      rw [← Option.some.inj hr'] at hnull
      rw [hnull] at hne
      exact absurd rfl hne
    · obtain rfl := Option.some.inj (hr.symm.trans hr')
      rw [hsize] at hle
      exact hle
  · rw [hsize]
    exact hle
  · omega
  · rw [hsize]
    omega
  · obtain ⟨c, hc, rfl, hlive⟩ := h.live_block ha
    have hcmem := mem_liveBlocks.mpr ⟨hc, hlive⟩
    have hc' := (mem_liveBlocks.mp (hperm.mem_iff.mpr (mem_cons_of_mem _ hcmem))).1
    have hfresh := (nodup_cons.mp (hperm.nodup_iff.mp hok.nodup_liveBlocks)).1
    rw [hok.blkSize_eq hc', h.ok.blkSize_eq hc, hsize]
    refine ⟨rfl, ?_⟩
    rcases hok.fill.apart hnew hc' with heq | hlt | hlt
    · rw [heq] at hfresh
      exact absurd hcmem hfresh
    · dsimp only at hlt
      omega
    · dsimp only at hlt
      omega

theorem HeapBlocks.allocContract_iff (h : HeapBlocks s B L) (hstep : AllocStepOk s.pool reqmem size)
    (hsize : size < 2 ^ 64) : AllocContract s reqmem size ↔ AllocOk s.pool reqmem size := by
  have htest := sizeFits_eq (paddedSize size)
  have htake := takes_takeBlock (paddedSize_dvd size)
  unfold AllocOk
  by_cases hpass : AnyPasses s.pool (sizeFits (paddedSize size))
  · obtain ⟨-, -, r, -, -, hr, hhand⟩ := h.ok.allocWith_passes h.place reqmem _ htest htake h.ok.sizeFits_le hpass
    obtain ⟨hiff, hle, hlt⟩ := h.handed_contract hr hhand
    rw [hiff]
    constructor
    · refine fun hfits => ⟨fun _ => ?_, fun hnot => absurd hpass hnot⟩
      rcases paddedSize_cases hsize with hpadded | ⟨-, hwrapped⟩
      · exact hpadded
      · omega
    · exact fun hok => (hok.1 hpass).trans hle
  · refine Iff.trans ?_ (and_iff_right fun hyes => absurd hyes hpass).symm
    by_cases hgrant : Granted s.pool reqmem (paddedSize size)
    · have hset := h.ok.settled_of_grows h.place hstep hpass hgrant
      obtain ⟨hgood, hbad⟩ := h.ok.allocWith_grows hset htest htake h.ok.sizeFits_le hpass hgrant
      constructor
      · rintro ⟨r, hr, -⟩ - -
        by_contra hnot
        have hnone := hbad hnot
        rw [mpoolAlloc] at hr
        rw [hnone] at hr
        cases hr
      · intro hok
        have hgrows := hok hpass hgrant
        obtain ⟨r, hr, hhand⟩ := hgood hgrows
        obtain ⟨hiff, hle, -⟩ := h.handed_contract hr hhand
        rw [hiff]
        rcases paddedSize_cases hsize with hpadded | ⟨hzero, -⟩
        · exact hpadded.trans hle
        · exact absurd hzero (ne_zero_of_padding16k hgrows.1)
    · have hnull : mpoolAlloc s.pool reqmem size = some (0, s.pool) :=
        h.ok.allocWith_null h.place h.ok.sizeFits_le hpass hgrant
      exact iff_of_true ⟨(0, s.pool), hnull, .inl rfl⟩ fun _ hyes => absurd hyes hgrant

theorem mpool_alloc_meets {s₀ s : Heap} {ops : List HeapOp} (hstart : HeapStart s₀)
    (hok : Meets heapStep HeapOk ops s₀) (hrun : run heapStep ops s₀ = some s) (reqmem : Option CbReqmem)
    (size : UInt64) (hstep : AllocStepOk s.pool reqmem size.toNat) :
    AllocContract s reqmem size.toNat ↔ AllocOk s.pool reqmem size.toNat := by
  obtain ⟨B, L, h⟩ := hstart.run_blocks hok hrun
  exact h.allocContract_iff hstep size.toNat_lt

theorem allocStepOk_none (p : Mpool) (size : ℕ) : AllocStepOk p none size := by
  rintro ⟨-, -, cb, hcb, -⟩
  cases hcb

/-- A callback that always gives the memory that it is asked for. -/
def grantAll : CbReqmem where
  call ptr size := if ptr + size < 2 ^ 64 then ptr else ptr + 1
  allocated ptr size h := by
    by_contra hlarge
    rw [if_neg hlarge] at h
    omega

theorem contractRuns_small :
    (run heapStep [.alloc none 100] (clearedHeap 1048576 4096)).any (fun s => 1048592 ∈ s.live) ∧
      (run heapStep [.alloc none 32736] (clearedHeap 1048576 32768)).any (fun s =>
        1048592 ∈ s.live ∧ (mpoolAlloc s.pool (some grantAll) (16384 : UInt64).toNat).isNone ∧
          (mpoolRealloc s.pool none 1048592 (40000 : UInt64).toNat).isNone) := by
  decide

theorem mpool_alloc_meets_small : ∃ s, run heapStep [.alloc none 100] (clearedHeap 1048576 4096) = some s ∧
    (AllocContract s none (64 : UInt64).toNat ↔ AllocOk s.pool none (64 : UInt64).toNat) := by
  have hstart : HeapStart (clearedHeap 1048576 4096) :=
    clearedHeap_start (by decide) (by decide) (by decide) (by decide) (by decide)
  obtain ⟨s, hs, -⟩ := (Option.any_eq_true _ _).mp contractRuns_small.1
  have hmeets : Meets heapStep HeapOk [.alloc none 100] (clearedHeap 1048576 4096) :=
    ⟨allocStepOk_none _ _, fun _ _ => trivial⟩
  exact ⟨s, hs, mpool_alloc_meets hstart hmeets hs none 64 (allocStepOk_none _ _)⟩

/-- What the pool grows by has no room for the tags beside a block of 16384 bytes. -/
theorem mpool_alloc_fails : ∃ s₀ s, HeapStart s₀ ∧ run heapStep [.alloc none 32736] s₀ = some s ∧
    ¬ AllocContract s (some grantAll) (16384 : UInt64).toNat := by
  obtain ⟨s, hs, hfails⟩ := (Option.any_eq_true _ _).mp contractRuns_small.2
  obtain ⟨-, hnone, -⟩ := of_decide_eq_true hfails
  refine ⟨clearedHeap 1048576 32768, s, ?_, hs, ?_⟩
  · exact clearedHeap_start (by decide) (by decide) (by decide) (by decide) (by decide)
  · rintro ⟨r, hr, -⟩
    rw [hr] at hnone
    cases hnone

/-- A block of a caller, as one finds it by going from block to block. -/
def LiveAt (p : Mpool) (a : ℕ) : Prop := BlockAt p a ∧ blkFreed p a = false

/-- The words of the block at `a` are those of the one that was at `a₀`, up to `n` bytes. -/
def SameBytes (p p₀ : Mpool) (a a₀ n : ℕ) : Prop := ∀ i, 8 * i < n → p.mem (a + 8 * i) = p₀.mem (a₀ + 8 * i)

/-- `mpool_realloc` returns a block with the contents of the old one, as far as both reach, and leaves the other
blocks as they are, or it returns `NULL` and leaves the old block and the free lists as they are. -/
def ReallocContract (s : Heap) (reqmem : Option CbReqmem) (ptr newsize : ℕ) : Prop :=
  ∃ r, mpoolRealloc s.pool reqmem ptr newsize = some r ∧
    (r.1 ≠ 0 → LiveAt r.2 r.1 ∧ min (blkSize s.pool ptr) newsize ≤ blkSize r.2 r.1 ∧
      SameBytes r.2 s.pool r.1 ptr (min (blkSize s.pool ptr) newsize) ∧
      ∀ a ∈ s.live, a ≠ ptr → LiveAt r.2 a ∧ blkSize r.2 a = blkSize s.pool a ∧
        SameBytes r.2 s.pool a a (blkSize s.pool a)) ∧
    (r.1 = 0 → LiveAt r.2 ptr ∧ blkSize r.2 ptr = blkSize s.pool ptr ∧
      SameBytes r.2 s.pool ptr ptr (blkSize s.pool ptr) ∧ ∀ i, r.2.list i = s.pool.list i)

/-- The block stays where it is and the size has not wrapped around, or it grows over a next block with room for
links, or there is a new block and no free block without room for links beside the old one. -/
def ReallocOk (p : Mpool) (reqmem : Option CbReqmem) (ptr newsize : ℕ) : Prop :=
  (paddedSize newsize ≤ blkSize p ptr → newsize ≤ paddedSize newsize ∨ blkSize p ptr < 64) ∧
    (blkSize p ptr < paddedSize newsize → Merges p ptr (paddedSize newsize) → ¬ NextEmpty p ptr) ∧
    (Moves p ptr (paddedSize newsize) → ¬ NextEmpty p ptr ∧ ¬ PrevEmpty p ptr ∧
      (AnyPasses p (sizeFits (paddedSize newsize)) ∨ Granted p reqmem (paddedSize newsize) ∧
        GrowsEnough p (paddedSize newsize) (sizeEnough (paddedSize newsize))))

theorem PoolOk.liveAt (h : PoolOk p B L) (hb : b ∈ B) (hlive : b.use = .live) : LiveAt p b.addr :=
  ⟨(h.blockAt_iff b.addr).mpr ⟨b, hb, rfl⟩, h.blkFreed_live hb hlive⟩

theorem PoolOk.live_of_liveAt {a : ℕ} (h : PoolOk p B L) (hset : ∀ c ∈ B, Settled c) (ha : LiveAt p a) :
    ∃ b ∈ liveBlocks B, b.addr = a := by
  obtain ⟨b, hb, rfl⟩ := (h.blockAt_iff a).mp ha.1
  refine ⟨b, mem_liveBlocks.mpr ⟨hb, ?_⟩, rfl⟩
  have hnot := ha.2
  rcases (hset b hb).cases with hlive | ⟨huse, -⟩ | ⟨-, huse⟩
  · exact hlive
  · rw [h.blkFreed_free hb (by rw [huse]; rfl)] at hnot
    cases hnot
  · rw [h.blkFreed_free hb (by rw [huse]; rfl)] at hnot
    cases hnot

theorem HeapBlocks.others {L' : Option ℕ → List ℕ} {c : PoolBlock} (h : HeapBlocks s B L)
    (hok : PoolOk p' B' L') (hb : b ∈ B) (hperm : (b :: liveBlocks B').Perm (c :: liveBlocks B))
    (hkept : Kept s.pool p' (B.filter (· ≠ b))) {a : ℕ} (ha : a ∈ s.live) (hne : a ≠ b.addr) :
    LiveAt p' a ∧ blkSize p' a = blkSize s.pool a ∧ SameBytes p' s.pool a a (blkSize s.pool a) := by
  obtain ⟨d, hd, rfl, hlive⟩ := h.live_block ha
  have hdb : d ≠ b := by
    rintro rfl
    exact hne rfl
  have hmem : d ∈ b :: liveBlocks B' :=
    hperm.mem_iff.mpr (mem_cons_of_mem c (mem_liveBlocks.mpr ⟨hd, hlive⟩))
  have hd' := (mem_liveBlocks.mp ((mem_cons.mp hmem).resolve_left hdb)).1
  rw [hok.blkSize_eq hd', h.ok.blkSize_eq hd]
  refine ⟨hok.liveAt hd' hlive, rfl, fun i hi => ?_⟩
  exact hkept.contents d (mem_filter.mpr ⟨hd, decide_eq_true hdb⟩) hlive _ (Nat.le_add_right _ _) (by omega)

theorem Resizes.mem (h : Resizes B b t B') : (⟨b.addr, t, .live⟩ : PoolBlock) ∈ B' := by
  obtain ⟨l1, old, rest, l2, -, rfl, -⟩ := h
  exact mem_append_right l1 mem_cons_self

/-- A block that is resized in place meets the contract when as many bytes are left as both sizes promise. -/
theorem HeapBlocks.resized_contract (h : HeapBlocks s B L) (hb : b ∈ B) (hlive : b.use = .live)
    (hr : mpoolRealloc s.pool reqmem b.addr newsize = some (b.addr, p')) (hresized : Resized s.pool B b t p') :
    ReallocContract s reqmem b.addr newsize ↔ min b.size newsize ≤ t := by
  obtain ⟨B', L', hresizes, hok, -, hkept, hsame⟩ := hresized
  have hmem := hresizes.mem
  have hsize : blkSize p' b.addr = t := hok.blkSize_eq (b := ⟨b.addr, t, .live⟩) hmem
  have hplace := (h.ok.place hb).1
  unfold ReallocContract
  rw [h.ok.blkSize_eq hb]
  constructor
  · rintro ⟨r, hr', hkeeps, -⟩
    obtain rfl := Option.some.inj (hr.symm.trans hr')
    have hmin := (hkeeps (by dsimp only; omega)).2.1
    dsimp only at hmin
    rw [hsize] at hmin
    exact hmin
  · intro hmin
    refine ⟨_, hr, fun _ => ⟨hok.liveAt (b := ⟨b.addr, t, .live⟩) hmem rfl, ?_, fun i hi => ?_, fun a ha hne => ?_⟩, fun hzero => ?_⟩
    · dsimp only
      rw [hsize]
      exact hmin
    · exact hsame _ (Nat.le_add_right _ _) (by omega)
    · exact h.others hok hb (hresizes.live hlive) hkept ha hne
    · dsimp only at hzero
      omega

theorem HeapBlocks.moved_contract {r : ℕ × Mpool} (h : HeapBlocks s B L) (hb : b ∈ B) (hlive : b.use = .live)
    (hr : mpoolRealloc s.pool reqmem b.addr newsize = some r) (hmoved : MovedTo s.pool F B b t r)
    (hne : r.1 ≠ 0) (ht : newsize ≤ t) : ReallocContract s reqmem b.addr newsize := by
  obtain ⟨B1, B', L', hhands, hfrees, hok, -, hkept, hfresh, hsame⟩ := hmoved
  have hperm := (hfrees.live hlive).symm.trans (hhands.live rfl)
  have hnew : (⟨r.1, t, .live⟩ : PoolBlock) ∈ B' :=
    (mem_liveBlocks.mp ((mem_cons.mp (hperm.mem_iff.mpr mem_cons_self)).resolve_left hfresh)).1
  have hsize : blkSize r.2 r.1 = t := hok.blkSize_eq (b := ⟨r.1, t, .live⟩) hnew
  refine ⟨r, hr, fun _ => ⟨hok.liveAt (b := ⟨r.1, t, .live⟩) hnew rfl, ?_, fun i hi => ?_, fun a ha hne => ?_⟩, fun hzero => absurd hzero hne⟩
  · rw [hsize]
    omega
  · rw [h.ok.blkSize_eq hb] at hi
    exact hsame _ (by omega)
  · exact h.others hok hb hperm hkept ha hne

theorem Hands.emptyBeside {c : PoolBlock} (h : Hands F B c B') (hc : c.use = .live)
    (hF : ∀ front, F front → front = []) : EmptyBeside B' b ↔ EmptyBeside B b := by
  obtain ⟨l1, old, l2, front, rest, rfl, rfl, hold, -, -, hfront, hrest⟩ := h
  obtain rfl := hF front hfront
  have hiff : ∀ d : PoolBlock, d.use = .empty → (d ∈ l1 ++ ([] ++ c :: (rest ++ l2)) ↔ d ∈ l1 ++ (old ++ l2)) := by
    intro d hd
    have hnew : d ≠ c := by
      rintro rfl
      rw [hc] at hd
      cases hd
    have hgone : d ∉ old := by
      intro hmem
      obtain ⟨i, huse⟩ := hold d hmem
      rw [huse] at hd
      cases hd
    have hleft : d ∉ rest := by
      intro hmem
      have huse := hrest.2.1 d hmem
      unfold freeUse at huse
      rw [if_neg (hrest.2.2 d hmem), hd] at huse
      cases huse
    simp only [mem_append, mem_cons, not_mem_nil, hnew, hgone, hleft, false_or]
  unfold EmptyBeside
  constructor
  · rintro ⟨d, hd, huse, hplace⟩
    exact ⟨d, (hiff d huse).mp hd, huse, hplace⟩
  · rintro ⟨d, hd, huse, hplace⟩
    exact ⟨d, (hiff d huse).mpr hd, huse, hplace⟩

theorem PoolOk.empty_iff (h : PoolOk p B L) (hset : ∀ c ∈ B, Settled c) (hb : b ∈ B) :
    b.use = .empty ↔ blkFreed p b.addr ∧ blkSize p b.addr = 0 := by
  rw [h.blkSize_eq hb]
  rcases (hset b hb).cases with hlive | ⟨huse, hsize⟩ | ⟨hsize, huse⟩
  · rw [h.blkFreed_live hb hlive, hlive]
    simp
  · rw [h.blkFreed_free hb (by rw [huse]; rfl)]
    simp [huse, hsize]
  · simp [huse, hsize]

theorem PoolOk.nextEmpty_iff {l1 l2 : List PoolBlock} (h : PoolOk p (l1 ++ b :: l2) L)
    (hset : ∀ c ∈ l1 ++ b :: l2, Settled c) : NextEmpty p b.addr ↔ ∃ c ∈ l2.head?, c.use = .empty := by
  unfold NextEmpty
  cases l2 with
  | nil =>
    constructor
    · intro hnext
      exact absurd h.blkNext_last.2 hnext.1
    · rintro ⟨c, hc, -⟩
      cases hc
  | cons c l2 =>
    have hmem : c ∈ l1 ++ b :: c :: l2 := mem_append_right l1 (mem_cons_of_mem b mem_cons_self)
    have hplace := h.place hmem
    rw [h.blkNext_eq.2.2, ← h.empty_iff hset hmem]
    constructor
    · intro hempty
      exact ⟨c, rfl, hempty.2⟩
    · rintro ⟨d, hd, huse⟩
      obtain rfl : c = d := Option.some.inj hd
      exact ⟨by omega, huse⟩

theorem PoolOk.prevEmpty_iff {l1 l2 : List PoolBlock} (h : PoolOk p (l1 ++ b :: l2) L)
    (hset : ∀ c ∈ l1 ++ b :: l2, Settled c) : PrevEmpty p b.addr ↔ ∃ c ∈ l1.getLast?, c.use = .empty := by
  unfold PrevEmpty
  rcases eq_nil_or_concat l1 with rfl | ⟨l0, c, rfl⟩
  · constructor
    · rintro ⟨hprev, -⟩
      refine absurd ?_ hprev
      unfold blkPrev
      rw [PoolOk.blkPrev_first h, if_pos rfl]
    · rintro ⟨c, hc, -⟩
      cases hc
  · rw [concat_eq_append] at h hset ⊢
    have hmem : c ∈ (l0 ++ [c]) ++ b :: l2 :=
      mem_append_left _ (mem_append_right l0 (mem_singleton_self c))
    have hplace := h.place hmem
    have hempty := h.empty_iff hset hmem
    rw [append_assoc, singleton_append] at h
    rw [h.blkPrev_eq.2.2, ← hempty, getLast?_concat]
    constructor
    · intro huse
      exact ⟨c, rfl, huse.2⟩
    · rintro ⟨d, hd, huse⟩
      obtain rfl : c = d := Option.some.inj hd
      exact ⟨by omega, huse⟩

theorem PoolOk.emptyBeside_iff_sides (h : PoolOk p B L) (hset : ∀ c ∈ B, Settled c) (hb : b ∈ B) :
    EmptyBeside B b ↔ NextEmpty p b.addr ∨ PrevEmpty p b.addr := by
  obtain ⟨l1, l2, rfl⟩ := append_of_mem hb
  rw [h.emptyBeside_iff, h.nextEmpty_iff hset, h.prevEmpty_iff hset, or_comm]

theorem HeapBlocks.refused_contract (h : HeapBlocks s B L) (hset : ∀ c ∈ B, Settled c) (hb : b ∈ B)
    (hlive : b.use = .live) (hr : mpoolRealloc s.pool reqmem b.addr newsize = some (0, p'))
    (hfreed : FreedAt s.pool B b p') : ¬ ReallocContract s reqmem b.addr newsize := by
  rintro ⟨r, hr', -, hnull⟩
  obtain rfl := Option.some.inj (hr.symm.trans hr')
  obtain ⟨B', L', hfrees, hok, -⟩ := hfreed
  obtain ⟨d, hd, haddr⟩ := hok.live_of_liveAt (hfrees.settled hset) (hnull rfl).1
  have hperm := hfrees.live hlive
  have hdB := (mem_liveBlocks.mp (hperm.mem_iff.mpr (mem_cons_of_mem b hd))).1
  rw [h.ok.fill.eq_of_addr (by norm_num) hdB hb haddr] at hd
  exact (nodup_cons.mp (hperm.nodup_iff.mp h.ok.nodup_liveBlocks)).1 hd

theorem memcpy_zero (p : Mpool) (dst src : ℕ) : p.memcpy dst src 0 = p := by
  unfold Mpool.memcpy
  have hmem : (fun w => if dst ≤ w ∧ w < dst + 0 then p.mem (src + (w - dst)) else p.mem w) = p.mem := by
    funext w
    rw [if_neg (by omega)]
  rw [hmem]

theorem HeapBlocks.moves_contract (h : HeapBlocks s B L) (hset : ∀ c ∈ B, Settled c) (hb : b ∈ B)
    (hlive : b.use = .live) (hmoves : Moves s.pool b.addr (paddedSize newsize))
    (hsize : newsize ≤ paddedSize newsize) :
    ReallocContract s reqmem b.addr newsize ↔ ¬ NextEmpty s.pool b.addr ∧ ¬ PrevEmpty s.pool b.addr ∧
      (AnyPasses s.pool (sizeFits (paddedSize newsize)) ∨ Granted s.pool reqmem (paddedSize newsize) ∧
        GrowsEnough s.pool (paddedSize newsize) (sizeEnough (paddedSize newsize))) := by
  have hself : paddedSize (paddedSize newsize) = paddedSize newsize :=
    paddedSize_eq_self (paddedSize_dvd newsize) (Nat.ne_of_gt (Nat.zero_lt_of_lt hmoves.1)) (paddedSize_lt newsize)
  have htest := sizeFits_eq (paddedSize newsize)
  have htake := takes_takeBlock (paddedSize_dvd newsize)
  have hplace := (h.ok.place hb).1
  have hmore : b.size ≤ paddedSize newsize := by
    rw [← h.ok.blkSize_eq hb]
    exact hmoves.1.le
  have hrealloc : mpoolRealloc s.pool reqmem b.addr newsize = (mpoolAlloc s.pool reqmem (paddedSize newsize)).bind fun r =>
      if r.1 = 0 ∧ b.size ≠ 0 then none
      else (mpoolFree (r.2.memcpy r.1 b.addr b.size) b.addr).map fun p => (r.1, p) := by
    unfold mpoolRealloc
    rw [if_neg (by omega), reallocWith_moves hmoves, h.ok.blkSize_eq hb]
  have halloc : mpoolAlloc s.pool reqmem (paddedSize newsize) = allocWith s.pool reqmem (paddedSize newsize)
      (paddedSize newsize) (sizeFits (paddedSize newsize)) fun p ptr => takeBlock p ptr (paddedSize newsize) := by
    unfold mpoolAlloc
    rw [hself]
  have hbeside := h.ok.emptyBeside_iff_sides hset hb
  -- with a new block everything depends on whether the old one can be freed
  have hhanded : ∀ r, mpoolAlloc s.pool reqmem (paddedSize newsize) = some r →
      Handed s.pool B (paddedSize newsize) (fun front => front = []) r →
      (ReallocContract s reqmem b.addr newsize ↔ ¬ EmptyBeside B b) := by
    intro r hr hhand
    rw [hr, Option.bind_some, if_neg fun hzero => hhand.ne_zero hzero.1] at hrealloc
    obtain ⟨t, B1, hnt, hhands, hfree⟩ := hhand.moved hb hlive hset hmore
    rw [hhands.emptyBeside rfl fun _ hfront => hfront] at hfree
    rcases hfree with ⟨hempty, hnone⟩ | ⟨hempty, p', hsome, hmoved⟩
    · rw [hnone] at hrealloc
      refine iff_of_false ?_ (not_not.mpr hempty)
      rintro ⟨r', hr', -⟩
      rw [hrealloc] at hr'
      cases hr'
    · rw [hsome] at hrealloc
      exact iff_of_true (h.moved_contract hb hlive hrealloc hmoved hhand.ne_zero (hsize.trans hnt)) hempty
  have hsides : (¬ NextEmpty s.pool b.addr ∧ ¬ PrevEmpty s.pool b.addr) ↔ ¬ EmptyBeside B b := by
    rw [hbeside, not_or]
  have hfails : mpoolRealloc s.pool reqmem b.addr newsize = none → ¬ ReallocContract s reqmem b.addr newsize := by
    rintro hnone ⟨r, hr, -⟩
    rw [hnone] at hr
    cases hr
  rw [← and_assoc, hsides]
  by_cases hpass : AnyPasses s.pool (sizeFits (paddedSize newsize))
  · obtain ⟨-, -, r, -, -, hr, hhand⟩ := h.ok.allocWith_passes h.place reqmem (paddedSize newsize) htest
      htake h.ok.sizeFits_le hpass
    rw [hhanded r (halloc.trans hr) hhand]
    exact (and_iff_left (.inl hpass)).symm
  by_cases hgrant : Granted s.pool reqmem (paddedSize newsize)
  · obtain ⟨hgood, hbad⟩ := h.ok.allocWith_grows hset htest htake h.ok.sizeFits_le hpass hgrant
    by_cases hgrows : GrowsEnough s.pool (paddedSize newsize) (sizeEnough (paddedSize newsize))
    · obtain ⟨r, hr, hhand⟩ := hgood hgrows
      rw [hhanded r (halloc.trans hr) hhand]
      exact (and_iff_left (.inr ⟨hgrant, hgrows⟩)).symm
    · rw [halloc, hbad hgrows] at hrealloc
      refine iff_of_false (hfails hrealloc) ?_
      rintro ⟨-, hpass' | hgrows'⟩
      · exact hpass hpass'
      · exact hgrows hgrows'.2
  · have hnull : mpoolAlloc s.pool reqmem (paddedSize newsize) = some (0, s.pool) :=
      halloc.trans (h.ok.allocWith_null h.place h.ok.sizeFits_le hpass hgrant)
    rw [hnull, Option.bind_some] at hrealloc
    refine iff_of_false ?_ ?_
    · by_cases hbytes : b.size = 0
      · rw [hbytes, if_neg fun hnot => hnot.2 rfl, memcpy_zero] at hrealloc
        rcases h.ok.mpoolFree_spec hb hlive hset with ⟨-, hnone⟩ | ⟨-, p', hsome, hfreed⟩
        · rw [hnone] at hrealloc
          exact hfails hrealloc
        · rw [hsome] at hrealloc
          exact h.refused_contract hset hb hlive hrealloc hfreed
      · rw [if_pos ⟨rfl, hbytes⟩] at hrealloc
        exact hfails hrealloc
    · rintro ⟨-, hpass' | hgrows'⟩
      · exact hpass hpass'
      · exact hgrant hgrows'.1

theorem HeapBlocks.reallocContract_iff {ptr : ℕ} (h : HeapBlocks s B L) (hptr : ptr ∈ s.live)
    (hlt : newsize < 2 ^ 64) : ReallocContract s reqmem ptr newsize ↔ ReallocOk s.pool reqmem ptr newsize := by
  obtain ⟨b, hb, rfl, hlive⟩ := h.live_block hptr
  have hset := h.place.settled_of_live hb hlive
  have hsize := h.ok.blkSize_eq hb
  have hplace := h.ok.place hb
  have htop := h.ok.top
  unfold ReallocOk
  by_cases hfit : paddedSize newsize ≤ blkSize s.pool b.addr
  · have hr : mpoolRealloc s.pool reqmem b.addr newsize =
        some (b.addr, trySplitAndFree s.pool b.addr (paddedSize newsize)) := by
      unfold mpoolRealloc
      rw [if_neg (by omega), reallocWith_shrinks hfit]
    have hresized := h.ok.shrink_spec hb hlive (paddedSize_dvd newsize) (hsize ▸ hfit)
    rw [h.resized_contract hb hlive hr hresized, hsize]
    rw [hsize] at hfit
    refine Iff.trans ?_ (and_iff_left ⟨fun hmore => ?_, fun hmoves => ?_⟩).symm
    · rcases paddedSize_cases hlt with hpadded | ⟨hzero, hwrapped⟩
      · refine iff_of_true ?_ fun _ => .inl hpadded
        split <;> omega
      · rw [hzero]
        split <;> omega
    · omega
    · have := hmoves.1
      omega
  have hmore := Nat.lt_of_not_le hfit
  have hpadded : newsize ≤ paddedSize newsize := by
    rcases paddedSize_cases hlt with hpadded | ⟨hzero, -⟩
    · exact hpadded
    · omega
  refine Iff.trans ?_ (and_iff_right fun hle => absurd hle hfit).symm
  by_cases hmerge : Merges s.pool b.addr (paddedSize newsize)
  · have hr : mpoolRealloc s.pool reqmem b.addr newsize = (blkMergenext s.pool b.addr).map fun r =>
        (r.1, trySplitAndFree r.2 r.1 (paddedSize newsize)) := by
      unfold mpoolRealloc
      rw [if_neg (by omega), reallocWith_merges hmore hmerge]
    obtain ⟨hempty, hgrows⟩ := h.ok.merge_spec hb hlive hset (paddedSize_dvd newsize) (hsize ▸ hmore) hmerge
    refine Iff.trans ?_ (and_iff_left fun hmoves => absurd hmerge hmoves.2).symm
    by_cases hnext : NextEmpty s.pool b.addr
    · rw [hempty hnext] at hr
      refine iff_of_false ?_ fun hnot => hnot hmore hmerge hnext
      rintro ⟨r, hr', -⟩
      rw [hr] at hr'
      cases hr'
    · obtain ⟨t, q, hnt, hsome, hresized⟩ := hgrows hnext
      rw [hsome] at hr
      refine iff_of_true ((h.resized_contract hb hlive hr hresized).mpr ?_) fun _ _ => hnext
      omega
  · have hmoves : Moves s.pool b.addr (paddedSize newsize) := ⟨hmore, hmerge⟩
    rw [h.moves_contract hset hb hlive hmoves hpadded]
    constructor
    · exact fun hgood => ⟨fun _ hyes => absurd hyes hmerge, fun _ => hgood⟩
    · exact fun hok => hok.2 hmoves

theorem mpool_realloc_meets {s₀ s : Heap} {ops : List HeapOp} (hstart : HeapStart s₀)
    (hok : Meets heapStep HeapOk ops s₀) (hrun : run heapStep ops s₀ = some s) (reqmem : Option CbReqmem) (ptr : ℕ)
    (newsize : UInt64) (hptr : ptr ∈ s.live) :
    ReallocContract s reqmem ptr newsize.toNat ↔ ReallocOk s.pool reqmem ptr newsize.toNat := by
  obtain ⟨B, L, h⟩ := hstart.run_blocks hok hrun
  exact h.reallocContract_iff hptr newsize.toNat_lt

theorem mpool_realloc_meets_small : ∃ s, run heapStep [.alloc none 100] (clearedHeap 1048576 4096) = some s ∧
    (ReallocContract s none 1048592 (300 : UInt64).toNat ↔ ReallocOk s.pool none 1048592 (300 : UInt64).toNat) := by
  have hstart : HeapStart (clearedHeap 1048576 4096) :=
    clearedHeap_start (by decide) (by decide) (by decide) (by decide) (by decide)
  have hmeets : Meets heapStep HeapOk [.alloc none 100] (clearedHeap 1048576 4096) :=
    ⟨allocStepOk_none _ _, fun _ _ => trivial⟩
  obtain ⟨s, hs, hlive⟩ := (Option.any_eq_true _ _).mp contractRuns_small.1
  exact ⟨s, hs, mpool_realloc_meets hstart hmeets hs none 1048592 300 (of_decide_eq_true hlive)⟩

/-- Without memory for a new block the contents are copied to `NULL`. -/
theorem mpool_realloc_fails : ∃ s₀ s, HeapStart s₀ ∧ run heapStep [.alloc none 32736] s₀ = some s ∧
    1048592 ∈ s.live ∧ ¬ ReallocContract s none 1048592 (40000 : UInt64).toNat := by
  obtain ⟨s, hs, hfails⟩ := (Option.any_eq_true _ _).mp contractRuns_small.2
  obtain ⟨hlive, -, hnone⟩ := of_decide_eq_true hfails
  refine ⟨clearedHeap 1048576 32768, s, ?_, hs, hlive, ?_⟩
  · exact clearedHeap_start (by decide) (by decide) (by decide) (by decide) (by decide)
  · rintro ⟨r, hr, -⟩
    rw [hr] at hnone
    cases hnone

end Contracts
end CoolPotOS
