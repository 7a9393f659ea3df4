import CoolPotOS.Mem.MpoolCalls

namespace CoolPotOS

open Blocks Intrusive Runs List Option

def NextFree (p : Mpool) (ptr : ℕ) : Prop := blkNext p ptr ≠ 0 ∧ blkFreed p (blkNext p ptr)

/-- The end of the block is not split off in front of a free block. -/
def ShrinkOk (p : Mpool) (ptr n : ℕ) : Prop := n + 64 ≤ blkSize p ptr → ¬ NextFree p ptr

/-- No block without bytes is split off before the next multiple of `align`. -/
def CarveOk (p : Mpool) (reqmem : Option CbReqmem) (n align : ℕ) : Prop :=
  16 ≤ align → ∀ a, CarvesAt p reqmem n align a → wrapSub (paddingTo a align) a ≠ 16

/-- A call that leaves no free block in no list, in the wrong list or beside another one. -/
def PackOk (s : Heap) : HeapOp → Prop
  | .alloc _ size => size.toNat ≤ paddedSize size.toNat
  | .alignedAlloc reqmem size align => align.toNat &&& (align.toNat - 1) = 0 →
    size.toNat ≤ paddedSize size.toNat ∧ CarveOk s.pool reqmem (paddedSize size.toNat) align.toNat
  | .realloc _ ptr newsize =>
    newsize.toNat ≤ paddedSize newsize.toNat ∧ (ptr ≠ 0 → ShrinkOk s.pool ptr (paddedSize newsize.toNat))
  | .alignedRealloc reqmem ptr newsize align => align.toNat &&& (align.toNat - 1) = 0 →
    newsize.toNat ≤ paddedSize newsize.toNat ∧ (ptr ≠ 0 → ShrinkOk s.pool ptr (paddedSize newsize.toNat)) ∧
      ((ptr ≠ 0 → Moves s.pool ptr (paddedSize newsize.toNat)) →
        CarveOk s.pool reqmem (paddedSize newsize.toNat) align.toNat)
  | _ => True

def Stays (p : Mpool) (ptr n : ℕ) : Prop := blkSize p ptr < n + 64 ∧ (blkSize p ptr < n → ¬ Merges p ptr n)

/-- A call that does not change the size of a block in place. -/
def CountOk (s : Heap) : HeapOp → Prop
  | .realloc _ ptr newsize => ptr ≠ 0 → Stays s.pool ptr (paddedSize newsize.toNat)
  | .alignedRealloc _ ptr newsize align => align.toNat &&& (align.toNat - 1) = 0 → ptr ≠ 0 →
    Stays s.pool ptr (paddedSize newsize.toNat)
  | _ => True

def liveSize (B : List PoolBlock) : ℕ := ((liveBlocks B).map Block.size).sum

/-- The blocks and the lists of a heap, and which blocks its callers have. -/
structure HeapBlocks (s : Heap) (B : List PoolBlock) (L : Option ℕ → List ℕ) : Prop where
  ok : PoolOk s.pool B L
  place : InPlace B
  live : s.live.Perm ((liveBlocks B).map Block.addr)

/-- What is known of the blocks after a call. -/
structure Outcome (s : Heap) (op : HeapOp) (B : List PoolBlock) (s' : Heap) (B' : List PoolBlock)
    (L' : Option ℕ → List ℕ) : Prop where
  after : HeapBlocks s' B' L'
  tidy : PackOk s op → Packed B → Packed B'
  count : CountOk s op → s.pool.allocedSize = liveSize B → s'.pool.allocedSize = liveSize B'

variable {ptr size a : ℕ} {r : ℕ × Mpool} {reqmem : Option CbReqmem}

section Outcomes

variable {s s' : Heap} {op : HeapOp} {B B' : List PoolBlock} {L L' : Option ℕ → List ℕ} {b c : PoolBlock} {n t : ℕ}

theorem PoolOk.liveSize_lt {p : Mpool} (h : PoolOk p B L) : liveSize B < 2 ^ 64 := by
  have hsum := h.fill.sum_size_le
  have htop := h.top
  have hsub : liveSize B ≤ (B.map Block.size).sum := (filter_sublist.map Block.size).sum_le_sum fun _ _ => Nat.zero_le _
  omega

theorem size_sum_eq {l l' : List PoolBlock} (h : l.Perm l') : (l.map Block.size).sum = (l'.map Block.size).sum :=
  (h.map Block.size).sum_eq

theorem HeapBlocks.live_block (h : HeapBlocks s B L) (hptr : ptr ∈ s.live) :
    ∃ b ∈ B, b.addr = ptr ∧ b.use = .live := by
  obtain ⟨b, hb, rfl⟩ := List.mem_map.mp (h.live.mem_iff.mp hptr)
  obtain ⟨hmem, hlive⟩ := mem_liveBlocks.mp hb
  exact ⟨b, hmem, rfl, hlive⟩

theorem perm_replace {l : List ℕ} {k k' : List PoolBlock} (h : l.Perm (k.map Block.addr))
    (hk : (b :: k').Perm (c :: k)) (hb : b ∈ k) : (c.addr :: l.erase b.addr).Perm (k'.map Block.addr) := by
  have hmem : b.addr ∈ l := h.mem_iff.mpr (List.mem_map_of_mem hb)
  have hmap : (b.addr :: k'.map Block.addr).Perm (c.addr :: k.map Block.addr) := hk.map Block.addr
  have hall : (c.addr :: l).Perm (c.addr :: b.addr :: l.erase b.addr) := (perm_cons_erase hmem).cons _
  have hturn : (b.addr :: c.addr :: l.erase b.addr).Perm (b.addr :: k'.map Block.addr) :=
    ((List.Perm.swap _ _ _).trans hall.symm).trans ((h.cons _).trans hmap.symm)
  exact hturn.cons_inv

theorem Outcome.same (h : HeapBlocks s B L) (hok : PoolOk s'.pool B L') (hlive : s'.live = s.live)
    (hcount : s'.pool.allocedSize = s.pool.allocedSize) : Outcome s op B s' B L' := by
  refine ⟨⟨hok, h.place, ?_⟩, fun _ htidy => htidy, fun _ hsum => hcount.trans hsum⟩
  rw [hlive]
  exact h.live

theorem Outcome.handed {F : List PoolBlock → Prop} (h : HeapBlocks s B L) (hhand : Handed s.pool B n F r)
    (hlive : s'.live = r.1 :: s.live) (hpool : s'.pool = r.2)
    (hfront : PackOk s op → n ≠ 0 ∧ ∀ front, F front → front.length ≤ 1 ∧ ∀ d ∈ front, d.size ≠ 0) :
    ∃ B' L', Outcome s op B s' B' L' := by
  obtain ⟨t, B', L', hhands, hok, halloced, -, hnt⟩ := hhand
  have hperm := hhands.live rfl
  refine ⟨B', L', ⟨?_, .inl (hhands.settled h.place rfl), ?_⟩, fun htidyOk htidy => ?_, fun _ hsum => ?_⟩
  · rw [hpool]
    exact hok
  · rw [hlive]
    exact (h.live.cons _).trans (hperm.map Block.addr).symm
  · obtain ⟨hn, hF⟩ := hfront htidyOk
    exact hhands.tidy htidy rfl (by dsimp only; omega) hF
  · have htotal : liveSize B' = t + liveSize B := size_sum_eq hperm
    have hlt := hok.liveSize_lt
    rw [hpool, halloced, hsum, htotal, Nat.add_comm, wrap_of_lt (by omega)]

theorem Outcome.freed {p' : Mpool} (h : HeapBlocks s B L) (hset : ∀ c ∈ B, Settled c) (hb : b ∈ B) (hlive : b.use = .live)
    (hfree : FreedAt s.pool B b p') (hlist : s'.live = s.live.erase b.addr) (hpool : s'.pool = p') :
    ∃ B' L', Outcome s op B s' B' L' := by
  obtain ⟨B', L', hfrees, hok, halloced, -⟩ := hfree
  have hperm := hfrees.live hlive
  have hmem := mem_liveBlocks.mpr ⟨hb, hlive⟩
  refine ⟨B', L', ⟨?_, .inl (hfrees.settled hset), ?_⟩, fun _ htidy => hfrees.tidy htidy hlive, fun _ hsum => ?_⟩
  · rw [hpool]
    exact hok
  · rw [hlist]
    have hsplit := perm_cons_erase (h.live.mem_iff.mpr (List.mem_map_of_mem hmem))
    exact (hsplit.symm.trans (h.live.trans (hperm.map Block.addr))).cons_inv
  · have htotal : liveSize B = b.size + liveSize B' := size_sum_eq hperm
    have hlt := h.ok.liveSize_lt
    rw [hpool, halloced, hsum, htotal]
    unfold wrapSub
    omega

theorem Outcome.resized {p' : Mpool} (h : HeapBlocks s B L) (hset : ∀ c ∈ B, Settled c) (hb : b ∈ B)
    (hlive : b.use = .live) (hresized : Resized s.pool B b t p') (hlist : s'.live.Perm (b.addr :: s.live.erase b.addr))
    (hpool : s'.pool = p') (htidyOk : PackOk s op → t ≠ 0 ∧ (t + 64 ≤ b.size → ¬ NextFree s.pool b.addr))
    (hcount : CountOk s op → t = b.size) : ∃ B' L', Outcome s op B s' B' L' := by
  obtain ⟨B', L', hresizes, hok, halloced, -, -⟩ := hresized
  have hperm := hresizes.live hlive
  refine ⟨B', L', ⟨?_, .inl (hresizes.settled hset), ?_⟩, fun htidy' htidy => ?_, fun hcountOk hsum => ?_⟩
  · rw [hpool]
    exact hok
  · have hreplace := perm_replace (c := ⟨b.addr, t, .live⟩) h.live hperm (mem_liveBlocks.mpr ⟨hb, hlive⟩)
    exact hlist.trans hreplace
  · obtain ⟨ht, hnext⟩ := htidyOk htidy'
    refine hresizes.tidy htidy hlive ht fun hsplit l1 l2 hB d hd => ?_
    have hnot := hnext hsplit
    have hok1 := h.ok
    rw [hB] at hok1 hset
    by_contra hfree
    exact hnot ((hok1.next_free hset).mpr ⟨d, hd, hfree⟩)
  · have htotal : b.size + liveSize B' = t + liveSize B := size_sum_eq hperm
    rw [hpool, halloced, hsum]
    have := hcount hcountOk
    omega

theorem Outcome.moved {F : List PoolBlock → Prop} (h : HeapBlocks s B L) (hset : ∀ c ∈ B, Settled c)
    (hb : b ∈ B) (hlive : b.use = .live) (hmoved : MovedTo s.pool F B b t r) (hnt : n ≤ t)
    (hlist : s'.live = r.1 :: s.live.erase b.addr) (hpool : s'.pool = r.2)
    (hfront : PackOk s op → n ≠ 0 ∧ ∀ front, F front → front.length ≤ 1 ∧ ∀ d ∈ front, d.size ≠ 0) :
    ∃ B' L', Outcome s op B s' B' L' := by
  obtain ⟨B1, B', L', hhands, hfrees, hok, halloced, -, -⟩ := hmoved
  have hperm1 := hhands.live rfl
  have hperm := (hfrees.live hlive).symm.trans hperm1
  refine ⟨B', L', ⟨?_, .inl (hfrees.settled (hhands.settled (.inl hset) rfl)), ?_⟩, fun htidyOk htidy => ?_,
    fun _ hsum => ?_⟩
  · rw [hpool]
    exact hok
  · rw [hlist]
    exact perm_replace h.live hperm (mem_liveBlocks.mpr ⟨hb, hlive⟩)
  · obtain ⟨hn, hF⟩ := hfront htidyOk
    exact hfrees.tidy (hhands.tidy htidy rfl (by dsimp only; omega) hF) hlive
  · have htotal : b.size + liveSize B' = t + liveSize B := size_sum_eq hperm
    have hlt := hok.liveSize_lt
    have hlt' := h.ok.liveSize_lt
    have hplace := (h.ok.place hb).2
    have htop := h.ok.top
    rw [hpool, halloced, hsum]
    unfold wrapSub wrap
    omega

theorem padded_ne_zero (h : size ≤ paddedSize size) : paddedSize size ≠ 0 := by
  intro hzero
  rw [hzero, Nat.le_zero] at h
  rw [h] at hzero
  cases hzero

theorem front_nil (front : List PoolBlock) (h : front = []) : front.length ≤ 1 ∧ ∀ d ∈ front, d.size ≠ 0 := by
  rw [h]
  refine ⟨Nat.zero_le 1, fun d hd => ?_⟩
  cases hd

theorem front_aligned {align : ℕ} (h : wrapSub (paddingTo a align) a ≠ 16) (front : List PoolBlock)
    (hfront : Front align a front) : front.length ≤ 1 ∧ ∀ d ∈ front, d.size ≠ 0 := by
  refine ⟨hfront.1, fun d hd hzero => ?_⟩
  have := hfront.2 d hd
  omega

theorem Heap.take_of_ne_zero (s : Heap) (h : r.1 ≠ 0) : s.take r = ⟨r.2, r.1 :: s.live⟩ := by
  unfold Heap.take
  rw [if_neg h]

theorem Heap.retake_of_ne_zero (s : Heap) (ptr : ℕ) (p : Mpool) (h : a ≠ 0) :
    s.retake ptr (a, p) = ⟨p, a :: s.live.erase ptr⟩ := by
  unfold Heap.retake
  rw [if_neg h]

theorem HeapBlocks.alloc_outcome (h : HeapBlocks s B L) (hok : AllocStepOk s.pool reqmem size)
    (hstep : (mpoolAlloc s.pool reqmem size).map s.take = some s')
    (htidy : PackOk s op → size ≤ paddedSize size) : ∃ B' L', Outcome s op B s' B' L' := by
  obtain ⟨r, hr, rfl⟩ := map_eq_some_iff.mp hstep
  rcases h.ok.mpoolAlloc_cases h.place hok with hnone | ⟨hnull, -⟩ | ⟨r', hsome, hhand⟩
  · rw [hnone] at hr
    cases hr
  · obtain rfl := Option.some.inj (hnull.symm.trans hr)
    exact ⟨B, L, .same h h.ok rfl rfl⟩
  · obtain rfl := Option.some.inj (hsome.symm.trans hr)
    rw [s.take_of_ne_zero hhand.ne_zero]
    exact Outcome.handed h hhand rfl rfl fun hop => ⟨padded_ne_zero (htidy hop), front_nil⟩

theorem HeapBlocks.alignedAlloc_outcome {align : ℕ} (h : HeapBlocks s B L) (hlt : align < 2 ^ 64)
    (hok : AlignedStepOk s.pool reqmem size align)
    (hstep : (mpoolAlignedAlloc s.pool reqmem size align).map s.take = some s')
    (htidy : PackOk s op → align &&& (align - 1) = 0 → size ≤ paddedSize size ∧ CarveOk s.pool reqmem (paddedSize size) align) :
    ∃ B' L', Outcome s op B s' B' L' := by
  by_cases hpow : align &&& (align - 1) = 0
  · have hok := hok hpow
    by_cases halign : align < 16
    · rw [if_pos halign] at hok
      unfold mpoolAlignedAlloc at hstep
      rw [if_neg (not_not.mpr hpow), if_pos halign] at hstep
      exact h.alloc_outcome hok hstep fun hop => (htidy hop hpow).1
    · rw [if_neg halign] at hok
      obtain ⟨r, hr, rfl⟩ := map_eq_some_iff.mp hstep
      rcases h.ok.mpoolAlignedAlloc_cases h.place hlt hpow halign hok.1 hok.2 with
        hnone | ⟨hnull, -⟩ | ⟨r', a, hsome, hcarve, hhand⟩
      · rw [hnone] at hr
        cases hr
      · obtain rfl := Option.some.inj (hnull.symm.trans hr)
        exact ⟨B, L, .same h h.ok rfl rfl⟩
      · obtain rfl := Option.some.inj (hsome.symm.trans hr)
        rw [s.take_of_ne_zero hhand.ne_zero]
        refine Outcome.handed h hhand rfl rfl fun hop => ?_
        obtain ⟨hsize, hcarveOk⟩ := htidy hop hpow
        exact ⟨padded_ne_zero hsize, front_aligned (hcarveOk (by omega) a hcarve)⟩
  · unfold mpoolAlignedAlloc at hstep
    rw [if_pos hpow] at hstep
    cases hstep
    exact ⟨B, L, .same h h.ok rfl rfl⟩

section Realloc

variable {alloc : Mpool → ℕ → Option (ℕ × Mpool)} {p : Mpool} {ptr : ℕ}

theorem reallocWith_shrinks (h : n ≤ blkSize p ptr) :
    reallocWith alloc p ptr n = some (ptr, trySplitAndFree p ptr n) := by
  unfold reallocWith
  rw [if_pos h]

theorem reallocWith_merges (h : blkSize p ptr < n) (hmerge : Merges p ptr n) :
    reallocWith alloc p ptr n = (blkMergenext p ptr).map fun r => (r.1, trySplitAndFree r.2 r.1 n) := by
  unfold reallocWith
  rw [if_neg (Nat.not_le_of_lt h)]
  exact if_pos hmerge

theorem reallocWith_moves (h : Moves p ptr n) : reallocWith alloc p ptr n = (alloc p n).bind fun r =>
    if r.1 = 0 ∧ blkSize p ptr ≠ 0 then none
    else (mpoolFree (r.2.memcpy r.1 ptr (blkSize p ptr)) ptr).map fun p => (r.1, p) := by
  unfold reallocWith
  rw [if_neg (Nat.not_le_of_lt h.1)]
  exact if_neg h.2

/-- What a reallocation takes from an allocation: it fails, or returns `NULL` and leaves the pool as it is, or
hands out a block. -/
def AllocResult (p : Mpool) (B : List PoolBlock) (n : ℕ) (Good : (List PoolBlock → Prop) → Prop) (Null : Prop)
    (r : Option (ℕ × Mpool)) : Prop :=
  r = none ∨ (r = some (0, p) ∧ Null) ∨ ∃ F q, r = some q ∧ Handed p B n F q ∧ Good F

theorem HeapBlocks.realloc_outcome (h : HeapBlocks s B L) (hptr : ptr ∈ s.live) (hn : 16 ∣ n)
    (hstep : (reallocWith alloc s.pool ptr n).map (s.retake ptr) = some s')
    (halloc : Moves s.pool ptr n → AllocResult s.pool B n
      (fun F => PackOk s op → ∀ front, F front → front.length ≤ 1 ∧ ∀ d ∈ front, d.size ≠ 0)
      (blkSize s.pool ptr ≠ 0) (alloc s.pool n))
    (htidy : PackOk s op → n ≠ 0 ∧ ShrinkOk s.pool ptr n) (hcount : CountOk s op → Stays s.pool ptr n) :
    ∃ B' L', Outcome s op B s' B' L' := by
  obtain ⟨b, hb, rfl, hlive⟩ := h.live_block hptr
  have hset := h.place.settled_of_live hb hlive
  have hsize := h.ok.blkSize_eq hb
  have hne : b.addr ≠ 0 := by
    have := (h.ok.place hb).1
    omega
  obtain ⟨r, hr, rfl⟩ := map_eq_some_iff.mp hstep
  by_cases hfit : n ≤ blkSize s.pool b.addr
  · rw [reallocWith_shrinks hfit] at hr
    cases hr
    rw [hsize] at hfit
    have hshrunk := h.ok.shrink_spec hb hlive hn hfit
    rw [s.retake_of_ne_zero b.addr _ hne]
    refine Outcome.resized h hset hb hlive hshrunk (.refl _) rfl (fun hop => ?_) fun hop => ?_
    · obtain ⟨hn0, hshrinkOk⟩ := htidy hop
      unfold ShrinkOk at hshrinkOk
      rw [hsize] at hshrinkOk
      split
      · exact ⟨by omega, fun hsplit => by omega⟩
      · exact ⟨hn0, hshrinkOk⟩
    · have hstays := (hcount hop).1
      rw [hsize] at hstays
      rw [if_pos hstays]
  have hmore : b.size < n := by
    rw [← hsize]
    exact Nat.lt_of_not_le hfit
  by_cases hmerge : Merges s.pool b.addr n
  · rw [reallocWith_merges (Nat.lt_of_not_le hfit) hmerge] at hr
    obtain ⟨hempty, hgrows⟩ := h.ok.merge_spec hb hlive hset hn hmore hmerge
    by_cases hnext : NextEmpty s.pool b.addr
    · rw [hempty hnext] at hr
      cases hr
    · obtain ⟨t, q, hnt, hsome, hresized⟩ := hgrows hnext
      rw [hsome] at hr
      cases hr
      rw [s.retake_of_ne_zero b.addr _ hne]
      refine Outcome.resized h hset hb hlive hresized (.refl _) rfl (fun hop => ?_) fun hop => ?_
      · exact ⟨by omega, fun hsplit => by omega⟩
      · exact absurd hmerge ((hcount hop).2 (Nat.lt_of_not_le hfit))
  · have hmoves : Moves s.pool b.addr n := ⟨Nat.lt_of_not_le hfit, hmerge⟩
    rw [reallocWith_moves hmoves, hsize] at hr
    rcases halloc hmoves with hnone | ⟨hnull, hbytes⟩ | ⟨F, q, hsome, hhand, hgood⟩
    · rw [hnone] at hr
      cases hr
    · rw [hnull, bind_some, if_pos ⟨rfl, hsize ▸ hbytes⟩] at hr
      cases hr
    · rw [hsome, bind_some, if_neg fun hzero => hhand.ne_zero hzero.1] at hr
      obtain ⟨t, B1, hnt, -, hfree⟩ := hhand.moved hb hlive hset hmore.le
      rcases hfree with ⟨-, hnone⟩ | ⟨-, p', hsome', hmoved⟩
      · rw [hnone] at hr
        cases hr
      · rw [hsome', map_some] at hr
        cases hr
        rw [s.retake_of_ne_zero b.addr _ hhand.ne_zero]
        exact Outcome.moved h hset hb hlive hmoved hnt rfl rfl fun hop => ⟨(htidy hop).1, hgood hop⟩

end Realloc

theorem freelistsSize2id_none (h : freelistsSize2id size = none) : 16384 ≤ size := by
  unfold freelistsSize2id at h
  split at h
  · cases h
  · split at h
    · cases h
    · split at h
      · assumption
      · cases h

theorem PoolOk.not_smallUntouched {p : Mpool} (h : PoolOk p B L) (hset : ∀ c ∈ B, Settled c) : ¬ SmallUntouched p := by
  rintro ⟨hhead, hsmall⟩
  have hbase := h.base
  unfold pageSize at hbase
  have hchain : Chain p.mem 8 p.largeBlk (L none) := h.chain none
  obtain ⟨l, hl⟩ : ∃ l, L none = p.largeBlk :: l := by
    cases hL : L none with
    | nil =>
      rw [hL] at hchain
      have : p.largeBlk = 0 := hchain
      omega
    | cons a l =>
      rw [hL] at hchain
      rw [hchain.1]
      exact ⟨l, rfl⟩
  obtain ⟨b, hb, -, huse⟩ := (h.listed none p.largeBlk).mp (hl ▸ mem_cons_self)
  have hplace := h.place hb
  rcases (hset b hb).cases with hlive | ⟨hempty, -⟩ | ⟨-, hlist⟩
  · rw [huse] at hlive
    cases hlive
  · rw [huse] at hempty
    cases hempty
  · rw [huse] at hlist
    have := freelistsSize2id_none (BlockUse.listed.inj hlist).symm
    omega

theorem HeapBlocks.zero_not_live (h : HeapBlocks s B L) : 0 ∉ s.live := by
  intro hzero
  obtain ⟨b, hb, haddr, -⟩ := h.live_block hzero
  have := (h.ok.place hb).1
  omega

theorem HeapBlocks.retake_zero (h : HeapBlocks s B L) : s.retake 0 = s.take := by
  funext r
  unfold Heap.retake Heap.take
  rw [erase_of_not_mem h.zero_not_live]

theorem HeapBlocks.not_grows {ask : ℕ} {test : Mpool → ℕ → Bool} (h : HeapBlocks s B L) (hptr : ptr ∈ s.live) :
    ¬ GrowsUntouched s.pool reqmem ask test := by
  obtain ⟨b, hb, -, hlive⟩ := h.live_block hptr
  exact fun hgrows => h.ok.not_smallUntouched (h.place.settled_of_live hb hlive) hgrows.1

theorem HeapBlocks.mpoolRealloc_outcome {newsize : ℕ} (h : HeapBlocks s B L) (hptr : ptr ∈ s.live)
    (hok : ReallocStepOk s.pool reqmem ptr newsize)
    (hstep : (mpoolRealloc s.pool reqmem ptr newsize).map (s.retake ptr) = some s')
    (htidy : PackOk s op → newsize ≤ paddedSize newsize ∧ ShrinkOk s.pool ptr (paddedSize newsize))
    (hcount : CountOk s op → Stays s.pool ptr (paddedSize newsize)) : ∃ B' L', Outcome s op B s' B' L' := by
  have hne : ptr ≠ 0 := fun hzero => h.zero_not_live (hzero ▸ hptr)
  unfold mpoolRealloc at hstep
  rw [if_neg hne] at hstep
  refine h.realloc_outcome hptr (paddedSize_dvd newsize) hstep (fun hmoves => ?_)
    (fun hop => ⟨padded_ne_zero (htidy hop).1, (htidy hop).2⟩) hcount
  have hself : paddedSize (paddedSize newsize) = paddedSize newsize :=
    paddedSize_eq_self (paddedSize_dvd newsize) (Nat.ne_of_gt (Nat.zero_lt_of_lt hmoves.1)) (paddedSize_lt newsize)
  rcases h.ok.mpoolAlloc_cases h.place (h.not_grows hptr : AllocStepOk s.pool reqmem (paddedSize newsize)) with
    hnone | ⟨hnull, hpass, hgrant⟩ | ⟨r, hsome, hhand⟩
  · exact .inl hnone
  · rw [hself] at hpass hgrant
    refine .inr (.inl ⟨hnull, fun hzero => ?_⟩)
    rcases hok hmoves hzero with hpass' | hgrant'
    · exact hpass hpass'
    · exact hgrant hgrant'
  · rw [hself] at hhand
    exact .inr (.inr ⟨_, r, hsome, hhand, fun _ => front_nil⟩)

theorem HeapBlocks.step (h : HeapBlocks s B L) (hok : HeapOk s op) (hstep : heapStep s op = some s') :
    ∃ B' L', Outcome s op B s' B' L' := by
  cases op with
  | alloc reqmem size => exact h.alloc_outcome hok hstep fun hop => hop
  | alignedAlloc reqmem size align => exact h.alignedAlloc_outcome align.toNat_lt hok hstep fun hop => hop
  | free ptr =>
    dsimp only [heapStep] at hstep
    split at hstep
    · rename_i hptr
      obtain ⟨p', hp', rfl⟩ := map_eq_some_iff.mp hstep
      rcases hptr with rfl | hptr
      · unfold mpoolFree at hp'
        rw [if_pos rfl] at hp'
        cases hp'
        exact ⟨B, L, .same h h.ok (erase_of_not_mem h.zero_not_live) rfl⟩
      · obtain ⟨b, hb, rfl, hlive⟩ := h.live_block hptr
        have hset := h.place.settled_of_live hb hlive
        rcases h.ok.mpoolFree_spec hb hlive hset with ⟨-, hnone⟩ | ⟨-, p1, hsome, hfreed⟩
        · rw [hnone] at hp'
          cases hp'
        · obtain rfl := Option.some.inj (hsome.symm.trans hp')
          exact Outcome.freed h hset hb hlive hfreed rfl rfl
    · cases hstep
  | realloc reqmem ptr newsize =>
    dsimp only [heapStep] at hstep
    dsimp only [HeapOk] at hok
    split at hstep
    · rename_i hptr
      by_cases hzero : ptr = 0
      · rw [if_pos hzero] at hok
        rw [hzero, h.retake_zero] at hstep
        exact h.alloc_outcome hok hstep fun hop => hop.1
      · rw [if_neg hzero] at hok
        exact h.mpoolRealloc_outcome (hptr.resolve_left hzero) hok hstep (fun hop => ⟨hop.1, hop.2 hzero⟩)
          fun hop => hop hzero
    · cases hstep
  | alignedRealloc reqmem ptr newsize align =>
    dsimp only [heapStep] at hstep
    dsimp only [HeapOk] at hok
    split at hstep
    · rename_i hptr
      by_cases hzero : ptr = 0
      · rw [if_pos hzero] at hok
        rw [hzero, h.retake_zero] at hstep
        refine h.alignedAlloc_outcome align.toNat_lt hok hstep fun hop hpow => ?_
        obtain ⟨hsize, -, hcarve⟩ := hop hpow
        exact ⟨hsize, hcarve fun hne => absurd hzero hne⟩
      · rw [if_neg hzero] at hok
        have hptr := hptr.resolve_left hzero
        unfold mpoolAlignedRealloc at hstep
        rw [if_neg hzero] at hstep
        by_cases hpow : align.toNat &&& (align.toNat - 1) = 0
        · have hok := hok hpow
          rw [if_neg (not_not.mpr hpow)] at hstep
          by_cases halign : align.toNat < 16
          · rw [if_pos halign] at hok hstep
            exact h.mpoolRealloc_outcome hptr hok hstep
              (fun hop => ⟨(hop hpow).1, (hop hpow).2.1 hzero⟩) fun hop => hop hpow hzero
          · rw [if_neg halign] at hok hstep
            refine h.realloc_outcome hptr (paddedSize_dvd newsize.toNat) hstep (fun hmoves => ?_)
              (fun hop => ⟨padded_ne_zero (hop hpow).1, (hop hpow).2.1 hzero⟩) fun hop => hop hpow hzero
            obtain ⟨hsize, hmoveOk⟩ := hok hmoves
            have hself : paddedSize (paddedSize newsize.toNat) = paddedSize newsize.toNat :=
              paddedSize_eq_self (paddedSize_dvd newsize.toNat) (Nat.ne_of_gt (Nat.zero_lt_of_lt hmoves.1))
                (paddedSize_lt newsize.toNat)
            have hsmall : paddedSize (paddedSize newsize.toNat) < 2 ^ 63 := by
              rw [hself]
              exact hsize
            rcases h.ok.mpoolAlignedAlloc_cases h.place align.toNat_lt hpow halign hsmall (h.not_grows hptr) with
              hnone | ⟨hnull, hpass, hgrant⟩ | ⟨r, a, hsome, hcarve, hhand⟩
            · exact .inl hnone
            · rw [hself] at hpass hgrant
              refine .inr (.inl ⟨hnull, fun hbytes => ?_⟩)
              rcases hmoveOk hbytes with hpass' | hgrant'
              · exact hpass hpass'
              · exact hgrant hgrant'
            · rw [hself] at hcarve hhand
              refine .inr (.inr ⟨_, r, hsome, hhand, fun hop => front_aligned ?_⟩)
              exact (hop hpow).2.2 (fun _ => hmoves) (by omega) a hcarve
        · rw [if_pos hpow] at hstep
          cases hstep
          exact ⟨B, L, .same h h.ok rfl rfl⟩
    · cases hstep
  | write ptr i value =>
    dsimp only [heapStep] at hstep
    split at hstep
    · rename_i hptr
      cases hstep
      obtain ⟨b, hb, rfl, hlive⟩ := h.live_block hptr.1
      have hroom := hptr.2
      rw [h.ok.blkSize_eq hb] at hroom
      have hstored := h.ok.stored hb hlive value (w := b.addr + 8 * i) ⟨Nat.le_add_right _ _, by omega⟩
      exact ⟨B, L, .same h hstored rfl rfl⟩
    · cases hstep

theorem HeapStart.blocks (h : HeapStart s) : ∃ b L, HeapBlocks s [b] L ∧ b.use = .listed none ∧
    b.size = s.pool.size - 32 ∧ 48 ≤ s.pool.size ∧ s.pool.allocedSize = 0 := by
  obtain ⟨mem, ptr, size, hinit, hlive, hbase, hdvd, hroom, htop⟩ := h
  obtain ⟨hcount, hsize, L, hok⟩ := mpoolInit_spec hbase hdvd hroom htop hinit
  refine ⟨_, L, ⟨hok, .inr ⟨_, rfl, rfl⟩, ?_⟩, rfl, ?_, ?_, hcount⟩
  · rw [hlive, liveBlocks_eq_nil]
    · exact .refl _
    · intro c hc
      rw [mem_singleton.mp hc]
      exact BlockUse.noConfusion
  · rw [hsize]
  · rw [hsize]
    exact hroom

theorem liveSize_start (huse : b.use = .listed none) : liveSize [b] = 0 := by
  unfold liveSize
  rw [liveBlocks_eq_nil]
  · rfl
  · intro c hc
    rw [mem_singleton.mp hc, huse]
    exact BlockUse.noConfusion

def clearedHeap (ptr size : ℕ) : Heap :=
  ⟨freelistPut (allocareaInit ⟨ptr, size, 0, 0, fun _ => 0, fun _ => 0⟩ ptr size) none (ptr + 16), []⟩

theorem clearedHeap_start (hbase : pageSize ≤ ptr) (hptr : 16 ∣ ptr) (hsize : 16 ∣ size) (hroom : 48 ≤ size)
    (htop : ptr + size < 2 ^ 64) : HeapStart (clearedHeap ptr size) := by
  refine ⟨fun _ => 0, ptr, size, ?_, rfl, hbase, hptr, hroom, htop⟩
  unfold pageSize at hbase
  unfold mpoolInit
  rw [if_neg (by omega)]
  rfl

/-- The blocks fill the memory of the pool and the lists hold the free ones, after any run of calls that leave
the lists whole. -/
theorem HeapStart.run_blocks {s0 : Heap} {ops : List HeapOp} (hstart : HeapStart s0) (hok : Meets heapStep HeapOk ops s0)
    (hrun : run heapStep ops s0 = some s) : ∃ B L, HeapBlocks s B L := by
  have hkeeps : ∀ s op s', (∃ B L, HeapBlocks s B L) → HeapOk s op → heapStep s op = some s' → ∃ B L, HeapBlocks s' B L := by
    rintro s op s' ⟨B, L, h⟩ hok hstep
    obtain ⟨B', L', hout⟩ := h.step hok hstep
    exact ⟨B', L', hout.after⟩
  obtain ⟨b, L, h, -⟩ := hstart.blocks
  exact run_keeps hkeeps ⟨[b], L, h⟩ hok hrun

/-- Every block of the pool has agreeing tags and is a caller's or free. The free ones are in the lists of their
sizes, and no two of them are neighbours. -/
def WellTiled (s : Heap) : Prop :=
  ∃ B L, PoolOk s.pool B L ∧ s.live.Perm ((liveBlocks B).map Block.addr) ∧
    (∀ b ∈ B, b.use = .live ∨ b.use = .listed (freelistsSize2id b.size)) ∧ B.IsChain Parted

theorem Packed.settled_listed (h : Packed B) (hb : b ∈ B) : b.use = .live ∨ b.use = .listed (freelistsSize2id b.size) := by
  rcases (h.settled b hb).cases with hlive | ⟨-, hzero⟩ | ⟨-, hlist⟩
  · exact .inl hlive
  · exact absurd hzero (h.roomy b hb)
  · exact .inr hlist

theorem heap_wellTiled {s₀ s : Heap} {ops : List HeapOp} (hstart : HeapStart s₀) (hlarge : 16384 + 32 ≤ s₀.pool.size)
    (hok : Meets heapStep (fun s op => HeapOk s op ∧ PackOk s op) ops s₀) (hrun : run heapStep ops s₀ = some s) :
    WellTiled s := by
  have hkeeps : ∀ s op s', (∃ B L, HeapBlocks s B L ∧ Packed B) → HeapOk s op ∧ PackOk s op →
      heapStep s op = some s' → ∃ B L, HeapBlocks s' B L ∧ Packed B := by
    rintro s op s' ⟨B, L, h, htidy⟩ ⟨hok, htidyOk⟩ hstep
    obtain ⟨B', L', hout⟩ := h.step hok hstep
    exact ⟨B', L', hout.after, hout.tidy htidyOk htidy⟩
  obtain ⟨b, L, h, huse, hsize, -, -⟩ := hstart.blocks
  have htidy : Packed [b] := by
    refine ⟨fun c hc => .inr ?_, fun c hc => ?_, List.isChain_singleton b⟩
    · rw [List.mem_singleton.mp hc]
      unfold freeUse freelistsSize2id
      rw [if_neg (by omega), if_neg (by omega), if_neg (by omega), if_pos (by omega)]
      exact huse
    · rw [List.mem_singleton.mp hc]
      omega
  obtain ⟨B, L', hblocks, htidy'⟩ := run_keeps hkeeps ⟨[b], L, h, htidy⟩ hok hrun
  exact ⟨B, L', hblocks.ok, hblocks.live, fun c hc => htidy'.settled_listed hc, htidy'.parted⟩

/-- The block that `mpool_realloc` has shrunk, the one behind it and the one behind that. -/
def LeftBeside (s : Heap) : Prop :=
  blkNext s.pool (s.pool.ptr + 16) ≠ 0 ∧ blkFreed s.pool (blkNext s.pool (s.pool.ptr + 16)) ∧
    NextFree s.pool (blkNext s.pool (s.pool.ptr + 16)) ∧
      s.pool.allocedSize ≠ (s.live.map (blkSize s.pool)).sum

instance decidableNextFree (p : Mpool) (ptr : ℕ) : Decidable (NextFree p ptr) := inferInstanceAs (Decidable (_ ∧ _))

instance decidableLeftBeside (s : Heap) : Decidable (LeftBeside s) := inferInstanceAs (Decidable (_ ∧ _ ∧ _ ∧ _))

theorem heapRuns_small : 16384 + 32 ≤ (clearedHeap 1048576 32768).pool.size ∧
      (run heapStep [.alloc none 100, .alloc none 20, .free 1048592] (clearedHeap 1048576 32768)).isSome ∧
      (run heapStep [.alloc none 100, .alloc none 20, .free 1048592] (clearedHeap 1048576 4096)).isSome ∧
      (run heapStep [.alloc none 256, .realloc none 1048592 16] (clearedHeap 1048576 32768)).any
        (fun s => LeftBeside s) := by
  decide

theorem heap_wellTiled_freed :
    ∃ s, run heapStep [.alloc none 100, .alloc none 20, .free 1048592] (clearedHeap 1048576 32768) = some s ∧
      WellTiled s := by
  have hrefused : ∀ p size, AllocStepOk p none size := by
    rintro p size ⟨-, -, cb, hcb, -⟩
    cases hcb
  have hstart : HeapStart (clearedHeap 1048576 32768) :=
    clearedHeap_start (by decide) (by decide) (by decide) (by decide) (by decide)
  obtain ⟨hlarge, hruns, -⟩ := heapRuns_small
  obtain ⟨s, hs⟩ := Option.isSome_iff_exists.mp hruns
  refine ⟨s, hs, heap_wellTiled hstart hlarge ?_ hs⟩
  have hfirst : (100 : UInt64).toNat ≤ paddedSize (100 : UInt64).toNat := by decide
  have hsecond : (20 : UInt64).toNat ≤ paddedSize (20 : UInt64).toNat := by decide
  refine ⟨⟨hrefused _ _, hfirst⟩, fun _ _ => ⟨⟨hrefused _ _, hsecond⟩, fun _ _ => ⟨⟨trivial, trivial⟩, ?_⟩⟩⟩
  exact fun _ _ => trivial

theorem WellTiled.next_not_free (h : WellTiled s) (hat : BlockAt s.pool a) (hfree : blkFreed s.pool a) :
    ¬ NextFree s.pool a := by
  obtain ⟨B, L, hok, -, -, hparted⟩ := h
  obtain ⟨b, hb, rfl⟩ := (hok.blockAt_iff a).mp hat
  have hnot : b.use ≠ .live := by
    intro hlive
    rw [hok.blkFreed_live hb hlive] at hfree
    cases hfree
  obtain ⟨l1, l2, rfl⟩ := append_of_mem hb
  rintro ⟨hnext, hfree'⟩
  cases l2 with
  | nil => exact hnext hok.blkNext_last.2
  | cons c l2 =>
    have hmem : c ∈ l1 ++ b :: c :: l2 := mem_append_right l1 (mem_cons_of_mem b mem_cons_self)
    have hlive := (isChain_append_cons_cons.mp hparted).2.1.resolve_left hnot
    rw [hok.blkNext_eq.2.2, hok.blkFreed_live hmem hlive] at hfree'
    cases hfree'

/-- The end of a block that shrinks is left beside the free block behind it. -/
theorem heap_not_wellTiled : ∃ s₀ s, HeapStart s₀ ∧ 16384 + 32 ≤ s₀.pool.size ∧
    run heapStep [.alloc none 256, .realloc none 1048592 16] s₀ = some s ∧ ¬ WellTiled s := by
  obtain ⟨hlarge, -, -, hshrunk⟩ := heapRuns_small
  obtain ⟨s, hs, hbeside⟩ := (Option.any_eq_true _ _).mp hshrunk
  obtain ⟨hnext, hfreed, hfree, -⟩ := of_decide_eq_true hbeside
  refine ⟨clearedHeap 1048576 32768, s, ?_, hlarge, hs, fun h => ?_⟩
  · exact clearedHeap_start (by decide) (by decide) (by decide) (by decide) (by decide)
  · exact h.next_not_free (.next .first hnext) hfreed hfree

theorem HeapBlocks.sum_eq (h : HeapBlocks s B L) : (s.live.map (blkSize s.pool)).sum = liveSize B := by
  unfold liveSize
  rw [(h.live.map (blkSize s.pool)).sum_eq, List.map_map]
  refine congrArg sum (map_congr_left fun b hb => ?_)
  exact h.ok.blkSize_eq (mem_liveBlocks.mp hb).1

theorem heap_counted {s₀ s : Heap} {ops : List HeapOp} (hstart : HeapStart s₀)
    (hok : Meets heapStep (fun s op => HeapOk s op ∧ CountOk s op) ops s₀) (hrun : run heapStep ops s₀ = some s) :
    s.pool.allocedSize = (s.live.map (blkSize s.pool)).sum := by
  have hkeeps : ∀ s op s', (∃ B L, HeapBlocks s B L ∧ s.pool.allocedSize = liveSize B) → HeapOk s op ∧ CountOk s op →
      heapStep s op = some s' → ∃ B L, HeapBlocks s' B L ∧ s'.pool.allocedSize = liveSize B := by
    rintro s op s' ⟨B, L, h, hcount⟩ ⟨hok, hcountOk⟩ hstep
    obtain ⟨B', L', hout⟩ := h.step hok hstep
    exact ⟨B', L', hout.after, hout.count hcountOk hcount⟩
  obtain ⟨b, L, h, huse, -, -, hzero⟩ := hstart.blocks
  have hsum : s₀.pool.allocedSize = liveSize [b] := hzero.trans (liveSize_start huse).symm
  obtain ⟨B, L', hblocks, hcount⟩ := run_keeps hkeeps ⟨[b], L, h, hsum⟩ hok hrun
  rw [hblocks.sum_eq]
  exact hcount

theorem heap_counted_freed :
    ∃ s, run heapStep [.alloc none 100, .alloc none 20, .free 1048592] (clearedHeap 1048576 4096) = some s ∧
      s.pool.allocedSize = (s.live.map (blkSize s.pool)).sum := by
  have hrefused : ∀ p size, AllocStepOk p none size := by
    rintro p size ⟨-, -, cb, hcb, -⟩
    cases hcb
  obtain ⟨-, -, hruns, -⟩ := heapRuns_small
  obtain ⟨s, hs⟩ := Option.isSome_iff_exists.mp hruns
  refine ⟨s, hs, heap_counted (clearedHeap_start (by decide) (by decide) (by decide) (by decide) (by decide)) ?_ hs⟩
  refine ⟨⟨hrefused _ _, trivial⟩, fun _ _ => ⟨⟨hrefused _ _, trivial⟩, fun _ _ => ⟨⟨trivial, trivial⟩, ?_⟩⟩⟩
  exact fun _ _ => trivial

/-- A block that shrinks is counted with the size that it has had. -/
theorem heap_not_counted : ∃ s₀ s, HeapStart s₀ ∧
    run heapStep [.alloc none 256, .realloc none 1048592 16] s₀ = some s ∧
      s.pool.allocedSize ≠ (s.live.map (blkSize s.pool)).sum := by
  obtain ⟨-, -, -, hshrunk⟩ := heapRuns_small
  obtain ⟨s, hs, hbeside⟩ := (Option.any_eq_true _ _).mp hshrunk
  obtain ⟨-, -, -, hcount⟩ := of_decide_eq_true hbeside
  refine ⟨clearedHeap 1048576 32768, s, ?_, hs, hcount⟩
  exact clearedHeap_start (by decide) (by decide) (by decide) (by decide) (by decide)

end Outcomes

end CoolPotOS
