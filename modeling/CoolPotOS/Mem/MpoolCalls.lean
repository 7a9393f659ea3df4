import CoolPotOS.Mem.MpoolFree
import CoolPotOS.Lib.Runs

namespace CoolPotOS

open Blocks Intrusive List

structure Heap where
  pool : Mpool
  live : List ℕ

/-- `size_t` arguments are words. -/
inductive HeapOp
  | alloc (reqmem : Option CbReqmem) (size : UInt64)
  | alignedAlloc (reqmem : Option CbReqmem) (size align : UInt64)
  | free (ptr : ℕ)
  | realloc (reqmem : Option CbReqmem) (ptr : ℕ) (newsize : UInt64)
  | alignedRealloc (reqmem : Option CbReqmem) (ptr : ℕ) (newsize align : UInt64)
  | write (ptr i value : ℕ)

/-- A new block, unless the call has returned `NULL`. -/
def Heap.take (s : Heap) (r : ℕ × Mpool) : Heap := ⟨r.2, if r.1 = 0 then s.live else r.1 :: s.live⟩

/-- A block in place of another one, unless the call has returned `NULL`. -/
def Heap.retake (s : Heap) (ptr : ℕ) (r : ℕ × Mpool) : Heap :=
  ⟨r.2, if r.1 = 0 then s.live else r.1 :: s.live.erase ptr⟩

/-- One call, or a write of a caller to the word `i` of its block. Blocks that are freed or resized are live
ones, and `none` is also the result where they are not. -/
def heapStep (s : Heap) : HeapOp → Option Heap
  | .alloc reqmem size => (mpoolAlloc s.pool reqmem size.toNat).map s.take
  | .alignedAlloc reqmem size align => (mpoolAlignedAlloc s.pool reqmem size.toNat align.toNat).map s.take
  | .free ptr =>
    if ptr = 0 ∨ ptr ∈ s.live then (mpoolFree s.pool ptr).map fun p => ⟨p, s.live.erase ptr⟩ else none
  | .realloc reqmem ptr newsize =>
    if ptr = 0 ∨ ptr ∈ s.live then (mpoolRealloc s.pool reqmem ptr newsize.toNat).map (s.retake ptr) else none
  | .alignedRealloc reqmem ptr newsize align =>
    if ptr = 0 ∨ ptr ∈ s.live then
      (mpoolAlignedRealloc s.pool reqmem ptr newsize.toNat align.toNat).map (s.retake ptr)
    else none
  | .write ptr i value =>
    if ptr ∈ s.live ∧ 8 * i < blkSize s.pool ptr then some ⟨s.pool.store (ptr + 8 * i) value, s.live⟩ else none

/-- A pool that `mpool_init` has set up on memory above the null page, with room for a block. -/
def HeapStart (s : Heap) : Prop :=
  ∃ mem ptr size, mpoolInit mem ptr size = some s.pool ∧ s.live = [] ∧ pageSize ≤ ptr ∧ 16 ∣ ptr ∧ 48 ≤ size ∧
    ptr + size < 2 ^ 64

/-- A block is at `a`, as one finds by going from block to block. -/
inductive BlockAt (p : Mpool) : ℕ → Prop
  | first : BlockAt p (p.ptr + 16)
  | next {a : ℕ} (h : BlockAt p a) (hnext : blkNext p a ≠ 0) : BlockAt p (blkNext p a)

def AnyPasses (p : Mpool) (test : Mpool → ℕ → Bool) : Prop :=
  ∃ a, BlockAt p a ∧ blkFreed p a ∧ blkSize p a ≠ 0 ∧ test p a

/-- The pool is still the one block that `mpool_init` has put into the large list, and it is small. -/
def SmallUntouched (p : Mpool) : Prop := p.largeBlk = p.ptr + 16 ∧ p.size < 16384 + 32

/-- Memory is asked for and granted while the pool is small and untouched. -/
def GrowsUntouched (p : Mpool) (reqmem : Option CbReqmem) (ask : ℕ) (test : Mpool → ℕ → Bool) : Prop :=
  SmallUntouched p ∧ ¬ AnyPasses p test ∧ Granted p reqmem ask

def AllocStepOk (p : Mpool) (reqmem : Option CbReqmem) (size : ℕ) : Prop :=
  ¬ GrowsUntouched p reqmem (paddedSize size) (sizeFits (paddedSize size))

/-- An aligned allocation finds its way: its size is no negative `ssize_t`, and it does not grow an untouched
small pool. -/
def AlignedStepOk (p : Mpool) (reqmem : Option CbReqmem) (size align : ℕ) : Prop :=
  align &&& (align - 1) = 0 →
    if align < 16 then AllocStepOk p reqmem size
    else paddedSize size < 2 ^ 63 ∧
      ¬ GrowsUntouched p reqmem (wrap (paddedSize size + align)) (alignedFits (paddedSize size) align)

/-- There is no room for `n` bytes where the block is. -/
def Moves (p : Mpool) (ptr n : ℕ) : Prop := blkSize p ptr < n ∧ ¬ Merges p ptr n

/-- A block without bytes is freed even when there is no new one for it. -/
def MoveOk (p : Mpool) (reqmem : Option CbReqmem) (ptr ask : ℕ) (test : Mpool → ℕ → Bool) : Prop :=
  blkSize p ptr = 0 → AnyPasses p test ∨ Granted p reqmem ask

def ReallocStepOk (p : Mpool) (reqmem : Option CbReqmem) (ptr newsize : ℕ) : Prop :=
  Moves p ptr (paddedSize newsize) → MoveOk p reqmem ptr (paddedSize newsize) (sizeFits (paddedSize newsize))

def AlignedReallocStepOk (p : Mpool) (reqmem : Option CbReqmem) (ptr newsize align : ℕ) : Prop :=
  align &&& (align - 1) = 0 →
    if align < 16 then ReallocStepOk p reqmem ptr newsize
    else Moves p ptr (paddedSize newsize) → paddedSize newsize < 2 ^ 63 ∧
      MoveOk p reqmem ptr (wrap (paddedSize newsize + align)) (alignedFits (paddedSize newsize) align)

def HeapOk (s : Heap) : HeapOp → Prop
  | .alloc reqmem size => AllocStepOk s.pool reqmem size.toNat
  | .alignedAlloc reqmem size align => AlignedStepOk s.pool reqmem size.toNat align.toNat
  | .realloc reqmem ptr newsize =>
    if ptr = 0 then AllocStepOk s.pool reqmem newsize.toNat else ReallocStepOk s.pool reqmem ptr newsize.toNat
  | .alignedRealloc reqmem ptr newsize align =>
    if ptr = 0 then AlignedStepOk s.pool reqmem newsize.toNat align.toNat
    else AlignedReallocStepOk s.pool reqmem ptr newsize.toNat align.toNat
  | _ => True

section Calls

variable {p p' : Mpool} {B l1 l2 : List PoolBlock} {L L' : Option ℕ → List ℕ} {b c : PoolBlock} {n : ℕ}

theorem PoolOk.blockAt_iff (h : PoolOk p B L) (a : ℕ) : BlockAt p a ↔ ∃ b ∈ B, b.addr = a := by
  constructor
  · intro hat
    induction hat with
    | first =>
      cases hB : B with
      | nil => exact absurd hB h.nonempty
      | cons b l =>
        have hfill := h.fill
        rw [hB] at hfill
        exact ⟨b, mem_cons_self, hfill.1⟩
    | next _ hnext ih =>
      obtain ⟨b, hb, rfl⟩ := ih
      obtain ⟨l1, l2, rfl⟩ := append_of_mem hb
      cases l2 with
      | nil => exact absurd h.blkNext_last.2 hnext
      | cons c l2 =>
        exact ⟨c, mem_append_right l1 (mem_cons_of_mem b mem_cons_self), h.blkNext_eq.2.2.symm⟩
  · rintro ⟨b, hb, rfl⟩
    obtain ⟨l1, l2, rfl⟩ := append_of_mem hb
    clear hb
    induction l1 using reverseRecOn generalizing b l2 with
    | nil =>
      have haddr : b.addr = p.ptr + 16 := h.fill.1
      rw [haddr]
      exact .first
    | append_singleton l1 c ih =>
      rw [append_assoc, singleton_append] at h
      have hplace := h.place (b := b) (mem_append_right l1 (mem_cons_of_mem c mem_cons_self))
      have hnext := h.blkNext_eq.2.2
      rw [← hnext]
      exact .next (ih _ _ h) (by omega)

theorem PoolOk.anyPasses_iff (h : PoolOk p B L) (hplace : InPlace B) (test : Mpool → ℕ → Bool) :
    AnyPasses p test ↔ ∃ b ∈ B, ∃ i, b.use = .listed i ∧ test p b.addr = true := by
  constructor
  · rintro ⟨a, hat, hfree, hsize, hpass⟩
    obtain ⟨b, hb, rfl⟩ := (h.blockAt_iff a).mp hat
    rw [h.blkSize_eq hb] at hsize
    refine ⟨b, hb, ?_⟩
    rcases hplace with hset | ⟨c, rfl, hc⟩
    · rcases (hset b hb).cases with hlive | ⟨-, hzero⟩ | ⟨-, hlist⟩
      · rw [h.blkFreed_live hb hlive] at hfree
        cases hfree
      · exact absurd hzero hsize
      · exact ⟨_, hlist, hpass⟩
    · rw [mem_singleton.mp hb] at hpass ⊢
      exact ⟨none, hc, hpass⟩
  · rintro ⟨b, hb, i, huse, hpass⟩
    refine ⟨b.addr, (h.blockAt_iff _).mpr ⟨b, hb, rfl⟩, h.blkFreed_free hb (by rw [huse]; rfl), ?_, hpass⟩
    rw [h.blkSize_eq hb]
    exact h.roomy b hb i huse

theorem PoolOk.settled (h : PoolOk p B L) (hplace : InPlace B) (hsmall : ¬ SmallUntouched p) :
    ∀ b ∈ B, Settled b := by
  rcases hplace with hset | ⟨b, rfl, hb⟩
  · exact hset
  · intro c hc
    obtain rfl := mem_singleton.mp hc
    obtain ⟨haddr, hend⟩ : c.addr = p.ptr + 16 ∧ p.ptr + 16 + c.size + 16 = p.ptr + p.size := h.fill
    have hmem : c.addr ∈ L none := (h.listed none _).mpr ⟨c, hc, rfl, hb⟩
    have hall : ∀ a ∈ L none, a = c.addr := by
      intro a ha
      obtain ⟨d, hd, rfl, -⟩ := (h.listed none a).mp ha
      rw [mem_singleton.mp hd]
    have hhead : p.largeBlk = c.addr := by
      have hchain : Chain p.mem 8 p.largeBlk (L none) := h.chain none
      cases hL : L none with
      | nil =>
        rw [hL] at hmem
        cases hmem
      | cons a l =>
        rw [hL] at hchain hall
        rw [hchain.1]
        exact hall a mem_cons_self
    have hlarge : 16384 ≤ c.size := by
      by_contra hlt
      exact hsmall ⟨hhead.trans haddr, by omega⟩
    right
    unfold freeUse freelistsSize2id
    rw [if_neg (by omega), if_neg (by omega), if_neg (by omega), if_pos hlarge]
    exact hb

def lastTail (p : Mpool) : ℕ := p.mem (p.ptr + p.size - 16)

/-- Where the block lies that the pool grows by: it takes in the last block when that is free. -/
def growsAt (p : Mpool) : ℕ :=
  if hasTagFlag (lastTail p) freeFlag then p.ptr + p.size - 16 - tagSize (lastTail p) else p.ptr + p.size

/-- The size of that block when the pool grows by `m` bytes. -/
def growsTo (p : Mpool) (m : ℕ) : ℕ :=
  if hasTagFlag (lastTail p) freeFlag then tagSize (lastTail p) + m else m - 16

def LastEmpty (p : Mpool) : Prop := hasTagFlag (lastTail p) freeFlag ∧ tagSize (lastTail p) = 0

theorem PoolOk.lastTail_ok (h : PoolOk p B L) (hb : b ∈ B.getLast?) : TagOk (lastTail p) b.size b.use ∧
    p.ptr + p.size - 16 = b.addr + b.size := by
  obtain ⟨l1, rfl⟩ := getLast?_eq_some_iff.mp hb
  have hmem : b ∈ l1 ++ [b] := mem_append_right l1 (mem_singleton_self b)
  have hend : b.addr + b.size + 16 = p.ptr + p.size := (fill_middle.mp h.fill).2
  have hword : p.ptr + p.size - 16 = b.addr + b.size := by omega
  refine ⟨?_, hword⟩
  unfold lastTail
  rw [hword]
  exact (h.tags b hmem).tail

theorem PoolOk.lastEmpty_iff (h : PoolOk p B L) (hset : ∀ c ∈ B, Settled c) :
    LastEmpty p ↔ ∃ c ∈ B.getLast?, c.use = .empty := by
  obtain ⟨b, hb⟩ : ∃ b, b ∈ B.getLast? := ⟨B.getLast h.nonempty, getLast?_eq_some_getLast h.nonempty⟩
  obtain ⟨htail, -⟩ := h.lastTail_ok hb
  have hone : (∃ c ∈ B.getLast?, c.use = .empty) ↔ b.use = .empty := by
    constructor
    · rintro ⟨c, hc, huse⟩
      rw [Option.mem_unique hb hc]
      exact huse
    · intro huse
      exact ⟨b, hb, huse⟩
  rw [hone]
  unfold LastEmpty
  rw [htail.size_eq]
  rcases (hset b (List.mem_of_getLast? hb)).cases with hlive | ⟨huse, hsize⟩ | ⟨hsize, huse⟩
  · rw [hlive] at htail ⊢
    rw [htail.hasTagFlag_live]
    simp
  · rw [huse] at htail ⊢
    rw [htail.hasTagFlag_free rfl, hsize]
    simp
  · rw [huse]
    simp [hsize]

theorem PoolOk.grew (h : PoolOk p B L) {k : List PoolBlock} {a n m : ℕ} (hgrew : Grew p B k a n m) :
    a = growsAt p ∧ n = growsTo p m := by
  obtain ⟨b, hb⟩ : ∃ b, b ∈ B.getLast? := ⟨B.getLast h.nonempty, getLast?_eq_some_getLast h.nonempty⟩
  obtain ⟨htail, hword⟩ := h.lastTail_ok hb
  unfold growsAt growsTo
  rw [htail.size_eq]
  rcases hgrew with ⟨-, hlive, ha, hn⟩ | ⟨c, rfl, hc, ha, hn⟩
  · rw [hlive b hb] at htail
    rw [htail.hasTagFlag_live]
    exact ⟨ha, hn⟩
  · rw [getLast?_concat] at hb
    cases hb
    rw [hc] at htail
    rw [htail.hasTagFlag_free rfl, if_pos rfl, if_pos rfl]
    exact ⟨by omega, hn⟩

section Alloc

variable {ask : ℕ} {F : ℕ → List PoolBlock → Prop} {fits : ℕ → ℕ → Bool} {test : Mpool → ℕ → Bool}
  {take : Mpool → ℕ → ℕ × Mpool} {reqmem : Option CbReqmem}

/-- The pool can grow by what is asked for, and then has a block that fits. -/
def GrowsEnough (p : Mpool) (ask : ℕ) (fits : ℕ → ℕ → Bool) : Prop :=
  padding16k ask ≠ 0 ∧ ¬ LastEmpty p ∧ fits (growsAt p) (growsTo p (padding16k ask)) = true

theorem PoolOk.findBlock_none (h : PoolOk p B L) (hplace : InPlace B)
    (hfit : ∀ b ∈ B, test p b.addr = true → n ≤ b.size) (hpass : ¬ AnyPasses p test) :
    findBlock p n test = some (0, p) ∧ ∀ b ∈ B, ∀ i, b.use = .listed i → test p b.addr = false := by
  rcases h.findBlock_spec hplace hfit with hnone | ⟨l1, b, l2, i, -, -, rfl, huse, htest, -⟩
  · exact hnone
  · refine absurd ((h.anyPasses_iff hplace test).mpr ⟨b, ?_, i, huse, htest⟩) hpass
    exact mem_append_right l1 mem_cons_self

theorem PoolOk.allocWith_passes (h : PoolOk p B L) (hplace : InPlace B) (reqmem : Option CbReqmem) (ask : ℕ)
    (htest : ∀ p a, test p a = fits a (blkSize p a)) (htake : Takes n F test take)
    (hfit : ∀ b ∈ B, test p b.addr = true → n ≤ b.size) (hpass : AnyPasses p test) :
    ∃ a p1 r, findBlock p n test = some (a, p1) ∧ a ≠ 0 ∧ allocWith p reqmem n ask test take = some r ∧
      Handed p B n (F a) r := by
  rcases h.findBlock_spec hplace hfit with ⟨-, hall⟩ | hmatch
  · obtain ⟨b, hb, i, huse, hpass⟩ := (h.anyPasses_iff hplace test).mp hpass
    rw [hall b hb i huse] at hpass
    cases hpass
  · exact h.allocWith_found htest htake reqmem hmatch

theorem PoolOk.allocWith_null (h : PoolOk p B L) (hplace : InPlace B)
    (hfit : ∀ b ∈ B, test p b.addr = true → n ≤ b.size) (hpass : ¬ AnyPasses p test)
    (hgrant : ¬ Granted p reqmem ask) : allocWith p reqmem n ask test take = some (0, p) :=
  allocWith_refused (h.findBlock_none hplace hfit hpass).1 hgrant

theorem PoolOk.allocWith_grows (h : PoolOk p B L) (hset : ∀ c ∈ B, Settled c)
    (htest : ∀ p a, test p a = fits a (blkSize p a)) (htake : Takes n F test take)
    (hfit : ∀ b ∈ B, test p b.addr = true → n ≤ b.size) (hpass : ¬ AnyPasses p test)
    (hgrant : Granted p reqmem ask) :
    (GrowsEnough p ask fits → ∃ r, allocWith p reqmem n ask test take = some r ∧ Handed p B n (F (growsAt p)) r) ∧
      (¬ GrowsEnough p ask fits → allocWith p reqmem n ask test take = none) := by
  obtain ⟨hnone, hsmall⟩ := h.findBlock_none (.inl hset) hfit hpass
  unfold GrowsEnough
  rw [h.lastEmpty_iff hset]
  rcases h.allocWith_grown hset htest htake hnone hsmall hgrant with
    ⟨hbad, hfail⟩ | ⟨hzero, k, a, m, hgrew, hgood, hfail⟩
  · refine ⟨?_, fun _ => hfail⟩
    rintro ⟨hzero, hlast, -⟩
    rcases hbad with hbad | hbad
    · exact absurd hbad hzero
    · exact absurd hbad hlast
  · have hlast : ¬ ∃ c ∈ B.getLast?, c.use = .empty := by
      rintro ⟨c, hc, huse⟩
      rcases hgrew with ⟨-, hlive, -⟩ | ⟨d, rfl, hd, -⟩
      · rw [hlive c hc] at huse
        cases huse
      · rw [getLast?_concat] at hc
        rw [← Option.some.inj hc, hd] at huse
        cases huse
    obtain ⟨rfl, rfl⟩ := h.grew hgrew
    refine ⟨fun hgrows => hgood hgrows.2.2, fun hnot => hfail ?_⟩
    by_contra hfits
    exact hnot ⟨hzero, hlast, Bool.eq_true_of_not_eq_false hfits⟩

end Alloc

theorem paddedSize_lt (size : ℕ) : paddedSize size + 15 < 2 ^ 64 := by
  unfold paddedSize padding
  split
  · norm_num
  · have := wrap_lt (size + 15)
    omega

theorem paddedSize_eq_self {n : ℕ} (hdvd : 16 ∣ n) (hn : n ≠ 0) (hlt : n + 15 < 2 ^ 64) : paddedSize n = n := by
  unfold paddedSize padding
  rw [if_neg hn, wrap_of_lt hlt]
  omega

theorem Handed.ne_zero {F : List PoolBlock → Prop} {r : ℕ × Mpool} (h : Handed p B n F r) : r.1 ≠ 0 := by
  obtain ⟨t, B', L', hhands, hok, -⟩ := h
  have hmem := (mem_liveBlocks.mp ((hhands.live rfl).mem_iff.mpr mem_cons_self)).1
  have hplace := (hok.place hmem).1
  dsimp only at hplace
  omega

section Functions

variable {reqmem : Option CbReqmem} {size align : ℕ}

theorem PoolOk.settled_of_grows {ask : ℕ} {test : Mpool → ℕ → Bool} (h : PoolOk p B L) (hplace : InPlace B)
    (hgrow : ¬ GrowsUntouched p reqmem ask test) (hpass : ¬ AnyPasses p test) (hgrant : Granted p reqmem ask) :
    ∀ b ∈ B, Settled b := h.settled hplace fun hsmall => hgrow ⟨hsmall, hpass, hgrant⟩

theorem PoolOk.sizeFits_le (h : PoolOk p B L) : ∀ b ∈ B, sizeFits n p b.addr = true → n ≤ b.size := by
  intro b hb hfit
  rw [← h.blkSize_eq hb]
  exact of_decide_eq_true hfit

/-- A block of `m` bytes is large enough. -/
def sizeEnough (n _a m : ℕ) : Bool := n ≤ m

/-- A block of `m` bytes at `a` is large enough behind the next multiple of `align`. -/
def alignedEnough (n align a m : ℕ) : Bool := ssize n ≤ ssize m - ssize (wrapSub (paddingTo a align) a)

theorem sizeFits_eq (n : ℕ) (p : Mpool) (a : ℕ) : sizeFits n p a = sizeEnough n a (blkSize p a) := rfl

theorem alignedFits_eq (n align : ℕ) (p : Mpool) (a : ℕ) :
    alignedFits n align p a = alignedEnough n align a (blkSize p a) := rfl

theorem PoolOk.mpoolAlloc_cases (h : PoolOk p B L) (hplace : InPlace B) (hok : AllocStepOk p reqmem size) :
    mpoolAlloc p reqmem size = none ∨
      (mpoolAlloc p reqmem size = some (0, p) ∧ ¬ AnyPasses p (sizeFits (paddedSize size)) ∧
        ¬ Granted p reqmem (paddedSize size)) ∨
      ∃ r, mpoolAlloc p reqmem size = some r ∧ Handed p B (paddedSize size) (fun front => front = []) r := by
  have htest := sizeFits_eq (paddedSize size)
  have htake := takes_takeBlock (paddedSize_dvd size)
  by_cases hpass : AnyPasses p (sizeFits (paddedSize size))
  · obtain ⟨a, p1, r, -, -, hr, hhand⟩ := h.allocWith_passes hplace reqmem _ htest htake h.sizeFits_le hpass
    exact .inr (.inr ⟨r, hr, hhand⟩)
  · by_cases hgrant : Granted p reqmem (paddedSize size)
    · have hset := h.settled_of_grows hplace hok hpass hgrant
      obtain ⟨hgood, hbad⟩ := h.allocWith_grows hset htest htake h.sizeFits_le hpass hgrant
      by_cases hgrows : GrowsEnough p (paddedSize size) (sizeEnough (paddedSize size))
      · exact .inr (.inr (hgood hgrows))
      · exact .inl (hbad hgrows)
    · exact .inr (.inl ⟨h.allocWith_null hplace h.sizeFits_le hpass hgrant, hpass, hgrant⟩)

/-- The block that an aligned allocation takes: the one at which the search of the lists ends, or the one that
the pool grows by. -/
def CarvesAt (p : Mpool) (reqmem : Option CbReqmem) (n align a : ℕ) : Prop :=
  (a ≠ 0 ∧ ∃ q, findBlock p n (alignedFits n align) = some (a, q)) ∨
    findBlock p n (alignedFits n align) = some (0, p) ∧ Granted p reqmem (wrap (n + align)) ∧ a = growsAt p

theorem PoolOk.mpoolAlignedAlloc_cases (h : PoolOk p B L) (hplace : InPlace B) (hlt : align < 2 ^ 64)
    (hpow : align &&& (align - 1) = 0) (halign : ¬ align < 16) (hsize : paddedSize size < 2 ^ 63)
    (hgrow : ¬ GrowsUntouched p reqmem (wrap (paddedSize size + align)) (alignedFits (paddedSize size) align)) :
    mpoolAlignedAlloc p reqmem size align = none ∨
      (mpoolAlignedAlloc p reqmem size align = some (0, p) ∧ ¬ AnyPasses p (alignedFits (paddedSize size) align) ∧
        ¬ Granted p reqmem (wrap (paddedSize size + align))) ∨
      ∃ r a, mpoolAlignedAlloc p reqmem size align = some r ∧ CarvesAt p reqmem (paddedSize size) align a ∧
        Handed p B (paddedSize size) (Front align a) r := by
  obtain ⟨k, rfl⟩ : align.isPowerOfTwo := (Nat.and_sub_one_eq_zero_iff_isPowerOfTwo (by omega)).mp hpow
  have hk : 4 ≤ k := by
    by_contra hsmall
    have : 2 ^ k ≤ 2 ^ 3 := Nat.pow_le_pow_right (by norm_num) (by omega)
    omega
  have hk' : k ≤ 63 := by
    by_contra hlarge
    have : 2 ^ 64 ≤ 2 ^ k := Nat.pow_le_pow_right (by norm_num) (by omega)
    omega
  have hle : 2 ^ k ≤ 2 ^ 63 := Nat.pow_le_pow_right (by norm_num) hk'
  have htest := alignedFits_eq (paddedSize size) (2 ^ k)
  have htake := takes_aligned (paddedSize_dvd size) hsize hk hk'
  have hfit : ∀ b ∈ B, alignedFits (paddedSize size) (2 ^ k) p b.addr = true → paddedSize size ≤ b.size := by
    intro b hb hpass
    have hplace := h.place hb
    have htop := h.top
    have hoffset := (align_offset (by omega) (h.addr_dvd hb) hk hk').2
    have := alignedFits_le hsize rfl (by omega) hpass
    rw [h.blkSize_eq hb] at this
    omega
  unfold mpoolAlignedAlloc
  rw [if_neg (not_not.mpr hpow), if_neg halign]
  dsimp only
  by_cases hpass : AnyPasses p (alignedFits (paddedSize size) (2 ^ k))
  · obtain ⟨a, p1, r, hfind, ha, hr, hhand⟩ := h.allocWith_passes hplace reqmem _ htest htake hfit hpass
    exact .inr (.inr ⟨r, a, hr, .inl ⟨ha, p1, hfind⟩, hhand⟩)
  · by_cases hgrant : Granted p reqmem (wrap (paddedSize size + 2 ^ k))
    · have hset := h.settled_of_grows hplace hgrow hpass hgrant
      obtain ⟨hgood, hbad⟩ := h.allocWith_grows hset htest htake hfit hpass hgrant
      by_cases hgrows : GrowsEnough p (wrap (paddedSize size + 2 ^ k)) (alignedEnough (paddedSize size) (2 ^ k))
      · obtain ⟨r, hr, hhand⟩ := hgood hgrows
        exact .inr (.inr ⟨r, growsAt p, hr, .inr ⟨(h.findBlock_none hplace hfit hpass).1, hgrant, rfl⟩, hhand⟩)
      · exact .inl (hbad hgrows)
    · exact .inr (.inl ⟨h.allocWith_null hplace hfit hpass hgrant, hpass, hgrant⟩)

end Functions

end Calls

end CoolPotOS
