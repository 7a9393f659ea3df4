import CoolPotOS.Machine
import CoolPotOS.Lib.Intrusive

namespace CoolPotOS

def freeFlag : ℕ := 1
def areaFlag : ℕ := 2
def sizeFlag : ℕ := 4

def hasTagFlag (tag flag : ℕ) : Bool := tag / flag % 2 = 1

def setFlag (tag flag : ℕ) : ℕ := if hasTagFlag tag flag then tag else tag + flag

def clearFlag (tag flag : ℕ) : ℕ := if hasTagFlag tag flag then tag - flag else tag

def tagSize (tag : ℕ) : ℕ := tag / 8 * 8

theorem hasTagFlag_iff (tag flag : ℕ) : hasTagFlag tag flag = true ↔ tag / flag % 2 = 1 := decide_eq_true_iff

theorem hasTagFlag_eq_false_iff (tag flag : ℕ) : hasTagFlag tag flag = false ↔ tag / flag % 2 = 0 := by
  unfold hasTagFlag
  rw [decide_eq_false_iff_not]
  omega

theorem hasTagFlag_free (tag : ℕ) : hasTagFlag tag freeFlag = true ↔ tag % 2 = 1 := by
  rw [hasTagFlag_iff, freeFlag, Nat.div_one]

theorem setFlag_free (tag : ℕ) : setFlag tag freeFlag = tag / 2 * 2 + 1 := by
  unfold setFlag
  split <;> rename_i h <;> rw [hasTagFlag_free] at h
  · omega
  · unfold freeFlag
    omega

theorem clearFlag_free (tag : ℕ) : clearFlag tag freeFlag = tag / 2 * 2 := by
  unfold clearFlag
  split <;> rename_i h <;> rw [hasTagFlag_free] at h
  · unfold freeFlag
    omega
  · omega

theorem setFlag_size (tag : ℕ) : setFlag tag sizeFlag = tag / 8 * 8 + 4 + tag % 4 := by
  unfold setFlag sizeFlag
  split <;> rename_i h <;> rw [hasTagFlag_iff] at h <;> omega

theorem clearFlag_size (tag : ℕ) : clearFlag tag sizeFlag = tag / 8 * 8 + tag % 4 := by
  unfold clearFlag sizeFlag
  split <;> rename_i h <;> rw [hasTagFlag_iff] at h <;> omega

def padding (size : ℕ) : ℕ := wrap (size + 15) / 16 * 16

def padding16k (size : ℕ) : ℕ := wrap (size + 16383) / 16384 * 16384

def paddingTo (size align : ℕ) : ℕ := wrap (size + align - 1) / align * align

def size2M : ℕ := 2 * 1024 * 1024

/-- The conversion from `size_t` to `ssize_t`. -/
def ssize (n : ℕ) : ℤ := if n < 2 ^ 63 then n else n - 2 ^ 64

/-- `cb_reqmem_t`. When it returns the address that it is given, it has allocated the memory from there on. -/
structure CbReqmem where
  call : ℕ → ℕ → ℕ
  allocated : ∀ ptr size, call ptr size = ptr → ptr + size < 2 ^ 64

/-- `struct mpool`, with the memory that its pointers lead to. The callbacks are passed to the
calls. `none` is a fault: an access through `NULL` or through a link that leads out of the pool, a
list that does not end, or the halt after a double free. -/
structure Mpool where
  ptr : ℕ
  size : ℕ
  allocedSize : ℕ
  largeBlk : ℕ
  freed : ℕ → ℕ
  mem : ℕ → ℕ

namespace Mpool

def store (p : Mpool) (addr value : ℕ) : Mpool := { p with mem := Function.update p.mem addr value }

/-- `large_blk`, or one of the lists of `freed`. -/
def list (p : Mpool) : Option ℕ → ℕ
  | none => p.largeBlk
  | some id => p.freed id

def setList (p : Mpool) (list : Option ℕ) (head : ℕ) : Mpool :=
  match list with
  | none => { p with largeBlk := head }
  | some id => { p with freed := Function.update p.freed id head }

def inPool (p : Mpool) (addr : ℕ) : Bool := p.ptr ≤ addr ∧ addr < p.ptr + p.size

end Mpool

def blkSetalloced (p : Mpool) (ptr size : ℕ) : Mpool :=
  let p := p.store (ptr - 8) (clearFlag (p.mem (ptr - 8)) freeFlag)
  p.store (ptr + size) (clearFlag (p.mem (ptr + size)) freeFlag)

def blkSetfreed (p : Mpool) (ptr size : ℕ) : Mpool :=
  let p := p.store (ptr - 8) (setFlag (p.mem (ptr - 8)) freeFlag)
  p.store (ptr + size) (setFlag (p.mem (ptr + size)) freeFlag)

def blkSize (p : Mpool) (ptr : ℕ) : ℕ := tagSize (p.mem (ptr - 8))

def blkFreed (p : Mpool) (ptr : ℕ) : Bool := hasTagFlag (p.mem (ptr - 8)) freeFlag

def blkSetsize (p : Mpool) (ptr size : ℕ) : Mpool := (p.store (ptr - 8) size).store (wrap (ptr + size)) size

def blkAreaIs2M (p : Mpool) (ptr : ℕ) : Bool := hasTagFlag (p.mem (ptr - 8)) sizeFlag

def blkSetArea4k (p : Mpool) (ptr size : ℕ) : Mpool :=
  let p := p.store (ptr - 8) (clearFlag (p.mem (ptr - 8)) sizeFlag)
  p.store (ptr + size) (clearFlag (p.mem (ptr + size)) sizeFlag)

def blkSetArea2M (p : Mpool) (ptr size : ℕ) : Mpool :=
  let p := p.store (ptr - 8) (setFlag (p.mem (ptr - 8)) sizeFlag)
  p.store (wrap (ptr + size)) (setFlag (p.mem (wrap (ptr + size))) sizeFlag)

def blkNoprev (p : Mpool) (ptr : ℕ) : Bool := hasTagFlag (p.mem (ptr - 16)) areaFlag

def blkNonext (p : Mpool) (ptr size : ℕ) : Bool := hasTagFlag (p.mem (ptr + size + 8)) areaFlag

def blkPrev (p : Mpool) (ptr : ℕ) : ℕ :=
  if blkNoprev p ptr then 0 else ptr - 16 - tagSize (p.mem (ptr - 16))

def blkNext (p : Mpool) (ptr : ℕ) : ℕ :=
  if blkNonext p ptr (blkSize p ptr) then 0 else ptr + blkSize p ptr + 16

/-- `__builtin_clz` of a number that is not 0. -/
def builtinClz (n : ℕ) : ℕ := 31 - Nat.log2 n

def freelistsSize2id (size : ℕ) : Option ℕ :=
  if size < 64 then some 0
  else if size < 256 then some 1
  else if size ≥ 16384 then none
  else some ((32 - 9) + 2 - builtinClz size)

/-- `freelist_detach` for the large list, `freelists_detach` for the others. -/
def freelistDetach (p : Mpool) (list : Option ℕ) (ptr : ℕ) : Option Mpool :=
  if p.list list = ptr then some (p.setList list (p.mem ptr))
  else if (p.mem ptr = 0 ∨ p.inPool (p.mem ptr)) ∧ (p.mem (ptr + 8) = 0 ∨ p.inPool (p.mem (ptr + 8))) then
    some { p with mem := Intrusive.unlink 8 p.mem ptr }
  else none

/-- `freelist_put`, and what `freelists_put` does with the list that it chooses. -/
def freelistPut (p : Mpool) (list : Option ℕ) (ptr : ℕ) : Mpool :=
  { p with mem := Intrusive.push 8 p.mem (p.list list) ptr }.setList list ptr

def freelistMatch (p : Mpool) (list : Option ℕ) (test : Mpool → ℕ → Bool) : Option (ℕ × Mpool) :=
  (Intrusive.search p.mem (test p) (p.size / 16) (p.list list)).bind fun ptr =>
    if ptr = 0 then some (0, p) else (freelistDetach p list ptr).map fun p => (ptr, p)

def freelistsMatchFrom (p : Mpool) (test : Mpool → ℕ → Bool) : List ℕ → Option (ℕ × Mpool)
  | [] => some (0, p)
  | id :: ids => (freelistMatch p (some id) test).bind fun r =>
    if r.1 = 0 then freelistsMatchFrom p test ids else some r

/-- `freelists_match` and `freelists_aligned_match`. -/
def freelistsMatch (p : Mpool) (size : ℕ) (test : Mpool → ℕ → Bool) : Option (ℕ × Mpool) :=
  match freelistsSize2id size with
  | none => some (0, p)
  | some id => freelistsMatchFrom p test (List.range' id (8 - id))

/-- `freelists_put`, or the large list where it fails. -/
def freelistsPut (p : Mpool) (ptr : ℕ) : Mpool :=
  if blkSize p ptr = 0 then p else freelistPut p (freelistsSize2id (blkSize p ptr)) ptr

def alignedSizeOf (p : Mpool) (align ptr : ℕ) : ℤ :=
  ssize (blkSize p ptr) - ssize (wrapSub (paddingTo ptr align) ptr)

def sizeFits (size : ℕ) (p : Mpool) (list : ℕ) : Bool := size ≤ blkSize p list

def alignedFits (size align : ℕ) (p : Mpool) (list : ℕ) : Bool := ssize size ≤ alignedSizeOf p align list

def detach (p : Mpool) (ptr : ℕ) : Option Mpool := freelistDetach p (freelistsSize2id (blkSize p ptr)) ptr

def blkMergeprev (p : Mpool) (ptr : ℕ) : Option (ℕ × Mpool) :=
  let prev := blkPrev p ptr
  let size := blkSize p ptr + blkSize p prev + 16
  (detach p prev).map fun p => (prev, blkSetsize p prev size)

def blkMergenext (p : Mpool) (ptr : ℕ) : Option (ℕ × Mpool) :=
  let next := blkNext p ptr
  let size := blkSize p ptr + blkSize p next + 16
  (detach p next).map fun p => (ptr, blkSetsize p ptr size)

def tryMergenext (p : Mpool) (ptr : ℕ) : Option (ℕ × Mpool) :=
  let size := blkSize p ptr
  if !blkNonext p ptr size && hasTagFlag (p.mem (ptr + size + 8)) freeFlag then blkMergenext p ptr else some (ptr, p)

def tryMergeprev (p : Mpool) (ptr : ℕ) : Option (ℕ × Mpool) :=
  if !blkNoprev p ptr && hasTagFlag (p.mem (ptr - 16)) freeFlag then blkMergeprev p ptr else some (ptr, p)

def blkTrymerge (p : Mpool) (ptr : ℕ) : Option (ℕ × Mpool) := do
  let is2M := blkAreaIs2M p ptr
  let (ptr, p) ← tryMergenext p ptr
  let (ptr, p) ← tryMergeprev p ptr
  some (ptr, if is2M then blkSetArea2M p ptr (blkSize p ptr) else p)

def blkSplit (p : Mpool) (ptr size : ℕ) : ℕ × Mpool :=
  let is2M := blkAreaIs2M p ptr
  let oldsize := blkSize p ptr
  let p := blkSetsize p ptr size
  let p := if is2M then blkSetArea2M p ptr size else p
  let offset := wrap (size + 16)
  let p := blkSetsize p (wrap (ptr + offset)) (wrapSub oldsize offset)
  let p := if is2M then blkSetArea2M p (wrap (ptr + offset)) (wrapSub oldsize offset) else p
  (wrap (ptr + offset), p)

/-- `allocarea_init` with `pdata == NULL`. -/
def allocareaInit (p : Mpool) (addr size : ℕ) : Mpool :=
  let data := if size = size2M then areaFlag + sizeFlag else areaFlag
  let p := (p.store addr data).store (addr + (size / 8 - 1) * 8) data
  let ptr := addr + 16
  let p := blkSetsize p ptr (wrapSub size 32)
  let p := blkSetfreed p ptr (wrapSub size 32)
  if size = size2M then blkSetArea2M p ptr (wrapSub size 32) else blkSetArea4k p ptr (wrapSub size 32)

def allocareaReinit (p : Mpool) (addr oldsize newsize : ℕ) : ℕ × Mpool :=
  if newsize = oldsize then (0, p)
  else
    let data := tagSize (p.mem addr) + areaFlag + (if newsize = size2M then sizeFlag else 0)
    let p := (p.store addr data).store (addr + (newsize / 8 - 1) * 8) data
    if newsize < oldsize then (0, p)
    else
      let blk := addr + oldsize
      (blk, blkSetsize p blk (wrapSub (newsize - oldsize) 16))

/-- `mpool_init` on memory that may hold anything. -/
def mpoolInit (mem : ℕ → ℕ) (ptr size : ℕ) : Option Mpool :=
  if ptr = 0 ∨ size = 0 ∨ size % 16 ≠ 0 then none
  else
    let p := allocareaInit ⟨ptr, size, 0, 0, fun _ => 0, mem⟩ ptr size
    some (freelistPut p none (ptr + 16))

/-- `mpool_reqmem`; `some none` is `false`. The memory behind the pool may hold anything. -/
def mpoolReqmem (p : Mpool) (reqmem : Option CbReqmem) (size : ℕ) : Option (Option Mpool) :=
  match reqmem with
  | none => some none
  | some cbReqmem =>
    let memsize := padding16k size
    let mem := cbReqmem.call (p.ptr + p.size) memsize
    if mem = 0 then some none
    else if mem ≠ p.ptr + p.size then some none
    else
      let (ptr, p) := allocareaReinit p p.ptr p.size (wrap (p.size + memsize))
      if ptr = 0 then none
      else
        let p := { p with size := wrap (p.size + memsize) }
        (blkTrymerge p ptr).map fun r =>
          some (freelistPut (blkSetfreed r.2 r.1 (blkSize r.2 r.1)) none r.1)

def doFree (p : Mpool) (ptr : ℕ) : Mpool := freelistsPut (blkSetfreed p ptr (blkSize p ptr)) ptr

@[simp] theorem freelistPut_size (p : Mpool) (list : Option ℕ) (ptr : ℕ) : (freelistPut p list ptr).size = p.size := by
  cases list <;> rfl

@[simp] theorem freelistPut_allocedSize (p : Mpool) (list : Option ℕ) (ptr : ℕ) :
    (freelistPut p list ptr).allocedSize = p.allocedSize := by
  cases list <;> rfl

@[simp] theorem doFree_size (p : Mpool) (ptr : ℕ) : (doFree p ptr).size = p.size := by
  unfold doFree freelistsPut
  split
  · rfl
  · exact freelistPut_size _ _ _

@[simp] theorem doFree_allocedSize (p : Mpool) (ptr : ℕ) : (doFree p ptr).allocedSize = p.allocedSize := by
  unfold doFree freelistsPut
  split
  · rfl
  · exact freelistPut_allocedSize _ _ _

def trySplitAndFree (p : Mpool) (ptr size : ℕ) : Mpool :=
  if blkSize p ptr ≥ wrap (size + 64) then
    let (new, p) := blkSplit p ptr size
    doFree p new
  else p

def paddedSize (size : ℕ) : ℕ := if size = 0 then 16 else padding size

def takeBlock (p : Mpool) (ptr size : ℕ) : ℕ × Mpool :=
  let p := trySplitAndFree p ptr size
  let size := blkSize p ptr
  let p := blkSetalloced p ptr size
  (ptr, { p with allocedSize := wrap (p.allocedSize + size) })

/-- The block before the next multiple of `align` is split off and freed. -/
def carve (p : Mpool) (align ptr : ℕ) : ℕ × Mpool :=
  let offset := wrapSub (paddingTo ptr align) ptr
  if offset > 0 then
    let (new, p) := blkSplit p ptr (wrapSub offset 16)
    (new, doFree p ptr)
  else (ptr, p)

def findBlock (p : Mpool) (size : ℕ) (test : Mpool → ℕ → Bool) : Option (ℕ × Mpool) :=
  (freelistsMatch p size test).bind fun r => if r.1 = 0 then freelistMatch r.2 none test else some r

/-- The second search of the large list. The size of the block is read then, also where it is `NULL`. -/
def takeLarge (p : Mpool) (test : Mpool → ℕ → Bool) (take : Mpool → ℕ → ℕ × Mpool) : Option (ℕ × Mpool) :=
  (freelistMatch p none test).bind fun r => if r.1 = 0 then none else some (take r.2 r.1)

/-- What both allocation functions do: they look in the lists, ask for `ask` bytes when nothing fits and look
in the large list again. -/
def allocWith (p : Mpool) (reqmem : Option CbReqmem) (size ask : ℕ) (test : Mpool → ℕ → Bool)
    (take : Mpool → ℕ → ℕ × Mpool) : Option (ℕ × Mpool) :=
  (findBlock p size test).bind fun r =>
    if r.1 ≠ 0 then some (take r.2 r.1)
    else
      (mpoolReqmem r.2 reqmem ask).bind fun grown =>
        match grown with
        | none => some (0, r.2)
        | some p => takeLarge p test take

def mpoolAlloc (p : Mpool) (reqmem : Option CbReqmem) (size : ℕ) : Option (ℕ × Mpool) :=
  let size := paddedSize size
  allocWith p reqmem size size (sizeFits size) fun p ptr => takeBlock p ptr size

def mpoolAlignedAlloc (p : Mpool) (reqmem : Option CbReqmem) (size align : ℕ) : Option (ℕ × Mpool) :=
  if align &&& (align - 1) ≠ 0 then some (0, p)
  else if align < 16 then mpoolAlloc p reqmem size
  else
    let size := paddedSize size
    allocWith p reqmem size (wrap (size + align)) (alignedFits size align) fun p ptr =>
      let (ptr, p) := carve p align ptr
      takeBlock p ptr size

def mpoolFree (p : Mpool) (ptr : ℕ) : Option Mpool :=
  if ptr = 0 then some p
  else if blkFreed p ptr then none
  else
    let p := { p with allocedSize := wrapSub p.allocedSize (blkSize p ptr) }
    (blkTrymerge p ptr).map fun r => doFree r.2 r.1

def Mpool.memcpy (p : Mpool) (dst src n : ℕ) : Mpool :=
  { p with mem := fun w => if dst ≤ w ∧ w < dst + n then p.mem (src + (w - dst)) else p.mem w }

/-- What both `realloc` functions do with a block that there is: it shrinks, grows over the next one, or its
contents move to a new one. -/
def reallocWith (alloc : Mpool → ℕ → Option (ℕ × Mpool)) (p : Mpool) (ptr newsize : ℕ) : Option (ℕ × Mpool) :=
  let size := blkSize p ptr
  let next := blkNext p ptr
  if size ≥ newsize then some (ptr, trySplitAndFree p ptr newsize)
  else if next ≠ 0 ∧ blkFreed p next ∧ wrap (size + 16 + blkSize p next) ≥ newsize then
    (blkMergenext p ptr).map fun r => (r.1, trySplitAndFree r.2 r.1 newsize)
  else do
    let (new, p) ← alloc p newsize
    -- bytes are copied to `NULL` when there is no new block
    if new = 0 ∧ size ≠ 0 then none
    else (mpoolFree (p.memcpy new ptr size) ptr).map fun p => (new, p)

def mpoolRealloc (p : Mpool) (reqmem : Option CbReqmem) (ptr newsize : ℕ) : Option (ℕ × Mpool) :=
  if ptr = 0 then mpoolAlloc p reqmem newsize
  else reallocWith (fun p n => mpoolAlloc p reqmem n) p ptr (paddedSize newsize)

def mpoolAlignedRealloc (p : Mpool) (reqmem : Option CbReqmem) (ptr newsize align : ℕ) :
    Option (ℕ × Mpool) :=
  if ptr = 0 then mpoolAlignedAlloc p reqmem newsize align
  else if align &&& (align - 1) ≠ 0 then some (0, p)
  else if align < 16 then mpoolRealloc p reqmem ptr newsize
  else reallocWith (fun p n => mpoolAlignedAlloc p reqmem n align) p ptr (paddedSize newsize)

end CoolPotOS
