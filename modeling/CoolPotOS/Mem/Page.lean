import CoolPotOS.Mem.MemSys
import CoolPotOS.Lib.Radix

namespace CoolPotOS

def ptePresent : BitVec 64 := 0x1
def pteWriteable : BitVec 64 := 0x2
def pteUser : BitVec 64 := 0x4
def ptePwt : BitVec 64 := 0x8
def pteDisCache : BitVec 64 := 0x10
def pteUAccessed : BitVec 64 := 0x20
def pteHuge : BitVec 64 := 0x80
def pteNoExecute : BitVec 64 := 0x8000000000000000

def pteFrameMask : BitVec 64 := 0x00007ffffffff000

def archPtTableFlags : BitVec 64 := ptePresent ||| pteWriteable

/-- `entry & PTE_FRAME_MASK` as an address. -/
def frameOf (entry : BitVec 64) : ℕ := (entry &&& pteFrameMask).toNat

def tableIndex (shift addr : ℕ) : ℕ := addr / 2 ^ shift % 512

/-- `alloc_frames(1)` and `free_frame`, as the page tables use them. -/
structure FrameOps (σ : Type) where
  alloc : σ → Option (σ × ℕ)
  free : σ → ℕ → Option σ

/-- The physical memory and the state of the frame allocator. `none` is an access through a `NULL`
pointer, or an allocator that fails where the code asserts that it does not. -/
structure Paging (σ : Type) where
  mem : ℕ → ℕ → BitVec 64
  frames : σ

section Tables

variable {σ : Type} (ops : FrameOps σ)

def Paging.write (s : Paging σ) (table index : ℕ) (value : BitVec 64) : Paging σ :=
  { s with mem := Radix.set s.mem table index value }

def pageTableClear (s : Paging σ) (table : ℕ) : Paging σ :=
  { s with mem := Radix.fill s.mem table 0 }

def pageTableEntryFlags (leafFlags : BitVec 64) : BitVec 64 :=
  archPtTableFlags ||| (if hasFlag leafFlags pteUser then pteUser else 0)

/-- The entry is `table->entries[index]`; the second component is the table behind it. -/
def pageTableCreate (s : Paging σ) (table index : ℕ) (leafFlags : BitVec 64) :
    Option (Paging σ × ℕ) :=
  let entryFlags := pageTableEntryFlags leafFlags
  let entry := s.mem table index
  if table = 0 then none
  else if entry = 0 then do
    let (frames, frame) ← ops.alloc s.frames
    let value := BitVec.ofNat 64 frame ||| entryFlags
    let s := { s with frames := frames }.write table index value
    if frameOf value = 0 then none
    else return (pageTableClear s (frameOf value), frameOf value)
  else if hasFlag entryFlags pteUser && !hasFlag entry pteUser then
    some (s.write table index (entry ||| pteUser), frameOf (entry ||| pteUser))
  else some (s, frameOf entry)

def pageMapTo (s : Paging σ) (directory addr frame : ℕ) (flags : BitVec 64) :
    Option (Paging σ) := do
  let (s, l3) ← pageTableCreate ops s directory (tableIndex 39 addr) flags
  let (s, l2) ← pageTableCreate ops s l3 (tableIndex 30 addr) flags
  let (s, l1) ← pageTableCreate ops s l2 (tableIndex 21 addr) flags
  if l1 = 0 then none
  else return s.write l1 (tableIndex 12 addr) ((BitVec.ofNat 64 frame &&& pteFrameMask) ||| flags)

def unmapPage (s : Paging σ) (directory vaddr : ℕ) : Option (Paging σ) :=
  let l3 := frameOf (s.mem directory (tableIndex 39 vaddr))
  if l3 = 0 then some s
  else
    let l2 := frameOf (s.mem l3 (tableIndex 30 vaddr))
    if l2 = 0 then some s
    else
      let l1 := frameOf (s.mem l2 (tableIndex 21 vaddr))
      if l1 = 0 then some s
      else do
        let frames ← ops.free s.frames (frameOf (s.mem l1 (tableIndex 12 vaddr)))
        return { s with frames := frames }.write l1 (tableIndex 12 vaddr) 0

end Tables

def pageMask : BitVec 64 := ~~~0xFFF

/-- `arch_virt_to_phys` in the address space with the directory `pml4`. -/
def archVirtToPhys (mem : ℕ → ℕ → BitVec 64) (pml4 va : ℕ) : BitVec 64 :=
  let pml4e := mem pml4 (tableIndex 39 va)
  if !hasFlag pml4e ptePresent then 0
  else
    let pdpte := mem (pml4e &&& pageMask).toNat (tableIndex 30 va)
    if !hasFlag pdpte ptePresent then 0
    else if hasFlag pdpte pteHuge then
      (pdpte &&& ~~~(BitVec.ofNat 64 (2 ^ 30 - 1))) + BitVec.ofNat 64 (va % 2 ^ 30)
    else
      let pde := mem (pdpte &&& pageMask).toNat (tableIndex 21 va)
      if !hasFlag pde ptePresent then 0
      else if hasFlag pde pteHuge then
        (pde &&& ~~~(BitVec.ofNat 64 (2 ^ 21 - 1))) + BitVec.ofNat 64 (va % 2 ^ 21)
      else
        let pte := mem (pde &&& pageMask).toNat (tableIndex 12 va)
        if !hasFlag pte ptePresent then 0
        else (pte &&& pageMask) + BitVec.ofNat 64 (va % pageSize)

def getArchPageTableFlags (flags : BitVec 64) : BitVec 64 :=
  ptePresent ||| (if hasFlag flags pteWriteable then pteWriteable else 0) |||
    (if hasFlag flags pteUser then pteUser else 0) |||
    (if hasFlag flags pteUAccessed then pteDisCache ||| ptePwt else 0)

end CoolPotOS
