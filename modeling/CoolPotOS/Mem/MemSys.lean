import CoolPotOS.Mem.Vma

namespace CoolPotOS

open LinkedList

/-- `USER_MMAP_START` and `KERNEL_AREA_MEM`. -/
def userMmapStart : ℕ := 0x0000400000000000
def kernelAreaMem : ℕ := 0xf000000000000000

/-- The error numbers that the calls return. -/
inductive Errno
  | badf | nomem | fault | inval
  deriving DecidableEq, Repr

def checkUserOverflow (addr size : ℕ) : Bool := decide (wrap (addr + size) > kernelAreaMem)

def hasFlag (word mask : BitVec 64) : Bool := decide (word &&& mask ≠ 0)

theorem hasFlag_or (a b mask : BitVec 64) : hasFlag (a ||| b) mask = (hasFlag a mask || hasFlag b mask) := by
  unfold hasFlag
  rw [BitVec.and_or_distrib_right]
  by_cases h1 : a &&& mask = 0 <;> by_cases h2 : b &&& mask = 0 <;>
    simp [h1, h2, BitVec.or_eq_zero_iff]

def protRead : BitVec 64 := 0x1
def protWrite : BitVec 64 := 0x2
def protExec : BitVec 64 := 0x4
def mapShared : BitVec 64 := 0x1
def mapFixed : BitVec 64 := 0x10
def mapAnonymous : BitVec 64 := 0x20
def mremapMayMove : BitVec 64 := 0x1

def vmaRead : BitVec 64 := 0x1
def vmaWriteFlag : BitVec 64 := 0x2
def vmaExec : BitVec 64 := 0x4
def vmaShared : BitVec 64 := 0x8
def vmaAnon : BitVec 64 := 0x10

/-- `if (prot & PROT_READ) flags |= VMA_READ;` and so on for writing and executing. -/
def addProtFlags (flags prot : BitVec 64) : BitVec 64 :=
  flags ||| (if hasFlag prot protRead then vmaRead else 0) |||
    (if hasFlag prot protWrite then vmaWriteFlag else 0) |||
    (if hasFlag prot protExec then vmaExec else 0)

def searchWalk (mgr : VmaManager) (len : ℕ) : ℕ → ℕ → Option (Option ℕ)
  | 0, _ => none
  | fuel + 1, startAddr => do
    match ← vmaFindIntersection mgr startAddr (wrap (startAddr + len)) with
    | none => return some startAddr
    | some _ =>
      if startAddr + pageSize > kernelAreaMem then return none
      else searchWalk mgr len fuel (startAddr + pageSize)

/-- The number of page addresses from `USER_MMAP_START` to `KERNEL_AREA_MEM`. -/
def searchFuel : ℕ := (kernelAreaMem - userMmapStart) / pageSize + 1

def findFree (mgr : VmaManager) (len : ℕ) : Option (Option ℕ) :=
  searchWalk mgr len searchFuel userMmapStart

def mmapVma (startAddr len : ℕ) (prot flags : BitVec 64) (fd : ℤ) (offset : BitVec 64) : Vma :=
  let vmFlags := addProtFlags 0 prot ||| (if hasFlag flags mapShared then vmaShared else 0)
  if hasFlag flags mapAnonymous then
    { freshVma with
      vmStart := startAddr, vmEnd := wrap (startAddr + len), vmFlags := vmFlags ||| vmaAnon,
      vmType := .anon, vmFd := -1 }
  else
    { freshVma with
      vmStart := startAddr, vmEnd := wrap (startAddr + len), vmFlags := vmFlags,
      vmType := .file, vmFd := fd, vmOffset := offset.toNat }

def dropRegion (mgr : VmaManager) (start stop : ℕ) : Option VmaManager := do
  match ← vmaFindIntersection mgr start stop with
  | none => return mgr
  | some region => (vmaRemove mgr (some region)).map fun mgr => vmaFree mgr region

/-- `mmap` from the choice of the address on: `vma_alloc`, the fields, and the insertion. -/
def mmapInsert (mgr : VmaManager) (startAddr len : ℕ) (prot flags : BitVec 64) (fd : ℤ)
    (offset : BitVec 64) (mapped : ℕ) : Option (VmaManager × Except Errno ℕ) :=
  match vmaAlloc mgr with
  | (mgr, none) => some (mgr, .error .nomem)
  | (mgr, some vma) => do
    let mgr ← vmaWrite mgr vma (mmapVma startAddr len prot flags fd offset)
    let mgr ← dropRegion mgr startAddr (wrap (startAddr + len))
    let (mgr, ok) ← vmaInsert mgr vma
    if !ok then return (vmaFree mgr vma, .error .nomem)
    else if !hasFlag flags mapAnonymous then return (mgr, .ok mapped)
    else return (mgr, .ok startAddr)

/-- `fdOpen` says that `get_fd` finds the descriptor of a file. -/
def mmapAt (mgr : VmaManager) (startAddr len : ℕ) (prot flags : BitVec 64) (fd : ℤ)
    (offset : BitVec 64) (fdOpen : Bool) (mapped : ℕ) : Option (VmaManager × Except Errno ℕ) :=
  if !hasFlag flags mapAnonymous && !fdOpen then some (mgr, .error .badf)
  else mmapInsert mgr startAddr len prot flags fd offset mapped

/-- `mapped` is what `vfs_map` returns. -/
def mmap (mgr : VmaManager) (addr length prot flags : BitVec 64) (fd : ℤ) (offset : BitVec 64)
    (fdOpen : Bool) (mapped : ℕ) : Option (VmaManager × Except Errno ℕ) := do
  let addr := paddingDown addr.toNat
  let alignedLen := paddingUp length.toNat
  if checkUserOverflow addr alignedLen then return (mgr, .error .fault)
  else if alignedLen = 0 then return (mgr, .error .inval)
  else
    let insert (mgr : VmaManager) (startAddr : ℕ) :=
      mmapAt mgr startAddr alignedLen prot flags fd offset fdOpen mapped
    if hasFlag flags mapFixed then
      if addr = 0 then return (mgr, .error .inval)
      else match ← vmaFindIntersection mgr addr (wrap (addr + alignedLen)) with
      | some _ => insert (← vmaUnmapRange mgr addr (wrap (addr + alignedLen))) addr
      | none => insert mgr addr
    else if addr ≠ 0 then
      match ← vmaFindIntersection mgr addr (wrap (addr + alignedLen)) with
      | some _ => return (mgr, .error .nomem)
      | none => insert mgr addr
    else match ← findFree mgr alignedLen with
    | none => return (mgr, .error .nomem)
    | some startAddr => insert mgr startAddr

def cutEndPlain (start used : ℕ) (v : Vma) : ℕ × Vma := (used, v.upTo start)

def cutStartPlain (stop used : ℕ) (v : Vma) : ℕ × Vma :=
  let v := { v with vmStart := stop }
  (used, { v with
    vmOffset := if v.vmType = .file then wrap (v.vmOffset + wrapSub stop v.vmStart) else v.vmOffset })

/-- The inlined loop of the `munmap` system call. -/
def munmapRange (mgr : VmaManager) (start stop : ℕ) : Option VmaManager :=
  unmapWalk (cutEndPlain start) (cutStartPlain stop) start stop mgr.mallocs mgr mgr.list.head

def munmap (mgr : VmaManager) (addr size : BitVec 64) : Option (VmaManager × Except Errno ℕ) :=
  if size = 0 then some (mgr, .ok 0)
  else
    let addr := paddingDown addr.toNat
    let size := paddingUp size.toNat
    if checkUserOverflow addr size then some (mgr, .error .fault)
    else do
      let mgr ← munmapRange mgr addr (wrap (addr + size))
      return (mgr, .ok 0)

/-- The area that `mremap` makes from the old one with `memcpy`. -/
def Vma.movedTo (v : Vma) (startAddr newSize : ℕ) : Vma :=
  { v with vmStart := startAddr, vmEnd := wrap (startAddr + newSize), vmFlags := 0 }

/-- The end of `mremap`: a new area at `startAddr`, and the old range is unmapped. -/
def mremapMove (mgr : VmaManager) (v : Vma) (startAddr oldAddr oldSize newSize : ℕ) :
    Option (VmaManager × Except Errno ℕ) :=
  match vmaAlloc mgr with
  | (mgr, none) => some (mgr, .error .nomem)
  | (mgr, some newVma) => do
    let mgr ← vmaWrite mgr newVma (v.movedTo startAddr newSize)
    let (mgr, ok) ← vmaInsert mgr newVma
    if !ok then return (vmaFree mgr newVma, .error .nomem)
    else
      let (mgr, _) ← munmap mgr (BitVec.ofNat 64 oldAddr) (BitVec.ofNat 64 oldSize)
      return (mgr, .ok startAddr)

def mremap (mgr : VmaManager) (oldAddr oldSize newSize flags : BitVec 64) :
    Option (VmaManager × Except Errno ℕ) := do
  let oldAddr := paddingDown oldAddr.toNat
  let oldSize := paddingUp oldSize.toNat
  let newSize := paddingUp newSize.toNat
  match ← vmaFind mgr oldAddr with
  | none => return (mgr, .error .inval)
  | some vma =>
    let v := (← mgr.list.cells vma).data
    if v.vmStart ≠ oldAddr then return (mgr, .error .inval)
    else if newSize ≤ wrapSub v.vmEnd v.vmStart then
      let mgr ← vmaWrite mgr vma (v.upTo (wrap (v.vmStart + newSize)))
      return (mgr, .ok oldAddr)
    else
      let newEnd := wrap (v.vmStart + newSize)
      match ← vmaFindIntersection mgr v.vmEnd newEnd with
      | none =>
        let mgr ← vmaWrite mgr vma (v.upTo newEnd)
        return (mgr, .ok oldAddr)
      | some _ =>
        if !hasFlag flags mremapMayMove then return (mgr, .error .nomem)
        else match ← findFree mgr newSize with
        | none => return (mgr, .error .nomem)
        | some startAddr => mremapMove mgr v startAddr oldAddr oldSize newSize

/-- The current area is split at the end of the range if it starts in the range. -/
def protectCurrent (mgr : VmaManager) (vma addr stop : ℕ) : Option VmaManager := do
  let v := (← mgr.list.cells vma).data
  if v.vmStart < stop ∧ v.vmEnd > stop ∧ v.vmStart ≥ addr then
    (vmaSplit mgr vma stop).map Prod.fst
  else return mgr

/-- The second `if` of the loop: the next area is split at the end of the range, or else
the current one. -/
def protectEnd (mgr : VmaManager) (vma : ℕ) (next : Option ℕ) (addr stop : ℕ) :
    Option VmaManager :=
  match next with
  | none => protectCurrent mgr vma addr stop
  | some n => do
    let w := (← mgr.list.cells n).data
    if w.vmStart < stop ∧ w.vmEnd > stop then (vmaSplit mgr n stop).map Prod.fst
    else protectCurrent mgr vma addr stop

/-- The first loop of the `mprotect` system call: the areas are split at both ends of
the range. -/
def protectWalk (addr stop : ℕ) : ℕ → VmaManager → Option ℕ → Option VmaManager
  | _, mgr, none => some mgr
  | 0, _, some _ => none
  | fuel + 1, mgr, some vma => do
    let node ← mgr.list.cells vma
    let v := node.data
    if v.vmEnd ≤ addr ∨ v.vmStart ≥ stop then protectWalk addr stop fuel mgr node.next
    else if v.vmStart < addr ∧ v.vmEnd > addr then
      let (mgr, ok) ← vmaSplit mgr vma addr
      let next ← if ok then (mgr.list.cells vma).map Node.next else pure node.next
      let mgr ← protectEnd mgr vma next addr stop
      protectWalk addr stop fuel mgr next
    else
      let mgr ← protectEnd mgr vma node.next addr stop
      protectWalk addr stop fuel mgr node.next

/-- The second loop: the areas inside the range get the new protection. -/
def protectFlagsWalk (addr stop : ℕ) (prot : BitVec 64) :
    ℕ → VmaManager → Option ℕ → Option VmaManager
  | _, mgr, none => some mgr
  | 0, _, some _ => none
  | fuel + 1, mgr, some cur => do
    let node ← mgr.list.cells cur
    let v := node.data
    if v.vmStart ≥ addr ∧ v.vmEnd ≤ stop then
      let mgr ← vmaWrite mgr cur { v with
        vmFlags := addProtFlags (v.vmFlags &&& ~~~(vmaRead ||| vmaWriteFlag ||| vmaExec)) prot }
      protectFlagsWalk addr stop prot fuel mgr node.next
    else protectFlagsWalk addr stop prot fuel mgr node.next

/-- `populate` is the error with which the loop over the pages of the range ends early. Each
area is visited once, and every area is split at most twice. -/
def mprotect (mgr : VmaManager) (addr length prot : BitVec 64) (populate : Option Errno) :
    Option (VmaManager × Except Errno ℕ) := do
  let addr := paddingDown addr.toNat
  let length := paddingUp length.toNat
  if checkUserOverflow addr length then return (mgr, .error .fault)
  else match populate with
  | some e => return (mgr, .error e)
  | none =>
    let mgr ← protectWalk addr (wrap (addr + length)) (3 * mgr.mallocs) mgr mgr.list.head
    let mgr ← protectFlagsWalk addr (wrap (addr + length)) prot mgr.mallocs mgr mgr.list.head
    return (mgr, .ok 0)

/-- The system calls that edit the list of areas. The page tables, the lazy allocations and the
files behind a mapping are not part of the state; where a call looks at them before it changes an
area, the outcome is an argument. -/
inductive VmaCall
  | mmap (addr length prot flags : BitVec 64) (fd : ℤ) (offset : BitVec 64) (fdOpen : Bool)
      (mapped : ℕ)
  | munmap (addr size : BitVec 64)
  | mremap (oldAddr oldSize newSize flags : BitVec 64)
  | mprotect (addr length prot : BitVec 64) (populate : Option Errno)

def VmaCall.run (mgr : VmaManager) : VmaCall → Option VmaManager
  | .mmap addr length prot flags fd offset fdOpen mapped =>
    (CoolPotOS.mmap mgr addr length prot flags fd offset fdOpen mapped).map Prod.fst
  | .munmap addr size => (CoolPotOS.munmap mgr addr size).map Prod.fst
  | .mremap oldAddr oldSize newSize flags =>
    (CoolPotOS.mremap mgr oldAddr oldSize newSize flags).map Prod.fst
  | .mprotect addr length prot populate =>
    (CoolPotOS.mprotect mgr addr length prot populate).map Prod.fst

def runCalls : List VmaCall → VmaManager → Option VmaManager
  | [], mgr => some mgr
  | call :: calls, mgr => do
    let mgr ← call.run mgr
    runCalls calls mgr

end CoolPotOS
