import CoolPotOS.Mem.Page

namespace CoolPotOS

structure VirtPage where
  start : ℕ
  count : ℕ
  pteFlags : BitVec 64
  deriving DecidableEq

def VirtPage.stop (e : VirtPage) : ℕ := wrap (e.start + e.count * pageSize)

/-- The frame and the flags of an entry, by the indices of the page. The source reads a table that is
missing through physical page `0`, which is taken to be zero. -/
abbrev PageEntries := ℕ → Option (ℕ × BitVec 64)

/-- The page tables are the entries that the four table indices of an address lead to. -/
structure UserSpace where
  mgr : VmaManager
  pages : PageEntries
  virtQueue : List VirtPage

def pageIndex (va : ℕ) : ℕ := va / pageSize % 2 ^ 36

/-- The loops over the pages of a range, with the new entries. -/
def setPages (pages : PageEntries) (va : ℕ) : List (Option (ℕ × BitVec 64)) → PageEntries
  | [] => pages
  | e :: es => setPages (Function.update pages (pageIndex va) e) (wrap (va + pageSize)) es

/-- The number of iterations of a loop that goes over `length` bytes page by page. -/
def pageCount (length : ℕ) : ℕ := (length + pageSize - 1) / pageSize

def ptFlagsFromProt (prot : BitVec 64) : BitVec 64 :=
  pteUser ||| (if prot ≠ 0 then ptePresent else 0) ||| (if hasFlag prot protWrite then pteWriteable else 0) |||
    (if !hasFlag prot protExec then pteNoExecute else 0)

/-- What `unmap_virtual_page` leaves of an entry of the queue that meets the range. -/
def virtPieces (vaddr stop : ℕ) (e : VirtPage) : List VirtPage :=
  let left : VirtPage := { e with count := (vaddr - e.start) / pageSize }
  let right : VirtPage := { e with start := stop, count := (e.stop - stop) / pageSize }
  if vaddr ≤ e.start ∧ stop ≥ e.stop then []
  else if vaddr ≤ e.start ∧ stop < e.stop then [right]
  else if vaddr > e.start ∧ stop ≥ e.stop then [left]
  else [left, right]

/-- The entry meets the range of `unmap_virtual_page`. -/
def VirtPage.meets (vaddr stop : ℕ) (e : VirtPage) : Bool := decide (e.stop > vaddr ∧ e.start < stop)

def unmapVirtualWalk (vaddr stop : ℕ) : ℕ → List VirtPage → List VirtPage
  | 0, queue => queue
  | fuel + 1, queue =>
    match queue.findIdx? (VirtPage.meets vaddr stop) with
    | none => queue
    | some k =>
      unmapVirtualWalk vaddr stop fuel
        (queue.eraseIdx k ++ ((queue[k]?.map (virtPieces vaddr stop)).getD []))

/-- The pieces of an entry do not meet the range, so that the loop runs once for each entry at most. -/
def unmapVirtualPage (queue : List VirtPage) (vaddr length : ℕ) : List VirtPage :=
  unmapVirtualWalk vaddr (wrap (vaddr + length)) queue.length queue

/-- Where `mmap` puts a mapping, if it finds a place. -/
def mmapPlace (mgr : VmaManager) (addr len : ℕ) (flags : BitVec 64) : Option (Option ℕ) :=
  if hasFlag flags mapFixed || decide (addr ≠ 0) then some (some addr) else findFree mgr len

namespace UserSpace

variable (s : UserSpace)

def unmapPageRange (vaddr size : ℕ) : UserSpace :=
  let entries := List.replicate (pageCount (wrap (vaddr + size) - vaddr)) none
  { s with pages := setPages s.pages vaddr entries }

def pageMapRange (addr frame length : ℕ) (flags : BitVec 64) : UserSpace :=
  let entries := (List.range (pageCount length)).map fun k => some (wrap (frame + k * pageSize), flags)
  { s with pages := setPages s.pages addr entries }

def virtToPhys (va : ℕ) : ℕ :=
  match s.pages (pageIndex va) with
  | some (frame, flags) => if hasFlag flags ptePresent then frame + va % pageSize else 0
  | none => 0

def lazyInfoalloc (vaddr length : ℕ) (pageFlags flags : BitVec 64) : UserSpace :=
  let count := pageCount length
  let s := if hasFlag flags mapFixed then
      { s with virtQueue := unmapVirtualPage s.virtQueue vaddr length }.unmapPageRange vaddr length
    else s
  { s with virtQueue := s.virtQueue ++ [⟨vaddr, count, pageFlags⟩] }

/-- The parts of an entry that stay in the queue after a fault at the page `i` of it. -/
def faultPieces (e : VirtPage) (i : ℕ) : List VirtPage :=
  (if i > 0 then [{ e with count := i }] else []) ++
    (if i + 1 < e.count then
      [{ e with start := wrap (e.start + (i + 1) * pageSize), count := e.count - i - 1 }] else [])

/-- `lazy_tryalloc`; `phys` is the frame that it gets. -/
def lazyTryalloc (address phys : ℕ) : Option UserSpace := do
  let k ← s.virtQueue.findIdx? fun e => decide (address ≥ e.start ∧ address < e.stop)
  let e ← s.virtQueue[k]?
  let i := (address - e.start) / pageSize
  return { s with
    pages := Function.update s.pages (pageIndex (wrap (e.start + i * pageSize))) (some (phys, e.pteFlags))
    virtQueue := (s.virtQueue ++ faultPieces e i).eraseIdx k }

/-- The page fault of a process. One that is not resolved kills the process. -/
def pageFault (address phys : ℕ) : UserSpace :=
  if address < 0x1000 then s else (s.lazyTryalloc address phys).getD s

/-- `file` has the entries that the `map` function of a file makes from the start of the mapping on;
it makes no more than the mapping has pages. -/
def mmap (addr length prot flags : BitVec 64) (fd : ℤ) (offset : BitVec 64) (fdOpen : Bool) (mapped : ℕ)
    (file : List (ℕ × BitVec 64)) : Option (UserSpace × Except Errno ℕ) := do
  let len := paddingUp length.toNat
  let (mgr, r) ← CoolPotOS.mmap s.mgr addr length prot flags fd offset fdOpen mapped
  let place ← mmapPlace s.mgr (paddingDown addr.toNat) len flags
  let s := { s with mgr := mgr }
  match r, place with
  | .ok r, some startAddr =>
    if !hasFlag flags mapAnonymous then
      let entries := (file.map some).take (pageCount len)
      return ({ s with pages := setPages s.pages startAddr entries }, .ok r)
    else if prot = 0 then return (s, .ok r)
    else return (s.lazyInfoalloc startAddr len (ptFlagsFromProt prot) flags, .ok r)
  | r, _ => return (s, r)

def munmap (addr size : BitVec 64) : Option (UserSpace × Except Errno ℕ) := do
  if size = 0 then return (s, .ok 0)
  else
    let (mgr, r) ← CoolPotOS.munmap s.mgr addr size
    let s := { s with mgr := mgr }
    match r with
    | .error e => return (s, .error e)
    | .ok r =>
      let addr := paddingDown addr.toNat
      let size := paddingUp size.toNat
      return ({ s with virtQueue := unmapVirtualPage s.virtQueue addr size }.unmapPageRange addr size, .ok r)

/-- The flags of the pages that `mremap` moves, for an area without flags. -/
def mremapFlags : BitVec 64 := pteUser ||| ptePresent ||| pteWriteable ||| pteNoExecute

/-- The end of `mremap`: a new area at `startAddr`, its pages, and the old range is unmapped. -/
def mremapMove (v : Vma) (startAddr oldAddr oldSize newSize : ℕ) : Option (UserSpace × Except Errno ℕ) := do
  let oldAddrPhys := s.virtToPhys oldAddr
  match vmaAlloc s.mgr with
  | (mgr, none) => return ({ s with mgr := mgr }, .error .nomem)
  | (mgr, some newVma) =>
    let mgr ← vmaWrite mgr newVma (v.movedTo startAddr newSize)
    let (mgr, ok) ← vmaInsert mgr newVma
    if !ok then return ({ s with mgr := vmaFree mgr newVma }, .error .nomem)
    else
      let s := { s with mgr := mgr }.pageMapRange startAddr oldAddrPhys newSize mremapFlags
      let (s, _) ← s.munmap (BitVec.ofNat 64 oldAddr) (BitVec.ofNat 64 oldSize)
      return (s, .ok startAddr)

def mremap (oldAddr oldSize newSize flags : BitVec 64) : Option (UserSpace × Except Errno ℕ) := do
  let oldAddr := paddingDown oldAddr.toNat
  let oldSize := paddingUp oldSize.toNat
  let newSize := paddingUp newSize.toNat
  match ← vmaFind s.mgr oldAddr with
  | none => return (s, .error .inval)
  | some vma =>
    let v := (← s.mgr.list.cells vma).data
    if v.vmStart ≠ oldAddr then return (s, .error .inval)
    else if newSize ≤ wrapSub v.vmEnd v.vmStart then
      -- the size is negative, and the loop of `unmap_page_range` ends at once
      let s := s.unmapPageRange v.vmEnd (wrapSub (wrap (v.vmStart + newSize)) v.vmEnd)
      let mgr ← vmaWrite s.mgr vma (v.upTo (wrap (v.vmStart + newSize)))
      return ({ s with mgr := mgr }, .ok oldAddr)
    else
      let newEnd := wrap (v.vmStart + newSize)
      match ← vmaFindIntersection s.mgr v.vmEnd newEnd with
      | none =>
        let frame := wrap (s.virtToPhys oldAddr + wrapSub v.vmEnd v.vmStart)
        let s := s.pageMapRange v.vmEnd frame (wrapSub newEnd v.vmEnd) v.vmFlags
        let mgr ← vmaWrite s.mgr vma (v.upTo newEnd)
        return ({ s with mgr := mgr }, .ok oldAddr)
      | some _ =>
        if !hasFlag flags mremapMayMove then return (s, .error .nomem)
        else match ← findFree s.mgr newSize with
        | none => return (s, .error .nomem)
        | some startAddr => s.mremapMove v startAddr oldAddr oldSize newSize

end UserSpace

/-- What a process can do to its address space. -/
inductive UserCall
  | mmap (addr length prot flags : BitVec 64) (fd : ℤ) (offset : BitVec 64) (fdOpen : Bool) (mapped : ℕ)
      (file : List (ℕ × BitVec 64))
  | munmap (addr size : BitVec 64)
  | mremap (oldAddr oldSize newSize flags : BitVec 64)
  | fault (address phys : ℕ)

def UserSpace.step (s : UserSpace) : UserCall → Option UserSpace
  | .mmap addr length prot flags fd offset fdOpen mapped file =>
    (s.mmap addr length prot flags fd offset fdOpen mapped file).map Prod.fst
  | .munmap addr size => (s.munmap addr size).map Prod.fst
  | .mremap oldAddr oldSize newSize flags => (s.mremap oldAddr oldSize newSize flags).map Prod.fst
  | .fault address phys => some (s.pageFault address phys)

end CoolPotOS
