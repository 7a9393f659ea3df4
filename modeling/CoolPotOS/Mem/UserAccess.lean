import CoolPotOS.Mem.UserHalf
import CoolPotOS.Mem.VmaFlags

namespace CoolPotOS

namespace UserSpace

variable (s : UserSpace)

/-- The first loop of `mprotect`, over the pages that are not present. `files` has the entry that the `map`
function of a file makes for the page at an address, if it makes one, and `frames` the new frame for it. -/
def populate (prot : BitVec 64) (files : ℕ → Except Errno (Option (ℕ × BitVec 64))) (frames : ℕ → ℕ) :
    ℕ → ℕ → UserSpace → Option (UserSpace × Option Errno)
  | 0, _, s => some (s, none)
  | n + 1, a, s =>
    if s.virtToPhys a ≠ 0 then populate prot files frames n (wrap (a + pageSize)) s
    else do
      let onFile ← match ← vmaFind s.mgr a with
        | none => some false
        | some vma => (s.mgr.list.cells vma).map fun node => decide (node.data.vmType = .file ∧ node.data.vmFd ≥ 0)
      if onFile then
        match files a with
        | .error e => return (s, some e)
        | .ok none => populate prot files frames n (wrap (a + pageSize)) s
        | .ok (some e) =>
          populate prot files frames n (wrap (a + pageSize))
            { s with pages := Function.update s.pages (pageIndex a) (some e) }
      else
        populate prot files frames n (wrap (a + pageSize))
          { s with pages := Function.update s.pages (pageIndex a) (some (frames a, ptFlagsFromProt prot)) }

/-- `map_change_attribute`, where `tabled` says which entries lie in a table. -/
def changedEntry (tabled : ℕ → Bool) (flags : BitVec 64) (i : ℕ) (e : Option (ℕ × BitVec 64)) :
    Option (ℕ × BitVec 64) :=
  match e with
  | some (frame, old) => some (frame, (old &&& pageMask) ||| flags)
  | none => if tabled i then some (0, flags) else none

/-- `map_change_attribute_range` over `n` pages. -/
def changeAttribute (tabled : ℕ → Bool) (flags : BitVec 64) : ℕ → ℕ → PageEntries → PageEntries
  | 0, _, pages => pages
  | n + 1, va, pages =>
    changeAttribute tabled flags n (wrap (va + pageSize))
      (Function.update pages (pageIndex va) (changedEntry tabled flags (pageIndex va) (pages (pageIndex va))))

def mprotect (addr length prot : BitVec 64) (files : ℕ → Except Errno (Option (ℕ × BitVec 64)))
    (frames : ℕ → ℕ) (tabled : ℕ → Bool) : Option (UserSpace × Except Errno ℕ) := do
  let start := paddingDown addr.toNat
  let len := paddingUp length.toNat
  if checkUserOverflow start len then return (s, .error .fault)
  else
    let n := pageCount (wrap (start + len) - start)
    let (s, failed) ← if prot ≠ 0 then populate prot files frames n start s else some (s, none)
    match failed with
    | some e => return (s, .error e)
    | none =>
      let pages := changeAttribute tabled (getArchPageTableFlags (ptFlagsFromProt prot)) n start s.pages
      let (mgr, r) ← CoolPotOS.mprotect s.mgr addr length prot none
      return ({ s with mgr := mgr, pages := pages }, r)

/-- The loop of `validate_user_range`. It runs once for each page of the range. -/
def validateWalk (required : BitVec 64) (stop : ℕ) : ℕ → ℕ → Option Bool
  | 0, cursor => if cursor < stop then none else some true
  | fuel + 1, cursor =>
    if cursor < stop then do
      match ← vmaFind s.mgr cursor with
      | none => return false
      | some vma =>
        let v := (← s.mgr.list.cells vma).data
        if v.vmFlags &&& required ≠ required then return false
        else if s.virtToPhys cursor = 0 then return false
        else validateWalk required stop fuel (min stop (paddingUp (cursor + 1)))
    else some true

def validateUserRange (addr size : ℕ) (required : BitVec 64) : Option Bool :=
  if checkUserOverflow addr size then some false
  else
    let stop := wrap (addr + size)
    s.validateWalk required stop (stop - addr) addr

/-- `memcpy` to addresses of the process, in the physical memory. -/
def storeBytes (mem : ℕ → BitVec 8) : ℕ → List (BitVec 8) → ℕ → BitVec 8
  | _, [] => mem
  | dst, b :: bs => storeBytes (Function.update mem (s.virtToPhys dst) b) (wrap (dst + 1)) bs

def copyToUser (mem : ℕ → BitVec 8) (dst : ℕ) (src : List (BitVec 8)) : Option ((ℕ → BitVec 8) × Bool) := do
  if src.length = 0 then return (mem, true)
  else if ← s.validateUserRange dst src.length vmaWriteFlag then return (s.storeBytes mem dst src, true)
  else return (mem, false)

/-- The first component has the bytes of `dst` afterwards. -/
def copyFromUser (mem : ℕ → BitVec 8) (dst : List (BitVec 8)) (src : ℕ) : Option (List (BitVec 8) × Bool) := do
  if dst.length = 0 then return (dst, true)
  else if ← s.validateUserRange src dst.length vmaRead then
    return ((List.range dst.length).map fun i => mem (s.virtToPhys (wrap (src + i))), true)
  else return (dst, false)

/-- The processor allows a user load, or store, at the address. -/
def Allows (store : Bool) (x : ℕ) : Prop :=
  x < userHalf ∧ ∃ e ∈ s.pages (pageIndex x), hasFlag e.2 ptePresent = true ∧ hasFlag e.2 pteUser = true ∧
    (store = true → hasFlag e.2 pteWriteable = true)

/-- The access succeeds, after page faults that get frames. -/
inductive CanAccess (store : Bool) (x : ℕ) : UserSpace → Prop
  | allowed {s : UserSpace} (h : s.Allows store x) : CanAccess store x s
  | fault {s s' : UserSpace} {phys : ℕ} (hrefused : ¬s.Allows store x) (hlow : 0x1000 ≤ x)
      (hfault : s.lazyTryalloc x phys = some s') (h : CanAccess store x s') : CanAccess store x s

/-- A copy to, or from, the range succeeds when every byte of it can be stored to, or loaded from, and a
failed copy writes nothing. -/
structure CopiesAsUser (addr size : ℕ) : Prop where
  to_user : ∀ mem src, src.length = size → ∃ mem' ok, s.copyToUser mem addr src = some (mem', ok) ∧
    (ok = true ↔ ∀ x, addr ≤ x → x < addr + size → CanAccess true x s) ∧ (ok = false → mem' = mem)
  from_user : ∀ mem dst, dst.length = size → ∃ dst' ok, s.copyFromUser mem dst addr = some (dst', ok) ∧
    (ok = true ↔ ∀ x, addr ≤ x → x < addr + size → CanAccess false x s) ∧ (ok = false → dst' = dst)

end UserSpace

/-- What a process can do to its address space but for moving a mapping. -/
inductive AccessCall
  | mmap (addr length prot flags : BitVec 64) (fd : ℤ) (offset : BitVec 64) (fdOpen : Bool) (mapped : ℕ)
      (file : List (ℕ × BitVec 64))
  | munmap (addr size : BitVec 64)
  | mprotect (addr length prot : BitVec 64) (files : ℕ → Except Errno (Option (ℕ × BitVec 64)))
      (frames : ℕ → ℕ) (tabled : ℕ → Bool)
  | fault (address phys : ℕ)

def UserSpace.accessStep (s : UserSpace) : AccessCall → Option UserSpace
  | .mmap addr length prot flags fd offset fdOpen mapped file =>
    (s.mmap addr length prot flags fd offset fdOpen mapped file).map Prod.fst
  | .munmap addr size => (s.munmap addr size).map Prod.fst
  | .mprotect addr length prot files frames tabled =>
    (s.mprotect addr length prot files frames tabled).map Prod.fst
  | .fault address phys => some (s.pageFault address phys)

end CoolPotOS
