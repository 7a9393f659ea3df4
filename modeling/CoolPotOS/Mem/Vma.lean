import CoolPotOS.Machine
import CoolPotOS.Lib.Dll

namespace CoolPotOS

open LinkedList

inductive VmaType
  | anon | file | shm
  deriving DecidableEq, Repr

/-- The fields of `vma_t` without its links; `vm_name` is left out, because it is
`NULL` in every area that the system calls create. `vm_offset` is kept as the
unsigned word of its bits. -/
structure Vma where
  vmStart : ℕ
  vmEnd : ℕ
  vmFlags : BitVec 64
  vmType : VmaType
  vmFd : ℤ
  vmOffset : ℕ
  shmId : ℤ
  deriving DecidableEq

/-- `vma_manager_t` together with the part of the heap that holds its areas. A function returns
`none` when it reads or writes a cell that is not allocated. The `n`-th call of `malloc` succeeds
when `heap n` says so, and a new cell has the number of its call as its address. -/
structure VmaManager where
  list : Dll Vma
  vmUsed : ℕ
  mallocs : ℕ
  heap : ℕ → Bool

def VmaManager.empty (heap : ℕ → Bool) : VmaManager where
  list := { cells := fun _ => none, head := none }
  vmUsed := 0
  mallocs := 0
  heap := heap

def freshVma : Vma :=
  { vmStart := 0, vmEnd := 0, vmFlags := 0, vmType := .anon, vmFd := -1, vmOffset := 0, shmId := -1 }

def vmaAlloc (mgr : VmaManager) : VmaManager × Option ℕ :=
  if mgr.heap mgr.mallocs then
    ({ mgr with list := mgr.list.alloc mgr.mallocs freshVma, mallocs := mgr.mallocs + 1 },
      some mgr.mallocs)
  else ({ mgr with mallocs := mgr.mallocs + 1 }, none)

def vmaFree (mgr : VmaManager) (vma : ℕ) : VmaManager := { mgr with list := mgr.list.free vma }

/-- `vma->... = ...` for the fields of an area. -/
def vmaWrite (mgr : VmaManager) (vma : ℕ) (v : Vma) : Option VmaManager :=
  (mgr.list.setData vma v).map fun list => { mgr with list := list }

/-- The loop of `vma_find` and of `vma_find_intersection`. -/
def vmaWalk (mgr : VmaManager) (found : Vma → Bool) : ℕ → Option ℕ → Option (Option ℕ)
  | _, none => some none
  | 0, some _ => none
  | fuel + 1, some vma => do
    let node ← mgr.list.cells vma
    if found node.data then return some vma else vmaWalk mgr found fuel node.next

def vmaFind (mgr : VmaManager) (addr : ℕ) : Option (Option ℕ) :=
  vmaWalk mgr (fun v => decide (addr ≥ v.vmStart ∧ addr < v.vmEnd)) mgr.mallocs mgr.list.head

/-- The test of `vma_find_intersection`. -/
def Vma.meets (start stop : ℕ) (v : Vma) : Bool := !decide (stop ≤ v.vmStart ∨ start ≥ v.vmEnd)

def vmaFindIntersection (mgr : VmaManager) (start stop : ℕ) : Option (Option ℕ) :=
  vmaWalk mgr (Vma.meets start stop) mgr.mallocs mgr.list.head

/-- `while (vma && vma->vm_start < new_vma->vm_start)`, with the last two pointers. -/
def insertWalk (mgr : VmaManager) (start : ℕ) : ℕ → Option ℕ → Option ℕ →
    Option (Option ℕ × Option ℕ)
  | _, prev, none => some (prev, none)
  | 0, _, some _ => none
  | fuel + 1, prev, some vma => do
    let node ← mgr.list.cells vma
    if node.data.vmStart < start then insertWalk mgr start fuel (some vma) node.next
    else return (prev, some vma)

/-- The second component is `true` for the return value 0. -/
def vmaInsert (mgr : VmaManager) (newVma : ℕ) : Option (VmaManager × Bool) := do
  let node ← mgr.list.cells newVma
  let v := node.data
  match ← vmaFindIntersection mgr v.vmStart v.vmEnd with
  | some _ => return (mgr, false)
  | none =>
    let (prev, vma) ← insertWalk mgr v.vmStart mgr.mallocs none mgr.list.head
    let list ← mgr.list.link newVma prev vma
    return ({ mgr with list := list, vmUsed := wrap (mgr.vmUsed + wrapSub v.vmEnd v.vmStart) }, true)

def vmaRemove (mgr : VmaManager) (vma : Option ℕ) : Option VmaManager :=
  match vma with
  | none => some mgr
  | some vma => do
    let node ← mgr.list.cells vma
    let list ← mgr.list.unlink vma
    return { mgr with
      list := list
      vmUsed := wrapSub mgr.vmUsed (wrapSub node.data.vmEnd node.data.vmStart) }

def Vma.upTo (v : Vma) (addr : ℕ) : Vma := { v with vmEnd := addr }

/-- The part of an area from `addr` on. -/
def Vma.from (v : Vma) (addr : ℕ) : Vma :=
  { v with
    vmStart := addr
    vmOffset := if v.vmType = .file then wrap (v.vmOffset + wrapSub addr v.vmStart) else v.vmOffset }

section Fields

variable (v : Vma) (addr : ℕ)

@[simp] theorem Vma.upTo_vmStart : (v.upTo addr).vmStart = v.vmStart := rfl

@[simp] theorem Vma.upTo_vmEnd : (v.upTo addr).vmEnd = addr := rfl

@[simp] theorem Vma.from_vmStart : (v.from addr).vmStart = addr := rfl

@[simp] theorem Vma.from_vmEnd : (v.from addr).vmEnd = v.vmEnd := rfl

end Fields

/-- The second component is `true` for the return value 0. -/
def vmaSplit (mgr : VmaManager) (vma : ℕ) (addr : ℕ) : Option (VmaManager × Bool) := do
  let node ← mgr.list.cells vma
  let v := node.data
  if addr ≤ v.vmStart ∨ addr ≥ v.vmEnd then return (mgr, false)
  else match vmaAlloc mgr with
  | (mgr, none) => return (mgr, false)
  | (mgr, some newVma) => do
    let mgr ← vmaWrite mgr newVma (v.from addr)
    let mgr ← vmaWrite mgr vma (v.upTo addr)
    let list ← mgr.list.link newVma (some vma) node.next
    return ({ mgr with list := list }, true)

/-- The branch for an area around the range: `vma_split(vma, end); vma_split(vma, start);`
and then the next area is removed and freed. -/
def unmapMiddle (mgr : VmaManager) (vma start stop : ℕ) : Option VmaManager := do
  let (mgr, _) ← vmaSplit mgr vma stop
  let (mgr, _) ← vmaSplit mgr vma start
  let node ← mgr.list.cells vma
  match node.next with
  | none => vmaRemove mgr none
  | some middle => (vmaRemove mgr (some middle)).map fun mgr => vmaFree mgr middle

/-- The loop that `vma_unmap_range` and the `munmap` system call share. They differ in
how they truncate an area whose end (`cutEnd`) or whose start (`cutStart`) lies in the
range; both return the new value of `vm_used`, too. -/
def unmapWalk (cutEnd cutStart : ℕ → Vma → ℕ × Vma) (start stop : ℕ) :
    ℕ → VmaManager → Option ℕ → Option VmaManager
  | _, mgr, none => some mgr
  | 0, _, some _ => none
  | fuel + 1, mgr, some vma => do
    let node ← mgr.list.cells vma
    let v := node.data
    if v.vmStart ≥ start ∧ v.vmEnd ≤ stop then
      let mgr ← vmaRemove mgr (some vma)
      unmapWalk cutEnd cutStart start stop fuel (vmaFree mgr vma) node.next
    else if v.vmEnd ≤ start ∨ v.vmStart ≥ stop then
      unmapWalk cutEnd cutStart start stop fuel mgr node.next
    else if v.vmStart < start ∧ v.vmEnd > stop then
      let mgr ← unmapMiddle mgr vma start stop
      unmapWalk cutEnd cutStart start stop fuel mgr node.next
    else if v.vmStart < start then
      let (used, v) := cutEnd mgr.vmUsed v
      let mgr ← vmaWrite mgr vma v
      unmapWalk cutEnd cutStart start stop fuel { mgr with vmUsed := used } node.next
    else
      let (used, v) := cutStart mgr.vmUsed v
      let mgr ← vmaWrite mgr vma v
      unmapWalk cutEnd cutStart start stop fuel { mgr with vmUsed := used } node.next

def cutEndCounted (start used : ℕ) (v : Vma) : ℕ × Vma :=
  (wrapSub used (wrapSub v.vmEnd start), v.upTo start)

def cutStartCounted (stop used : ℕ) (v : Vma) : ℕ × Vma :=
  (wrapSub used (wrapSub stop v.vmStart), v.from stop)

def vmaUnmapRange (mgr : VmaManager) (start stop : ℕ) : Option VmaManager :=
  unmapWalk (cutEndCounted start) (cutStartCounted stop) start stop mgr.mallocs mgr mgr.list.head

end CoolPotOS
