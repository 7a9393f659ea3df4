import CoolPotOS.Fs.Fds
import CoolPotOS.Fs.FdShared
import CoolPotOS.Fs.Readv

namespace CoolPotOS

open Bytes Finset Function Option

/-- A node of a file. `listed` tells that it is a child of its parent, that is, a name. -/
structure LinkNode where
  handle : Option ℕ
  size : ℕ
  refcount : ℕ
  delete : Bool
  listed : Bool
  deriving DecidableEq

structure LinkFile where
  contents : TmpfsFile
  linkCount : ℕ
  node : ℕ

structure LinkFd where
  node : ℕ
  offset : ℕ
  deriving DecidableEq

/-- Nodes and records are `none` before they are made and after they are freed. `reads` is what each
read has returned, with what the array has there. A name is given by its node: paths, directories
and the places of descriptors are left out. -/
structure LinkSys where
  node : ℕ → Option LinkNode
  nextNode : ℕ
  file : ℕ → Option LinkFile
  nextFile : ℕ
  fds : List (Option LinkFd)
  array : ℕ → SparseFile
  reads : List (List UInt8 × List UInt8)

inductive LinkOp
  | create
  | link (target : ℕ)
  | openName (n : ℕ) (append : Bool)
  | read (fd : ℕ) (size : BitVec 64)
  | write (fd : ℕ) (data : List UInt8) (alloc : Bool)
  | close (fd : ℕ)
  | unlink (n : ℕ)

namespace LinkSys

variable (s : LinkSys)

def setNode (n : ℕ) (nd : Option LinkNode) : LinkSys := { s with node := Function.update s.node n nd }

def setFile (i : ℕ) (f : Option LinkFile) : LinkSys := { s with file := Function.update s.file i f }

@[simp]
theorem setNode_node_self (n : ℕ) (nd : Option LinkNode) : (s.setNode n nd).node n = nd :=
  update_self ..

@[simp]
theorem setNode_file (n : ℕ) (nd : Option LinkNode) : (s.setNode n nd).file = s.file := rfl

def IsName (n : ℕ) : Prop := ∃ nd ∈ s.node n, nd.listed = true

instance (n : ℕ) : Decidable (s.IsName n) := inferInstanceAs (Decidable (∃ nd ∈ s.node n, _))

/-- `do_update` and `tmpfs_stat`, which also takes away the mark of a removed node. -/
def doUpdate (n : ℕ) : Option LinkSys :=
  (s.node n).bind fun nd =>
    match nd.handle with
    | none => some s
    | some i =>
      (s.file i).map fun f => s.setNode n (some { nd with size := f.contents.size, delete := false })

def addName (handle : Option ℕ) (size : ℕ) : LinkSys :=
  { s.setNode s.nextNode (some ⟨handle, size, 1, false, true⟩) with nextNode := s.nextNode + 1 }

def create : LinkSys :=
  { (s.setFile s.nextFile (some ⟨.empty, 1, s.nextNode⟩)).addName (some s.nextFile) 0 with
    nextFile := s.nextFile + 1
    array := Function.update s.array s.nextFile .empty }

/-- `vfs_link` and `tmpfs_link`. Without the target there is a node without handle. -/
def link (target : ℕ) : Option LinkSys :=
  if s.IsName target then
    (s.doUpdate target).bind fun s =>
      (s.node target).bind fun nd =>
        match nd.handle with
        | none => some (s.addName none 0)
        | some i =>
          (s.file i).map fun f =>
            (s.setFile i (some { f with linkCount := f.linkCount + 1 })).addName (some i) nd.size
  else some (s.addName none 0)

def openName (n : ℕ) (append : Bool) : Option LinkSys :=
  if s.IsName n then
    (s.doUpdate n).bind fun s =>
      (s.node n).map fun nd => { s with fds := s.fds ++ [some ⟨n, if append then nd.size else 0⟩] }
  else some s

/-- The end of a call that moves the offset of a descriptor, of a node with a size. -/
def advance (fd : ℕ) (h : LinkFd) (nd : LinkNode) (n : ℕ) : LinkSys :=
  if hasSize nd.size then { s with fds := s.fds.set fd (some { h with offset := h.offset + n }) } else s

/-- `sys_read`; `none` also when the file is read behind its frames. -/
def read (fd : ℕ) (size : BitVec 64) : Option LinkSys :=
  if size = 0 then some s
  else
    match s.fds[fd]?.join with
    | none => some s
    | some h =>
      (s.node h.node).bind fun nd =>
        if hasSize nd.size ∧ h.offset ≥ nd.size then
          match nd.handle with
          | none => some s
          | some i => some { s with reads := s.reads ++ [([], (s.array i).read h.offset size.toNat)] }
        else
          (s.doUpdate h.node).bind fun s =>
            (s.node h.node).bind fun nd =>
              nd.handle.bind fun i =>
                (s.file i).bind fun f =>
                  (tmpfsRead f.contents h.offset size.toNat).map fun bytes =>
                    { s.advance fd h nd bytes.length with
                      reads := s.reads ++ [(bytes, (s.array i).read h.offset size.toNat)] }

/-- `tmpfs_write`, which also stores the size in the node that the record points to. -/
def tmpfsWrite (i : ℕ) (data : List UInt8) (offset : ℕ) (alloc : Bool) : Option (LinkSys × ℕ) :=
  (s.file i).bind fun f =>
    match CoolPotOS.tmpfsWrite f.contents data offset alloc with
    | (contents, 0) => some (s.setFile i (some { f with contents := contents }), 0)
    | (contents, written + 1) =>
      let s := s.setFile i (some { f with contents := contents })
      (s.node f.node).map fun owner =>
        ({ s.setNode f.node (some { owner with size := contents.size }) with
            array := Function.update s.array i ((s.array i).write data offset) },
          written + 1)

def write (fd : ℕ) (data : List UInt8) (alloc : Bool) : Option LinkSys :=
  if data = [] then some s
  else
    match s.fds[fd]?.join with
    | none => some s
    | some h =>
      (s.doUpdate h.node).bind fun s =>
        (s.node h.node).bind fun nd =>
          nd.handle.bind fun i =>
            (s.tmpfsWrite i data h.offset alloc).bind fun r =>
              (r.1.doUpdate h.node).bind fun s =>
                (s.node h.node).bind fun nd => (s.advance fd h nd r.2).doUpdate h.node

def closeNode (n : ℕ) : Option LinkSys :=
  (s.node n).bind fun nd =>
    let nd := { nd with refcount := decRef nd.refcount }
    let s := s.setNode n (some nd)
    match nd.handle with
    | none => some s
    | some i =>
      if nd.refcount ≠ 0 ∨ ¬ nd.delete then some s
      else
        (s.file i).map fun f =>
          (s.setFile i (if f.linkCount > 1 then some { f with linkCount := f.linkCount - 1 } else none)).setNode
            n none

def close (fd : ℕ) : Option LinkSys :=
  match s.fds[fd]?.join with
  | none => some s
  | some h => (s.closeNode h.node).map fun s => { s with fds := s.fds.set fd none }

def unlink (n : ℕ) : Option LinkSys :=
  if s.IsName n then
    (s.doUpdate n).bind fun s =>
      (s.node n).bind fun nd => (s.setNode n (some { nd with delete := true, listed := false })).closeNode n
  else some s

/-- The calls; `none` when one of them uses what has been freed. -/
def step (s : LinkSys) : LinkOp → Option LinkSys
  | .create => some s.create
  | .link target => s.link target
  | .openName n append => s.openName n append
  | .read fd size => s.read fd size
  | .write fd data alloc => s.write fd data alloc
  | .close fd => s.close fd
  | .unlink n => s.unlink n

def boot : LinkSys where
  node := fun _ => none
  nextNode := 0
  file := fun _ => none
  nextFile := 0
  fds := []
  array := fun _ => .empty
  reads := []

end LinkSys

/-- The calls that the code does right: a link is made to a name; a read is made through a node that knows
the size of the file, as far as the range of the read shows it, and the range does not pass the end of the
address space; bytes are stored only while the node that the record points to is a name; and a name is
removed when it has one reference and is not open. -/
def LinkOp.Ok (s : LinkSys) : LinkOp → Prop
  | .link target => s.IsName target
  | .read fd size => size ≠ 0 → ∀ h ∈ s.fds[fd]?.join, ∀ nd ∈ s.node h.node, ∀ i ∈ nd.handle, ∀ f ∈ s.file i,
      h.offset < f.contents.size → h.offset < nd.size ∧ h.offset + size.toNat < 2 ^ 64
  | .write fd data alloc => data ≠ [] → ∀ h ∈ s.fds[fd]?.join, ∀ nd ∈ s.node h.node, ∀ i ∈ nd.handle,
      ∀ f ∈ s.file i, h.offset + data.length < 2 ^ 64 →
        (tmpfsEnsureCapacity f.contents (h.offset + data.length) alloc).isSome = true → s.IsName f.node
  | .unlink n => ∀ nd ∈ s.node n, nd.listed = true → nd.refcount = 1 ∧
      ∀ o ∈ s.fds, ∀ h ∈ o, h.node ≠ n
  | _ => True

instance decidableLinkOk (s : LinkSys) : ∀ op : LinkOp, Decidable (op.Ok s)
  | .link target => inferInstanceAs (Decidable (s.IsName target))
  | .read fd size => inferInstanceAs (Decidable (size ≠ 0 → ∀ h ∈ s.fds[fd]?.join, ∀ nd ∈ s.node h.node,
      ∀ i ∈ nd.handle, ∀ f ∈ s.file i, h.offset < f.contents.size →
        h.offset < nd.size ∧ h.offset + size.toNat < 2 ^ 64))
  | .write fd data alloc => inferInstanceAs (Decidable (data ≠ [] → ∀ h ∈ s.fds[fd]?.join,
      ∀ nd ∈ s.node h.node, ∀ i ∈ nd.handle, ∀ f ∈ s.file i, h.offset + data.length < 2 ^ 64 →
        (tmpfsEnsureCapacity f.contents (h.offset + data.length) alloc).isSome = true → s.IsName f.node))
  | .unlink n => inferInstanceAs (Decidable (∀ nd ∈ s.node n, nd.listed = true → nd.refcount = 1 ∧
      ∀ o ∈ s.fds, ∀ h ∈ o, h.node ≠ n))
  | .create | .openName _ _ | .close _ => .isTrue trivial

namespace LinkSys

def names (s : LinkSys) (i : ℕ) : Finset ℕ :=
  (Finset.range s.nextNode).filter fun n => (s.node n).bind LinkNode.handle = some i

end LinkSys

/-- Every node there is is a name of a file, a file has as many links as names, and its record holds its
array. -/
structure LinkInv (s : LinkSys) : Prop where
  node : ∀ n nd, s.node n = some nd → n < s.nextNode ∧ nd.listed = true ∧ nd.delete = false ∧
    ∃ i f, nd.handle = some i ∧ s.file i = some f
  file : ∀ i f, s.file i = some f → i < s.nextFile ∧ f.linkCount = (s.names i).card ∧
    (s.names i).Nonempty ∧ f.contents.Holds (s.array i)
  fds : ∀ o ∈ s.fds, ∀ h ∈ o, s.node h.node ≠ none
  reads : ∀ r ∈ s.reads, r.1 = r.2

theorem linkInv_boot : LinkInv LinkSys.boot where
  node := nofun
  file := nofun
  fds := nofun
  reads := nofun

section Names

variable {s : LinkSys} {n i : ℕ}

theorem LinkSys.mem_names : n ∈ s.names i ↔ n < s.nextNode ∧ (s.node n).bind LinkNode.handle = some i := by
  unfold LinkSys.names
  rw [mem_filter, mem_range]

theorem LinkInv.mem_names (h : LinkInv s) {nd : LinkNode} (hnd : s.node n = some nd)
    (hi : nd.handle = some i) : n ∈ s.names i :=
  LinkSys.mem_names.mpr ⟨(h.node n nd hnd).1, by rw [hnd, bind_some, hi]⟩

theorem LinkSys.node_of_mem_names (hn : n ∈ s.names i) : ∃ nd, s.node n = some nd ∧ nd.handle = some i :=
  bind_eq_some_iff.mp (LinkSys.mem_names.mp hn).2

theorem LinkSys.names_congr (s s' : LinkSys) (hnext : s'.nextNode = s.nextNode)
    (hsame : ∀ n, (s'.node n).bind LinkNode.handle = (s.node n).bind LinkNode.handle) :
    s'.names = s.names := by
  funext i
  ext n
  rw [LinkSys.mem_names, LinkSys.mem_names, hnext, hsame]

theorem LinkSys.names_addName (handle : Option ℕ) (size : ℕ) : (s.addName handle size).names i =
      if handle = some i then insert s.nextNode (s.names i) else s.names i := by
  ext n
  have hnode : (s.addName handle size).node n =
      if n = s.nextNode then some ⟨handle, size, 1, false, true⟩ else s.node n := update_apply ..
  have hnext : (s.addName handle size).nextNode = s.nextNode + 1 := rfl
  rw [LinkSys.mem_names, hnode, hnext]
  by_cases hn : n = s.nextNode
  · rw [if_pos hn, bind_some, hn]
    split_ifs with hi
    · simp [hi]
    · simp [hi, LinkSys.mem_names]
  · rw [if_neg hn, Nat.lt_succ_iff_lt_or_eq, or_iff_left hn]
    split_ifs
    · rw [mem_insert, or_iff_right hn, LinkSys.mem_names]
    · rw [LinkSys.mem_names]

theorem LinkSys.names_setNode_none : (s.setNode n none).names i = (s.names i).erase n := by
  ext m
  rw [mem_erase, LinkSys.mem_names, LinkSys.mem_names]
  unfold LinkSys.setNode
  dsimp only
  by_cases hm : m = n
  · rw [hm, update_self]
    simp
  · rw [update_of_ne hm, and_iff_right hm]

end Names

section Calls

variable {s : LinkSys} {n i : ℕ} {nd : LinkNode} {f : LinkFile}

theorem LinkInv.setNode (h : LinkInv s) (hnd : s.node n = some nd) (nd' : LinkNode)
    (hhandle : nd'.handle = nd.handle) (hlisted : nd'.listed = true) (hdelete : nd'.delete = false) :
    LinkInv (s.setNode n (some nd')) := by
  have hnode : ∀ m md, (s.setNode n (some nd')).node m = some md →
      ∃ md', s.node m = some md' ∧ md.handle = md'.handle ∧ md.listed = true ∧ md.delete = false := by
    intro m md hm
    unfold LinkSys.setNode at hm
    dsimp only at hm
    by_cases heq : m = n
    · rw [heq, update_self] at hm
      cases hm
      exact ⟨nd, heq ▸ hnd, hhandle, hlisted, hdelete⟩
    · rw [update_of_ne heq] at hm
      obtain ⟨-, hl, hd, -⟩ := h.node m md hm
      exact ⟨md, hm, rfl, hl, hd⟩
  have hnames : (s.setNode n (some nd')).names = s.names := by
    apply LinkSys.names_congr s (s.setNode n (some nd')) rfl
    intro m
    unfold LinkSys.setNode
    dsimp only
    by_cases heq : m = n
    · rw [heq, update_self, hnd, bind_some, bind_some, hhandle]
    · rw [update_of_ne heq]
  constructor
  · intro m md hm
    obtain ⟨md', hm', hh, hl, hd⟩ := hnode m md hm
    obtain ⟨hlt, -, -, i, f, hi, hf⟩ := h.node m md' hm'
    exact ⟨hlt, hl, hd, i, f, hh.trans hi, hf⟩
  · rw [hnames]
    exact h.file
  · intro o ho x hx
    unfold LinkSys.setNode
    dsimp only
    by_cases heq : x.node = n
    · rw [heq, update_self]
      exact some_ne_none _
    · rw [update_of_ne heq]
      exact h.fds o ho x hx
  · exact h.reads

theorem LinkSys.doUpdate_eq (hnd : s.node n = some nd) (hi : nd.handle = some i) (hf : s.file i = some f) :
    s.doUpdate n = some (s.setNode n (some { nd with size := f.contents.size, delete := false })) := by
  unfold LinkSys.doUpdate
  simp only [hnd, hi, hf, bind_some, map_some]

theorem LinkInv.update (h : LinkInv s) (hnd : s.node n = some nd) (size refcount : ℕ) :
    LinkInv (s.setNode n (some { nd with size := size, refcount := refcount, delete := false })) :=
  h.setNode hnd _ rfl (h.node n nd hnd).2.1 rfl

theorem LinkInv.isName (h : LinkInv s) : s.IsName n ↔ ∃ nd, s.node n = some nd := by
  constructor
  · rintro ⟨nd, hnd, -⟩
    exact ⟨nd, hnd⟩
  · rintro ⟨nd, hnd⟩
    exact ⟨nd, hnd, (h.node n nd hnd).2.1⟩

theorem LinkInv.create (h : LinkInv s) : LinkInv s.create := by
  have hfresh : ∀ m md, s.node m = some md → m ≠ s.nextNode := fun m md hm => (h.node m md hm).1.ne
  have hold : ∀ j f, s.file j = some f → j ≠ s.nextFile := fun j f hj => (h.file j f hj).1.ne
  have hnode : ∀ m, s.create.node m =
      if m = s.nextNode then some ⟨some s.nextFile, 0, 1, false, true⟩ else s.node m :=
    fun m => update_apply ..
  have hfile : ∀ j, s.create.file j =
      if j = s.nextFile then some ⟨.empty, 1, s.nextNode⟩ else s.file j := fun j => update_apply ..
  have harray : ∀ j, s.create.array j = if j = s.nextFile then .empty else s.array j :=
    fun j => update_apply ..
  have hnames : ∀ j, s.create.names j =
      if s.nextFile = j then insert s.nextNode (s.names j) else s.names j := by
    intro j
    have hadd := LinkSys.names_addName (s := s.setFile s.nextFile (some ⟨.empty, 1, s.nextNode⟩)) (i := j)
      (some s.nextFile) 0
    simp only [Option.some.injEq] at hadd
    exact hadd
  have hempty : s.names s.nextFile = ∅ := by
    rw [eq_empty_iff_forall_notMem]
    intro m hm
    obtain ⟨md, hmd, hi⟩ := LinkSys.node_of_mem_names hm
    obtain ⟨-, -, -, i, f, hi', hf⟩ := h.node m md hmd
    rw [hi] at hi'
    exact hold i f hf (Option.some.inj hi').symm
  constructor
  · intro m md hm
    rw [hnode] at hm
    have hnext : s.create.nextNode = s.nextNode + 1 := rfl
    rw [hnext]
    split_ifs at hm with heq
    · cases hm
      exact ⟨heq ▸ Nat.lt_succ_self _, rfl, rfl, s.nextFile, _, rfl, by rw [hfile, if_pos rfl]⟩
    · obtain ⟨hlt, hl, hd, i, f, hi, hf⟩ := h.node m md hm
      exact ⟨Nat.lt_succ_of_lt hlt, hl, hd, i, f, hi, by rw [hfile, if_neg (hold i f hf), hf]⟩
  · intro j f hj
    rw [hfile] at hj
    rw [hnames, harray]
    have hnext : s.create.nextFile = s.nextFile + 1 := rfl
    rw [hnext]
    split_ifs at hj with heq
    · cases hj
      subst heq
      rw [if_pos rfl, if_pos rfl, hempty]
      exact ⟨Nat.lt_succ_self _, rfl, ⟨_, mem_insert_self _ _⟩, holds_empty⟩
    · obtain ⟨hlt, hcount, hne, hholds⟩ := h.file j f hj
      rw [if_neg (Ne.symm heq), if_neg heq]
      exact ⟨Nat.lt_succ_of_lt hlt, hcount, hne, hholds⟩
  · intro o ho x hx
    rw [hnode]
    split_ifs
    · exact some_ne_none _
    · exact h.fds o ho x hx
  · exact h.reads

theorem LinkInv.addName (h : LinkInv s) (hf : s.file i = some f) (size : ℕ) :
    LinkInv ((s.setFile i (some { f with linkCount := f.linkCount + 1 })).addName (some i) size) := by
  obtain ⟨hilt, hcount, -, hholds⟩ := h.file i f hf
  have hfile : ∀ j, (s.setFile i (some { f with linkCount := f.linkCount + 1 })).file j =
      if j = i then some { f with linkCount := f.linkCount + 1 } else s.file j :=
    fun j => update_apply ..
  have hnode : ∀ m, ((s.setFile i (some { f with linkCount := f.linkCount + 1 })).addName (some i) size).node m =
      if m = s.nextNode then some ⟨some i, size, 1, false, true⟩ else s.node m :=
    fun m => update_apply ..
  constructor
  · intro m md hm
    have hnext : ((s.setFile i (some { f with linkCount := f.linkCount + 1 })).addName (some i) size).nextNode =
        s.nextNode + 1 := rfl
    rw [hnode] at hm
    rw [hnext]
    split_ifs at hm with heq
    · cases hm
      exact ⟨heq ▸ Nat.lt_succ_self _, rfl, rfl, i, _, rfl, (hfile i).trans (if_pos rfl)⟩
    · obtain ⟨hlt, hl, hd, j, g, hj, hg⟩ := h.node m md hm
      refine ⟨Nat.lt_succ_of_lt hlt, hl, hd, j, ?_⟩
      by_cases hji : j = i
      · exact ⟨_, hj, (hfile j).trans (if_pos hji)⟩
      · exact ⟨g, hj, ((hfile j).trans (if_neg hji)).trans hg⟩
  · intro j g hg
    have hg : (s.setFile i (some { f with linkCount := f.linkCount + 1 })).file j = some g := hg
    rw [hfile] at hg
    have hnames := LinkSys.names_addName (s := s.setFile i (some { f with linkCount := f.linkCount + 1 }))
      (i := j) (some i) size
    simp only [Option.some.injEq] at hnames
    rw [hnames]
    split_ifs at hg with hji
    · cases hg
      have hnew : s.nextNode ∉ s.names i := fun hin => absurd (LinkSys.mem_names.mp hin).1 (lt_irrefl _)
      rw [if_pos hji.symm]
      refine ⟨hji ▸ hilt, ?_, ⟨_, mem_insert_self _ _⟩, hji ▸ hholds⟩
      subst hji
      exact (congrArg (· + 1) hcount).trans (card_insert_of_notMem hnew).symm
    · rw [if_neg (Ne.symm hji)]
      exact h.file j g hg
  · intro o ho x hx
    rw [hnode]
    split_ifs
    · exact some_ne_none _
    · exact h.fds o ho x hx
  · exact h.reads

theorem LinkInv.link (h : LinkInv s) {target : ℕ} (hok : s.IsName target) :
    ∃ s', s.link target = some s' ∧ LinkInv s' := by
  obtain ⟨nd, hnd⟩ := h.isName.mp hok
  obtain ⟨-, -, -, i, f, hi, hf⟩ := h.node target nd hnd
  have hupdate := h.update hnd f.contents.size nd.refcount
  refine ⟨_, ?_, hupdate.addName hf f.contents.size⟩
  unfold LinkSys.link
  rw [if_pos hok, LinkSys.doUpdate_eq hnd hi hf]
  simp only [bind_some, LinkSys.setNode_node_self, LinkSys.setNode_file, hi, hf, map_some]

theorem LinkInv.openName (h : LinkInv s) (n : ℕ) (append : Bool) :
    ∃ s', s.openName n append = some s' ∧ LinkInv s' := by
  unfold LinkSys.openName
  by_cases hname : s.IsName n
  · obtain ⟨nd, hnd⟩ := h.isName.mp hname
    obtain ⟨-, -, -, i, f, hi, hf⟩ := h.node n nd hnd
    have hupdate := h.update hnd f.contents.size nd.refcount
    rw [if_pos hname, LinkSys.doUpdate_eq hnd hi hf]
    simp only [bind_some, LinkSys.setNode_node_self, map_some]
    refine ⟨_, rfl, hupdate.node, hupdate.file, fun o ho x hx => ?_, hupdate.reads⟩
    rcases List.mem_append.mp ho with ho | ho
    · exact hupdate.fds o ho x hx
    · obtain rfl := List.mem_singleton.mp ho
      cases hx
      simp
  · rw [if_neg hname]
    exact ⟨s, rfl, h⟩

theorem LinkInv.setFd (h : LinkInv s) (fd : ℕ) (o : Option LinkFd)
    (ho : ∀ x ∈ o, s.node x.node ≠ none) : LinkInv { s with fds := s.fds.set fd o } := by
  refine ⟨h.node, h.file, fun o' ho' x hx => ?_, h.reads⟩
  rcases List.mem_or_eq_of_mem_set ho' with hin | rfl
  · exact h.fds o' hin x hx
  · exact ho x hx

theorem LinkInv.advance (h : LinkInv s) (fd : ℕ) {x : LinkFd} (hx : s.node x.node ≠ none)
    (nd : LinkNode) (k : ℕ) : LinkInv (s.advance fd x nd k) := by
  unfold LinkSys.advance
  split_ifs
  · apply h.setFd fd
    rintro y ⟨⟩
    exact hx
  · exact h

theorem LinkInv.fd_node (h : LinkInv s) {fd : ℕ} {x : LinkFd} (hfd : s.fds[fd]?.join = some x) :
    ∃ nd i f, s.node x.node = some nd ∧ nd.handle = some i ∧ s.file i = some f := by
  obtain ⟨nd, hnd⟩ := ne_none_iff_exists'.mp
    (h.fds (some x) (List.mem_of_getElem? (join_eq_some_iff.mp hfd)) x rfl)
  obtain ⟨-, -, -, i, f, hi, hf⟩ := h.node x.node nd hnd
  exact ⟨nd, i, f, hnd, hi, hf⟩

theorem LinkInv.addRead (h : LinkInv s) (bytes : List UInt8) :
    LinkInv { s with reads := s.reads ++ [(bytes, bytes)] } := by
  refine ⟨h.node, h.file, h.fds, fun r hr => ?_⟩
  rcases List.mem_append.mp hr with hr | hr
  · exact h.reads r hr
  · obtain rfl := List.mem_singleton.mp hr
    rfl

theorem LinkInv.read (h : LinkInv s) {fd : ℕ} {size : BitVec 64} (hok : (LinkOp.read fd size).Ok s) :
    ∃ s', s.read fd size = some s' ∧ LinkInv s' := by
  unfold LinkSys.read
  by_cases hsize : size = 0
  · rw [if_pos hsize]
    exact ⟨s, rfl, h⟩
  rw [if_neg hsize]
  cases hfd : s.fds[fd]?.join with
  | none => exact ⟨s, rfl, h⟩
  | some x =>
    obtain ⟨nd, i, f, hnd, hi, hf⟩ := h.fd_node hfd
    have hrange := hok hsize x hfd nd hnd i hi f hf
    have hholds := (h.file i f hf).2.2.2
    simp only [hnd, bind_some]
    by_cases hover : hasSize nd.size ∧ x.offset ≥ nd.size
    · -- the offset is behind the end of the file, so there is nothing to read
      have hbehind : f.contents.size ≤ x.offset := by
        by_contra hlt
        exact absurd (hrange (not_le.mp hlt)).1 (not_lt.mpr hover.2)
      have hnil : (s.array i).read x.offset size.toNat = [] := by
        unfold SparseFile.read
        rw [← hholds.size_eq, Nat.sub_eq_zero_of_le (min_le_of_right_le hbehind), slice_zero]
      rw [if_pos hover, hi]
      refine ⟨_, rfl, ?_⟩
      rw [hnil]
      exact h.addRead []
    · have hread : tmpfsRead f.contents x.offset size.toNat = some ((s.array i).read x.offset size.toNat) := by
        apply (tmpfsRead_iff hholds _ size.isLt).mpr
        rintro ⟨hlt, hwrap⟩
        exact absurd (hrange hlt).2 (not_lt.mpr hwrap)
      have hupdate := h.update hnd f.contents.size nd.refcount
      rw [if_neg hover, LinkSys.doUpdate_eq hnd hi hf]
      simp only [bind_some, LinkSys.setNode_node_self, LinkSys.setNode_file, hi, hf, hread,
        map_some]
      refine ⟨_, rfl, ?_⟩
      rw [hi] at hupdate
      have hadvance := hupdate.advance fd (x := x) (by simp) ⟨some i, f.contents.size, nd.refcount, false, nd.listed⟩
        ((s.array i).read x.offset size.toNat).length
      refine ⟨hadvance.node, hadvance.file, hadvance.fds, fun r hr => ?_⟩
      rcases List.mem_append.mp hr with hr | hr
      · exact h.reads r hr
      · obtain rfl := List.mem_singleton.mp hr
        rfl

theorem LinkSys.setNode_ne_none {m : ℕ} (hm : s.node m ≠ none) (nd : LinkNode) :
    (s.setNode n (some nd)).node m ≠ none := by
  unfold LinkSys.setNode
  dsimp only
  by_cases heq : m = n
  · rw [heq, update_self]
    exact some_ne_none _
  · rwa [update_of_ne heq]

theorem LinkInv.doUpdate (h : LinkInv s) (hn : s.node n ≠ none) :
    ∃ s', s.doUpdate n = some s' ∧ LinkInv s' ∧ s'.fds = s.fds ∧ s'.node n ≠ none := by
  obtain ⟨nd, hnd⟩ := ne_none_iff_exists'.mp hn
  obtain ⟨-, -, -, i, f, hi, hf⟩ := h.node n nd hnd
  exact ⟨_, LinkSys.doUpdate_eq hnd hi hf, h.update hnd _ nd.refcount, rfl, LinkSys.setNode_ne_none hn _⟩

theorem LinkInv.setContents (h : LinkInv s) (hf : s.file i = some f) {contents : TmpfsFile}
    {array : SparseFile} (hholds : contents.Holds array) :
    LinkInv { s.setFile i (some { f with contents := contents }) with
      array := Function.update s.array i array } := by
  have hfile : ∀ j, (s.setFile i (some { f with contents := contents })).file j =
      if j = i then some { f with contents := contents } else s.file j := fun j => update_apply ..
  constructor
  · intro m md hm
    obtain ⟨hlt, hl, hd, j, g, hj, hg⟩ := h.node m md hm
    refine ⟨hlt, hl, hd, j, ?_⟩
    by_cases hji : j = i
    · exact ⟨_, hj, (hfile j).trans (if_pos hji)⟩
    · exact ⟨g, hj, ((hfile j).trans (if_neg hji)).trans hg⟩
  · intro j g hg
    have hg : (s.setFile i (some { f with contents := contents })).file j = some g := hg
    rw [hfile] at hg
    dsimp only
    split_ifs at hg with hji
    · cases hg
      rw [hji, update_self]
      obtain ⟨hlt, hcount, hne, -⟩ := h.file i f hf
      exact ⟨hlt, hcount, hne, hholds⟩
    · rw [update_of_ne hji]
      exact h.file j g hg
  · exact h.fds
  · exact h.reads

theorem LinkInv.tmpfsWrite (h : LinkInv s) (hf : s.file i = some f) (data : List UInt8) (offset : ℕ)
    (alloc : Bool) (hok : data ≠ [] → offset + data.length < 2 ^ 64 →
      (tmpfsEnsureCapacity f.contents (offset + data.length) alloc).isSome = true → s.node f.node ≠ none) :
    ∃ s' k, s.tmpfsWrite i data offset alloc = some (s', k) ∧ LinkInv s' ∧ s'.fds = s.fds := by
  have hholds := (h.file i f hf).2.2.2
  unfold LinkSys.tmpfsWrite
  simp only [hf, bind_some]
  rcases tmpfsWrite_cases hholds data offset alloc with hfail | ⟨contents, hdone, hne, hholds'⟩
  · rw [hfail]
    refine ⟨_, 0, rfl, ?_, rfl⟩
    have hsame := h.setContents hf hholds
    rwa [update_eq_self] at hsame
  · have hstored := tmpfsWrite_snd f.contents data offset alloc
    rw [hdone] at hstored
    obtain ⟨hdata, hlt, hroom⟩ : data ≠ [] ∧ offset + data.length < 2 ^ 64 ∧
        (tmpfsEnsureCapacity f.contents (offset + data.length) alloc).isSome = true := by
      by_contra hnot
      rw [if_neg hnot] at hstored
      exact hne hstored
    obtain ⟨owner, howner⟩ := ne_none_iff_exists'.mp (hok hdata hlt hroom)
    obtain ⟨k, hk⟩ := Nat.exists_eq_succ_of_ne_zero hne
    have hcontents := h.setContents hf hholds'
    have hl := h.node f.node owner howner
    have hsized := hcontents.setNode (n := f.node) howner { owner with size := contents.size } rfl hl.2.1
      hl.2.2.1
    rw [hdone, hk]
    refine ⟨_, k + 1, ?_, hsized, rfl⟩
    have hnode : (s.setFile i (some { f with contents := contents })).node f.node = some owner := howner
    dsimp only
    rw [hnode]
    rfl

theorem LinkInv.write (h : LinkInv s) {fd : ℕ} {data : List UInt8} {alloc : Bool}
    (hok : (LinkOp.write fd data alloc).Ok s) : ∃ s', s.write fd data alloc = some s' ∧ LinkInv s' := by
  unfold LinkSys.write
  by_cases hdata : data = []
  · rw [if_pos hdata]
    exact ⟨s, rfl, h⟩
  rw [if_neg hdata]
  cases hfd : s.fds[fd]?.join with
  | none => exact ⟨s, rfl, h⟩
  | some x =>
    obtain ⟨nd, i, f, hnd, hi, hf⟩ := h.fd_node hfd
    have hupdate := h.update hnd f.contents.size nd.refcount
    obtain ⟨s2, k, hwrite, h2, hfds2⟩ := hupdate.tmpfsWrite hf data x.offset alloc fun _ hlt hroom => by
        obtain ⟨owner, howner⟩ := h.isName.mp (hok hdata x hfd nd hnd i hi f hf hlt hroom)
        exact LinkSys.setNode_ne_none (howner.symm ▸ some_ne_none _) _
    have hx : ∀ t : LinkSys, LinkInv t → t.fds = s.fds → t.node x.node ≠ none := fun t ht hfds =>
      ht.fds (some x) (hfds.symm ▸ List.mem_of_getElem? (join_eq_some_iff.mp hfd)) x rfl
    -- the node is updated again after the write, and once more at the end of the call
    obtain ⟨s3, hthird, h3, hfds3, hx3⟩ := h2.doUpdate (hx s2 h2 hfds2)
    obtain ⟨nd3, hnd3⟩ := ne_none_iff_exists'.mp hx3
    have hadvance := h3.advance fd hx3 nd3 k
    have hx4 : (s3.advance fd x nd3 k).node x.node ≠ none := by
      unfold LinkSys.advance
      split_ifs <;> exact hx3
    obtain ⟨s5, hlast, h5, -, -⟩ := hadvance.doUpdate hx4
    refine ⟨s5, ?_, h5⟩
    dsimp only
    rw [LinkSys.doUpdate_eq hnd hi hf]
    simp only [bind_some, LinkSys.setNode_node_self, hi] at hwrite ⊢
    simp only [hwrite, bind_some, hthird, hnd3, hlast]

theorem LinkInv.close (h : LinkInv s) (fd : ℕ) : ∃ s', s.close fd = some s' ∧ LinkInv s' := by
  unfold LinkSys.close
  cases hfd : s.fds[fd]?.join with
  | none => exact ⟨s, rfl, h⟩
  | some x =>
    obtain ⟨nd, i, f, hnd, hi, hf⟩ := h.fd_node hfd
    have hdelete := (h.node x.node nd hnd).2.2.1
    have hclosed := h.setNode hnd { nd with refcount := decRef nd.refcount } rfl
      (h.node x.node nd hnd).2.1 hdelete
    refine ⟨_, ?_, hclosed.setFd fd none nofun⟩
    unfold LinkSys.closeNode
    simp only [hnd, bind_some, hi, hdelete, Bool.false_eq_true, not_false_eq_true, or_true, if_true,
      map_some]

theorem LinkInv.unlink (h : LinkInv s) (hok : (LinkOp.unlink n).Ok s) :
    ∃ s', s.unlink n = some s' ∧ LinkInv s' := by
  unfold LinkSys.unlink
  by_cases hname : s.IsName n
  swap
  · rw [if_neg hname]
    exact ⟨s, rfl, h⟩
  obtain ⟨nd, hnd⟩ := h.isName.mp hname
  obtain ⟨hlt, hlisted, hdelete, i, f, hi, hf⟩ := h.node n nd hnd
  obtain ⟨hone, hclosed⟩ := hok nd hnd hlisted
  obtain ⟨hilt, hcount, -, hholds⟩ := h.file i f hf
  have hn := h.mem_names hnd hi
  have hfile : ∀ (o : Option LinkFile) j, ((s.setFile i o).setNode n none).file j =
      if j = i then o else s.file j := fun o j => update_apply ..
  have hnode : ∀ (o : Option LinkFile) m, ((s.setFile i o).setNode n none).node m =
      if m = n then none else s.node m := fun o m => update_apply ..
  refine ⟨(s.setFile i (if f.linkCount > 1 then some { f with linkCount := f.linkCount - 1 } else none)).setNode n
    none, ?_, ?_⟩
  · rw [if_pos hname, LinkSys.doUpdate_eq hnd hi hf]
    unfold LinkSys.closeNode
    simp only [bind_some, LinkSys.setNode_node_self, hi, hone, LinkSys.setNode_file, hf]
    rw [if_neg (by simp [decRef]), map_some]
    simp only [LinkSys.setNode, LinkSys.setFile, update_idem]
  · generalize hrest : (if f.linkCount > 1 then some { f with linkCount := f.linkCount - 1 } else none) = rest
    have hnames : ∀ j, ((s.setFile i rest).setNode n none).names j = (s.names j).erase n :=
      fun j => LinkSys.names_setNode_none (s := s.setFile i rest)
    constructor
    · intro m md hm
      rw [hnode] at hm
      split_ifs at hm with heq
      obtain ⟨hmlt, hl, hd, j, g, hj, hg⟩ := h.node m md hm
      refine ⟨hmlt, hl, hd, j, ?_⟩
      rw [hfile]
      by_cases hji : j = i
      · -- another name of the file, so there were two links at least
        have hm' := h.mem_names hm (hji ▸ hj)
        have htwo : 1 < f.linkCount := by
          rw [hcount]
          exact one_lt_card.mpr ⟨m, hm', n, hn, heq⟩
        rw [if_pos htwo] at hrest
        exact ⟨_, hj, by rw [if_pos hji, ← hrest]⟩
      · exact ⟨g, hj, by rw [if_neg hji, hg]⟩
    · intro j g hg
      rw [hfile] at hg
      rw [hnames]
      split_ifs at hg with hji
      · rw [← hrest] at hg
        obtain ⟨htwo, hg⟩ := ite_none_right_eq_some.mp hg
        cases hg
        subst hji
        have hcard := card_erase_of_mem hn
        refine ⟨hilt, ?_, ?_, hholds⟩
        · rw [hcard, ← hcount]
        · apply card_pos.mp
          omega
      · obtain ⟨hjlt, hjcount, hjne, hjholds⟩ := h.file j g hg
        have hnot : n ∉ s.names j := by
          intro hin
          obtain ⟨nd', hnd', hj⟩ := LinkSys.node_of_mem_names hin
          rw [hnd] at hnd'
          cases hnd'
          exact hji (Option.some.inj (hj.symm.trans hi))
        rw [erase_eq_of_notMem hnot]
        exact ⟨hjlt, hjcount, hjne, hjholds⟩
    · intro o ho x hx
      rw [hnode, if_neg (hclosed o ho x hx)]
      exact h.fds o ho x hx
    · exact h.reads

theorem LinkInv.step (h : LinkInv s) {op : LinkOp} (hok : op.Ok s) :
    ∃ s', s.step op = some s' ∧ LinkInv s' := by
  cases op with
  | create => exact ⟨_, rfl, h.create⟩
  | link target => exact h.link hok
  | openName n append => exact h.openName n append
  | read fd size => exact h.read hok
  | write fd data alloc => exact h.write hok
  | close fd => exact h.close fd
  | unlink n => exact h.unlink hok

end Calls

/-- In every run of calls that are all right, nothing is used after it has been freed, and every node that is
left is a name, so that no call uses the node of an unlinked name. A file is freed when it has no name any
more, and not before; until then its record holds all that was written, and every read returns it. -/
theorem tmpfs_hard_links (ops : List LinkOp)
    (hok : Runs.Meets LinkSys.step (fun s op => op.Ok s) ops LinkSys.boot) :
    ∃ s, Runs.run LinkSys.step ops LinkSys.boot = some s ∧
      (∀ n nd, s.node n = some nd → nd.listed = true) ∧
      (∀ i, s.file i = none ↔ ∀ n nd, s.node n = some nd → nd.handle ≠ some i) ∧
      (∀ i f, s.file i = some f → f.contents.Holds (s.array i)) ∧
      ∀ r ∈ s.reads, r.1 = r.2 := by
  obtain ⟨s, hrun, h⟩ := Runs.run_total (fun _ _ (h : LinkInv _) hok => h.step hok) linkInv_boot hok
  refine ⟨s, hrun, fun n nd hnd => (h.node n nd hnd).2.1, fun i => ⟨fun hfreed n nd hnd hi => ?_, fun hnone => ?_⟩,
    fun i f hf => (h.file i f hf).2.2.2, h.reads⟩
  · obtain ⟨-, -, -, j, f, hj, hf⟩ := h.node n nd hnd
    obtain rfl := Option.some.inj (hi.symm.trans hj)
    rw [hfreed] at hf
    cases hf
  · by_contra hkept
    obtain ⟨f, hf⟩ := Option.ne_none_iff_exists'.mp hkept
    obtain ⟨n, hn⟩ := (h.file i f hf).2.2.1
    obtain ⟨nd, hnd, hi⟩ := LinkSys.node_of_mem_names hn
    exact hnone n nd hnd hi

/-- A file is written through its second name, and its first one is unlinked. -/
def linkedNames : List LinkOp :=
  [.create, .link 0, .openName 1 false, .write 0 [5, 6] true, .unlink 0, .openName 1 false, .read 1 8]

theorem tmpfs_hard_links_linkedNames :
    ∃ s, Runs.run LinkSys.step linkedNames LinkSys.boot = some s ∧ s.reads = [([5, 6], [5, 6])] ∧
      ∀ r ∈ s.reads, r.1 = r.2 := by
  obtain ⟨s, hs, -, -, -, hreads⟩ := tmpfs_hard_links linkedNames (by decide)
  have hfacts : ∀ s ∈ Runs.run LinkSys.step linkedNames LinkSys.boot, s.reads = [([5, 6], [5, 6])] := by
    decide
  exact ⟨s, hs, hfacts s hs, hreads⟩

/-- A write uses the freed node of the first name once that is unlinked; a descriptor opened before a write
through another name reads nothing; and a file whose only name has been opened and closed is not freed when
that is unlinked. -/
theorem tmpfs_links_broken :
    (Runs.run LinkSys.step [.create, .link 0, .unlink 0, .openName 1 false, .write 0 [5] true]
        LinkSys.boot).isNone = true ∧
      (Runs.run LinkSys.step [.create, .link 0, .openName 1 false, .openName 0 false, .write 1 [5] true,
        .read 0 8] LinkSys.boot).map LinkSys.reads = some [([], [5])] ∧
      (Runs.run LinkSys.step [.create, .openName 0 false, .close 0, .unlink 0] LinkSys.boot).map
        (fun s => ((s.file 0).isSome, (s.node 0).map LinkNode.listed)) = some (true, some false) := by
  refine ⟨by decide, by decide, by decide⟩

end CoolPotOS
