import CoolPotOS.Fs.Fds
import CoolPotOS.Fs.Tmpfs

namespace CoolPotOS

open Bytes

structure FdHandle where
  node : ℕ
  offset : ℕ

/-- What a node has of a regular file: its handle, and the size that `do_update` copies. -/
structure FileNode where
  file : ℕ
  size : ℕ

/-- The tables of the processes point to handles. `owner` is the `node` of a `tmpfs_file_t`. -/
structure FdSys where
  fdts : List (List (Option ℕ))
  handles : ℕ → FdHandle
  nextHandle : ℕ
  nodes : ℕ → FileNode
  nextNode : ℕ
  files : ℕ → TmpfsFile
  owner : ℕ → ℕ
  nextFile : ℕ

def FdSys.init : FdSys where
  fdts := [[]]
  handles := fun _ => ⟨0, 0⟩
  nextHandle := 0
  nodes := fun _ => ⟨0, 0⟩
  nextNode := 0
  files := fun _ => .empty
  owner := fun _ => 0
  nextFile := 0

inductive FdError
  | ebadf | enoent | enomem | full
  deriving DecidableEq

inductive Whence
  | seekSet | seekCur | seekEnd
  deriving DecidableEq

inductive FdOut
  | done
  | fd (n : ℕ)
  | bytes (l : List UInt8)
  | count (n : ℕ)
  | offset (n : ℕ)
  | error (e : FdError)
  | overrun
  deriving DecidableEq

/-- The calls, with the process that makes them. `alloc` tells whether memory is found. -/
inductive FdCall
  | create (pid : ℕ) (alloc : Bool)
  | link (node : ℕ)
  | openNode (pid node : ℕ) (append alloc : Bool)
  | close (pid fd : ℕ)
  | dup (pid fd : ℕ) (alloc : Bool)
  | dup2 (pid fd newfd : ℕ) (alloc : Bool)
  | fork (pid : ℕ)
  | lseek (pid fd : ℕ) (offset : BitVec 64) (whence : Whence)
  | read (pid fd : ℕ) (size : BitVec 64)
  | write (pid fd : ℕ) (data : List UInt8) (alloc : Bool)
  | pread (pid fd : ℕ) (size offset : BitVec 64)
  | pwrite (pid fd : ℕ) (data : List UInt8) (offset : BitVec 64) (alloc : Bool)

def handleOf (fdts : List (List (Option ℕ))) (pid fd : ℕ) : Option ℕ := fdts[pid]?.bind fun fdt => getFd fdt fd

namespace FdSys

variable (s : FdSys)

def setOffset (h offset : ℕ) : FdSys :=
  { s with handles := Function.update s.handles h { s.handles h with offset := offset } }

/-- `do_update`, which calls `tmpfs_stat`. -/
def doUpdate (node : ℕ) : FdSys :=
  let f := (s.nodes node).file
  { s with nodes := Function.update s.nodes node ⟨f, (s.files f).size⟩ }

/-- `vfs_write`. A write that succeeds also sets the size of the node of the file. -/
def vfsWrite (node : ℕ) (addr : List UInt8) (offset : ℕ) (alloc : Bool) : FdSys × ℕ :=
  let s := s.doUpdate node
  let f := (s.nodes node).file
  let r := tmpfsWrite (s.files f) addr offset alloc
  let s := { s with files := Function.update s.files f r.1 }
  let s := if r.2 ≠ 0 then
      { s with nodes := Function.update s.nodes (s.owner f) { s.nodes (s.owner f) with size := r.1.size } }
    else s
  (s.doUpdate node, r.2)

def addHandle (handle : FdHandle) : FdSys :=
  { s with
    handles := Function.update s.handles s.nextHandle handle
    nextHandle := s.nextHandle + 1 }

def install (pid : ℕ) (fdt : List (Option ℕ)) (handle : FdHandle) (alloc : Bool) : FdSys × FdOut :=
  match addFd fdt s.nextHandle alloc with
  | some (fdt, fd) => ({ s.addHandle handle with fdts := s.fdts.set pid fdt }, .fd fd)
  | none => (s.addHandle handle, .error .full)

def openNode (pid node : ℕ) (append alloc : Bool) : FdSys × FdOut :=
  match s.fdts[pid]? with
  | none => (s, .error .ebadf)
  | some fdt =>
    if node < s.nextNode then
      let s := s.doUpdate node
      s.install pid fdt ⟨node, if append then (s.nodes node).size else 0⟩ alloc
    else (s, .error .enoent)

def mkFile : FdSys :=
  { s with
    nodes := Function.update s.nodes s.nextNode ⟨s.nextFile, 0⟩
    nextNode := s.nextNode + 1
    files := Function.update s.files s.nextFile .empty
    owner := Function.update s.owner s.nextFile s.nextNode
    nextFile := s.nextFile + 1 }

def link (node : ℕ) : FdSys × FdOut :=
  if node < s.nextNode then
    let s := s.doUpdate node
    ({ s with
        nodes := Function.update s.nodes s.nextNode (s.nodes node)
        nextNode := s.nextNode + 1 }, .done)
  else (s, .error .enoent)

def close (pid fd : ℕ) : FdSys × FdOut :=
  match s.fdts[pid]?, handleOf s.fdts pid fd with
  | some fdt, some _ => ({ s with fdts := s.fdts.set pid (fdt.set fd none) }, .done)
  | _, _ => (s, .error .ebadf)

def dup (pid fd : ℕ) (alloc : Bool) : FdSys × FdOut :=
  match s.fdts[pid]?, handleOf s.fdts pid fd with
  | some fdt, some h => s.install pid fdt (s.handles h) alloc
  | _, _ => (s, .error .ebadf)

def dup2 (pid fd newfd : ℕ) (alloc : Bool) : FdSys × FdOut :=
  match s.fdts[pid]?, handleOf s.fdts pid fd with
  | some fdt, some h =>
    if fd = newfd then (s, .fd newfd)
    else
      match ensureFdtCapacity fdt newfd alloc with
      | none => (s, .error .enomem)
      | some fdt =>
        ({ s.addHandle (s.handles h) with fdts := s.fdts.set pid (fdt.set newfd (some s.nextHandle)) },
          .fd newfd)
  | _, _ => (s, .error .ebadf)

/-- `copy_fdt`: a new handle for each entry. -/
def copyFdt (s : FdSys) : List (Option ℕ) → FdSys × List (Option ℕ)
  | [] => (s, [])
  | none :: fdt => ((copyFdt s fdt).1, none :: (copyFdt s fdt).2)
  | some h :: fdt =>
    let r := copyFdt (s.addHandle (s.handles h)) fdt
    (r.1, some s.nextHandle :: r.2)

def fork (pid : ℕ) : FdSys × FdOut :=
  match s.fdts[pid]? with
  | none => (s, .error .ebadf)
  | some fdt =>
    let r := s.copyFdt fdt
    ({ r.1 with fdts := r.1.fdts ++ [r.2] }, .done)

/-- `sys_lseek`. A negative offset is refused for a node of the type `file_none`, except with `SEEK_CUR`. -/
def lseek (pid fd : ℕ) (offset : BitVec 64) (whence : Whence) : FdSys × FdOut :=
  match handleOf s.fdts pid fd with
  | none => (s, .error .ebadf)
  | some h =>
    let size := (s.nodes (s.handles h).node).size
    if offset.toInt < 0 ∧ whence ≠ .seekCur then (s, .error .ebadf)
    else
      let new :=
        match whence with
        | .seekSet => offset.toNat
        | .seekCur =>
          let sum := wrap ((s.handles h).offset + offset.toNat)
          if 2 ^ 63 ≤ sum then 0 else if sum > size then size else sum
        | .seekEnd => wrapSub size offset.toNat
      (s.setOffset h new, .offset new)

def read (pid fd : ℕ) (size : BitVec 64) : FdSys × FdOut :=
  if size = 0 then (s, .bytes [])
  else
    match handleOf s.fdts pid fd with
    | none => (s, .error .ebadf)
    | some h =>
      let node := (s.handles h).node
      let offset := (s.handles h).offset
      if (s.nodes node).size ≠ 2 ^ 64 - 1 ∧ offset ≥ (s.nodes node).size then (s, .bytes [])
      else
        let s := s.doUpdate node
        match tmpfsRead (s.files (s.nodes node).file) offset size.toNat with
        | none => (s, .overrun)
        | some bytes =>
          (if (s.nodes node).size ≠ 2 ^ 64 - 1 then s.setOffset h (offset + bytes.length) else s, .bytes bytes)

def write (pid fd : ℕ) (data : List UInt8) (alloc : Bool) : FdSys × FdOut :=
  if data = [] then (s, .count 0)
  else
    match handleOf s.fdts pid fd with
    | none => (s, .error .ebadf)
    | some h =>
      let node := (s.handles h).node
      let offset := (s.handles h).offset
      let r := s.vfsWrite node data offset alloc
      let s := if (r.1.nodes node).size ≠ 2 ^ 64 - 1 then r.1.setOffset h (offset + r.2) else r.1
      (s.doUpdate node, .count r.2)

def pread (pid fd : ℕ) (size offset : BitVec 64) : FdSys × FdOut :=
  (s.lseek pid fd offset .seekSet).1.read pid fd size

def pwrite (pid fd : ℕ) (data : List UInt8) (offset : BitVec 64) (alloc : Bool) : FdSys × FdOut :=
  (s.lseek pid fd offset .seekSet).1.write pid fd data alloc

def step (s : FdSys) : FdCall → FdSys × FdOut
  | .create pid alloc => s.mkFile.openNode pid s.nextNode false alloc
  | .link node => s.link node
  | .openNode pid node append alloc => s.openNode pid node append alloc
  | .close pid fd => s.close pid fd
  | .dup pid fd alloc => s.dup pid fd alloc
  | .dup2 pid fd newfd alloc => s.dup2 pid fd newfd alloc
  | .fork pid => s.fork pid
  | .lseek pid fd offset whence => s.lseek pid fd offset whence
  | .read pid fd size => s.read pid fd size
  | .write pid fd data alloc => s.write pid fd data alloc
  | .pread pid fd size offset => s.pread pid fd size offset
  | .pwrite pid fd data offset alloc => s.pwrite pid fd data offset alloc

end FdSys

structure OpenFile where
  file : ℕ
  offset : ℕ

/-- The reference: a descriptor refers to an open file, and copies of it refer to the same one. -/
structure OpenFiles where
  fdts : List (List (Option ℕ))
  description : ℕ → ℕ
  nextHandle : ℕ
  opened : ℕ → OpenFile
  nextOpen : ℕ
  inode : ℕ → ℕ
  nextNode : ℕ
  files : ℕ → SparseFile
  nextFile : ℕ

def OpenFiles.init : OpenFiles where
  fdts := [[]]
  description := fun _ => 0
  nextHandle := 0
  opened := fun _ => ⟨0, 0⟩
  nextOpen := 0
  inode := fun _ => 0
  nextNode := 0
  files := fun _ => .empty
  nextFile := 0

namespace OpenFiles

variable (t : OpenFiles)

def addHandle (description : ℕ) : OpenFiles :=
  { t with
    description := Function.update t.description t.nextHandle description
    nextHandle := t.nextHandle + 1 }

def install (pid : ℕ) (fdt : List (Option ℕ)) (description : ℕ) (alloc : Bool) : OpenFiles :=
  match addFd fdt t.nextHandle alloc with
  | some (fdt, _) => { t.addHandle description with fdts := t.fdts.set pid fdt }
  | none => t.addHandle description

def openNode (pid node : ℕ) (append alloc : Bool) : OpenFiles :=
  match t.fdts[pid]? with
  | none => t
  | some fdt =>
    if node < t.nextNode then
      let file := t.inode node
      { t with
        opened := Function.update t.opened t.nextOpen ⟨file, if append then (t.files file).size else 0⟩
        nextOpen := t.nextOpen + 1 }.install pid fdt t.nextOpen alloc
    else t

def mkFile : OpenFiles :=
  { t with
    inode := Function.update t.inode t.nextNode t.nextFile
    nextNode := t.nextNode + 1
    files := Function.update t.files t.nextFile .empty
    nextFile := t.nextFile + 1 }

def link (node : ℕ) : OpenFiles :=
  if node < t.nextNode then
    { t with
      inode := Function.update t.inode t.nextNode (t.inode node)
      nextNode := t.nextNode + 1 }
  else t

def close (pid fd : ℕ) : OpenFiles :=
  match t.fdts[pid]?, handleOf t.fdts pid fd with
  | some fdt, some _ => { t with fdts := t.fdts.set pid (fdt.set fd none) }
  | _, _ => t

def dup (pid fd : ℕ) (alloc : Bool) : OpenFiles :=
  match t.fdts[pid]?, handleOf t.fdts pid fd with
  | some fdt, some h => t.install pid fdt (t.description h) alloc
  | _, _ => t

def dup2 (pid fd newfd : ℕ) (alloc : Bool) : OpenFiles :=
  match t.fdts[pid]?, handleOf t.fdts pid fd with
  | some fdt, some h =>
    if fd = newfd then t
    else
      match ensureFdtCapacity fdt newfd alloc with
      | none => t
      | some fdt =>
        { t.addHandle (t.description h) with fdts := t.fdts.set pid (fdt.set newfd (some t.nextHandle)) }
  | _, _ => t

def copyFdt (t : OpenFiles) : List (Option ℕ) → OpenFiles × List (Option ℕ)
  | [] => (t, [])
  | none :: fdt => ((copyFdt t fdt).1, none :: (copyFdt t fdt).2)
  | some h :: fdt =>
    let r := copyFdt (t.addHandle (t.description h)) fdt
    (r.1, some t.nextHandle :: r.2)

def fork (pid : ℕ) : OpenFiles :=
  match t.fdts[pid]? with
  | none => t
  | some fdt =>
    let r := t.copyFdt fdt
    { r.1 with fdts := r.1.fdts ++ [r.2] }

def openOf (pid fd : ℕ) : Option ℕ := (handleOf t.fdts pid fd).map t.description

def setOffset (d offset : ℕ) : OpenFiles :=
  { t with opened := Function.update t.opened d { t.opened d with offset := offset } }

/-- The base that an offset of `lseek` is added to. -/
def base (d : ℕ) : Whence → ℕ
  | .seekSet => 0
  | .seekCur => (t.opened d).offset
  | .seekEnd => (t.files (t.opened d).file).size

/-- The sum of base and offset, when it is an offset: not negative in 64 bits with a sign. -/
def target (d : ℕ) (offset : BitVec 64) (whence : Whence) : Option ℕ :=
  let sum := t.base d whence + offset.toInt
  if 0 ≤ sum ∧ sum < 2 ^ 63 then some sum.toNat else none

def store (d offset : ℕ) (data : List UInt8) : OpenFiles :=
  if data = [] then t
  else
    let f := (t.opened d).file
    { t with files := Function.update t.files f ((t.files f).write data offset) }

/-- What a call may return. A write may store any first part of its data. -/
def allows : FdCall → FdOut → Prop
  | .lseek pid fd offset whence, out =>
    match (t.openOf pid fd).bind fun d => t.target d offset whence with
    | some n => out = .offset n
    | none => ∃ e, out = .error e
  | .read pid fd size, out =>
    if size = 0 then out = .bytes []
    else
      match t.openOf pid fd with
      | none => ∃ e, out = .error e
      | some d => out = .bytes ((t.files (t.opened d).file).read (t.opened d).offset size.toNat)
  | .pread pid fd size offset, out =>
    if size = 0 then out = .bytes []
    else
      match t.openOf pid fd with
      | none => ∃ e, out = .error e
      | some d =>
        if offset.toInt < 0 then ∃ e, out = .error e
        else out = .bytes ((t.files (t.opened d).file).read offset.toNat size.toNat)
  | .write pid fd data _, out =>
    if data = [] then out = .count 0
    else if t.openOf pid fd = none then ∃ e, out = .error e
    else ∃ n ≤ data.length, out = .count n
  | .pwrite pid fd data offset _, out =>
    if data = [] then out = .count 0
    else if t.openOf pid fd = none ∨ offset.toInt < 0 then ∃ e, out = .error e
    else ∃ n ≤ data.length, out = .count n
  | _, _ => True

/-- The state after a call that returned `out`. -/
def next : FdCall → FdOut → OpenFiles
  | .create pid alloc, _ => t.mkFile.openNode pid t.nextNode false alloc
  | .link node, _ => t.link node
  | .openNode pid node append alloc, _ => t.openNode pid node append alloc
  | .close pid fd, _ => t.close pid fd
  | .dup pid fd alloc, _ => t.dup pid fd alloc
  | .dup2 pid fd newfd alloc, _ => t.dup2 pid fd newfd alloc
  | .fork pid, _ => t.fork pid
  | .lseek pid fd _ _, .offset n =>
    match t.openOf pid fd with
    | some d => t.setOffset d n
    | none => t
  | .read pid fd _, .bytes l =>
    match t.openOf pid fd with
    | some d => t.setOffset d ((t.opened d).offset + l.length)
    | none => t
  | .write pid fd data _, .count n =>
    match t.openOf pid fd with
    | some d => (t.store d (t.opened d).offset (data.take n)).setOffset d ((t.opened d).offset + n)
    | none => t
  | .pwrite pid fd data offset _, .count n =>
    match t.openOf pid fd with
    | some d => t.store d offset.toNat (data.take n)
    | none => t
  | _, _ => t

end OpenFiles

end CoolPotOS
