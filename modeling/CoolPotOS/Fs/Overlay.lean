import CoolPotOS.Fs.Path
import CoolPotOS.Fs.Tmpfs
import CoolPotOS.Lib.NamedTree
import CoolPotOS.Lib.Runs

namespace CoolPotOS

open NamedTree

structure FileName where
  chars : List Char
  valid : ValidName chars
  deriving DecidableEq

abbrev RelPath := List FileName

/-- A file of tmpfs beside the array that it stands for. -/
structure StoredFile where
  file : TmpfsFile
  array : SparseFile
  holds : file.Holds array

namespace StoredFile

def empty : StoredFile := ⟨.empty, .empty, holds_empty⟩

/-- `tmpfs_write`, with the number of bytes that it returns. -/
def write (f : StoredFile) (addr : List UInt8) (offset : ℕ) : StoredFile × ℕ :=
  (⟨((TmpfsOp.write offset addr true).run (f.file, f.array)).1,
    ((TmpfsOp.write offset addr true).run (f.file, f.array)).2, f.holds.run _⟩,
    (tmpfsWrite f.file addr offset true).2)

end StoredFile

abbrev FsTree := NamedTree FileName StoredFile

abbrev Wrappers := NamedTree FileName Empty

/-- The loop of `overlay_copy_up`. Every round copies a byte, so there are not more rounds than bytes. -/
def copyData (lower : StoredFile) : ℕ → ℕ → StoredFile → Option StoredFile
  | 0, _, upper => some upper
  | fuel + 1, offset, upper =>
    if offset < lower.file.size then
      (tmpfsRead lower.file offset (min (lower.file.size - offset) 4096)).bind fun buffer =>
        if buffer = [] then some upper
        else if (upper.write buffer offset).2 = buffer.length then
          copyData lower fuel (offset + buffer.length) (upper.write buffer offset).1
        else none
    else some upper

def overlayEffectiveNode (upper lower : FsTree) (relpath : RelPath) : Option FsTree :=
  (upper.walk relpath).or (lower.walk relpath)

def overlayMetaNode (upper lower : FsTree) (relpath : RelPath) : Option FsTree :=
  match upper.walk relpath, lower.walk relpath with
  | some (.dir _), some (.dir cs) => some (.dir cs)
  | _, _ => overlayEffectiveNode upper lower relpath

/-- The names that `overlay_refresh_dir_children` finds in a directory. -/
def dirNames : Option FsTree → List FileName
  | some (.dir cs) => cs.map Prod.fst
  | _ => []

def addWrapper (node : Wrappers) (name : FileName) : Wrappers :=
  if name ∈ node.names then node else .dir ((name, .dir []) :: node.child)

def overlayRefreshDirChildren (upperNode lowerNode : Option FsTree) (node : Wrappers) : Wrappers :=
  (dirNames lowerNode ++ dirNames upperNode).foldl addWrapper node

/-- `overlay_stat`, by which `do_update` comes to the wrapper. -/
def overlayStat (upper lower : FsTree) (relpath : RelPath) (node : Wrappers) : Wrappers :=
  match overlayMetaNode upper lower relpath with
  | some (.dir _) => overlayRefreshDirChildren (upper.walk relpath) (lower.walk relpath) node
  | _ => node

/-- The loop of `vfs_open` from a wrapper on, and whether it finds the node. -/
def overlayOpen (upper lower : FsTree) : RelPath → Wrappers → RelPath → Wrappers × Bool
  | _, node, [] => (node, true)
  | relpath, node, n :: rest =>
    match node.child.lookup n with
    | none => (node, false)
    | some c =>
      let r := overlayOpen upper lower (relpath ++ [n]) (overlayStat upper lower (relpath ++ [n]) c) rest
      (.dir (setFirst n r.1 node.child), r.2)

def overlayEnsureUpperDir (upper : FsTree) (relpath : RelPath) : Option FsTree :=
  match upper.walk relpath with
  | some (.dir _) => some upper
  | some (.file _) => none
  | none => upper.mkdirs relpath

/-- The loop of `vfs_mkdir` from a wrapper on, with `overlay_mkdir` for the names that are not there. -/
def overlayMkdir (lower : FsTree) : RelPath → FsTree → Wrappers → RelPath → Option (FsTree × Wrappers)
  | _, upper, node, [] => some (upper, node)
  | relpath, upper, node, n :: rest =>
    match node.child.lookup n with
    | none =>
      (overlayEnsureUpperDir upper relpath).bind fun upper =>
        (upper.mkdirs (relpath ++ [n])).bind fun upper =>
          (overlayMkdir lower (relpath ++ [n]) upper (overlayStat upper lower (relpath ++ [n]) (.dir []))
            rest).map fun r => (r.1, .dir ((n, r.2) :: node.child))
    | some c =>
      match overlayMetaNode upper lower (relpath ++ [n]) with
      | some (.dir _) =>
        (overlayMkdir lower (relpath ++ [n]) upper (overlayStat upper lower (relpath ++ [n]) c)
          rest).map fun r => (r.1, .dir (setFirst n r.2 node.child))
      | _ => none

/-- `overlay_copy_up`. The new file is filled before it is looked at again. -/
def overlayCopyUp (upper lower : FsTree) (relpath : RelPath) : Option FsTree :=
  match upper.walk relpath, lower.walk relpath with
  | some _, _ => some upper
  | none, none => none
  | none, some (.dir _) => overlayEnsureUpperDir upper relpath
  | none, some (.file f) =>
    (upper.mkdirs relpath.dropLast).bind fun upper =>
      relpath.getLast?.bind fun name =>
        (copyData f f.file.size 0 .empty).bind fun g => alter (add name (.file g)) upper relpath.dropLast

/-- A mount, and the paths that have been opened on it. The node of an open path is the one that the
path finds. A wrapper node is a copy of the node that it stands for, made anew by each update.
Symbolic links, modes and the other metadata are left out. -/
structure Overlay where
  upper : FsTree
  lower : FsTree
  root : Wrappers
  opened : List RelPath

/-- `overlay_mount`, on a directory and of a directory. -/
def overlayMount (upper lower : FsTree) : Option Overlay :=
  match upper, lower with
  | .dir us, .dir ls => some ⟨.dir us, .dir ls, .dir [], []⟩
  | _, _ => none

namespace Overlay

variable (s : Overlay)

/-- `do_update` of the root of the mount, where every walk begins. -/
def updateRoot : Wrappers := overlayStat s.upper s.lower [] s.root

/-- Whether a path is a directory by the metadata that an update brings. -/
def isDirAt (path : RelPath) : Bool := (overlayMetaNode s.upper s.lower path).any isDir

def vfsOpen (path : RelPath) : Option Overlay :=
  let r := overlayOpen s.upper s.lower [] s.updateRoot path
  if r.2 then some { s with root := r.1, opened := path :: s.opened } else none

def vfsMkfile (parent : RelPath) (name : FileName) : Option Overlay :=
  let r := overlayOpen s.upper s.lower [] s.updateRoot parent
  if r.2 ∧ s.isDirAt parent then
    (alter (add name (.dir [])) r.1 parent).bind fun root =>
      (overlayEnsureUpperDir s.upper parent).bind fun upper =>
        (alter (add name (.file .empty)) upper parent).map fun upper => { s with upper := upper, root := root }
  else none

def vfsMkdir (path : RelPath) : Option Overlay :=
  (overlayMkdir s.lower [] s.upper s.updateRoot path).map fun r => { s with upper := r.1, root := r.2 }

/-- `vfs_read` and `overlay_read` of an open node. -/
def vfsRead (path : RelPath) (offset size : ℕ) : Option (List UInt8) :=
  if path ∈ s.opened ∧ ¬ s.isDirAt path then
    match overlayEffectiveNode s.upper s.lower path with
    | some (.file f) => tmpfsRead f.file offset size
    | _ => none
  else none

def writeNode (offset : ℕ) (addr : List UInt8) : FsTree → Option FsTree
  | .dir _ => none
  | .file f => if (f.write addr offset).2 = addr.length then some (.file (f.write addr offset).1) else none

/-- `vfs_write` and `overlay_write` of an open node. -/
def vfsWrite (path : RelPath) (offset : ℕ) (addr : List UInt8) : Option Overlay :=
  if path ∈ s.opened ∧ ¬ s.isDirAt path then
    (overlayCopyUp s.upper s.lower path).bind fun upper =>
      (alter (writeNode offset addr) upper path).map fun upper => { s with upper := upper }
  else none

/-- `vfs_chmod` and `overlay_chmod` of an open node. -/
def vfsChmod (path : RelPath) : Option Overlay :=
  if path ∈ s.opened then
    (alter (fun node => some (overlayStat s.upper s.lower path node)) s.root path).bind fun root =>
      (overlayCopyUp s.upper s.lower path).map fun upper => { s with upper := upper, root := root }
  else none

end Overlay

inductive OverlayOp
  | lookup (path : RelPath)
  | mkfile (parent : RelPath) (name : FileName)
  | mkdir (path : RelPath)
  | read (path : RelPath) (offset size : ℕ)
  | write (path : RelPath) (offset : ℕ) (addr : List UInt8)
  | chmod (path : RelPath)

def Overlay.step (s : Overlay) : OverlayOp → Option Overlay
  | .lookup path => s.vfsOpen path
  | .mkfile parent name => s.vfsMkfile parent name
  | .mkdir path => s.vfsMkdir path
  | .read path offset size => (s.vfsRead path offset size).map fun _ => s
  | .write path offset addr => s.vfsWrite path offset addr
  | .chmod path => s.vfsChmod path

/-- No path is a directory in one of the trees and a file in the other. -/
def Compatible (upper lower : FsTree) : Prop :=
  ∀ p f, ¬ (upper.entry p = some .dir ∧ lower.entry p = some (.file f)) ∧
    ¬ (upper.entry p = some (.file f) ∧ lower.entry p = some .dir)

def originalContents (upper lower : FsTree) (path : RelPath) : SparseFile :=
  match upper.entry path, lower.entry path with
  | some (.file f), _ => f.array
  | _, some (.file f) => f.array
  | _, _ => .empty

def OverlayOp.apply (path : RelPath) (array : SparseFile) : OverlayOp → SparseFile
  | .write p offset addr => if p = path ∧ addr ≠ [] then array.write addr offset else array
  | _ => array

/-- The original contents of a file with all writes of the calls. -/
def overlayContents (upper lower : FsTree) (ops : List OverlayOp) (path : RelPath) : SparseFile :=
  ops.foldl (OverlayOp.apply path) (originalContents upper lower path)

/-- The mount presents the upper tree over the lower tree after the calls. -/
structure Overlay.Presents (upper lower : FsTree) (ops : List OverlayOp) (s : Overlay) : Prop where
  lower_eq : s.lower = lower
  upper_kept : ∀ path, upper.entry path ≠ none → s.upper.entry path ≠ none
  exists_iff : ∀ path,
    (s.vfsOpen path).isSome ↔ s.upper.entry path ≠ none ∨ s.lower.entry path ≠ none
  listing : ∀ path ∈ s.opened, ∃ node, s.root.walk path = some node ∧ node.names.Nodup ∧
    ∀ name, name ∈ node.names ↔
      s.upper.entry (path ++ [name]) ≠ none ∨ s.lower.entry (path ++ [name]) ≠ none
  read : ∀ path offset size bytes, size < 2 ^ 64 → s.vfsRead path offset size = some bytes →
    bytes = (overlayContents upper lower ops path).read offset size
  readable : ∀ path ∈ s.opened, ¬ s.isDirAt path → ∀ offset size, offset + size < 2 ^ 64 →
    s.vfsRead path offset size ≠ none

/-- The node that `vfs_mkfile` makes is not there: it does not look for it. -/
def OverlayOp.Fresh (s : Overlay) : OverlayOp → Prop
  | .mkfile parent name =>
    s.upper.entry (parent ++ [name]) = none ∧ s.lower.entry (parent ++ [name]) = none
  | _ => True

instance decidableOverlayFresh (s : Overlay) : ∀ op : OverlayOp, Decidable (op.Fresh s)
  | .mkfile parent name => inferInstanceAs (Decidable (s.upper.entry (parent ++ [name]) = none ∧ _))
  | .lookup _ | .mkdir _ | .read .. | .write .. | .chmod _ => .isTrue trivial

end CoolPotOS
