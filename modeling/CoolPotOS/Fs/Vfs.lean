import CoolPotOS.Fs.Path

namespace CoolPotOS

/-- The kind of a `tmpfs` file. -/
inductive FileKind
  | none | dir | symlink
  deriving DecidableEq

/-- The part of `struct vfs_node` that lookups read. -/
structure TreeNode where
  parent : Option ℕ
  name : List Char
  kind : FileKind
  child : List ℕ
  linkto : Option ℕ
  linktoPath : Option (List Char)
  deriving DecidableEq

/-- `struct vfs_node`. The bits of its type that are not its kind are `delete` and `proxy`. -/
structure VfsNode extends TreeNode where
  delete : Bool
  proxy : Bool
  refcount : ℕ
  deriving DecidableEq

/-- The nodes that lookups see; a released node is `none`. -/
abbrev Tree := ℕ → Option TreeNode

/-- The nodes, and the name of the next one. `wrapped` is not in the source: it records that the
reference count of a removed node has been incremented past its last value. A call that gives `none`
touches a released node, writes behind a buffer, or nests deeper than `depth` resolutions of links.
-/
structure Vfs where
  node : ℕ → Option VfsNode
  next : ℕ
  wrapped : Bool

def rootdir : ℕ := 0

def Vfs.tree (s : Vfs) : Tree := fun n => (s.node n).map VfsNode.toTreeNode

def Vfs.modify (s : Vfs) (n : ℕ) (f : VfsNode → VfsNode) : Vfs :=
  { s with node := Function.update s.node n ((s.node n).map f) }

def VfsNode.plain (nd : VfsNode) : VfsNode := { nd with delete := false, proxy := false }

def Vfs.boot : Vfs where
  node := Function.update (fun _ => none) rootdir
    (some { parent := none, name := ['/'], kind := .dir, child := [], linkto := none,
            linktoPath := none, delete := false, proxy := false, refcount := 1 })
  next := 1
  wrapped := false

/-- `do_update`: `tmpfs_stat` sets the type to the kind of the file. -/
def doUpdate (s : Vfs) (n : ℕ) : Vfs := s.modify n VfsNode.plain

/-- The type that `vfs_open` gives a link that it follows. -/
def setProxy (s : Vfs) (n : ℕ) : Vfs :=
  s.modify n fun nd => { nd with delete := false, proxy := true }

def incRef (s : Vfs) (n : ℕ) : Vfs :=
  { s.modify n (fun nd => { nd with refcount := (nd.refcount + 1) % 2 ^ 32 }) with
    wrapped := s.wrapped || (s.node n).any fun nd => nd.delete && nd.refcount + 1 ≥ 2 ^ 32 }

def vfsChildFind (t : Tree) (parent : TreeNode) (name : List Char) : Option ℕ :=
  parent.child.find? fun c => (t c).any fun nd => nd.name = name

/-- The names that `vfs_get_fullpath` gathers on its way to the root. -/
def pathNames (t : Tree) : ℕ → ℕ → Option (List (List Char))
  | 0, _ => none
  | fuel + 1, n =>
    (t n).bind fun nd =>
      let name := if n = rootdir then [] else [nd.name]
      match nd.parent with
      | none => some name
      | some parent => (pathNames t fuel parent).map (· ++ name)

/-- `vfs_get_fullpath`, with its buffer of 256 bytes. The path of a node that has more than 256 nodes
above it does not fit. -/
def vfsGetFullpath (t : Tree) (n : ℕ) : Option (List Char) :=
  (pathNames t (n + 257) n).bind fun names =>
    if (joinPath names).length < 256 then some (joinPath names) else none

def vfsResolveSymlinkTarget (vfsOpen : Vfs → List Char → Option (Vfs × Option ℕ)) (s : Vfs)
    (link : ℕ) : Option (Vfs × Option ℕ) :=
  (s.node link).bind fun nd =>
    match nd.linkto, nd.linktoPath with
    | some target, _ => some (s, some target)
    | none, none => some (s, none)
    | none, some path =>
      if path.head? = some '/' then vfsOpen s path
      else
        (vfsGetFullpath s.tree (nd.parent.getD rootdir)).bind fun base =>
          vfsOpen s (normalizePath (pathacat base path))

/-- The loop of `vfs_open` and of `vfs_open_nofollow`, which returns a link at the end of the path
instead of following it. The type of that link is its kind alone since `do_update`. -/
def vfsWalk (nofollow : Bool) (resolve : Vfs → ℕ → Option (Vfs × Option ℕ)) :
    List (List Char × Bool) → Vfs → ℕ → Option (Vfs × Option ℕ)
  | [], s, current => some (s, some current)
  | (buf, last) :: toks, s, current =>
    (s.tree current).bind fun cur =>
      if buf = ['.'] then vfsWalk nofollow resolve toks s current
      else if buf = ['.', '.'] then
        vfsWalk nofollow resolve toks s (cur.parent.getD current)
      else
        match vfsChildFind s.tree cur buf with
        | none => some (s, none)
        | some current =>
          (s.tree current).bind fun cur =>
            if cur.kind ≠ .symlink then vfsWalk nofollow resolve toks (doUpdate s current) current
            else if nofollow ∧ last then some (doUpdate s current, some current)
            else if cur.parent.isNone ∨ (cur.linkto.isNone ∧ cur.linktoPath.isNone) then
              some (doUpdate s current, none)
            else
              (resolve (setProxy (doUpdate s current) current) current).bind fun r =>
                match r with
                | (s, none) => some (s, none)
                | (s, some target) =>
                  (s.tree target).bind fun _ =>
                    vfsWalk nofollow resolve toks (incRef s target) target

/-- `vfs_open`. The root needs no case of its own, since its path has no token. -/
def vfsOpen : ℕ → Vfs → List Char → Option (Vfs × Option ℕ)
  | 0, _, _ => none
  | depth + 1, s, str =>
    if str.head? = some '/' then
      vfsWalk false (vfsResolveSymlinkTarget (vfsOpen depth)) (pathTokens str.tail) s rootdir
    else some (s, none)

def vfsOpenNofollow (depth : ℕ) (s : Vfs) (str : List Char) : Option (Vfs × Option ℕ) :=
  if str.head? = some '/' then
    vfsWalk true (vfsResolveSymlinkTarget (vfsOpen depth)) (pathTokens str.tail) s rootdir
  else some (s, none)

inductive VfsError
  | inval | notdir | noent | io | notempty
  deriving DecidableEq

/-- `vfs_node_alloc` below a directory, with the kind that the caller gives the node. The node is
`s.next`. -/
def vfsNodeAlloc (s : Vfs) (parent : ℕ) (name : List Char) (kind : FileKind) : Vfs :=
  let s' := s.modify parent fun nd => { nd with child := s.next :: nd.child }
  { s' with
    node := Function.update s'.node s.next
      (some { parent := some parent, name := name, kind := kind, child := [], linkto := none,
              linktoPath := none, delete := false, proxy := false, refcount := 1 })
    next := s.next + 1 }

/-- The part of `vfs_mkdir` behind `upd` for a node that exists: the directory that it is or links
to, or `none` for anything else. -/
def vfsMkdirEnter (depth : ℕ) (s : Vfs) (current : ℕ) : Option (Vfs × Option ℕ) :=
  (s.tree current).bind fun cur =>
    if cur.kind = .symlink then
      (vfsResolveSymlinkTarget (vfsOpen depth) (doUpdate s current) current).bind fun r =>
        match r with
        | (s, none) => some (s, none)
        | (s, some target) =>
          (s.tree target).bind fun nd =>
            some (doUpdate s target, if nd.kind = .dir then some target else none)
    else some (doUpdate s current, if cur.kind = .dir then some current else none)

def vfsMkdirLoop (depth : ℕ) :
    List (List Char × Bool) → Vfs → ℕ → Option (Vfs × Except VfsError Unit)
  | [], s, _ => some (s, .ok ())
  | (buf, _) :: toks, s, current =>
    let enter (next : ℕ) :=
      (vfsMkdirEnter depth s next).bind fun r =>
        match r with
        | (s, none) => some (s, .error .notdir)
        | (s, some current) => vfsMkdirLoop depth toks s current
    (s.tree current).bind fun cur =>
      if buf = ['.'] then vfsMkdirLoop depth toks s current
      else if buf = ['.', '.'] then
        match cur.parent with
        | some parent => if cur.kind = .dir then enter parent else some (s, .error .notdir)
        | none => some (s, .error .notdir)
      else
        match vfsChildFind s.tree cur buf with
        | none =>
          vfsMkdirLoop depth toks (doUpdate (vfsNodeAlloc s current buf .dir) s.next) s.next
        | some child => enter child

def vfsMkdir (depth : ℕ) (s : Vfs) (name : List Char) : Option (Vfs × Except VfsError Unit) :=
  if name.head? = some '/' then vfsMkdirLoop depth (pathTokens name.tail) s rootdir
  else some (s, .error .inval)

/-- The directory in which `vfs_mkfile` puts its file. Its type has to be `file_dir` alone. -/
def vfsMkfileDir (depth : ℕ) (s : Vfs) (name : List Char) : Option (Vfs × Option ℕ) :=
  (if dirName name = [] then some (s, some rootdir) else vfsOpen depth s (dirName name)).bind fun r =>
    match r with
    | (s, none) => some (s, none)
    | (s, some parent) =>
      (s.node parent).bind fun nd =>
        some (s, if nd.kind = .dir ∧ ¬ nd.delete ∧ ¬ nd.proxy then some parent else none)

/-- `vfs_mkfile`. It does not look whether there is such a file. -/
def vfsMkfile (depth : ℕ) (s : Vfs) (name : List Char) : Option (Vfs × Except VfsError Unit) :=
  if name.head? = some '/' then
    (vfsMkfileDir depth s name).bind fun r =>
      match r with
      | (s, none) => some (s, .error .noent)
      | (s, some parent) => some (vfsNodeAlloc s parent (fileName name) .none, .ok ())
  else some (s, .error .inval)

/-- The name that `vfs_symlink` gives a link. A slash at the start of the path is not looked at. -/
def symlinkName (path : List Char) : List Char :=
  if dirName path = [] then path else fileName path

/-- The loop of `vfs_symlink` over the directories of its path. It makes those that are missing, and
fails at a link. -/
def vfsSymlinkLoop : List (List Char × Bool) → Vfs → ℕ → Option (Vfs × Option ℕ)
  | [], s, current => some (s, some current)
  | (buf, _) :: toks, s, current =>
    (s.tree current).bind fun cur =>
      if buf = ['.'] then vfsSymlinkLoop toks s current
      else if buf = ['.', '.'] then
        match cur.parent with
        | some parent =>
          if cur.kind = .dir then vfsSymlinkLoop toks s parent else some (s, none)
        | none => some (s, none)
      else
        match vfsChildFind s.tree cur buf with
        | none => vfsSymlinkLoop toks (doUpdate (vfsNodeAlloc s current buf .dir) s.next) s.next
        | some child =>
          (s.tree child).bind fun nd =>
            if nd.kind = .dir then vfsSymlinkLoop toks (doUpdate s child) child
            else some (doUpdate s child, none)

/-- The directory in which `vfs_symlink` puts its link. It reads before the path of an empty name. -/
def vfsSymlinkDir (s : Vfs) (name : List Char) : Option (Vfs × Option ℕ) :=
  if name.tail = [] then none
  else vfsSymlinkLoop (pathTokens (dirName name.tail)) s rootdir

/-- `vfs_symlink`. A target that exists is kept with its path. -/
def vfsSymlink (depth : ℕ) (s : Vfs) (name target : List Char) :
    Option (Vfs × Except VfsError Unit) :=
  (vfsSymlinkDir s name).bind fun r =>
    match r with
    | (s, none) => some (s, .error .io)
    | (s, some current) =>
      (s.tree current).bind fun _ =>
        (vfsOpen depth (vfsNodeAlloc s current (symlinkName name.tail) .symlink) target).bind
          fun r =>
            some (r.1.modify s.next fun nd =>
              { nd with linkto := r.2, linktoPath := some target }, .ok ())

def vfsDirHasLiveChild (s : Vfs) (dir : VfsNode) : Bool :=
  dir.child.any fun c => (s.node c).any fun nd => ! nd.delete

def vfsDelete (s : Vfs) (n : ℕ) : Option (Vfs × Except VfsError Unit) :=
  (s.node n).bind fun nd =>
    if n = rootdir then some (s, .error .inval)
    else if nd.kind = .dir ∧ vfsDirHasLiveChild s nd then some (s, .error .notempty)
    else
      let s := s.modify n fun nd => { nd with delete := true }
      match nd.parent with
      | none => some (s, .ok ())
      | some parent =>
        (s.node parent).bind fun _ =>
          some (s.modify parent fun pd => { pd with child := pd.child.erase n }, .ok ())

inductive VfsOp
  | mkdir (name : List Char)
  | mkfile (name : List Char)
  | symlink (name target : List Char)
  | delete (n : ℕ)

def vfsStep (depth : ℕ) (s : Vfs) : VfsOp → Option Vfs
  | .mkdir name => (vfsMkdir depth s name).map Prod.fst
  | .mkfile name => (vfsMkfile depth s name).map Prod.fst
  | .symlink name target => (vfsSymlink depth s name target).map Prod.fst
  | .delete n => (vfsDelete s n).map Prod.fst

end CoolPotOS
