import CoolPotOS.Fs.Fds
import CoolPotOS.Fs.VfsLookup

namespace CoolPotOS

/-- `procSelf` is `proc_self`; `other` is one whose `mount` and `unmount` are `dummy`, such as `sockfs`. -/
inductive FsType
  | tmpfs | devtmpfs | sysfs | proc | procSelf | pipefs | overlayfs | other
  deriving DecidableEq

/-- The nodes, and for each node its `is_mount`, `root` and `fsid`, and whether it has a `handle`.
`top` is the variable `rootdir`. `removed` is not in the source: it records the nodes that
`vfs_delete` has removed. What `mount` of a file system finds to make nodes for is an argument of
the model, and so is what `vfs_cwd_path_build` makes of a path. -/
structure Mounts where
  vfs : Vfs
  top : ℕ
  isMount : ℕ → Bool
  root : ℕ → ℕ
  fsid : ℕ → FsType
  handle : ℕ → Bool
  pipefsRoot : Bool
  removed : ℕ → Bool

/-- The root, which `tmpfs` is mounted on. -/
def Mounts.boot : Mounts where
  vfs := Vfs.boot
  top := rootdir
  isMount := fun n => n = rootdir
  root := fun _ => rootdir
  fsid := fun _ => .tmpfs
  handle := fun _ => true
  pipefsRoot := false
  removed := fun _ => false

def Tree.parentOf (t : Tree) (n : ℕ) : Option ℕ := (t n).bind TreeNode.parent

def Tree.childOf (t : Tree) (n : ℕ) : List ℕ := (t n).elim [] TreeNode.child

/-- What `vfs_node_alloc` copies from the parent of a node, for the nodes from `first` on. -/
def inherit {α : Type} (t : Tree) (first next : ℕ) (f : ℕ → α) : ℕ → α :=
  (List.range' first (next - first)).foldl
    (fun f n => Function.update f n (f ((t.parentOf n).getD n))) f

def Mounts.grow (s : Mounts) (v : Vfs) : Mounts :=
  { s with
    vfs := v
    root := inherit v.tree s.vfs.next v.next s.root
    fsid := inherit v.tree s.vfs.next v.next s.fsid }

inductive MountError
  | inval | noent | notdir | busy | nodev
  deriving DecidableEq

/-- A node that a `mount` makes: below the mount point, or below one that it has made before. -/
structure MadeNode where
  below : Option ℕ
  name : List Char
  kind : FileKind
  linktoPath : Option (List Char)

def FsType.made (made : List MadeNode) : FsType → List MadeNode
  | .devtmpfs | .sysfs => made
  | .proc => ⟨none, ['s', 'e', 'l', 'f'], .symlink, none⟩ :: made
  | .tmpfs | .procSelf | .pipefs | .overlayfs | .other => []

/-- The `mount` of the file system gives the node a handle. -/
def FsType.setsHandle : FsType → Bool
  | .tmpfs | .devtmpfs | .sysfs | .pipefs | .overlayfs => true
  | .proc | .procSelf | .other => false

/-- The nodes that a `mount` makes, where `first` is the first of them. -/
def mountFill (n first : ℕ) : List MadeNode → Mounts → Option Mounts
  | [], s => some s
  | m :: made, s =>
    let parent := m.below.elim n (first + ·)
    (s.vfs.node parent).bind fun pd =>
      if pd.kind = .dir then
        mountFill n first made (s.grow ((vfsNodeAlloc s.vfs parent m.name m.kind).modify s.vfs.next
          fun nd => { nd with linktoPath := m.linktoPath }))
      else none

/-- `overlay_rebind_tree`. -/
def overlayRebindTree (root : ℕ) : ℕ → Mounts → ℕ → Option Mounts
  | 0, _, _ => none
  | depth + 1, s, n =>
    (s.vfs.node n).bind fun nd =>
      nd.child.foldlM
        (fun s c =>
          (s.vfs.node c).bind fun _ =>
            overlayRebindTree root depth
              { s with vfs := s.vfs.modify c fun cd => { cd with parent := some n } } c)
        { s with root := Function.update s.root n root }

/-- `overlay_capture_lower_root`, whose node is `s.vfs.next`. -/
def overlayCaptureLowerRoot (depth : ℕ) (s : Mounts) (n : ℕ) : Option Mounts :=
  (s.vfs.node n).bind fun nd =>
    let lower := s.vfs.next
    (overlayRebindTree lower depth
      { s with
        vfs :=
          { s.vfs with
            node := Function.update s.vfs.node lower (some { nd with parent := none, refcount := 1 })
            next := lower + 1 }
        isMount := Function.update s.isMount lower (s.isMount n)
        fsid := Function.update s.fsid lower (s.fsid n)
        handle := Function.update s.handle lower (s.handle n) } lower).map fun s =>
      { s with vfs := s.vfs.modify n fun nd => { nd with child := [] } }

/-- `overlay_mount`. -/
def Mounts.overlayMount (depth : ℕ) (s : Mounts) (n : ℕ) (src : List Char) :
    Option (Mounts × Except MountError Unit) :=
  (vfsOpen depth s.vfs src).bind fun r =>
    match r with
    | (v, none) => some ({ s with vfs := v }, .error .noent)
    | (v, some upper) =>
      (v.node upper).bind fun upperNode =>
        if upperNode.kind ≠ .dir then some ({ s with vfs := doUpdate v upper }, .error .notdir)
        else
          (overlayCaptureLowerRoot depth { s with vfs := doUpdate v upper } n).map fun s =>
            ({ s with
              vfs := s.vfs.modify n fun nd => { nd with linkto := none }
              handle := Function.update s.handle n true }, .ok ())

/-- The `mount` of a file system other than `overlayfs`. The link `self` of `proc` has one of its own. -/
def fsMount (s : Mounts) (n : ℕ) (fs : FsType) (made : List MadeNode) :
    Option (Mounts × Except MountError Unit) :=
  if fs = .pipefs ∧ s.pipefsRoot then some (s, .error .busy)
  else
    (mountFill n s.vfs.next (fs.made made)
      { s with
        fsid := Function.update s.fsid n fs
        handle := Function.update s.handle n (fs.setsHandle || s.handle n)
        pipefsRoot := s.pipefsRoot || fs = .pipefs }).map fun s' =>
      ({ s' with
        fsid := if fs = .proc then Function.update s'.fsid s.vfs.next .procSelf else s'.fsid }, .ok ())

/-- `vfs_mount`. `fs` is `none` for a type that is not registered. -/
def vfsMount (depth : ℕ) (s : Mounts) (n : ℕ) (fs : Option FsType) (src : List Char)
    (made : List MadeNode) : Option (Mounts × Except MountError Unit) :=
  (s.vfs.node n).bind fun nd =>
    if nd.kind ≠ .dir ∨ nd.delete ∨ nd.proxy then some (s, .error .inval)
    else if s.isMount n then some (s, .error .busy)
    else
      match fs with
      | none => some (s, .error .nodev)
      | some fs =>
        (if fs = .overlayfs then s.overlayMount depth n src else fsMount s n fs made).map fun r =>
          match r with
          | (s, .error e) => (s, .error e)
          | (s, .ok ()) =>
            ({ s with
              fsid := Function.update s.fsid n fs
              root := Function.update s.root n n
              isMount := Function.update s.isMount n true }, .ok ())

/-- `vfs_close`. It does no more than decrement the count of a node without a handle. -/
def Mounts.close (s : Mounts) (n : ℕ) : Option Mounts :=
  if n = s.top then some s
  else if s.handle n ∧ n ≠ rootdir then
    (vfsClose s.vfs n).map fun v => { s with vfs := v }
  else
    (s.vfs.node n).map fun _ =>
      { s with vfs := s.vfs.modify n fun nd => { nd with refcount := decRef nd.refcount } }

def Mounts.release (s : Mounts) (n : ℕ) : Mounts :=
  { s with vfs := { s.vfs with node := Function.update s.vfs.node n none } }

def vfsFree : ℕ → Mounts → ℕ → Option Mounts
  | 0, _, _ => none
  | depth + 1, s, n =>
    (s.vfs.node n).bind fun nd =>
      (nd.child.foldlM (vfsFree depth) s).bind fun s =>
        (s.close n).bind fun s => (s.vfs.node n).map fun _ => s.release n

/-- The `unmount` of a file system, and what `vfs_unmount` does after it with a mount point in `p`.
`tmpfs_umount` and `devtmpfs_umount` free the mount point, with the list of children that
`vfs_unmount` has freed; the fields that are then set in it are lost. No step comes after the mount of an
overlay. -/
def fsUnmount (depth : ℕ) (s : Mounts) (n p : ℕ) (child : List ℕ) : Option Mounts :=
  match s.fsid n with
  | .sysfs | .proc | .procSelf | .pipefs | .other =>
    (s.vfs.node p).map fun _ =>
      { s with
        vfs := s.vfs.modify n fun nd => { nd with child := [] }
        fsid := Function.update s.fsid n (s.fsid p)
        root := Function.update s.root n (s.root p)
        handle := Function.update s.handle n false
        isMount := Function.update s.isMount n false }
  | .tmpfs | .devtmpfs => if child = [] then vfsFree depth s n else none
  | .overlayfs => none

def vfsUnmount (depth : ℕ) (s : Mounts) (path : List Char) :
    Option (Mounts × Except MountError Unit) :=
  (vfsOpen depth s.vfs path).bind fun r =>
    match r with
    | (v, none) => some ({ s with vfs := v }, .error .inval)
    | (v, some n) =>
      (v.node n).bind fun nd =>
        if nd.kind ≠ .dir ∨ nd.delete ∨ nd.proxy then some ({ s with vfs := v }, .error .notdir)
        else
          match nd.parent with
          | none => some ({ s with vfs := v }, .error .noent)
          | some p =>
            if s.root n = n then
              (nd.child.foldlM (vfsFree depth) { s with vfs := v }).bind fun s =>
                (fsUnmount depth s n p nd.child).map fun s => (s, .ok ())
            else some ({ s with vfs := v }, .error .noent)

/-- `list_append` to the list of a parent. -/
def listAppend (parent : Option ℕ) (c : ℕ) (s : Vfs) : Option Vfs :=
  parent.bind fun p =>
    (s.node p).map fun _ => s.modify p fun pd => { pd with child := pd.child ++ [c] }

/-- `list_delete` from the list of a parent. -/
def listDelete (parent : Option ℕ) (c : ℕ) (s : Vfs) : Option Vfs :=
  parent.bind fun p =>
    (s.node p).map fun _ => s.modify p fun pd => { pd with child := pd.child.erase c }

/-- The exchange of `dir` and `oldRoot` under `MS_MOVE`. -/
def moveExchange (s : Mounts) (dir oldRoot : ℕ) (dirNode oldNode : VfsNode) : Option Mounts :=
  (if dir = s.top then some s.vfs else listAppend dirNode.parent oldRoot s.vfs).bind fun v =>
    let v := v.modify oldRoot fun nd => { nd with name := dirNode.name }
    let v := v.modify dir fun nd => { nd with name := oldNode.name }
    (listAppend oldNode.parent dir v).bind fun v =>
      (listDelete oldNode.parent oldRoot v).bind fun v =>
        (if dir = s.top then some v else listDelete dirNode.parent dir v).map fun v =>
          let v := v.modify dir fun nd => { nd with parent := oldNode.parent }
          let v := v.modify oldRoot fun nd => { nd with parent := dirNode.parent }
          { s with vfs := v, top := if dir = s.top then oldRoot else s.top }

/-- `mount` under `MS_MOVE`. `remount` is whether there is `MS_REMOUNT` or `MS_BIND`. -/
def msMove (depth : ℕ) (s : Mounts) (devName dirName : List Char) (remount : Bool) :
    Option (Mounts × Except MountError Unit) :=
  (vfsOpen depth s.vfs dirName).bind fun r =>
    match r with
    | (v, none) => some ({ s with vfs := v }, .error .noent)
    | (v, some dir) =>
      if remount then some ({ s with vfs := v }, .error .inval)
      else
        (vfsOpen depth v devName).bind fun r =>
          match r with
          | (v, none) => some ({ s with vfs := v }, .error .inval)
          | (v, some oldRoot) =>
            if s.isMount oldRoot then
              (v.node dir).bind fun dirNode =>
                (v.node oldRoot).bind fun oldNode =>
                  (moveExchange { s with vfs := v } dir oldRoot dirNode oldNode).bind fun s =>
                    (s.close oldRoot).bind fun s => (s.close dir).map fun s => (s, .ok ())
            else some ({ s with vfs := v }, .error .inval)

def sysMount (depth : ℕ) (s : Mounts) (dirName : List Char) (fs : Option FsType) (src : List Char)
    (made : List MadeNode) : Option (Mounts × Except MountError Unit) :=
  (vfsOpen depth s.vfs dirName).bind fun r =>
    match r with
    | (v, none) => some ({ s with vfs := v }, .error .noent)
    | (v, some dir) => vfsMount depth { s with vfs := v } dir fs src made

inductive MountOp
  | call (op : VfsOp)
  | mount (dirName : List Char) (fs : Option FsType) (src : List Char) (made : List MadeNode)
  | unmount (path : List Char)
  | move (devName dirName : List Char) (remount : Bool)

def callStep (depth : ℕ) (s : Mounts) : VfsOp → Option Mounts
  | .delete n =>
    (vfsDelete s.vfs n).map fun r =>
      { s with
        vfs := r.1
        removed := if r.2 = .ok () then Function.update s.removed n true else s.removed }
  | op => (vfsStep depth s.vfs op).map s.grow

def Found.nodes (r : Found) : List ℕ := r.elim [] Prod.snd

/-- The nodes that were there before and that `vfs_mkdir` updates. -/
def mkdirNodes (depth : ℕ) : List (List Char × Bool) → Vfs → ℕ → List ℕ
  | [], _, _ => []
  | (buf, _) :: toks, s, current =>
    let enter (next : ℕ) :=
      let link := resolveLink (lookup depth s.tree) s.tree next
      next :: (if (s.tree next).any fun nd => nd.kind = .symlink then
          link.nodes ++ (link.bind Prod.fst).toList
        else []) ++
        match vfsMkdirEnter depth s next with
        | some (s, some current) => mkdirNodes depth toks s current
        | _ => []
    (s.tree current).elim [] fun cur =>
      if buf = ['.'] then mkdirNodes depth toks s current
      else if buf = ['.', '.'] then cur.parent.elim [] enter
      else
        match vfsChildFind s.tree cur buf with
        | none => mkdirNodes depth toks (doUpdate (vfsNodeAlloc s current buf .dir) s.next) s.next
        | some child => enter child

/-- The nodes that were there before and that the loop of `vfs_symlink` updates. -/
def symlinkNodes : List (List Char × Bool) → Vfs → ℕ → List ℕ
  | [], _, _ => []
  | (buf, _) :: toks, s, current =>
    (s.tree current).elim [] fun cur =>
      if buf = ['.'] then symlinkNodes toks s current
      else if buf = ['.', '.'] then cur.parent.elim [] (symlinkNodes toks s)
      else
        match vfsChildFind s.tree cur buf with
        | none => symlinkNodes toks (doUpdate (vfsNodeAlloc s current buf .dir) s.next) s.next
        | some child => child :: symlinkNodes toks (doUpdate s child) child

/-- The nodes that the lookups of a call update. -/
def MountOp.updates (depth : ℕ) (s : Mounts) : MountOp → List ℕ
  | .call (.mkdir name) => mkdirNodes depth (pathTokens name.tail) s.vfs rootdir
  | .call (.mkfile name) => (lookup depth s.vfs.tree (dirName name)).nodes
  | .call (.symlink name target) =>
    symlinkNodes (pathTokens (dirName name.tail)) s.vfs rootdir ++
      match vfsSymlinkDir s.vfs name with
      | some (v, some current) =>
        (lookup depth (vfsNodeAlloc v current (symlinkName name.tail) .symlink).tree target).nodes
      | _ => []
  | .call (.delete _) => []
  | .mount dirName _ src _ =>
    (lookup depth s.vfs.tree dirName).nodes ++ (lookup depth s.vfs.tree src).nodes
  | .unmount path => (lookup depth s.vfs.tree path).nodes
  | .move devName dirName _ =>
    (lookup depth s.vfs.tree dirName).nodes ++ (lookup depth s.vfs.tree devName).nodes

/-- The call updates a link `self` of `proc`, whose `procfs_self_open` takes it out of its list and puts a new
one in its place. -/
def MountOp.OpensSelf (depth : ℕ) (s : Mounts) (op : MountOp) : Prop :=
  ∃ n ∈ op.updates depth s, s.fsid n = .procSelf

instance (depth : ℕ) (s : Mounts) (op : MountOp) : Decidable (op.OpensSelf depth s) :=
  inferInstanceAs (Decidable (∃ n ∈ op.updates depth s, s.fsid n = .procSelf))

def Mounts.overlaid (s : Mounts) : Bool := (List.range s.vfs.next).any fun n => s.fsid n = .overlayfs

/-- A step. Lookups start at the first root, so a run ends when a move has put another in its
place. They know the callbacks of neither `overlayfs` nor `proc_self`, so it also ends when an overlay is mounted or
a call comes to a link `self`. -/
def mountStep (depth : ℕ) (s : Mounts) (op : MountOp) : Option Mounts :=
  if s.top = rootdir ∧ s.overlaid = false ∧ ¬ op.OpensSelf depth s then
    match op with
    | .call op => callStep depth s op
    | .mount dirName fs src made => (sysMount depth s dirName fs src made).map Prod.fst
    | .unmount path => (vfsUnmount depth s path).map Prod.fst
    | .move devName dirName remount => (msMove depth s devName dirName remount).map Prod.fst
  else none

end CoolPotOS
