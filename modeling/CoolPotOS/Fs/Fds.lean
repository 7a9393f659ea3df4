import CoolPotOS.Fs.VfsTree

namespace CoolPotOS

/-- The tree, and the table of each process. A descriptor is the node that it refers to. The paths
that the calls are given are absolute. -/
structure Files where
  vfs : Vfs
  fdts : List (List (Option ℕ))

def decRef (refcount : ℕ) : ℕ := (refcount + (2 ^ 32 - 1)) % 2 ^ 32

/-- The release of a node by `vfs_close`, which reads its parent. A file has no children, and `rmdir`
refuses a directory that has. -/
def vfsDestroy (s : Vfs) (n : ℕ) (nd : VfsNode) : Option Vfs :=
  nd.parent.bind fun parent =>
    (s.node parent).bind fun _ =>
      if nd.child = [] then
        let s := s.modify parent fun pd => { pd with child := pd.child.erase n }
        some { s with node := Function.update s.node n none }
      else none

def vfsClose (s : Vfs) (n : ℕ) : Option Vfs :=
  if n = rootdir then some s
  else
    (s.node n).bind fun nd =>
      let s := s.modify n fun nd => { nd with refcount := decRef nd.refcount }
      if nd.proxy then some s
      else if nd.kind = .dir then
        if ¬ nd.delete ∨ vfsDirHasLiveChild s nd then some s else vfsDestroy s n nd
      else if decRef nd.refcount ≠ 0 ∨ ¬ nd.delete then some s
      else vfsDestroy s n nd

def fdInitialCapacity : ℕ := 5

def findFreeFd (fdt : List (Option ℕ)) : Option ℕ := fdt.findIdx? Option.isNone

def expandFdsTable (fdt : List (Option ℕ)) (alloc : Bool) : Option (List (Option ℕ)) :=
  let newLen := if fdt.length * 2 = 0 then fdInitialCapacity else fdt.length * 2
  if alloc then some (fdt ++ List.replicate (newLen - fdt.length) none) else none

def addFd (fdt : List (Option ℕ)) (node : ℕ) (alloc : Bool) : Option (List (Option ℕ) × ℕ) :=
  match findFreeFd fdt with
  | some fd => some (fdt.set fd (some node), fd)
  | none =>
    (expandFdsTable fdt alloc).bind fun fdt =>
      (findFreeFd fdt).map fun fd => (fdt.set fd (some node), fd)

def ensureFdtCapacity (fdt : List (Option ℕ)) (expectFd : ℕ) (alloc : Bool) :
    Option (List (Option ℕ)) :=
  if expectFd < fdt.length then some fdt
  else
    let newLen := if fdt.length * 2 = 0 then fdInitialCapacity else fdt.length * 2
    let newLen := if newLen ≤ expectFd then expectFd + 1 else newLen
    if alloc then some (fdt ++ List.replicate (newLen - fdt.length) none) else none

def getFd (fdt : List (Option ℕ)) (fd : ℕ) : Option ℕ := fdt[fd]?.join

/-- The end of `sys_open`: a descriptor of the node, which is closed again when the table cannot
grow. -/
def openFd (s : Vfs) (fdts : List (List (Option ℕ))) (pid node : ℕ) (alloc : Bool) :
    Option (Files × Option ℕ) :=
  fdts[pid]?.bind fun fdt =>
    match addFd fdt node alloc with
    | some (fdt, fd) => some (⟨s, fdts.set pid fdt⟩, some fd)
    | none => (vfsClose s node).map fun s => (⟨s, fdts⟩, none)

/-- `sys_open`. A missing file is made under `O_CREAT`, as a directory when the mode has the bit of
`O_DIRECTORY`. -/
def sysOpen (depth : ℕ) (fs : Files) (pid : ℕ) (path : List Char) (create directory alloc : Bool) :
    Option (Files × Option ℕ) :=
  (vfsOpen depth fs.vfs (normalizePath path)).bind fun r =>
    match r with
    | (s, some node) => openFd s fs.fdts pid node alloc
    | (s, none) =>
      if create then
        (if directory then vfsMkdir depth s (normalizePath path)
          else vfsMkfile depth s (normalizePath path)).bind fun r =>
          (vfsOpen depth r.1 (normalizePath path)).bind fun r =>
            match r with
            | (s, some node) => openFd s fs.fdts pid node alloc
            | (s, none) => some (⟨s, fs.fdts⟩, none)
      else some (⟨s, fs.fdts⟩, none)

def sysClose (fs : Files) (pid fd : ℕ) : Option Files :=
  fs.fdts[pid]?.bind fun fdt =>
    match getFd fdt fd with
    | none => some fs
    | some node =>
      (vfsClose fs.vfs node).map fun s => ⟨s, fs.fdts.set pid (fdt.set fd none)⟩

def fdDup (s : Vfs) (node : ℕ) : Option Vfs := (s.node node).map fun _ => incRef s node

/-- `sys_dup`. When the table cannot grow, the descriptor is lost. -/
def sysDup (fs : Files) (pid fd : ℕ) (alloc : Bool) : Option Files :=
  fs.fdts[pid]?.bind fun fdt =>
    match getFd fdt fd with
    | none => some fs
    | some node =>
      (fdDup fs.vfs node).map fun s =>
        match addFd fdt node alloc with
        | some (fdt, _) => ⟨s, fs.fdts.set pid fdt⟩
        | none => ⟨s, fs.fdts⟩

/-- The part of `sys_dup2` that closes the descriptor in the way. -/
def closeFd (s : Vfs) (fdt : List (Option ℕ)) (fd : ℕ) : Option (Vfs × List (Option ℕ)) :=
  match getFd fdt fd with
  | none => some (s, fdt)
  | some node => (vfsClose s node).map fun s => (s, fdt.set fd none)

def sysDup2 (fs : Files) (pid fd newfd : ℕ) (alloc : Bool) : Option Files :=
  fs.fdts[pid]?.bind fun fdt =>
    match getFd fdt fd with
    | none => some fs
    | some node =>
      if fd = newfd then some fs
      else
        match ensureFdtCapacity fdt newfd alloc with
        | none => some fs
        | some fdt =>
          (closeFd fs.vfs fdt newfd).bind fun r =>
            (fdDup r.1 node).map fun s => ⟨s, fs.fdts.set pid (r.2.set newfd (some node))⟩

def copyFdt : List (Option ℕ) → Vfs → Option Vfs
  | [], s => some s
  | none :: fdt, s => copyFdt fdt s
  | some node :: fdt, s => (fdDup s node).bind (copyFdt fdt)

def forkFds (fs : Files) (pid : ℕ) : Option Files :=
  fs.fdts[pid]?.bind fun fdt => (copyFdt fdt fs.vfs).map fun s => ⟨s, fs.fdts ++ [fdt]⟩

/-- `vfs_delete` and the `vfs_close` that the callers do after it, whatever it returns. -/
def deleteAndClose (s : Vfs) (n : ℕ) : Option Vfs := (vfsDelete s n).bind fun r => vfsClose r.1 n

def sysUnlink (depth : ℕ) (fs : Files) (path : List Char) : Option Files :=
  (vfsOpenNofollow depth fs.vfs (normalizePath path)).bind fun r =>
    match r with
    | (s, none) => some ⟨s, fs.fdts⟩
    | (s, some n) =>
      (s.node n).bind fun nd =>
        (if nd.kind ≠ .dir ∧ ¬ nd.delete ∧ ¬ nd.proxy then deleteAndClose s n
          else vfsClose s n).map fun s => ⟨s, fs.fdts⟩

def sysRmdir (depth : ℕ) (fs : Files) (path : List Char) : Option Files :=
  (vfsOpenNofollow depth fs.vfs (normalizePath path)).bind fun r =>
    match r with
    | (s, none) => some ⟨s, fs.fdts⟩
    | (s, some n) =>
      (s.node n).bind fun nd =>
        (if (nd.kind = .dir ∧ ¬ nd.delete ∧ ¬ nd.proxy) ∧ nd.child = [] then deleteAndClose s n
          else vfsClose s n).map fun s => ⟨s, fs.fdts⟩

inductive FileOp
  | mkdir (name : List Char)
  | mkfile (name : List Char)
  | symlink (name target : List Char)
  | open (pid : ℕ) (path : List Char) (create directory alloc : Bool)
  | close (pid fd : ℕ)
  | dup (pid fd : ℕ) (alloc : Bool)
  | dup2 (pid fd newfd : ℕ) (alloc : Bool)
  | fork (pid : ℕ)
  | unlink (path : List Char)
  | rmdir (path : List Char)

def fileStep (depth : ℕ) (fs : Files) : FileOp → Option Files
  | .mkdir name => (vfsMkdir depth fs.vfs name).map fun r => ⟨r.1, fs.fdts⟩
  | .mkfile name => (vfsMkfile depth fs.vfs name).map fun r => ⟨r.1, fs.fdts⟩
  | .symlink name target => (vfsSymlink depth fs.vfs name target).map fun r => ⟨r.1, fs.fdts⟩
  | .open pid path create directory alloc =>
    (sysOpen depth fs pid path create directory alloc).map Prod.fst
  | .close pid fd => sysClose fs pid fd
  | .dup pid fd alloc => sysDup fs pid fd alloc
  | .dup2 pid fd newfd alloc => sysDup2 fs pid fd newfd alloc
  | .fork pid => forkFds fs pid
  | .unlink path => sysUnlink depth fs path
  | .rmdir path => sysRmdir depth fs path

/-- One process without descriptors, and the tree after `vfs_init`. -/
def Files.boot : Files := ⟨Vfs.boot, [List.replicate fdInitialCapacity none]⟩

/-- The descriptors, of all processes, that refer to a node. -/
def fdCount (fdts : List (List (Option ℕ))) (n : ℕ) : ℕ :=
  (fdts.map fun fdt => fdt.count (some n)).sum

end CoolPotOS
