import CoolPotOS.Fs.VfsFollow
import CoolPotOS.Fs.VfsLink
import CoolPotOS.Fs.VfsReturns

namespace CoolPotOS

open List Option

inductive RenameError
  | inval | fault | noent
  deriving DecidableEq

def getParentPath (path : List Char) : List Char :=
  if '/' ∈ path then
    if dirName path = [] then ['/'] else dirName path
  else ['.']

/-- `vfs_cwd_path_build`, in a process whose directory is `cwd`. -/
def vfsCwdPathBuild (t : Tree) (cwd : ℕ) (src : List Char) : Option (List Char) :=
  if src.head? = some '/' then some (normalizePath src)
  else (vfsGetFullpath t cwd).map fun bpath => normalizePath (pathacat bpath src)

/-- The errors `EPERM` and `ENOSYS` of a file system. -/
inductive FsError
  | perm | nosys
  deriving DecidableEq

/-- The `rename` callback of the file system of a node. -/
inductive RenameCallback
  | tmpfsRename
  | devtmpfsRename (device : Bool)
  | overlayRename
  | dummy
  deriving DecidableEq

/-- `vfs_rename`. A callback that succeeds changes no more than the name that the file keeps for itself. -/
def vfsRename : RenameCallback → Except FsError Unit
  | .tmpfsRename => .ok ()
  | .devtmpfsRename device => if device then .error .perm else .ok ()
  | .overlayRename => .error .nosys
  | .dummy => .ok ()

/-- What the call makes of the answer of the file system. -/
def renameRet : Except FsError Unit → Except RenameError Unit
  | .ok () => .ok ()
  | .error _ => .error .noent

/-- The end of the call: it opens the directory of the new path, and closes it again. -/
def renameParent (depth : ℕ) (s : Vfs) (nnewpath : List Char) (ret : Except RenameError Unit) :
    Option (Vfs × Except RenameError Unit) :=
  (vfsOpen depth s (getParentPath nnewpath)).bind fun r =>
    match r with
    | (s, none) => some (s, .error .noent)
    | (s, some parentDir) => (vfsClose s parentDir).map fun s => (s, ret)

/-- The call behind the checks of its arguments. What `vfs_delete` returns is not looked at. -/
def renameNodes (callback : ℕ → RenameCallback) (depth : ℕ) (s : Vfs) (noldpath nnewpath : List Char) :
    Option (Vfs × Except RenameError Unit) :=
  (vfsOpen depth s noldpath).bind fun r =>
    match r with
    | (s, none) => some (s, .error .noent)
    | (s, some oldnode) =>
      (vfsOpen depth s nnewpath).bind fun r =>
        (match r with
          | (s, none) => some s
          | (s, some newnode) => (vfsDelete s newnode).map Prod.fst).bind fun s =>
          renameParent depth s nnewpath (renameRet (vfsRename (callback oldnode)))

/-- The `rename` call. A NULL path is `none`, and `user` says for each path whether it lies in the
memory of the user. `callback` gives the file system of each node. -/
def sysRename (callback : ℕ → RenameCallback) (depth cwd : ℕ) (s : Vfs) (oldpath newpath : Option (List Char))
    (user : Bool × Bool) : Option (Vfs × Except RenameError Unit) :=
  match oldpath, newpath with
  | some oldpath, some newpath =>
    if ¬ user.1 then some (s, .error .fault)
    else if ¬ user.2 then some (s, .error .fault)
    else
      (vfsCwdPathBuild s.tree cwd oldpath).bind fun noldpath =>
        (vfsCwdPathBuild s.tree cwd newpath).bind fun nnewpath =>
          renameNodes callback depth s noldpath nnewpath
  | _, _ => some (s, .error .inval)

def SameNodes (s s' : Vfs) : Prop :=
  ∀ path n, PathOpens s' path (some n) ↔ PathOpens s path (some n)

def ExtendsPath (path path' : List Char) : Prop :=
  (pathTokens path.tail).map Prod.fst <+: (pathTokens path'.tail).map Prod.fst

/-- What a rename should do from the tree of `s` to the tree of `s'`. When it returns an error, or both
paths name one node, every path opens what it opened. Else the node is at the new path, the old path
leads nowhere, and the paths that go along neither of them open what they opened. -/
def RenameAtomic (s s' : Vfs) (old new : List Char) : Except RenameError Unit → Prop
  | .error _ => SameNodes s s'
  | .ok () => ∃ o, PathOpens s old (some o) ∧
    (PathOpens s new (some o) → SameNodes s s') ∧
    (¬ PathOpens s new (some o) →
      PathOpens s' new (some o) ∧ (∀ n, ¬ PathOpens s' old (some n)) ∧
        ∀ path, ¬ ExtendsPath old path → ¬ ExtendsPath new path →
          ∀ n, PathOpens s' path (some n) ↔ PathOpens s path (some n))

/-- A path that opens a node leads through the place of this one in its directory. -/
def LeadsThrough (t : Tree) (n : ℕ) : Prop :=
  ∃ depth path m vis, lookup depth t path = some (some m, vis) ∧ n ∈ vis

/-- How often a lookup takes a reference of the node. -/
def followCount (depth : ℕ) (t : Tree) (path : List Char) (n : ℕ) : ℕ :=
  ((followLookup depth t path).map fun r => r.2.count n).getD 0

/-- The directory of the new path is a removed node, which only a link leads to, and to close it releases it: a
directory that is empty, or a file of which the lookups leave no more than the reference that the close gives back. -/
def ReleasesParent (depth : ℕ) (s : Vfs) (old new : List Char) : Prop :=
  ∃ q nd, PathOpens s (getParentPath new) (some q) ∧ q ≠ rootdir ∧ s.node q = some nd ∧ nd.delete = true ∧
    nd.proxy = false ∧ (nd.kind = .dir ∧ nd.child = [] ∨ nd.kind ≠ .dir ∧
      (nd.refcount + followCount depth s.tree old q + followCount depth s.tree new q +
        followCount depth s.tree (getParentPath new) q) % 2 ^ 32 = 1)

def Refuses (callback : RenameCallback) : Prop := ∃ e, vfsRename callback = .error e

/-- The renames that have nothing to do: the old path names nothing; or the new path names nothing, and it has no
directory or the file system refuses, and the directory stays; or the new path names a node which `vfs_delete` refuses
or which no directory leads to any more, and the file system refuses or the old path names the same node. -/
def NothingToRename (callback : ℕ → RenameCallback) (depth : ℕ) (s : Vfs) (old new : List Char) : Prop :=
  PathOpens s old none ∨ ∃ o, PathOpens s old (some o) ∧
    (PathOpens s new none ∧ (PathOpens s (getParentPath new) none ∨
        Refuses (callback o) ∧ ¬ ReleasesParent depth s old new) ∨
      ∃ n, PathOpens s new (some n) ∧ (n = o ∨ Refuses (callback o)) ∧ (¬ Removable s n ∨ ¬ LeadsThrough s.tree n))

def NamesDiffer (s : Vfs) : Prop :=
  ∀ p pd, s.tree p = some pd → (pd.child.map (nameOf s.tree)).Nodup

/-- A list of children holds no node twice, and no removed node. -/
structure ListsLive (s : Vfs) : Prop extends Shape s where
  once : ∀ p pd, s.tree p = some pd → pd.child.Nodup
  unmarked : ∀ p pd c cd, s.tree p = some pd → c ∈ pd.child → s.node c = some cd →
    cd.delete = false

theorem listsLive_boot : ListsLive Vfs.boot := by
  have htree : ∀ n nd, Vfs.boot.tree n = some nd → nd.child = [] := by
    intro n nd h
    unfold Vfs.tree Vfs.boot at h
    simp only [Function.update_apply] at h
    split_ifs at h
    · cases h
      rfl
    · cases h
  refine ⟨shape_boot, ?_, ?_⟩
  · intro p pd hp
    rw [htree p pd hp]
    exact nodup_nil
  · intro p pd c cd hp hc
    rw [htree p pd hp] at hc
    cases hc

variable {s s' : Vfs} {depth n current m : ℕ} {r : Option ℕ} {vis : List ℕ} {res : Except VfsError Unit}
  {t : Tree} {resolve : ℕ → Found} {toks : List (List Char × Bool)} {path : List Char}

theorem ListsLive.touched (h : ListsLive s) (ht : Touched s s') : ListsLive s' := by
  refine ⟨h.toShape.of_tree_eq ht.tree_eq ht.next_eq, ht.tree_eq ▸ h.once, ?_⟩
  intro p pd c cd hp hc hcd
  rw [ht.tree_eq] at hp
  by_contra hd
  obtain ⟨nd, hnd, hdel, -⟩ := ht.removed c cd hcd (by simpa using hd)
  rw [h.unmarked p pd c nd hp hc hnd] at hdel
  cases hdel

theorem ListsLive.append (h : ListsLive s) {p : ℕ} {pd : TreeNode} (hp : s.tree p = some pd)
    (hdir : pd.kind = .dir) (name : List Char) (kind : FileKind) :
    ListsLive (vfsNodeAlloc s p name kind) := by
  have hfree := h.next_free
  have htree := tree_vfsNodeAlloc s p name kind
  have hnew : ∀ q qd, s.tree q = some qd → s.next ∉ qd.child := by
    intro q qd hq hmem
    obtain ⟨nd, hnd, -⟩ := h.child q qd s.next hq hmem
    rw [hfree] at hnd
    cases hnd
  refine ⟨h.toShape.append hp hdir name kind, ?_, ?_⟩
  · intro q qd' hq
    rw [htree] at hq
    obtain ⟨rfl, rfl⟩ | ⟨qd, hqd, rfl⟩ := Tree.append_eq_some hq
    · exact nodup_nil
    · split_ifs
      · exact nodup_cons.mpr ⟨hnew q qd hqd, h.once q qd hqd⟩
      · exact h.once q qd hqd
  · intro q qd' c cd hq hc hcd
    obtain ⟨rfl, rfl⟩ | ⟨nd, hnd, -, -, -, hdel, -⟩ := vfsNodeAlloc_node hcd
    · rfl
    rw [hdel]
    have hne : c ≠ s.next := by
      rintro rfl
      rw [Vfs.tree, hnd] at hfree
      cases hfree
    rw [htree] at hq
    obtain ⟨rfl, rfl⟩ | ⟨qd, hqd, rfl⟩ := Tree.append_eq_some hq
    · cases hc
    · split_ifs at hc
      · exact h.unmarked q qd c nd hqd ((mem_cons.mp hc).resolve_left hne) hnd
      · exact h.unmarked q qd c nd hqd hc hnd

theorem ListsLive.link (h : ListsLive s) {target : List Char}
    (hlookup : lookup depth s.tree target = some (r, vis)) (n : ℕ) :
    ListsLive (s.modify n fun nd => { nd with linkto := r, linktoPath := some target }) := by
  have htree := s.tree_modify n (fun nd => { nd with linkto := r, linktoPath := some target })
    (fun nd => { nd with linkto := r, linktoPath := some target }) (fun _ => rfl)
  have hold : ∀ p pd', (s.modify n fun nd =>
      { nd with linkto := r, linktoPath := some target }).tree p = some pd' →
      ∃ pd, s.tree p = some pd ∧ pd'.child = pd.child := by
    intro p pd' hp
    rw [htree] at hp
    obtain ⟨pd, hpd, rfl⟩ := Tree.modify_eq_some hp
    refine ⟨pd, hpd, ?_⟩
    split_ifs <;> rfl
  refine ⟨h.toShape.link hlookup n, ?_, ?_⟩
  · intro p pd' hp
    obtain ⟨pd, hpd, heq⟩ := hold p pd' hp
    exact heq ▸ h.once p pd hpd
  · intro p pd' c cd' hp hc hcd
    obtain ⟨pd, hpd, heq⟩ := hold p pd' hp
    rw [Vfs.modify_node] at hcd
    split_ifs at hcd with hcn
    · subst hcn
      obtain ⟨cd, hcd', rfl⟩ := map_eq_some_iff.mp hcd
      exact h.unmarked p pd c cd hpd (heq ▸ hc) hcd'
    · exact h.unmarked p pd c cd' hpd (heq ▸ hc) hcd

theorem listsLive_growing (depth : ℕ) : Growing depth (fun _ _ _ => True) ListsLive := by
  constructor
  · exact fun s h => h.toShape.root_kind
  · exact fun s n nd p pd h => h.toShape.parent_kind
  · exact fun s s' ht h => h.touched ht
  · exact fun s p pd name kind h hp hdir _ _ => h.append hp hdir name kind
  · intro s p pd name target s' r h hp hdir _ hopen
    obtain ⟨ht, vis, hlookup⟩ := vfsOpen_lookup hopen
    exact ((h.append hp hdir name .symlink).touched ht).link (ht.tree_eq ▸ hlookup) s.next

theorem vfsDelete_removable (h : ListsLive s) (hn : Removable s n) (hdelete : vfsDelete s n = some (s', res)) :
    ∃ p, s'.next = s.next ∧ (s'.tree = s.tree.modify p fun pd => { pd with child := pd.child.erase n }) ∧
      (∀ q qd, s'.tree q = some qd → n ∉ qd.child) ∧
      ∀ m md', m ≠ n → s'.node m = some md' → ∃ md, s.node m = some md ∧ md'.delete = md.delete := by
  have hmarks : ∀ m md', m ≠ n → s'.node m = some md' →
      ∃ md, s.node m = some md ∧ md'.delete = md.delete := by
    intro m md' hm hmd'
    obtain ⟨md, hmd, -, -, -, -, -, -, hdel⟩ := vfsDelete_node hdelete hmd'
    exact ⟨md, hmd, hdel (.inl hm)⟩
  obtain ⟨hroot, hempty⟩ := hn
  unfold vfsDelete at hdelete
  obtain ⟨nd, hnd, hw⟩ := bind_eq_some_iff.mp hdelete
  rw [if_neg hroot, if_neg (hempty nd hnd)] at hw
  have hnd' : s.tree n = some nd.toTreeNode := Vfs.tree_eq_some.mpr ⟨nd, hnd, rfl⟩
  obtain ⟨p, pd, hp, -⟩ := h.parent n nd.toTreeNode hnd' hroot
  rw [hp] at hw
  obtain ⟨_, -, hw⟩ := bind_eq_some_iff.mp hw
  cases hw
  have hmark := s.tree_modify_of_keeps n (fun nd => { nd with delete := true }) (fun _ => rfl)
  have htree := Vfs.tree_modify (s.modify n fun nd => { nd with delete := true }) p
    (fun pd => { pd with child := pd.child.erase n }) (fun pd => { pd with child := pd.child.erase n })
    (fun _ => rfl)
  rw [hmark] at htree
  refine ⟨p, rfl, htree, ?_, hmarks⟩
  intro q qd' hq hmem
  rw [htree] at hq
  obtain ⟨qd, hqd, rfl⟩ := Tree.modify_eq_some hq
  split_ifs at hmem with hqp
  · exact (h.once q qd hqd).not_mem_erase hmem
  · obtain ⟨md, hmd, hpar⟩ := h.child q qd n hqd hmem
    rw [hnd'] at hmd
    cases hmd
    rw [hp] at hpar
    exact hqp (Option.some.inj hpar).symm

theorem ListsLive.delete (h : ListsLive s) (hdelete : vfsDelete s n = some (s', res)) : ListsLive s' := by
  by_cases hn : Removable s n
  · have hshape := h.toShape.delete hdelete
    obtain ⟨p, -, htree, hout, hmarks⟩ := vfsDelete_removable h hn hdelete
    have hold : ∀ q qd', s'.tree q = some qd' →
        ∃ qd, s.tree q = some qd ∧ qd'.child.Sublist qd.child := by
      intro q qd' hq
      rw [htree] at hq
      obtain ⟨qd, hqd, rfl⟩ := Tree.modify_eq_some hq
      refine ⟨qd, hqd, ?_⟩
      split_ifs
      · exact erase_sublist
      · exact List.Sublist.refl _
    refine ⟨hshape, ?_, ?_⟩
    · intro q qd' hq
      obtain ⟨qd, hqd, hsub⟩ := hold q qd' hq
      exact (h.once q qd hqd).sublist hsub
    · intro q qd' c cd' hq hc hcd'
      obtain ⟨qd, hqd, hsub⟩ := hold q qd' hq
      have hne : c ≠ n := fun hcn => hout q qd' hq (hcn ▸ hc)
      obtain ⟨cd, hcd, hdel⟩ := hmarks c cd' hne hcd'
      exact hdel.trans (h.unmarked q qd c cd hqd (hsub.subset hc) hcd)
  · rw [vfsDelete_of_not_removable hn hdelete]
    exact h

theorem listsLive_of_run {ops : List VfsOp} (hrun : Runs.run (vfsStep depth) ops Vfs.boot = some s) :
    ListsLive s := by
  have hstep : ∀ s op s', ListsLive s → True → vfsStep depth s op = some s' → ListsLive s' := by
    intro s op s' h _ hstep
    apply (listsLive_growing depth).step_keeps (fun _ _ _ _ _ => trivial) h _ (fun n res _ => h.delete) hstep
    cases op with
    | mkdir _ => trivial
    | mkfile _ => exact fun _ _ _ _ _ _ _ => trivial
    | symlink _ _ => exact fun _ _ _ _ _ _ => trivial
    | delete _ => trivial
  exact Runs.run_keeps hstep listsLive_boot (Runs.meets_true ops _) hrun

theorem ListsLive.hasLiveChild (h : ListsLive s) {td : TreeNode} {nd : VfsNode} (htd : s.tree n = some td)
    (hchild : nd.child = td.child) : vfsDirHasLiveChild s nd = true ↔ nd.child ≠ [] := by
  unfold vfsDirHasLiveChild
  constructor
  · intro hlive hempty
    rw [hempty] at hlive
    cases hlive
  · intro hne
    obtain ⟨c, hc⟩ := exists_mem_of_ne_nil _ hne
    rw [hchild] at hc
    obtain ⟨_, hcd', -⟩ := h.child n td c htd hc
    obtain ⟨cd, hcd, rfl⟩ := Vfs.tree_eq_some.mp hcd'
    refine List.any_eq_true.mpr ⟨c, hchild ▸ hc, ?_⟩
    rw [hcd, any_some, h.unmarked n td c cd htd hc hcd]
    rfl

theorem ListsLive.removable_iff (h : ListsLive s) (n : ℕ) :
    Removable s n ↔ n ≠ rootdir ∧ ∀ nd ∈ s.tree n, ¬ (nd.kind = .dir ∧ nd.child ≠ []) := by
  unfold Removable
  refine and_congr_right fun _ => ?_
  constructor
  · intro hempty nd hnd
    obtain ⟨vd, hvd, rfl⟩ := Vfs.tree_eq_some.mp hnd
    rw [← h.hasLiveChild hnd rfl]
    exact hempty vd hvd
  · intro hempty vd hvd
    have hnd : s.tree n = some vd.toTreeNode := Vfs.tree_eq_some.mpr ⟨vd, hvd, rfl⟩
    rw [h.hasLiveChild hnd rfl]
    exact hempty vd.toTreeNode hnd

theorem ListsLive.modify_refcount (h : ListsLive s) (n : ℕ) (f : ℕ → ℕ) :
    ListsLive (s.modify n fun nd => { nd with refcount := f nd.refcount }) := by
  have htree := s.tree_modify_of_keeps n (fun nd => { nd with refcount := f nd.refcount }) (fun _ => rfl)
  refine ⟨h.toShape.of_tree_eq htree rfl, htree ▸ h.once, ?_⟩
  intro p pd m md hp hm hmd
  rw [htree] at hp
  rw [Vfs.modify_node] at hmd
  split_ifs at hmd with hmn
  · subst hmn
    obtain ⟨md, hmd', rfl⟩ := map_eq_some_iff.mp hmd
    exact h.unmarked p pd m md hp hm hmd'
  · exact h.unmarked p pd m md hp hm hmd

/-- The bits `file_delete` and `file_proxy` of a node. -/
def marks (s : Vfs) (n : ℕ) : Option (Bool × Bool) := (s.node n).map fun nd => (nd.delete, nd.proxy)

theorem marks_modify_of_ne {c : ℕ} (hne : n ≠ c) (f : VfsNode → VfsNode) : marks (s.modify c f) n = marks s n := by
  unfold marks
  rw [Vfs.modify_node, if_neg hne]

theorem marks_incRef (s : Vfs) (c n : ℕ) : marks (incRef s c) n = marks s n := by
  have hnode : (incRef s c).node n =
      (s.modify c fun nd => { nd with refcount := (nd.refcount + 1) % 2 ^ 32 }).node n := rfl
  unfold marks
  rw [hnode, Vfs.modify_node]
  split_ifs with hc
  · subst hc
    rw [Option.map_map]
    rfl
  · rfl

/-- A walk marks nothing but what it finds in a list. -/
theorem vfsWalk_marks {walk : Vfs → ℕ → Option (Vfs × Option ℕ)} (hn : ∀ p pd, t p = some pd → n ∉ pd.child)
    (hres : ∀ s m s' r, s.tree = t → walk s m = some (s', r) → s'.tree = t ∧ marks s' n = marks s n)
    (ht : s.tree = t) (hwalk : vfsWalk false walk toks s current = some (s', r)) :
    s'.tree = t ∧ marks s' n = marks s n := by
  induction toks generalizing s current with
  | nil =>
    cases hwalk
    exact ⟨ht, rfl⟩
  | cons tok toks ih =>
    obtain ⟨buf, last⟩ := tok
    unfold vfsWalk at hwalk
    obtain ⟨cur, hcur, hw⟩ := bind_eq_some_iff.mp hwalk
    by_cases hdot : buf = ['.']
    · rw [if_pos hdot] at hw
      exact ih ht hw
    by_cases hdots : buf = ['.', '.']
    · rw [if_neg hdot, if_pos hdots] at hw
      exact ih ht hw
    rw [if_neg hdot, if_neg hdots] at hw
    cases hfind : vfsChildFind s.tree cur buf with
    | none =>
      rw [hfind] at hw
      cases hw
      exact ⟨ht, rfl⟩
    | some c =>
      rw [hfind] at hw
      obtain ⟨cd, -, hw⟩ := bind_eq_some_iff.mp hw
      have hne : n ≠ c := by
        rintro rfl
        exact hn _ _ (ht ▸ hcur) (mem_of_vfsChildFind hfind).1
      have hupdate : (doUpdate s c).tree = t ∧ marks (doUpdate s c) n = marks s n :=
        ⟨(tree_doUpdate s c).trans ht, marks_modify_of_ne hne _⟩
      by_cases hlink : cd.kind ≠ .symlink
      · rw [if_pos hlink] at hw
        obtain ⟨ht', hmarks⟩ := ih hupdate.1 hw
        exact ⟨ht', hmarks.trans hupdate.2⟩
      have hlast : ¬ (false = true ∧ last = true) := fun h => Bool.false_ne_true h.1
      rw [if_neg hlink, if_neg hlast] at hw
      by_cases hbad : cd.parent.isNone ∨ (cd.linkto.isNone ∧ cd.linktoPath.isNone)
      · rw [if_pos hbad] at hw
        cases hw
        exact hupdate
      rw [if_neg hbad] at hw
      obtain ⟨⟨s2, target⟩, hr, hw⟩ := bind_eq_some_iff.mp hw
      obtain ⟨ht2, hmarks2⟩ := hres _ _ _ _ ((tree_setProxy (doUpdate s c) c).trans hupdate.1) hr
      have hproxy : marks (setProxy (doUpdate s c) c) n = marks s n :=
        (marks_modify_of_ne hne _).trans hupdate.2
      cases target with
      | none =>
        cases hw
        exact ⟨ht2, hmarks2.trans hproxy⟩
      | some target =>
        obtain ⟨td, -, hw⟩ := bind_eq_some_iff.mp hw
        obtain ⟨ht', hmarks⟩ := ih ((tree_incRef s2 target).trans ht2) hw
        exact ⟨ht', hmarks.trans ((marks_incRef s2 target n).trans (hmarks2.trans hproxy))⟩

theorem vfsOpen_marks (hn : ∀ p pd, s.tree p = some pd → n ∉ pd.child) (hopen : vfsOpen depth s path = some (s', r)) :
    marks s' n = marks s n := by
  suffices h : ∀ s0, s0.tree = s.tree → vfsOpen depth s0 path = some (s', r) →
      s'.tree = s.tree ∧ marks s' n = marks s0 n from (h s rfl hopen).2
  clear hopen
  induction depth generalizing path s' r with
  | zero => exact fun _ _ h => by cases h
  | succ depth ih =>
    intro s0 ht hopen
    unfold vfsOpen at hopen
    split_ifs at hopen
    · refine vfsWalk_marks hn ?_ ht hopen
      intro s1 m s2 r2 ht1 hres
      unfold vfsResolveSymlinkTarget at hres
      obtain ⟨nd, -, hres⟩ := bind_eq_some_iff.mp hres
      split at hres
      · cases hres
        exact ⟨ht1, rfl⟩
      · cases hres
        exact ⟨ht1, rfl⟩
      · split_ifs at hres
        · exact ih s1 ht1 hres
        · obtain ⟨base, -, hres⟩ := bind_eq_some_iff.mp hres
          exact ih s1 ht1 hres
    · cases hopen
      exact ⟨ht, rfl⟩

/-- The removed nodes that `vfs_close` releases. -/
def Releases (s : Vfs) (q : ℕ) : Prop :=
  q ≠ rootdir ∧ ∃ nd, s.node q = some nd ∧ nd.delete = true ∧ nd.proxy = false ∧
    (nd.kind = .dir ∧ nd.child = [] ∨ nd.kind ≠ .dir ∧ nd.refcount % 2 ^ 32 = 1)

theorem decRef_eq_zero_iff (count : ℕ) : decRef count = 0 ↔ count % 2 ^ 32 = 1 := by
  unfold decRef
  omega

theorem ListsLive.close_releases (h : ListsLive s) (hclose : vfsClose s n = some s') :
    (Releases s n → s'.node n = none) ∧ (¬ Releases s n → s'.tree = s.tree) := by
  unfold vfsClose at hclose
  by_cases hroot : n = rootdir
  · rw [if_pos hroot] at hclose
    cases hclose
    exact ⟨fun hr => absurd hroot hr.1, fun _ => rfl⟩
  rw [if_neg hroot] at hclose
  obtain ⟨vd, hvd, hclose⟩ := bind_eq_some_iff.mp hclose
  have htree := s.tree_modify_of_keeps n (fun nd => { nd with refcount := decRef nd.refcount }) (fun _ => rfl)
  have hreleases : Releases s n ↔ vd.delete = true ∧ vd.proxy = false ∧
      (vd.kind = .dir ∧ vd.child = [] ∨ vd.kind ≠ .dir ∧ vd.refcount % 2 ^ 32 = 1) := by
    constructor
    · rintro ⟨-, nd, hnd, hnode⟩
      rw [hvd] at hnd
      cases hnd
      exact hnode
    · exact fun hnode => ⟨hroot, vd, hvd, hnode⟩
  have hlive : vfsDirHasLiveChild
      (s.modify n fun nd => { nd with refcount := decRef nd.refcount }) vd = true ↔ vd.child ≠ [] :=
    (h.modify_refcount n decRef).hasLiveChild (htree ▸ Vfs.tree_eq_some.mpr ⟨vd, hvd, rfl⟩) rfl
  have hdestroy : ∀ s1, vfsDestroy s1 n vd = some s' → s'.node n = none := by
    intro s1 hd
    unfold vfsDestroy at hd
    obtain ⟨p, -, hd⟩ := bind_eq_some_iff.mp hd
    obtain ⟨pd, -, hd⟩ := bind_eq_some_iff.mp hd
    split_ifs at hd
    cases hd
    exact (Function.update_apply _ n none n).trans (if_pos rfl)
  rw [hreleases]
  dsimp only at hclose
  by_cases hproxy : vd.proxy = true
  · rw [if_pos hproxy] at hclose
    cases hclose
    exact ⟨fun hr => absurd (hproxy.symm.trans hr.2.1) (by decide), fun _ => htree⟩
  rw [if_neg hproxy] at hclose
  have hplain : vd.proxy = false := by simpa using hproxy
  by_cases hdir : vd.kind = .dir
  · rw [if_pos hdir] at hclose
    split_ifs at hclose with hkeep
    · rw [hlive] at hkeep
      cases hclose
      refine ⟨fun hr => ?_, fun _ => htree⟩
      obtain ⟨hdelete, -, ⟨-, hempty⟩ | ⟨hfile, -⟩⟩ := hr
      · exact absurd hkeep (not_or.mpr ⟨not_not.mpr hdelete, not_not.mpr hempty⟩)
      · exact absurd hdir hfile
    · rw [hlive] at hkeep
      push Not at hkeep
      exact ⟨fun _ => hdestroy _ hclose, fun hr => absurd ⟨hkeep.1, hplain, .inl ⟨hdir, hkeep.2⟩⟩ hr⟩
  · rw [if_neg hdir] at hclose
    split_ifs at hclose with hkeep
    · cases hclose
      refine ⟨fun hr => ?_, fun _ => htree⟩
      obtain ⟨hdelete, -, ⟨hdir', -⟩ | ⟨-, hcount⟩⟩ := hr
      · exact absurd hdir' hdir
      · exact absurd hkeep (not_or.mpr ⟨not_not.mpr ((decRef_eq_zero_iff _).mpr hcount), not_not.mpr hdelete⟩)
    · push Not at hkeep
      exact ⟨fun _ => hdestroy _ hclose,
        fun hr => absurd ⟨hkeep.2, hplain, .inr ⟨hdir, (decRef_eq_zero_iff _).mp hkeep.1⟩⟩ hr⟩

/-- A node with an entry is a directory that `vfs_close` does not release. -/
theorem ListsLive.close (h : ListsLive s) (hchild : n = rootdir ∨ ∃ nd, s.tree n = some nd ∧ nd.child ≠ [])
    (hclose : vfsClose s n = some s') : s'.tree = s.tree := by
  refine (h.close_releases hclose).2 ?_
  rintro ⟨hroot, vd, hvd, -, -, hnode⟩
  obtain ⟨nd, hnd, hne⟩ := hchild.resolve_left hroot
  obtain ⟨vd', hvd', rfl⟩ := Vfs.tree_eq_some.mp hnd
  rw [hvd] at hvd'
  cases hvd'
  obtain ⟨c, hc⟩ := exists_mem_of_ne_nil _ hne
  obtain ⟨cd, hcd, hpar⟩ := h.child n vd.toTreeNode c hnd hc
  obtain ⟨nd', hnd', hdir⟩ := h.toShape.parent_dir hcd hpar
  rw [hnd] at hnd'
  cases hnd'
  rcases hnode with ⟨-, hempty⟩ | ⟨hfile, -⟩
  · exact hne hempty
  · exact hfile hdir

/-- The second tree has only nodes of the first, with what the first has of them, and lists no more. -/
def Prunes (t t' : Tree) : Prop :=
  ∀ n nd', t' n = some nd' → ∃ nd, t n = some nd ∧ nd'.parent = nd.parent ∧ nd'.name = nd.name ∧
    nd'.kind = nd.kind ∧ nd'.linkto = nd.linkto ∧ nd'.linktoPath = nd.linktoPath ∧
    nd'.child ⊆ nd.child

theorem Prunes.refl (t : Tree) : Prunes t t :=
  fun _ nd hnd => ⟨nd, hnd, rfl, rfl, rfl, rfl, rfl, List.Subset.refl _⟩

theorem Prunes.trans {t' t'' : Tree} (h : Prunes t t') (h' : Prunes t' t'') : Prunes t t'' := by
  intro n nd'' hnd''
  obtain ⟨nd', hnd', hpar', hname', hkind', hto', hpath', hchild'⟩ := h' n nd'' hnd''
  obtain ⟨nd, hnd, hpar, hname, hkind, hto, hpath, hchild⟩ := h n nd' hnd'
  exact ⟨nd, hnd, hpar'.trans hpar, hname'.trans hname, hkind'.trans hkind, hto'.trans hto,
    hpath'.trans hpath, List.Subset.trans hchild' hchild⟩

theorem prunes_erase (t : Tree) (n p : ℕ) :
    Prunes t (t.modify p fun pd => { pd with child := pd.child.erase n }) := by
  intro m nd' hnd'
  obtain ⟨nd, hnd, rfl⟩ := Tree.modify_eq_some hnd'
  refine ⟨nd, hnd, ?_⟩
  split_ifs
  · exact ⟨rfl, rfl, rfl, rfl, rfl, erase_subset⟩
  · exact ⟨rfl, rfl, rfl, rfl, rfl, List.Subset.refl _⟩

theorem vfsClose_prunes (h : vfsClose s n = some s') : Prunes s.tree s'.tree := by
  have hcount := s.tree_modify_of_keeps n
    (fun nd => { nd with refcount := decRef nd.refcount }) (fun _ => rfl)
  obtain ⟨-, rfl⟩ | ⟨nd, -, -, ⟨rfl, -⟩ | ⟨hdestroy, -, -⟩⟩ := vfsClose_cases h
  · exact Prunes.refl _
  · rw [hcount]
    exact Prunes.refl _
  · unfold vfsDestroy at hdestroy
    obtain ⟨p, -, hdestroy⟩ := bind_eq_some_iff.mp hdestroy
    obtain ⟨pd, -, hdestroy⟩ := bind_eq_some_iff.mp hdestroy
    split_ifs at hdestroy
    cases hdestroy
    have htree := Vfs.tree_modify (s.modify n fun nd => { nd with refcount := decRef nd.refcount }) p
      (fun pd => { pd with child := pd.child.erase n })
      (fun pd => { pd with child := pd.child.erase n }) (fun _ => rfl)
    rw [hcount] at htree
    apply (prunes_erase s.tree n p).trans
    rw [← htree]
    intro m nd' hnd'
    refine ⟨nd', ?_, rfl, rfl, rfl, rfl, rfl, List.Subset.refl _⟩
    unfold Vfs.tree at hnd' ⊢
    simp only [Function.update_apply] at hnd'
    split_ifs at hnd'
    · cases hnd'
    · exact hnd'

theorem Prunes.keeps {t' : Tree} (h : Prunes t t')
    (hdiff : ∀ p pd, t p = some pd → (pd.child.map (nameOf t)).Nodup) : TreeKeeps (fun _ => False) t' t := by
  constructor
  · intro n nd' hnd'
    obtain ⟨nd, hnd, hpar, hname, hkind, hto, hpath, -⟩ := h n nd' hnd'
    exact ⟨nd, hnd, hpar.symm, hname.symm, hkind.symm, .inl ⟨hto.symm, hpath.symm⟩⟩
  · intro p pd' pd name c hp' hp hfind _
    obtain ⟨hc, cd', hcd', hname'⟩ := mem_of_vfsChildFind hfind
    obtain ⟨pd0, hp0, -, -, -, -, -, hchild⟩ := h p pd' hp'
    rw [hp] at hp0
    cases hp0
    obtain ⟨cd, hcd, -, hname, -⟩ := h c cd' hcd'
    rw [← hname', hname]
    exact vfsChildFind_of_mem (hdiff p pd hp) (hchild hc) hcd

theorem mem_child_of_walks {nofollow : Bool}
    (hres : ∀ n r vis, resolve n = some (r, vis) → ∀ v ∈ vis, ∃ p pd, t p = some pd ∧ v ∈ pd.child)
    (hwalk : Walks nofollow resolve t toks current r vis) :
    ∀ v ∈ vis, ∃ p pd, t p = some pd ∧ v ∈ pd.child := by
  induction hwalk with
  | done => exact fun _ hv => absurd hv not_mem_nil
  | dot hcur walk ih => exact ih
  | dots hcur walk ih => exact ih
  | missing => exact fun _ hv => absurd hv not_mem_nil
  | enter hdot hdots hcur hfind hnd hkind walk ih =>
    exact forall_mem_cons.mpr ⟨⟨_, _, hcur, (mem_of_vfsChildFind hfind).1⟩, ih⟩
  | stop hdot hdots hcur hfind hnd hkind hlast =>
    exact forall_mem_cons.mpr ⟨⟨_, _, hcur, (mem_of_vfsChildFind hfind).1⟩,
      fun _ hv => absurd hv not_mem_nil⟩
  | broken hdot hdots hcur hfind hnd hkind hlast hbad =>
    exact forall_mem_cons.mpr ⟨⟨_, _, hcur, (mem_of_vfsChildFind hfind).1⟩,
      fun _ hv => absurd hv not_mem_nil⟩
  | dangling hdot hdots hcur hfind hnd hkind hlast hgood hr =>
    exact forall_mem_cons.mpr ⟨⟨_, _, hcur, (mem_of_vfsChildFind hfind).1⟩, hres _ _ _ hr⟩
  | follow hdot hdots hcur hfind hnd hkind hlast hgood hr htd walk ih =>
    rw [cons_append]
    exact forall_mem_cons.mpr ⟨⟨_, _, hcur, (mem_of_vfsChildFind hfind).1⟩,
      forall_mem_append.mpr ⟨hres _ _ _ hr, ih⟩⟩

theorem mem_child_of_lookup (h : lookup depth t path = some (r, vis)) :
    ∀ v ∈ vis, ∃ p pd, t p = some pd ∧ v ∈ pd.child := by
  induction depth generalizing path r vis with
  | zero => cases h
  | succ depth ih =>
    rw [lookup] at h
    split_ifs at h with habs
    · refine mem_child_of_walks ?_ (walks_of_lookupWalk h)
      intro n r vis hres
      unfold resolveLink at hres
      obtain ⟨nd, hnd, hres⟩ := bind_eq_some_iff.mp hres
      split at hres
      · cases hres
        exact fun _ hv => absurd hv not_mem_nil
      · cases hres
        exact fun _ hv => absurd hv not_mem_nil
      · split_ifs at hres
        · exact ih hres
        · obtain ⟨base, -, hres⟩ := bind_eq_some_iff.mp hres
          exact ih hres
    · cases h
      exact fun _ hv => absurd hv not_mem_nil

theorem pathNames_modify (t : Tree) (n : ℕ) (f : TreeNode → TreeNode)
    (hname : ∀ nd, (f nd).name = nd.name) (hpar : ∀ nd, (f nd).parent = nd.parent) (fuel m : ℕ) :
    pathNames (t.modify n f) fuel m = pathNames t fuel m := by
  induction fuel generalizing m with
  | zero => rfl
  | succ fuel ih =>
    unfold pathNames
    cases hnd : t m with
    | none =>
      have hnone : t.modify n f m = none := by
        unfold Tree.modify
        rw [Function.update_apply]
        split_ifs with hm
        · rw [← hm, hnd, map_none]
        · exact hnd
      rw [hnone]
      rfl
    | some nd =>
      rw [Tree.modify_of_some hnd, bind_some, bind_some]
      have hsame : (if m = n then f nd else nd).name = nd.name ∧
          (if m = n then f nd else nd).parent = nd.parent := by
        split_ifs
        · exact ⟨hname nd, hpar nd⟩
        · exact ⟨rfl, rfl⟩
      rw [hsame.1, hsame.2]
      simp only [ih]

theorem lookupWalk_names {toks' : List (List Char × Bool)} (h : toks.map Prod.fst = toks'.map Prod.fst)
    (current : ℕ) : lookupWalk false resolve t toks current = lookupWalk false resolve t toks' current := by
  induction toks generalizing toks' current with
  | nil =>
    rw [map_eq_nil_iff.mp h.symm]
  | cons tok toks ih =>
    obtain ⟨buf, last⟩ := tok
    obtain ⟨⟨buf', last'⟩, toks', rfl, hbuf, htoks⟩ := map_eq_cons_iff.mp h.symm
    cases hbuf
    unfold lookupWalk
    simp only [Bool.false_eq_true, false_and, if_false, ih htoks.symm]

section Erase

variable {t : Tree} {n p : ℕ}

def Tree.erase (t : Tree) (n p : ℕ) : Tree :=
  t.modify p fun pd => { pd with child := pd.child.erase n }

theorem erase_eq_none (h : t m = none) : t.erase n p m = none := by
  unfold Tree.erase Tree.modify
  rw [Function.update_apply]
  split_ifs with hm
  · rw [← hm, h, map_none]
  · exact h

theorem erase_of_some {nd : TreeNode} (h : t m = some nd) :
    ∃ nd', t.erase n p m = some nd' ∧ nd'.parent = nd.parent ∧ nd'.kind = nd.kind ∧
      nd'.linkto = nd.linkto ∧ nd'.linktoPath = nd.linktoPath ∧
      (nd'.child = nd.child ∨ nd'.child = nd.child.erase n) := by
  unfold Tree.erase
  rw [Tree.modify_of_some h]
  refine ⟨_, rfl, ?_⟩
  split_ifs
  · exact ⟨rfl, rfl, rfl, rfl, .inr rfl⟩
  · exact ⟨rfl, rfl, rfl, rfl, .inl rfl⟩

theorem find_erase {pd pd' : TreeNode} (hchild : pd'.child = pd.child ∨ pd'.child = pd.child.erase n)
    {name : List Char} (h : vfsChildFind t pd name ≠ some n) :
    vfsChildFind (t.erase n p) pd' name = vfsChildFind t pd name := by
  have hnames : nameOf (t.erase n p) = nameOf t := by
    unfold Tree.erase
    exact nameOf_modify fun _ => rfl
  have hsame : vfsChildFind (t.erase n p) pd' name = vfsChildFind t pd' name :=
    vfsChildFind_congr (fun c _ => congrFun hnames c) name
  rw [hsame]
  obtain heq | heq := hchild
  · unfold vfsChildFind
    rw [heq]
  · unfold vfsChildFind at h ⊢
    rw [heq]
    cases hfind : pd.child.find? fun c => (t c).any fun nd => nd.name = name with
    | none =>
      rw [List.find?_eq_none] at hfind ⊢
      exact fun c hc => hfind c (mem_of_mem_erase hc)
    | some c =>
      apply find?_erase hfind
      rintro rfl
      exact h hfind

theorem resolveLink_erase {look : List Char → Found} (c : ℕ) :
    resolveLink look (t.erase n p) c = resolveLink look t c := by
  unfold resolveLink
  cases hnd : t c with
  | none =>
    rw [erase_eq_none hnd, bind_none, bind_none]
  | some nd =>
    obtain ⟨nd', hnd', hpar, -, hto, hpath, -⟩ := erase_of_some (n := n) (p := p) hnd
    have hfull : ∀ m, vfsGetFullpath (t.erase n p) m = vfsGetFullpath t m := by
      intro m
      have hnames : ∀ fuel, pathNames (t.erase n p) fuel m = pathNames t fuel m := by
        unfold Tree.erase
        exact fun fuel => pathNames_modify t p (fun pd => { pd with child := pd.child.erase n })
          (fun _ => rfl) (fun _ => rfl) fuel m
      unfold vfsGetFullpath
      rw [hnames]
    rw [hnd', bind_some, bind_some, hpar, hto, hpath, hfull]

variable (hkind : ∀ nd, t n = some nd → nd.kind ≠ .symlink)
include hkind

theorem lookupWalk_erase
    (hout : ∀ pre m vis, (∀ tok ∈ pre, IsToken tok.1) → Walks false resolve t pre rootdir (some m) vis → n ∉ vis)
    {pre : List (List Char × Bool)} (htoks : ∀ tok ∈ toks, IsToken tok.1) (hpre : ∀ tok ∈ pre, IsToken tok.1)
    (hwalk : Walks false resolve t pre rootdir (some current) vis) :
    lookupWalk false resolve (t.erase n p) toks current = lookupWalk false resolve t toks current := by
  induction toks generalizing pre current vis with
  | nil => rfl
  | cons tok toks ih =>
    obtain ⟨buf, last⟩ := tok
    obtain ⟨htok, hrest⟩ := forall_mem_cons.mp htoks
    have hpre' : ∀ tok ∈ pre ++ [(buf, last)], IsToken tok.1 :=
      forall_mem_append.mpr ⟨hpre, fun tok h => mem_singleton.mp h ▸ htok⟩
    unfold lookupWalk
    cases hcur : t current with
    | none =>
      rw [erase_eq_none hcur]
      rfl
    | some cur =>
      obtain ⟨cur', hcur', hpar, -, -, -, hchild⟩ := erase_of_some (n := n) (p := p) hcur
      rw [hcur', bind_some, bind_some]
      by_cases hdot : buf = ['.']
      · subst hdot
        rw [if_pos rfl, if_pos rfl]
        exact ih hrest hpre' (hwalk.append (.dot hcur .done))
      rw [if_neg hdot, if_neg hdot]
      by_cases hdots : buf = ['.', '.']
      · subst hdots
        rw [if_pos rfl, if_pos rfl, hpar]
        exact ih hrest hpre' (hwalk.append (.dots hcur .done))
      rw [if_neg hdots, if_neg hdots]
      have hne : vfsChildFind t cur buf ≠ some n := by
        intro hfind
        obtain ⟨-, nd, hnd, -⟩ := mem_of_vfsChildFind hfind
        apply hout _ _ _ hpre' (hwalk.append (.enter hdot hdots hcur hfind hnd (hkind nd hnd) .done))
        exact mem_append_right vis (mem_singleton_self n)
      rw [find_erase hchild hne]
      cases hfind : vfsChildFind t cur buf with
      | none => rfl
      | some c =>
        obtain ⟨-, nd, hnd, -⟩ := mem_of_vfsChildFind hfind
        obtain ⟨nd', hnd', hpar', hkind', hto', hpath', -⟩ := erase_of_some (n := n) (p := p) hnd
        dsimp only
        rw [hnd, hnd', bind_some, bind_some, hkind', hpar', hto', hpath']
        by_cases hlink : nd.kind ≠ .symlink
        · rw [if_pos hlink, if_pos hlink,
            ih hrest hpre' (hwalk.append (.enter hdot hdots hcur hfind hnd hlink .done))]
        rw [if_neg hlink, if_neg hlink]
        have hlast : ¬ (false = true ∧ last = true) := fun h => Bool.false_ne_true h.1
        rw [if_neg hlast, if_neg hlast]
        by_cases hbad : nd.parent.isNone ∨ (nd.linkto.isNone ∧ nd.linktoPath.isNone)
        · rw [if_pos hbad, if_pos hbad]
        rw [if_neg hbad, if_neg hbad]
        cases hres : resolve c with
        | none => rfl
        | some r =>
          obtain ⟨target, vis'⟩ := r
          rw [bind_some, bind_some]
          cases target with
          | none => rfl
          | some target =>
            dsimp only
            cases htd : t target with
            | none =>
              rw [erase_eq_none htd]
              rfl
            | some td =>
              obtain ⟨td', htd', -⟩ := erase_of_some (n := n) (p := p) htd
              rw [htd', bind_some, bind_some, ih hrest hpre' (hwalk.append
                (.follow hdot hdots hcur hfind hnd (not_not.mp hlink) hlast hbad hres htd .done))]

theorem lookup_erase (hout : ¬ LeadsThrough t n) (depth : ℕ) (path : List Char) :
    lookup depth (t.erase n p) path = lookup depth t path := by
  induction depth generalizing path with
  | zero => rfl
  | succ depth ih =>
    unfold lookup
    have hlook : lookup depth (t.erase n p) = lookup depth t := funext ih
    have hres : resolveLink (lookup depth (t.erase n p)) (t.erase n p) =
        resolveLink (lookup depth t) t := by
      funext c
      rw [hlook, resolveLink_erase]
    rw [hres]
    split_ifs
    · refine lookupWalk_erase hkind ?_ (fun tok h => isToken_of_mem_pathTokens h)
        (fun tok h => absurd h not_mem_nil) .done
      -- the walk is a lookup of the path that its tokens make
      intro pre m vis hpre hwalk hvis
      refine hout ⟨depth + 1, joinPath (pre.map Prod.fst), m, vis, ?_, hvis⟩
      have htoks : ∀ name ∈ pre.map Prod.fst, IsToken name := by
        intro name hname
        obtain ⟨tok, htok, rfl⟩ := List.mem_map.mp hname
        exact hpre tok htok
      unfold lookup
      refine (if_pos rfl).trans (Eq.trans ?_ hwalk.lookupWalk_eq)
      exact lookupWalk_names (pathTokens_names htoks) rootdir
    · rfl

end Erase

theorem getParentPath_root : getParentPath (joinPath []) = ['/'] := by decide

theorem getParentPath_joinPath {names : List (List Char)} {name : List Char} (hname : IsToken name) :
    getParentPath (joinPath (names ++ [name])) = joinPath names := by
  have hslash : '/' ∈ joinPath (names ++ [name]) := mem_cons_self
  unfold getParentPath
  rw [if_pos hslash]
  by_cases hnil : names = []
  · subst hnil
    have hjoin : joinPath ([] ++ [name]) = [] ++ '/' :: name := by
      unfold joinPath
      rw [nil_append, nil_append]
      simp
    rw [hjoin, dirName_append hname, if_pos rfl]
    rfl
  · have hdir : dirName (joinPath (names ++ [name])) = joinPath names := by
      rw [joinPath_concat_of_ne_nil hnil]
      exact dirName_append hname (joinPath names)
    have hne : joinPath names ≠ [] := cons_ne_nil _ _
    rw [hdir, if_neg hne]

theorem Walks.split {toks' : List (List Char × Bool)}
    (h : Walks false resolve t (toks ++ toks') current (some m) vis) :
    ∃ q vis1 vis2, Walks false resolve t toks current (some q) vis1 ∧
      Walks false resolve t toks' q (some m) vis2 := by
  induction toks generalizing current vis with
  | nil => exact ⟨current, [], vis, .done, h⟩
  | cons tok toks ih =>
    rw [cons_append] at h
    cases h with
    | dot hcur walk =>
      obtain ⟨q, vis1, vis2, h1, h2⟩ := ih walk
      exact ⟨q, _, vis2, .dot hcur h1, h2⟩
    | dots hcur walk =>
      obtain ⟨q, vis1, vis2, h1, h2⟩ := ih walk
      exact ⟨q, _, vis2, .dots hcur h1, h2⟩
    | enter hdot hdots hcur hfind hnd hkind walk =>
      obtain ⟨q, vis1, vis2, h1, h2⟩ := ih walk
      exact ⟨q, _, vis2, .enter hdot hdots hcur hfind hnd hkind h1, h2⟩
    | stop hdot hdots hcur hfind hnd hkind hlast => exact absurd hlast.1 Bool.false_ne_true
    | follow hdot hdots hcur hfind hnd hkind hlast hgood hres htd walk =>
      obtain ⟨q, vis1, vis2, h1, h2⟩ := ih walk
      exact ⟨q, _, vis2, .follow hdot hdots hcur hfind hnd hkind hlast hgood hres htd h1, h2⟩

theorem opens_parent {names : List (List Char)} (hnames : ∀ name ∈ names, ValidName name)
    (h : PathOpens s (joinPath names) (some n)) : ∃ q, PathOpens s (getParentPath (joinPath names)) (some q) ∧
      (q = rootdir ∨ ∃ qd, s.tree q = some qd ∧ qd.child ≠ []) := by
  obtain rfl | ⟨names, name, rfl⟩ := eq_nil_or_concat' names
  · rw [getParentPath_root]
    refine ⟨rootdir, opens_iff.mpr ⟨1, [], ?_⟩, .inl rfl⟩
    unfold lookup
    exact (if_pos rfl).trans rfl
  · have hname := hnames name (mem_append_right _ (mem_singleton_self name))
    have htoken : ∀ m ∈ names, IsToken m := fun m hm => (hnames m (mem_append_left _ hm)).1
    rw [getParentPath_joinPath hname.1]
    obtain ⟨depth, vis, hlookup⟩ := opens_iff.mp h
    cases depth with
    | zero => cases hlookup
    | succ depth =>
      unfold lookup at hlookup
      have hwalk : lookupWalk false (resolveLink (lookup depth s.tree) s.tree) s.tree
          (pathTokens (joinPath (names ++ [name])).tail) rootdir = some (some n, vis) :=
        (if_pos rfl).symm.trans hlookup
      have hall : ∀ m ∈ names ++ [name], IsToken m := fun m hm => (hnames m hm).1
      have htoks : (pathTokens (joinPath (names ++ [name])).tail).map Prod.fst =
          (pathTokens (['/'].intercalate names) ++ [(name, true)]).map Prod.fst := by
        rw [map_append, pathTokens_names htoken]
        exact pathTokens_names hall
      rw [lookupWalk_names htoks] at hwalk
      obtain ⟨q, vis1, vis2, hwalk1, hwalk2⟩ := (walks_of_lookupWalk hwalk).split
      refine ⟨q, opens_iff.mpr ⟨depth + 1, vis1, ?_⟩, .inr ?_⟩
      · unfold lookup
        exact (if_pos rfl).trans hwalk1.lookupWalk_eq
      · cases hwalk2 with
        | dot => exact absurd rfl hname.2.1
        | dots => exact absurd rfl hname.2.2
        | enter hdot hdots hcur hfind =>
          exact ⟨_, hcur, ne_nil_of_mem (mem_of_vfsChildFind hfind).1⟩
        | stop hdot hdots hcur hfind =>
          exact ⟨_, hcur, ne_nil_of_mem (mem_of_vfsChildFind hfind).1⟩
        | follow hdot hdots hcur hfind =>
          exact ⟨_, hcur, ne_nil_of_mem (mem_of_vfsChildFind hfind).1⟩

theorem Walks.isSome_result {toks : List (List Char × Bool)} {r : Option ℕ} (hnames : ∀ tok ∈ toks, ValidName tok.1)
    (h : Walks false resolve t toks current r vis) : ∀ m ∈ r, toks = [] ∨ (t m).isSome := by
  induction h with
  | done => exact fun _ _ => .inl rfl
  | dot => exact absurd rfl (hnames _ mem_cons_self).2.1
  | dots => exact absurd rfl (hnames _ mem_cons_self).2.2
  | missing => exact fun _ hm => by cases hm
  | enter hdot hdots hcur hfind hnd hkind walk ih =>
    intro m hm
    obtain rfl | hsome := ih (forall_mem_cons.mp hnames).2 m hm
    · cases walk with
      | done =>
        cases hm
        exact .inr (isSome_of_eq_some hnd)
    · exact .inr hsome
  | stop hdot hdots hcur hfind hnd =>
    intro m hm
    cases hm
    exact .inr (isSome_of_eq_some hnd)
  | broken => exact fun _ hm => by cases hm
  | dangling => exact fun _ hm => by cases hm
  | follow hdot hdots hcur hfind hnd hkind hlast hgood hres htd walk ih =>
    intro m hm
    obtain rfl | hsome := ih (forall_mem_cons.mp hnames).2 m hm
    · cases walk with
      | done =>
        cases hm
        exact .inr (isSome_of_eq_some htd)
    · exact .inr hsome

/-- A path without dots opens the root or a node that is there. -/
theorem PathOpens.isSome_node {names : List (List Char)} (hnames : ∀ name ∈ names, ValidName name)
    (h : PathOpens s (joinPath names) (some n)) : n = rootdir ∨ (s.node n).isSome := by
  obtain ⟨depth, vis, hlookup⟩ := opens_iff.mp h
  cases depth with
  | zero => cases hlookup
  | succ depth =>
    unfold lookup at hlookup
    have hwalk : lookupWalk false (resolveLink (lookup depth s.tree) s.tree) s.tree
        (pathTokens (joinPath names).tail) rootdir = some (some n, vis) := (if_pos rfl).symm.trans hlookup
    have htokens : ∀ name ∈ names, IsToken name := fun name hname => (hnames name hname).1
    have hvalid : ∀ tok ∈ pathTokens (joinPath names).tail, ValidName tok.1 := by
      intro tok htok
      have hmem := List.mem_map_of_mem (f := Prod.fst) htok
      unfold joinPath at hmem
      rw [tail_cons, pathTokens_names htokens] at hmem
      exact hnames tok.1 hmem
    obtain hnil | hsome := (walks_of_lookupWalk hwalk).isSome_result hvalid n rfl
    · rw [hnil] at hwalk
      cases hwalk
      exact .inl rfl
    · unfold Vfs.tree at hsome
      rw [Option.isSome_map] at hsome
      exact .inr hsome

theorem getParentPath_names {names : List (List Char)} (hnames : ∀ name ∈ names, ValidName name) :
    ∃ names', (∀ name ∈ names', ValidName name) ∧ getParentPath (joinPath names) = joinPath names' := by
  obtain rfl | ⟨names, name, rfl⟩ := eq_nil_or_concat' names
  · exact ⟨[], fun _ h => absurd h not_mem_nil, getParentPath_root⟩
  · exact ⟨names, fun m hm => hnames m (mem_append_left _ hm),
      getParentPath_joinPath (hnames name (mem_append_right _ (mem_singleton_self name))).1⟩

theorem PathOpens.of_tree_eq (h : s'.tree = s.tree) : PathOpens s' path r ↔ PathOpens s path r := by
  rw [opens_iff, opens_iff, h]

theorem SameNodes.of_tree_eq (h : s'.tree = s.tree) : SameNodes s s' := fun _ _ => PathOpens.of_tree_eq h

variable {callback : ℕ → RenameCallback}

theorem renameNodes_calls {old new : List Char} {ret : Except RenameError Unit}
    (hcall : renameNodes callback depth s old new = some (s', ret)) :
    (vfsOpen depth s old = some (s', none) ∧ ret = .error .noent) ∨
      ∃ o r s0 s1 s2 s3 p, vfsOpen depth s old = some (s0, some o) ∧ vfsOpen depth s0 new = some (s1, r) ∧
        (r = none ∧ s2 = s1 ∨ ∃ n res, r = some n ∧ vfsDelete s1 n = some (s2, res)) ∧
        vfsOpen depth s2 (getParentPath new) = some (s3, p) ∧
        (p = none ∧ s' = s3 ∧ ret = .error .noent ∨
          ∃ q, p = some q ∧ vfsClose s3 q = some s' ∧ ret = renameRet (vfsRename (callback o))) := by
  unfold renameNodes at hcall
  obtain ⟨⟨s0, r0⟩, hold, hcall⟩ := bind_eq_some_iff.mp hcall
  cases r0 with
  | none =>
    cases hcall
    exact .inl ⟨hold, rfl⟩
  | some o =>
    obtain ⟨⟨s1, r⟩, hnew, hcall⟩ := bind_eq_some_iff.mp hcall
    obtain ⟨s2, hdelete, hcall⟩ := bind_eq_some_iff.mp hcall
    unfold renameParent at hcall
    obtain ⟨⟨s3, p⟩, hparent, hcall⟩ := bind_eq_some_iff.mp hcall
    refine .inr ⟨o, r, s0, s1, s2, s3, p, hold, hnew, ?_, hparent, ?_⟩
    · cases r with
      | none =>
        cases hdelete
        exact .inl ⟨rfl, rfl⟩
      | some n =>
        obtain ⟨⟨_, res⟩, hdeleted, rfl⟩ := map_eq_some_iff.mp hdelete
        exact .inr ⟨n, res, rfl, hdeleted⟩
    · cases p with
      | none =>
        cases hcall
        exact .inl ⟨rfl, rfl, rfl⟩
      | some q =>
        obtain ⟨s4, hclose, hcall⟩ := map_eq_some_iff.mp hcall
        cases hcall
        exact .inr ⟨q, rfl, hclose, rfl⟩

/-- A lookup that keeps the marks of the nodes in no list releases what `Releases` says of the state before it, with
the references that it takes. -/
theorem ListsLive.releases_iff (h : ListsLive s) {q : ℕ} {followed : List ℕ} (ht : Touched s s')
    (htakes : TakesRefs s s' followed)
    (hmarks : (∀ p pd, s.tree p = some pd → q ∉ pd.child) → marks s' q = marks s q) :
    Releases s' q ↔ q ≠ rootdir ∧ ∃ nd, s.node q = some nd ∧ nd.delete = true ∧ nd.proxy = false ∧
      (nd.kind = .dir ∧ nd.child = [] ∨ nd.kind ≠ .dir ∧ (nd.refcount + followed.count q) % 2 ^ 32 = 1) := by
  have hout : ∀ nd, s.node q = some nd → nd.delete = true → ∀ p pd, s.tree p = some pd → q ∉ pd.child := by
    intro nd hnd hdelete p pd hp hq
    rw [h.unmarked p pd q nd hp hq hnd] at hdelete
    cases hdelete
  -- a removed node has in both states the same data but for its count
  have hdata : ∀ nd nd', s.node q = some nd → s'.node q = some nd' → nd.delete = true →
      nd'.toTreeNode = nd.toTreeNode ∧ nd'.delete = nd.delete ∧ nd'.proxy = nd.proxy ∧
        nd'.refcount % 2 ^ 32 = (nd.refcount + followed.count q) % 2 ^ 32 := by
    intro nd nd' hnd hnd' hdelete
    have htree : s'.tree q = s.tree q := congrFun htakes.tree_eq q
    have hbits := hmarks (hout nd hnd hdelete)
    have hrefs := htakes.refs_eq q
    unfold Vfs.tree at htree
    unfold marks at hbits
    unfold refs at hrefs
    rw [hnd, hnd'] at htree hbits hrefs
    obtain ⟨hdel, hproxy⟩ := Prod.mk.inj (Option.some.inj hbits)
    have hcount : nd'.refcount % 2 ^ 32 = (nd.refcount % 2 ^ 32 + followed.count q) % 2 ^ 32 := Option.some.inj hrefs
    exact ⟨Option.some.inj htree, hdel, hproxy, hcount.trans (Nat.mod_add_mod _ _ _)⟩
  constructor
  · rintro ⟨hroot, nd', hnd', hdelete', hproxy', hnode'⟩
    obtain ⟨nd, hnd, hdelete, -⟩ := ht.removed q nd' hnd' hdelete'
    obtain ⟨htree, -, hproxy, hcount⟩ := hdata nd nd' hnd hnd' hdelete
    rw [htree, hcount] at hnode'
    exact ⟨hroot, nd, hnd, hdelete, hproxy.symm.trans hproxy', hnode'⟩
  · rintro ⟨hroot, nd, hnd, hdelete, hproxy, hnode⟩
    obtain ⟨nd', hnd'⟩ := isSome_iff_exists.mp (ht.isSome_node (isSome_of_eq_some hnd))
    obtain ⟨htree, hdelete', hproxy', hcount⟩ := hdata nd nd' hnd hnd' hdelete
    rw [← htree, ← hcount] at hnode
    exact ⟨hroot, nd', hnd', hdelete'.trans hdelete, hproxy'.trans hproxy, hnode⟩

theorem followCount_eq {x : Option ℕ} {followed : List ℕ} (h : followLookup depth t path = some (x, followed)) (q : ℕ) :
    followCount depth t path q = followed.count q := by
  unfold followCount
  rw [h]
  rfl

/-- The three lookups of a rename to a path that names nothing, and the directory that it closes. -/
theorem ListsLive.releasesParent_iff (h : ListsLive s) {s0 s1 s3 : Vfs} {o q : ℕ} {old new : List Char}
    (hold : vfsOpen depth s old = some (s0, some o)) (hnew : vfsOpen depth s0 new = some (s1, none))
    (hparent : vfsOpen depth s1 (getParentPath new) = some (s3, some q)) :
    Releases s3 q ↔ ReleasesParent depth s old new := by
  obtain ⟨f0, hf0, ht0⟩ := vfsOpen_takesRefs hold
  obtain ⟨f1, hf1, ht1⟩ := vfsOpen_takesRefs hnew
  obtain ⟨f3, hf3, ht3⟩ := vfsOpen_takesRefs hparent
  have htouch := ((vfsOpen_lookup hold).1.trans (vfsOpen_lookup hnew).1).trans (vfsOpen_lookup hparent).1
  have htree1 : s1.tree = s.tree := ht1.tree_eq.trans ht0.tree_eq
  have hopens : PathOpens s (getParentPath new) (some q) := by
    rw [opens_iff, ← htree1]
    exact ⟨depth, (vfsOpen_lookup hparent).2⟩
  have hmarks : (∀ p pd, s.tree p = some pd → q ∉ pd.child) → marks s3 q = marks s q := by
    intro hq
    rw [vfsOpen_marks (by rwa [htree1]) hparent, vfsOpen_marks (by rwa [ht0.tree_eq]) hnew, vfsOpen_marks hq hold]
  rw [ht0.tree_eq] at hf1
  rw [htree1] at hf3
  have hcount : ∀ count, count + (f0 ++ f1 ++ f3).count q = count + followCount depth s.tree old q +
      followCount depth s.tree new q + followCount depth s.tree (getParentPath new) q := by
    intro count
    rw [followCount_eq hf0, followCount_eq hf1, followCount_eq hf3, count_append, count_append]
    omega
  rw [h.releases_iff htouch ((ht0.trans ht1).trans ht3) hmarks]
  simp only [hcount]
  constructor
  · rintro ⟨hroot, nd, hnd, hnode⟩
    exact ⟨q, nd, hopens, hroot, hnd, hnode⟩
  · rintro ⟨q', nd, hopens', hroot, hnd, hnode⟩
    cases hopens.unique hopens'
    exact ⟨hroot, nd, hnd, hnode⟩

theorem renameNodes_steps {old new : List Char} {ret : Except RenameError Unit} (h : ListsLive s)
    (hcall : renameNodes callback depth s old new = some (s', ret)) :
    (PathOpens s old none ∧ Touched s s' ∧ ret = .error .noent) ∨
      ∃ o r s1 s2, PathOpens s old (some o) ∧ PathOpens s new r ∧ Touched s s1 ∧
        (r = none ∧ s2 = s1 ∨ ∃ n res, r = some n ∧ vfsDelete s1 n = some (s2, res)) ∧
        (PathOpens s2 (getParentPath new) none ∧ Touched s2 s' ∧ ret = .error .noent ∨
          ∃ q s3, PathOpens s2 (getParentPath new) (some q) ∧ Touched s2 s3 ∧
            vfsClose s3 q = some s' ∧ ret = renameRet (vfsRename (callback o)) ∧
            (r = none → (Releases s3 q ↔ ReleasesParent depth s old new))) := by
  obtain ⟨hold, rfl⟩ | ⟨o, r, s0, s1, s2, s3, p, hold, hnew, hdelete, hparent, hret⟩ := renameNodes_calls hcall
  · exact .inl ⟨⟨depth, s', hold⟩, (vfsOpen_lookup hold).1, rfl⟩
  obtain ⟨ht0, -⟩ := vfsOpen_lookup hold
  obtain ⟨ht1, -⟩ := vfsOpen_lookup hnew
  obtain ⟨ht3, -⟩ := vfsOpen_lookup hparent
  have hopens : PathOpens s new r := (PathOpens.of_tree_eq ht0.tree_eq).mp ⟨depth, s1, hnew⟩
  refine .inr ⟨o, r, s1, s2, ⟨depth, s0, hold⟩, hopens, ht0.trans ht1, hdelete, ?_⟩
  obtain ⟨rfl, rfl, hret⟩ | ⟨q, rfl, hclose, hret⟩ := hret
  · exact .inl ⟨⟨depth, s', hparent⟩, ht3, hret⟩
  · refine .inr ⟨q, s3, ⟨depth, s3, hparent⟩, ht3, hclose, hret, ?_⟩
    rintro rfl
    obtain ⟨-, rfl⟩ | ⟨n, res, hr, -⟩ := hdelete
    · exact h.releasesParent_iff hold hnew hparent
    · cases hr

/-- The removal leaves all lookups as they are when it is refused, or when no path leads through the
node. -/
theorem vfsDelete_same {s1 s2 : Vfs} {nd : TreeNode} (h : ListsLive s) (ht : Touched s s1)
    (hdelete : vfsDelete s1 n = some (s2, res)) (hnd : s.tree n = some nd) (hkind : nd.kind ≠ .symlink)
    (hkeep : ¬ Removable s n ∨ ¬ LeadsThrough s.tree n) (path : List Char) (r : Option ℕ) :
    PathOpens s2 path r ↔ PathOpens s path r := by
  have h1 := h.touched ht
  have hiff : Removable s1 n ↔ Removable s n := by
    rw [h1.removable_iff, h.removable_iff, ht.tree_eq]
  by_cases hn : Removable s1 n
  · obtain ⟨p, -, htree, -, -⟩ := vfsDelete_removable h1 hn hdelete
    rw [ht.tree_eq] at htree
    have hlink : ∀ nd', s.tree n = some nd' → nd'.kind ≠ .symlink := by
      intro nd' hnd'
      rw [hnd] at hnd'
      cases hnd'
      exact hkind
    have hlookup := lookup_erase (p := p) hlink (hkeep.resolve_left (not_not.mpr (hiff.mp hn)))
    unfold Tree.erase at hlookup
    rw [opens_iff, opens_iff, htree]
    simp only [hlookup]
  · rw [vfsDelete_of_not_removable hn hdelete]
    exact PathOpens.of_tree_eq ht.tree_eq

theorem opens_kind (h : Shape s) (hopen : PathOpens s path (some n)) :
    ∃ nd, s.tree n = some nd ∧ nd.kind ≠ .symlink := by
  obtain ⟨depth, vis, hlookup⟩ := opens_iff.mp hopen
  exact h.lookup_kind hlookup

section Outcome

variable {depth : ℕ} {s s' : Vfs} {old new : List Char} {names : List (List Char)}
  {ret : Except RenameError Unit} {callback : ℕ → RenameCallback}
  (h : ListsLive s) (hnames : ∀ name ∈ names, ValidName name) (hjoin : new = joinPath names)
  (hcall : renameNodes callback depth s old new = some (s', ret))
include h hnames hjoin hcall

theorem renameNodes_nothing (hnothing : NothingToRename callback depth s old new) :
    RenameAtomic s s' old new ret := by
  obtain ⟨-, ht, rfl⟩ | ⟨o, r, s1, s2, hold, hnew, ht1, hdelete, hparent⟩ := renameNodes_steps h hcall
  · exact SameNodes.of_tree_eq ht.tree_eq
  obtain hnone | ⟨o', hold', ⟨hnone, hdir⟩ | ⟨n, hnew', hsource, hkeep⟩⟩ := hnothing
  · cases hold.unique hnone
  · cases hold.unique hold'
    cases hnew.unique hnone
    obtain ⟨-, rfl⟩ | ⟨n, res, hr, -⟩ := hdelete
    · obtain ⟨-, ht2, rfl⟩ | ⟨q, s3, hq, ht2, hclose, rfl, hreleases⟩ := hparent
      · exact SameNodes.of_tree_eq (ht1.trans ht2).tree_eq
      obtain hdir | ⟨⟨e, hrefuses⟩, hstays⟩ := hdir
      · cases ((PathOpens.of_tree_eq ht1.tree_eq).mp hq).unique hdir
      · rw [hrefuses]
        rw [← hreleases rfl] at hstays
        have htree := ((h.touched (ht1.trans ht2)).close_releases hclose).2 hstays
        exact SameNodes.of_tree_eq (htree.trans (ht1.trans ht2).tree_eq)
    · cases hr
  · cases hold.unique hold'
    cases hnew.unique hnew'
    obtain ⟨hr, -⟩ | ⟨n, res, hr, hdelete⟩ := hdelete
    · cases hr
    cases hr
    obtain ⟨nd, hnd, hkind⟩ := opens_kind h.toShape hnew
    have hsame := vfsDelete_same h ht1 hdelete hnd hkind hkeep
    -- the directory of the new path still has the entry, so that it is not released
    obtain ⟨q', hq', hchild⟩ := opens_parent hnames (hjoin ▸ (hsame new (some n)).mpr hnew)
    rw [← hjoin] at hq'
    obtain ⟨hnone, -⟩ | ⟨q, s3, hq, ht2, hclose, rfl, -⟩ := hparent
    · cases hnone.unique hq'
    · cases hq.unique hq'
      have h3 := ((h.touched ht1).delete hdelete).touched ht2
      have htree := h3.close (ht2.tree_eq ▸ hchild) hclose
      have hall : SameNodes s s' := by
        intro path m
        rw [PathOpens.of_tree_eq (htree.trans ht2.tree_eq)]
        exact hsame path (some m)
      cases hanswer : vfsRename (callback o) with
      | error e => exact hall
      | ok _ =>
        obtain rfl | ⟨e, hrefuses⟩ := hsource
        · exact ⟨n, hold, fun _ => hall, fun hne => absurd hnew hne⟩
        · rw [hanswer] at hrefuses
          cases hrefuses

theorem nothing_of_renameNodes (hdiff : NamesDiffer s) (hatomic : RenameAtomic s s' old new ret) :
    NothingToRename callback depth s old new := by
  obtain ⟨hnone, -, -⟩ | ⟨o, r, s1, s2, hold, hnew, ht1, hdelete, hparent⟩ := renameNodes_steps h hcall
  · exact .inl hnone
  refine .inr ⟨o, hold, ?_⟩
  have hprunes1 : Prunes s.tree s2.tree := by
    rw [← ht1.tree_eq]
    obtain ⟨-, rfl⟩ | ⟨n, res, -, hdelete⟩ := hdelete
    · exact Prunes.refl _
    · obtain rfl | ⟨nd, -, -, htree | ⟨p, -, htree⟩⟩ := vfsDelete_spec hdelete
      · exact Prunes.refl _
      · rw [htree]
        exact Prunes.refl _
      · rw [htree]
        exact prunes_erase s1.tree n p
  have hprunes2 : Prunes s2.tree s'.tree := by
    obtain ⟨-, ht2, -⟩ | ⟨q, s3, -, ht2, hclose, -⟩ := hparent
    · rw [ht2.tree_eq]
      exact Prunes.refl _
    · rw [← ht2.tree_eq]
      exact vfsClose_prunes hclose
  have hkeeps := (hprunes1.trans hprunes2).keeps hdiff
  have hback : ∀ path m, PathOpens s' path (some m) → PathOpens s path (some m) := by
    intro path m hopen
    obtain ⟨d, vis, hlookup⟩ := opens_iff.mp hopen
    exact opens_iff.mpr ⟨d, vis, hkeeps.lookup_eq (fun _ _ => id) hlookup⟩
  -- a path through the removed node opens nothing any more
  have hstay : SameNodes s s' → ∀ n, r = some n → ¬ Removable s n ∨ ¬ LeadsThrough s.tree n := by
    rintro hall n rfl
    by_contra hboth
    rw [not_or, not_not, not_not] at hboth
    obtain ⟨hn, d, path, m, vis, hlookup, hvis⟩ := hboth
    obtain ⟨hr, -⟩ | ⟨n', res, hr, hdelete⟩ := hdelete
    · cases hr
    cases hr
    have h1 := h.touched ht1
    have hn1 : Removable s1 n := by rwa [h1.removable_iff, ht1.tree_eq, ← h.removable_iff]
    obtain ⟨-, -, -, hout, -⟩ := vfsDelete_removable h1 hn1 hdelete
    obtain ⟨d', vis', hlookup'⟩ := opens_iff.mp ((hall path m).mpr (opens_iff.mpr ⟨d, vis, hlookup⟩))
    have hmax := lookup_of_le (le_max_left d d') hlookup
    rw [lookup_of_le (le_max_right d d') (hkeeps.lookup_eq (fun _ _ => id) hlookup')] at hmax
    cases hmax
    obtain ⟨q, qd', hq', hmem⟩ := mem_child_of_lookup hlookup' n hvis
    obtain ⟨qd, hq, -, -, -, -, -, hchild⟩ := hprunes2 q qd' hq'
    exact hout q qd hq (hchild hmem)
  obtain ⟨hnone, -, rfl⟩ | ⟨q, s3, hq, ht2, hclose, rfl, hreleases⟩ := hparent
  · cases r with
    | none =>
      obtain ⟨-, rfl⟩ | ⟨n, res, hr, -⟩ := hdelete
      · exact .inl ⟨hnew, .inl ((PathOpens.of_tree_eq ht1.tree_eq).mp hnone)⟩
      · cases hr
    | some n =>
      obtain ⟨hr, -⟩ | ⟨n', res, hr, hdelete⟩ := hdelete
      · cases hr
      cases hr
      obtain ⟨nd, hnd, hkind⟩ := opens_kind h.toShape hnew
      have hsame := vfsDelete_same h ht1 hdelete hnd hkind (hstay hatomic n rfl)
      obtain ⟨q', hq', -⟩ := opens_parent hnames (hjoin ▸ (hsame new (some n)).mpr hnew)
      rw [← hjoin] at hq'
      cases hnone.unique hq'
  cases hanswer : vfsRename (callback o) with
  | error e =>
    rw [hanswer] at hatomic
    have hall : SameNodes s s' := hatomic
    cases r with
    | none =>
      refine .inl ⟨hnew, .inr ⟨⟨e, hanswer⟩, fun hreleased => ?_⟩⟩
      -- no path leads to the directory that the close has released
      obtain ⟨-, rfl⟩ | ⟨n, res, hr, -⟩ := hdelete
      · have h3 := h.touched (ht1.trans ht2)
        have hreleases := (hreleases rfl).mpr hreleased
        have hgone := (h3.close_releases hclose).1 hreleases
        have hopens := (hall (getParentPath new) q).mpr ((PathOpens.of_tree_eq ht1.tree_eq).mp hq)
        obtain ⟨names', hvalid, hpath⟩ := getParentPath_names hnames
        rw [hjoin, hpath] at hopens
        obtain hroot | hsome := hopens.isSome_node hvalid
        · exact hreleases.1 hroot
        · rw [hgone] at hsome
          cases hsome
      · cases hr
    | some n => exact .inr ⟨n, hnew, .inr ⟨e, hanswer⟩, hstay hall n rfl⟩
  | ok _ =>
    rw [hanswer] at hatomic
    obtain ⟨o', hold', hall, hmoved⟩ := hatomic
    cases hold.unique hold'
    by_cases hboth : PathOpens s new (some o)
    · cases hnew.unique hboth
      exact .inr ⟨o, hnew, .inl rfl, hstay (hall hboth) o rfl⟩
    · exact absurd (hback new o (hmoved hboth).1) hboth

end Outcome

theorem vfsCwdPathBuild_names {cwd : ℕ} {src : List Char} (h : vfsCwdPathBuild t cwd src = some path) :
    ∃ names, (∀ name ∈ names, ValidName name) ∧ path = joinPath names := by
  unfold vfsCwdPathBuild at h
  split_ifs at h
  · obtain ⟨names, hvalid, heq⟩ := normalizePath_eq src
    cases h
    exact ⟨names, hvalid, heq⟩
  · obtain ⟨bpath, -, rfl⟩ := map_eq_some_iff.mp h
    exact normalizePath_eq _

/-- In every tree that calls reach, a rename of two paths that returns does what it should if a path is
not in the memory of the user, or there is nothing to rename; where the names in each directory
differ, it does what it should in no other case. -/
theorem rename_atomic_iff {callback : ℕ → RenameCallback} {depth₀ depth cwd : ℕ} {ops : List VfsOp} {s s' : Vfs}
    {oldpath newpath old new : List Char} {user : Bool × Bool} {ret : Except RenameError Unit}
    (hrun : Runs.run (vfsStep depth₀) ops Vfs.boot = some s)
    (hold : vfsCwdPathBuild s.tree cwd oldpath = some old)
    (hnew : vfsCwdPathBuild s.tree cwd newpath = some new)
    (hcall : sysRename callback depth cwd s (some oldpath) (some newpath) user = some (s', ret)) :
    ((user.1 = true ∧ user.2 = true → NothingToRename callback depth s old new) →
        RenameAtomic s s' old new ret) ∧
      (NamesDiffer s → RenameAtomic s s' old new ret →
        user.1 = true ∧ user.2 = true → NothingToRename callback depth s old new) := by
  have h := listsLive_of_run hrun
  obtain ⟨names, hvalid, hjoin⟩ := vfsCwdPathBuild_names hnew
  unfold sysRename at hcall
  dsimp only at hcall
  by_cases hu₁ : user.1 = true
  · by_cases hu₂ : user.2 = true
    · rw [if_neg (not_not.mpr hu₁), if_neg (not_not.mpr hu₂), hold, hnew, Option.bind_some,
        Option.bind_some] at hcall
      exact ⟨fun hnothing => renameNodes_nothing h hvalid hjoin hcall (hnothing ⟨hu₁, hu₂⟩),
        fun hdiff hatomic _ => nothing_of_renameNodes h hvalid hjoin hcall hdiff hatomic⟩
    · rw [if_neg (not_not.mpr hu₁), if_pos hu₂] at hcall
      cases hcall
      exact ⟨fun _ => SameNodes.of_tree_eq rfl, fun _ _ hu => absurd hu.2 hu₂⟩
  · rw [if_pos hu₁] at hcall
    cases hcall
    exact ⟨fun _ => SameNodes.of_tree_eq rfl, fun _ _ hu => absurd hu.1 hu₁⟩

theorem pathOpens_of_vfsOpen (h : (vfsOpen depth s path).map Prod.snd = some r) : PathOpens s path r := by
  obtain ⟨⟨s', r'⟩, hopen, rfl⟩ := map_eq_some_iff.mp h
  exact ⟨depth, s', hopen⟩

def deviceFile : List VfsOp := [.mkdir ['/', 'd'], .mkfile ['/', 'd', '/', 't']]

/-- A device that its file system does not let go to a free name, and a directory with a file renamed to itself. -/
theorem rename_atomic_iff_device :
    ∃ s s₁ s₂, Runs.run (vfsStep 1) deviceFile Vfs.boot = some s ∧
      sysRename (fun _ => .devtmpfsRename true) 1 rootdir s (some ['/', 'd', '/', 't']) (some ['/', 'd', '/', 'f'])
        (true, true) = some (s₁, .error .noent) ∧
      RenameAtomic s s₁ ['/', 'd', '/', 't'] ['/', 'd', '/', 'f'] (.error .noent) ∧
      sysRename (fun _ => .tmpfsRename) 1 rootdir s (some ['/', 'd']) (some ['/', 'd']) (true, true) =
        some (s₂, .ok ()) ∧
      RenameAtomic s s₂ ['/', 'd'] ['/', 'd'] (.ok ()) := by
  obtain ⟨s, hs⟩ := Option.isSome_iff_exists.mp
    (show (Runs.run (vfsStep 1) deviceFile Vfs.boot).isSome = true by decide)
  have hstate : ∀ s ∈ Runs.run (vfsStep 1) deviceFile Vfs.boot,
      (vfsOpen 1 s ['/', 'd']).map Prod.snd = some (some 1) ∧
        (vfsOpen 1 s ['/', 'd', '/', 't']).map Prod.snd = some (some 2) ∧
        (vfsOpen 1 s ['/', 'd', '/', 'f']).map Prod.snd = some none ∧
        (s.node 1).map VfsNode.delete = some false ∧
        (s.node 1).map (fun nd => (nd.kind, vfsDirHasLiveChild s nd)) = some (.dir, true) ∧
        vfsCwdPathBuild s.tree rootdir ['/', 'd'] = some ['/', 'd'] ∧
        vfsCwdPathBuild s.tree rootdir ['/', 'd', '/', 't'] = some ['/', 'd', '/', 't'] ∧
        vfsCwdPathBuild s.tree rootdir ['/', 'd', '/', 'f'] = some ['/', 'd', '/', 'f'] := by decide
  obtain ⟨hdir, hdevice, hfree, hmark, hlive, hpath, hpathT, hpathF⟩ := hstate s hs
  have hcalls : ∀ s ∈ Runs.run (vfsStep 1) deviceFile Vfs.boot,
      ((sysRename (fun _ => .devtmpfsRename true) 1 rootdir s (some ['/', 'd', '/', 't']) (some ['/', 'd', '/', 'f'])
        (true, true)).map fun r => decide (r.2 matches .error .noent)) = some true ∧
      ((sysRename (fun _ => .tmpfsRename) 1 rootdir s (some ['/', 'd']) (some ['/', 'd']) (true, true)).map
        fun r => decide (r.2 matches .ok ())) = some true := by decide
  obtain ⟨hcall₁, hcall₂⟩ := hcalls s hs
  obtain ⟨⟨s₁, ret₁⟩, hcall₁, hret₁⟩ := Option.map_eq_some_iff.mp hcall₁
  obtain ⟨⟨s₂, ret₂⟩, hcall₂, hret₂⟩ := Option.map_eq_some_iff.mp hcall₂
  obtain rfl : ret₁ = .error .noent := by
    rcases ret₁ with (_ | _ | _) | _
    · cases hret₁
    · cases hret₁
    · rfl
    · cases hret₁
  obtain rfl : ret₂ = .ok () := by
    cases ret₂ with
    | error _ => cases hret₂
    | ok _ => rfl
  have hopen := pathOpens_of_vfsOpen hdir
  refine ⟨s, s₁, s₂, hs, hcall₁, ?_, hcall₂, ?_⟩
  · refine (rename_atomic_iff hs hpathT hpathF hcall₁).1 fun _ => .inr ⟨2, pathOpens_of_vfsOpen hdevice,
      .inl ⟨pathOpens_of_vfsOpen hfree, .inr ⟨⟨.perm, rfl⟩, ?_⟩⟩⟩
    rintro ⟨q, nd, hq, -, hnd, hdelete, -⟩
    have hparent : getParentPath ['/', 'd', '/', 'f'] = ['/', 'd'] := by decide
    rw [hparent] at hq
    cases hq.unique hopen
    rw [hnd] at hmark
    cases (Option.some.inj hmark).symm.trans hdelete
  · refine (rename_atomic_iff hs hpath hpath hcall₂).1 fun _ => .inr ⟨1, hopen,
      .inr ⟨1, hopen, .inl rfl, .inl fun hremove => ?_⟩⟩
    obtain ⟨nd, hnd, heq⟩ := Option.map_eq_some_iff.mp hlive
    obtain ⟨hkind, hchild⟩ := Prod.mk.inj heq
    exact hremove.2 nd hnd ⟨hkind, hchild⟩

def twoFiles : List VfsOp := [.mkfile ['/', 'a'], .mkfile ['/', 'b']]

/-- The rename of a file to the name of another one. With `tmpfs` it succeeds; the other file is gone, its name leads
nowhere, and the file is where it was. A device cannot be renamed, but the other file is gone. -/
theorem rename_not_atomic :
    ∃ s, Runs.run (vfsStep 1) twoFiles Vfs.boot = some s ∧
      (∃ s', sysRename (fun _ => .tmpfsRename) 1 rootdir s (some ['/', 'a']) (some ['/', 'b']) (true, true) =
          some (s', .ok ()) ∧ ¬ RenameAtomic s s' ['/', 'a'] ['/', 'b'] (.ok ())) ∧
      ∃ s', sysRename (fun _ => .devtmpfsRename true) 1 rootdir s (some ['/', 'a']) (some ['/', 'b']) (true, true) =
          some (s', .error .noent) ∧ ¬ RenameAtomic s s' ['/', 'a'] ['/', 'b'] (.error .noent) := by
  obtain ⟨s, hs⟩ := Option.isSome_iff_exists.mp
    (show (Runs.run (vfsStep 1) twoFiles Vfs.boot).isSome = true by decide)
  have hbefore : ∀ s ∈ Runs.run (vfsStep 1) twoFiles Vfs.boot,
      (vfsOpen 1 s ['/', 'a']).map Prod.snd = some (some 1) ∧
        (vfsOpen 1 s ['/', 'b']).map Prod.snd = some (some 2) := by decide
  have hafter : ∀ callback ∈ [RenameCallback.tmpfsRename, .devtmpfsRename true],
      ∀ s ∈ Runs.run (vfsStep 1) twoFiles Vfs.boot,
        ((sysRename (fun _ => callback) 1 rootdir s (some ['/', 'a']) (some ['/', 'b']) (true, true)).map fun r =>
          ((vfsOpen 1 r.1 ['/', 'b']).map Prod.snd, decide (r.2 matches .ok ()), decide (r.2 matches .error .noent))) =
        some (some none, decide (callback = .tmpfsRename), decide (callback ≠ .tmpfsRename)) := by decide
  obtain ⟨holdOpens, hnewOpens⟩ := hbefore s hs
  refine ⟨s, hs, ?_, ?_⟩
  · obtain ⟨⟨s', ret⟩, hcall, heq⟩ := Option.map_eq_some_iff.mp (hafter .tmpfsRename (by decide) s hs)
    obtain ⟨hnew', hret⟩ := Prod.mk.inj heq
    obtain rfl : ret = .ok () := by
      cases ret with
      | error _ => cases (Prod.mk.inj hret).1
      | ok _ => rfl
    refine ⟨s', hcall, ?_⟩
    rintro ⟨o, hold, -, hmoved⟩
    cases hold.unique (pathOpens_of_vfsOpen holdOpens)
    have hother : ¬ PathOpens s ['/', 'b'] (some 1) := fun hnew => by
      cases hnew.unique (pathOpens_of_vfsOpen hnewOpens)
    cases (hmoved hother).1.unique (pathOpens_of_vfsOpen hnew')
  · obtain ⟨⟨s', ret⟩, hcall, heq⟩ := Option.map_eq_some_iff.mp (hafter (.devtmpfsRename true) (by decide) s hs)
    obtain ⟨hnew', hret⟩ := Prod.mk.inj heq
    obtain rfl : ret = .error .noent := by
      rcases ret with (_ | _ | _) | _
      · cases (Prod.mk.inj hret).2
      · cases (Prod.mk.inj hret).2
      · rfl
      · cases (Prod.mk.inj hret).2
    refine ⟨s', hcall, fun hsame => ?_⟩
    cases ((hsame ['/', 'b'] 2).mpr (pathOpens_of_vfsOpen hnewOpens)).unique (pathOpens_of_vfsOpen hnew')

end CoolPotOS
