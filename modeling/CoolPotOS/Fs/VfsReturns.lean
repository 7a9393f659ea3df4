import CoolPotOS.Fs.VfsLink
import CoolPotOS.Lib.Acyclic

namespace CoolPotOS

open Relation Option

/-- The pointers of the tree lead to nodes, of which there are finitely many. -/
structure ClosedTree (t : Tree) : Prop where
  root : (t rootdir).isSome
  parent : ∀ n nd p, t n = some nd → nd.parent = some p → (t p).isSome
  linkto : ∀ n nd m, t n = some nd → nd.linkto = some m → (t m).isSome
  finite : {n | (t n).isSome}.Finite

/-- The path that `vfs_resolve_symlink_target` opens for a link. -/
def linkPath (t : Tree) (link : ℕ) : Option (List Char) :=
  (t link).bind fun nd =>
    match nd.linkto, nd.linktoPath with
    | none, some path =>
      if path.head? = some '/' then some path
      else (vfsGetFullpath t (nd.parent.getD rootdir)).map fun base => normalizePath (pathacat base path)
    | _, _ => none

/-- The path of the directory of a relative link fits in the buffer of `vfs_get_fullpath`. -/
def LinkFits (t : Tree) (link : ℕ) : Prop :=
  ∀ nd path, t link = some nd → nd.linkto = none → nd.linktoPath = some path → path.head? ≠ some '/' →
    (vfsGetFullpath t (nd.parent.getD rootdir)).isSome

/-- The link is resolved to `r` by calls of some depth. -/
def Resolves (t : Tree) (link : ℕ) (r : Option ℕ) : Prop :=
  ∃ depth vis, resolveLink (lookup depth t) t link = some (r, vis)

/-- A walk comes to the link `m` and follows it. -/
inductive WalkMeets (nofollow : Bool) (t : Tree) (m : ℕ) : List (List Char × Bool) → ℕ → Prop
  | dot {last : Bool} {toks : List (List Char × Bool)} {current : ℕ}
      (walk : WalkMeets nofollow t m toks current) : WalkMeets nofollow t m ((['.'], last) :: toks) current
  | dots {last : Bool} {toks : List (List Char × Bool)} {current : ℕ} {cur : TreeNode}
      (hcur : t current = some cur) (walk : WalkMeets nofollow t m toks (cur.parent.getD current)) :
      WalkMeets nofollow t m ((['.', '.'], last) :: toks) current
  | enter {buf : List Char} {last : Bool} {toks : List (List Char × Bool)} {current c : ℕ}
      {cur nd : TreeNode} (hdot : buf ≠ ['.']) (hdots : buf ≠ ['.', '.'])
      (hcur : t current = some cur) (hfind : vfsChildFind t cur buf = some c) (hnd : t c = some nd)
      (hkind : nd.kind ≠ .symlink) (walk : WalkMeets nofollow t m toks c) :
      WalkMeets nofollow t m ((buf, last) :: toks) current
  | here {buf : List Char} {last : Bool} {toks : List (List Char × Bool)} {current : ℕ}
      {cur nd : TreeNode} (hdot : buf ≠ ['.']) (hdots : buf ≠ ['.', '.'])
      (hcur : t current = some cur) (hfind : vfsChildFind t cur buf = some m) (hnd : t m = some nd)
      (hkind : nd.kind = .symlink) (hlast : ¬ (nofollow ∧ last))
      (hgood : ¬ (nd.parent.isNone ∨ (nd.linkto.isNone ∧ nd.linktoPath.isNone))) :
      WalkMeets nofollow t m ((buf, last) :: toks) current
  | follow {buf : List Char} {last : Bool} {toks : List (List Char × Bool)} {current c target : ℕ}
      {cur nd : TreeNode} (hdot : buf ≠ ['.']) (hdots : buf ≠ ['.', '.'])
      (hcur : t current = some cur) (hfind : vfsChildFind t cur buf = some c) (hnd : t c = some nd)
      (hkind : nd.kind = .symlink) (hlast : ¬ (nofollow ∧ last))
      (hgood : ¬ (nd.parent.isNone ∨ (nd.linkto.isNone ∧ nd.linktoPath.isNone)))
      (hres : Resolves t c (some target)) (walk : WalkMeets nofollow t m toks target) :
      WalkMeets nofollow t m ((buf, last) :: toks) current

/-- Opening the path comes to the link `m`. -/
def PathMeets (nofollow : Bool) (t : Tree) (str : List Char) (m : ℕ) : Prop :=
  str.head? = some '/' ∧ WalkMeets nofollow t m (pathTokens str.tail) rootdir

/-- Opening the path of the link `n` comes to the link `m`. -/
def LeadsTo (t : Tree) (n m : ℕ) : Prop := ∃ path, linkPath t n = some path ∧ PathMeets false t path m

/-- No link that the path leads to, over any number of links, leads to itself, and all of them fit. -/
def LinksEnd (nofollow : Bool) (t : Tree) (str : List Char) : Prop :=
  ∀ m, PathMeets nofollow t str m → ∀ k, ReflTransGen (LeadsTo t) m k →
    LinkFits t k ∧ ¬ TransGen (LeadsTo t) k k

/-- `vfs_open` or `vfs_open_nofollow` as a function of the tree. -/
def openLookup (nofollow : Bool) (depth : ℕ) (t : Tree) (str : List Char) : Found :=
  if nofollow then lookupNofollow depth t str else lookup (depth + 1) t str

theorem openLookup_eq (nofollow : Bool) (depth : ℕ) (t : Tree) (str : List Char) :
    openLookup nofollow depth t str = if str.head? = some '/' then
        lookupWalk nofollow (resolveLink (lookup depth t) t) t (pathTokens str.tail) rootdir
      else some (none, []) := by
  cases nofollow <;> rfl

variable {x : Option ℕ × List ℕ} {s : Vfs}

section Walk

variable {nofollow : Bool} {t : Tree} {toks : List (List Char × Bool)} {current link m depth : ℕ}
  {str : List Char}

theorem resolveLink_of_le {depth depth' : ℕ} (hle : depth ≤ depth')
    (h : resolveLink (lookup depth t) t link = some x) : resolveLink (lookup depth' t) t link = some x :=
  resolveLink_mono (fun _ _ => lookup_of_le hle) h

theorem Resolves.unique {r r' : Option ℕ} (h : Resolves t link r) (h' : Resolves t link r') : r = r' := by
  obtain ⟨d, vis, h⟩ := h
  obtain ⟨d', vis', h'⟩ := h'
  have hmax := resolveLink_of_le (le_max_left d d') h
  rw [resolveLink_of_le (le_max_right d d') h'] at hmax
  exact (congrArg Prod.fst (some.inj hmax)).symm

theorem ClosedTree.resolves_isSome (h : ClosedTree t) {target : ℕ} (hres : Resolves t link (some target)) :
    (t target).isSome := by
  obtain ⟨d, vis, hres⟩ := hres
  refine resolveLink_result (Q := fun n => (t n).isSome) h.linkto (fun str r vis hl => ?_) hres
  refine lookup_result (Q := fun n => (t n).isSome) h.root (fun n nd p _ => h.parent n nd p) ?_ h.linkto hl
  intro n nd hnd _
  rw [hnd]
  rfl

theorem resolveLink_eq_lookup {path : List Char} (hpath : linkPath t link = some path)
    (lookup : List Char → Found) : resolveLink lookup t link = lookup path := by
  unfold linkPath at hpath
  unfold resolveLink
  obtain ⟨nd, hnd, hpath⟩ := bind_eq_some_iff.mp hpath
  rw [hnd, bind_some]
  split at hpath
  case h_1 p hto hp =>
    rw [hto, hp]
    dsimp only
    by_cases habs : p.head? = some '/'
    · rw [if_pos habs] at hpath ⊢
      rw [Option.some.inj hpath]
    · rw [if_neg habs] at hpath ⊢
      obtain ⟨base, hbase, hpath⟩ := map_eq_some_iff.mp hpath
      rw [hbase, bind_some, hpath]
  · cases hpath

theorem resolveLink_of_linkPath_none (hlink : (t link).isSome) (hfits : LinkFits t link)
    (hpath : linkPath t link = none) (lookup : List Char → Found) : (resolveLink lookup t link).isSome := by
  obtain ⟨nd, hnd⟩ := isSome_iff_exists.mp hlink
  unfold linkPath at hpath
  unfold resolveLink
  rw [hnd, bind_some] at hpath ⊢
  cases hto : nd.linkto with
  | some target => rfl
  | none =>
    cases hp : nd.linktoPath with
    | none => rfl
    | some path =>
      rw [hto, hp] at hpath
      dsimp only at hpath
      by_cases habs : path.head? = some '/'
      · rw [if_pos habs] at hpath
        cases hpath
      · rw [if_neg habs, map_eq_none_iff] at hpath
        have hbase := hfits nd path hnd hto hp habs
        rw [hpath] at hbase
        cases hbase

theorem linkFits_of_resolveLink {lookup : List Char → Found} (h : (resolveLink lookup t link).isSome) :
    LinkFits t link := by
  intro nd path hnd hto hpath habs
  unfold resolveLink at h
  rw [hnd, bind_some, hto, hpath] at h
  dsimp only at h
  rw [if_neg habs] at h
  cases hbase : vfsGetFullpath t (nd.parent.getD rootdir) with
  | none =>
    rw [hbase] at h
    cases h
  | some base => rfl

theorem WalkMeets.isSome (h : WalkMeets nofollow t m toks current) : (t m).isSome := by
  induction h with
  | dot walk ih => exact ih
  | dots hcur walk ih => exact ih
  | enter hdot hdots hcur hfind hnd hkind walk ih => exact ih
  | here hdot hdots hcur hfind hnd hkind hlast hgood =>
    rw [hnd]
    rfl
  | follow hdot hdots hcur hfind hnd hkind hlast hgood hres walk ih => exact ih

theorem WalkMeets.singleton {buf : List Char} {last : Bool} (h : WalkMeets nofollow t m [(buf, last)] current)
    (hdot : buf ≠ ['.']) (hdots : buf ≠ ['.', '.']) :
    ∃ cur, t current = some cur ∧ vfsChildFind t cur buf = some m := by
  cases h with
  | dot => exact absurd rfl hdot
  | dots => exact absurd rfl hdots
  | enter _ _ _ _ _ _ walk => cases walk
  | here _ _ hcur hfind => exact ⟨_, hcur, hfind⟩
  | follow _ _ _ _ _ _ _ _ _ walk => cases walk

theorem ClosedTree.walk_returns (h : ClosedTree t) (hcurrent : (t current).isSome)
    (hmeets : ∀ m, WalkMeets nofollow t m toks current → ∃ r, Resolves t m r) :
    ∃ depth r vis, Walks nofollow (resolveLink (lookup depth t) t) t toks current r vis := by
  induction toks generalizing current with
  | nil => exact ⟨0, _, _, .done⟩
  | cons tok toks ih =>
    obtain ⟨buf, last⟩ := tok
    obtain ⟨cur, hcur⟩ := isSome_iff_exists.mp hcurrent
    by_cases hdot : buf = ['.']
    · subst hdot
      obtain ⟨depth, r, vis, hwalk⟩ := ih hcurrent fun m hm => hmeets m (.dot hm)
      exact ⟨depth, r, vis, .dot hcur hwalk⟩
    by_cases hdots : buf = ['.', '.']
    · subst hdots
      have hparent : (t (cur.parent.getD current)).isSome := by
        cases hp : cur.parent with
        | none => exact hcurrent
        | some p => exact h.parent current cur p hcur hp
      obtain ⟨depth, r, vis, hwalk⟩ := ih hparent fun m hm => hmeets m (.dots hcur hm)
      exact ⟨depth, r, vis, .dots hcur hwalk⟩
    cases hfind : vfsChildFind t cur buf with
    | none => exact ⟨0, _, _, .missing hdot hdots hcur hfind⟩
    | some c =>
      obtain ⟨-, nd, hnd, -⟩ := mem_of_vfsChildFind hfind
      by_cases hkind : nd.kind ≠ .symlink
      · obtain ⟨depth, r, vis, hwalk⟩ := ih (isSome_of_eq_some hnd)
          fun m hm => hmeets m (.enter hdot hdots hcur hfind hnd hkind hm)
        exact ⟨depth, r, _, .enter hdot hdots hcur hfind hnd hkind hwalk⟩
      have hlink := not_not.mp hkind
      by_cases hlast : nofollow ∧ last
      · exact ⟨0, _, _, .stop hdot hdots hcur hfind hnd hlink hlast⟩
      by_cases hbad : nd.parent.isNone ∨ (nd.linkto.isNone ∧ nd.linktoPath.isNone)
      · exact ⟨0, _, _, .broken hdot hdots hcur hfind hnd hlink hlast hbad⟩
      -- the link itself is met, and so are the links on the way on from its target
      obtain ⟨r, hres⟩ := hmeets c (.here hdot hdots hcur hfind hnd hlink hlast hbad)
      obtain ⟨depth, vis, hdepth⟩ := hres
      cases r with
      | none => exact ⟨depth, _, _, .dangling hdot hdots hcur hfind hnd hlink hlast hbad hdepth⟩
      | some target =>
        obtain ⟨td, htd⟩ := isSome_iff_exists.mp (h.resolves_isSome ⟨depth, vis, hdepth⟩)
        obtain ⟨depth', r, vis', hwalk⟩ := ih (isSome_of_eq_some htd) fun m hm =>
          hmeets m (.follow hdot hdots hcur hfind hnd hlink hlast hbad ⟨depth, vis, hdepth⟩ hm)
        have hdeep := resolveLink_of_le (le_max_left depth depth') hdepth
        have hwalk' := hwalk.mono fun _ _ => resolveLink_of_le (le_max_right depth depth')
        exact ⟨max depth depth', r, _, .follow hdot hdots hcur hfind hnd hlink hlast hbad hdeep htd hwalk'⟩

theorem WalkMeets.resolved (h : WalkMeets nofollow t m toks current)
    (hwalk : lookupWalk nofollow (resolveLink (lookup depth t) t) t toks current = some x) :
    (resolveLink (lookup depth t) t m).isSome := by
  induction h generalizing x with
  | @dot last toks current walk ih =>
    unfold lookupWalk at hwalk
    obtain ⟨cur, -, hwalk⟩ := bind_eq_some_iff.mp hwalk
    rw [if_pos rfl] at hwalk
    exact ih hwalk
  | dots hcur walk ih =>
    unfold lookupWalk at hwalk
    rw [hcur, bind_some, if_neg (by decide), if_pos rfl] at hwalk
    exact ih hwalk
  | enter hdot hdots hcur hfind hnd hkind walk ih =>
    unfold lookupWalk at hwalk
    rw [hcur, bind_some, if_neg hdot, if_neg hdots, hfind] at hwalk
    dsimp only at hwalk
    rw [hnd, bind_some, if_pos hkind] at hwalk
    obtain ⟨y, hy, -⟩ := map_eq_some_iff.mp hwalk
    exact ih hy
  | here hdot hdots hcur hfind hnd hkind hlast hgood =>
    unfold lookupWalk at hwalk
    rw [hcur, bind_some, if_neg hdot, if_neg hdots, hfind] at hwalk
    dsimp only at hwalk
    rw [hnd, bind_some, if_neg (not_not.mpr hkind), if_neg hlast, if_neg hgood] at hwalk
    obtain ⟨y, hy, -⟩ := bind_eq_some_iff.mp hwalk
    rw [hy]
    rfl
  | @follow buf last toks current c target cur nd hdot hdots hcur hfind hnd hkind hlast hgood hres walk ih =>
    unfold lookupWalk at hwalk
    rw [hcur, bind_some, if_neg hdot, if_neg hdots, hfind] at hwalk
    dsimp only at hwalk
    rw [hnd, bind_some, if_neg (not_not.mpr hkind), if_neg hlast, if_neg hgood] at hwalk
    obtain ⟨⟨r, vis⟩, hy, hwalk⟩ := bind_eq_some_iff.mp hwalk
    obtain rfl := hres.unique ⟨depth, vis, hy⟩
    dsimp only at hwalk
    obtain ⟨td, -, hwalk⟩ := bind_eq_some_iff.mp hwalk
    obtain ⟨y, hy, -⟩ := map_eq_some_iff.mp hwalk
    exact ih hy

theorem ClosedTree.open_returns (h : ClosedTree t) (hmeets : ∀ m, PathMeets nofollow t str m → ∃ r, Resolves t m r) :
    ∃ depth x, openLookup nofollow depth t str = some x := by
  by_cases habs : str.head? = some '/'
  · obtain ⟨depth, r, vis, hwalk⟩ := h.walk_returns h.root fun m hm => hmeets m ⟨habs, hm⟩
    refine ⟨depth, (r, vis), ?_⟩
    rw [openLookup_eq, if_pos habs, hwalk.lookupWalk_eq]
  · refine ⟨0, (none, []), ?_⟩
    rw [openLookup_eq, if_neg habs]

theorem ClosedTree.link_resolves (h : ClosedTree t) (hlink : (t link).isSome) (hfits : LinkFits t link)
    (hnext : ∀ m, LeadsTo t link m → ∃ r, Resolves t m r) : ∃ r, Resolves t link r := by
  cases hpath : linkPath t link with
  | none =>
    obtain ⟨⟨r, vis⟩, hres⟩ :=
      isSome_iff_exists.mp (resolveLink_of_linkPath_none hlink hfits hpath (lookup 0 t))
    exact ⟨r, 0, vis, hres⟩
  | some path =>
    have hreturns : ∃ depth x, openLookup false depth t path = some x :=
      h.open_returns fun m hm => hnext m ⟨path, hpath, hm⟩
    obtain ⟨depth, ⟨r, vis⟩, hopen⟩ := hreturns
    exact ⟨r, depth + 1, vis, (resolveLink_eq_lookup hpath _).trans hopen⟩

theorem PathMeets.resolved (h : PathMeets nofollow t str m) (hopen : openLookup nofollow depth t str = some x) :
    (resolveLink (lookup depth t) t m).isSome := by
  rw [openLookup_eq, if_pos h.1] at hopen
  exact h.2.resolved hopen

theorem LeadsTo.resolved {n : ℕ} (h : LeadsTo t n m) (hres : (resolveLink (lookup depth t) t n).isSome) :
    ∃ depth' < depth, (resolveLink (lookup depth' t) t m).isSome := by
  obtain ⟨path, hpath, hmeets⟩ := h
  rw [resolveLink_eq_lookup hpath] at hres
  cases depth with
  | zero => cases hres
  | succ depth =>
    obtain ⟨x, hx⟩ := isSome_iff_exists.mp hres
    have hopen : openLookup false depth t path = some x := hx
    exact ⟨depth, Nat.lt_succ_self depth, hmeets.resolved hopen⟩

theorem ClosedTree.open_returns_iff (h : ClosedTree t) :
    (∃ depth x, openLookup nofollow depth t str = some x) ↔ LinksEnd nofollow t str := by
  constructor
  · rintro ⟨depth, x, hopen⟩ m hm k hk
    have hchain := Acyclic.no_cycle (P := fun d n => (resolveLink (lookup d t) t n).isSome)
      (fun d b c hb hbc => hbc.resolved hb) (hm.resolved hopen) k hk
    obtain ⟨⟨d, hd⟩, hcycle⟩ := hchain
    exact ⟨linkFits_of_resolveLink hd, hcycle⟩
  · intro hends
    apply h.open_returns
    intro m hm
    have hinside : ∀ k, ReflTransGen (LeadsTo t) m k → (t k).isSome := by
      intro k hk
      rcases ReflTransGen.cases_tail hk with rfl | ⟨j, -, path, -, hmeets⟩
      · exact hm.2.isSome
      · exact hmeets.2.isSome
    apply Acyclic.induction_on (r := LeadsTo t) (h.finite.subset hinside)
    · exact fun k hk => (hends m hm k hk).2
    · exact fun k hk hnext => h.link_resolves (hinside k hk) (hends m hm k hk).1 hnext

end Walk

theorem Follows.isSome_eq {x : Option (Vfs × Option ℕ)} {y : Found} (h : Follows s x y) :
    x.isSome = y.isSome := by
  cases h with
  | fault => rfl
  | found _ => rfl

theorem Shape.closedTree (h : Shape s) : ClosedTree s.tree where
  root := by
    obtain ⟨rd, hrd, -⟩ := h.root
    exact isSome_of_eq_some hrd
  parent n nd p hnd hp := by
    obtain ⟨pd, hpd, -⟩ := h.parent_dir hnd hp
    exact isSome_of_eq_some hpd
  linkto n nd m hnd hm := by
    obtain ⟨md, hmd, -⟩ := h.linkto n nd m hnd hm
    exact isSome_of_eq_some hmd
  finite := by
    apply (Set.finite_Iio s.next).subset
    intro n hn
    by_contra hle
    rw [Set.mem_ofPred_eq, h.bounded n (not_lt.mp hle)] at hn
    cases hn

theorem shape_growing (depth : ℕ) : Growing depth (fun _ _ _ => True) Shape := by
  constructor
  · exact fun s h => h.root_kind
  · exact fun s n nd p pd h => h.parent_kind
  · exact fun s s' ht h => h.of_tree_eq ht.tree_eq ht.next_eq
  · exact fun s p pd name kind h hp hdir _ _ => h.append hp hdir name kind
  · intro s p pd name target s' r h hp hdir _ hopen
    obtain ⟨ht, vis, hlookup⟩ := vfsOpen_lookup hopen
    have h' := (h.append hp hdir name .symlink).of_tree_eq ht.tree_eq ht.next_eq
    exact h'.link (ht.tree_eq ▸ hlookup) s.next

theorem closedTree_of_run {depth : ℕ} {ops : List VfsOp} (hrun : Runs.run (vfsStep depth) ops Vfs.boot = some s) :
    ClosedTree s.tree := by
  have hstep : ∀ s op s', Shape s → True → vfsStep depth s op = some s' → Shape s' := by
    intro s op s' h _ hstep
    apply (shape_growing depth).step_keeps (fun _ _ _ _ _ => trivial) h _ (fun n res _ => h.delete) hstep
    cases op with
    | mkdir _ => trivial
    | mkfile _ => exact fun _ _ _ _ _ _ _ => trivial
    | symlink _ _ => exact fun _ _ _ _ _ _ => trivial
    | delete _ => trivial
  exact (Runs.run_keeps hstep shape_boot (Runs.meets_true ops _) hrun).closedTree

/-- `vfs_open` and `vfs_open_nofollow` return exactly when no chain of links from the path runs in a circle, and the
directories of its relative links fit in the buffer. -/
theorem vfs_open_returns {s : Vfs} (h : ClosedTree s.tree) (str : List Char) :
    ((∃ depth, (vfsOpen depth s str).isSome) ↔ LinksEnd false s.tree str) ∧
      ((∃ depth, (vfsOpenNofollow depth s str).isSome) ↔ LinksEnd true s.tree str) := by
  constructor
  · rw [← h.open_returns_iff]
    constructor
    · rintro ⟨depth, hopen⟩
      rw [(vfsOpen_follows depth s str rfl).isSome_eq] at hopen
      obtain ⟨x, hx⟩ := Option.isSome_iff_exists.mp hopen
      exact ⟨depth, x, lookup_succ hx⟩
    · rintro ⟨depth, x, hx⟩
      refine ⟨depth + 1, ?_⟩
      rw [(vfsOpen_follows (depth + 1) s str rfl).isSome_eq]
      exact Option.isSome_of_eq_some hx
  · rw [← h.open_returns_iff]
    constructor
    · rintro ⟨depth, hopen⟩
      rw [(vfsOpenNofollow_follows depth s str).isSome_eq] at hopen
      obtain ⟨x, hx⟩ := Option.isSome_iff_exists.mp hopen
      exact ⟨depth, x, hx⟩
    · rintro ⟨depth, x, hx⟩
      refine ⟨depth, ?_⟩
      rw [(vfsOpenNofollow_follows depth s str).isSome_eq]
      exact Option.isSome_of_eq_some hx

def danglingCalls : List VfsOp := [.symlink ['/', 'l'] ['/', 'x']]

theorem vfs_open_returns_dangling :
    ∃ s, Runs.run (vfsStep 2) danglingCalls Vfs.boot = some s ∧ ∃ depth, (vfsOpen depth s ['/', 'l']).isSome := by
  obtain ⟨s, hs⟩ := Option.isSome_iff_exists.mp
    (show (Runs.run (vfsStep 2) danglingCalls Vfs.boot).isSome = true by decide)
  have hfacts : ∀ s ∈ Runs.run (vfsStep 2) danglingCalls Vfs.boot,
      s.tree 0 = some ⟨none, ['/'], .dir, [1], none, none⟩ ∧
        s.tree 1 = some ⟨some 0, ['l'], .symlink, [], none, some ['/', 'x']⟩ := by decide
  obtain ⟨hroot, hlink⟩ := hfacts s hs
  have hchild : ∀ buf m, (∃ cur, s.tree 0 = some cur ∧ vfsChildFind s.tree cur buf = some m) → m = 1 ∧ buf = ['l'] := by
    rintro buf m ⟨cur, hcur, hfind⟩
    obtain rfl := Option.some.inj (hroot.symm.trans hcur)
    obtain ⟨hmem, nd, hnd, hname⟩ := mem_of_vfsChildFind hfind
    obtain rfl := List.mem_singleton.mp hmem
    obtain rfl := Option.some.inj (hlink.symm.trans hnd)
    exact ⟨rfl, hname.symm⟩
  have hleads : ∀ m, ¬ LeadsTo s.tree 1 m := by
    rintro m ⟨path, hpath, -, hmeets⟩
    unfold linkPath at hpath
    rw [hlink, Option.bind_some] at hpath
    dsimp only at hpath
    rw [if_pos (by decide)] at hpath
    cases hpath
    have htoks : pathTokens ['x'] = [(['x'], true)] := by decide
    rw [List.tail_cons, htoks] at hmeets
    exact absurd (hchild _ _ (hmeets.singleton (by decide) (by decide))).2 (by decide)
  refine ⟨s, hs, (vfs_open_returns (closedTree_of_run hs) ['/', 'l']).1.mpr ?_⟩
  rintro m ⟨-, hmeets⟩ k hk
  have htoks : pathTokens ['l'] = [(['l'], true)] := by decide
  rw [List.tail_cons, htoks] at hmeets
  obtain ⟨rfl, -⟩ := hchild _ _ (hmeets.singleton (by decide) (by decide))
  rcases ReflTransGen.cases_head hk with rfl | ⟨j, hj, -⟩
  · refine ⟨fun nd path hnd _ hpath habs => ?_, fun hcycle => ?_⟩
    · obtain rfl := Option.some.inj (hlink.symm.trans hnd)
      cases hpath
      exact absurd rfl habs
    · obtain ⟨j, hj, -⟩ := TransGen.head'_iff.mp hcycle
      exact hleads j hj
  · exact absurd hj (hleads j)

/-- A link to itself is followed for ever. -/
theorem vfsOpen_self_link :
    ∃ s, Runs.run (vfsStep 2) [.symlink ['/', 'a'] ['/', 'a']] Vfs.boot = some s ∧ ClosedTree s.tree ∧
      (∀ depth, vfsOpen depth s ['/', 'a'] = none) ∧
      ∀ depth, vfsOpenNofollow depth s ['/', 'a', '/', 'b'] = none := by
  obtain ⟨s, hs⟩ := Option.isSome_iff_exists.mp
    (show (Runs.run (vfsStep 2) [.symlink ['/', 'a'] ['/', 'a']] Vfs.boot).isSome = true by decide)
  have hfacts : ∀ s ∈ Runs.run (vfsStep 2) [.symlink ['/', 'a'] ['/', 'a']] Vfs.boot,
      s.tree 0 = some ⟨none, ['/'], .dir, [1], none, none⟩ ∧
        s.tree 1 = some ⟨some 0, ['a'], .symlink, [], none, some ['/', 'a']⟩ ∧
        linkPath s.tree 1 = some ['/', 'a'] ∧
        vfsChildFind s.tree ⟨none, ['/'], .dir, [1], none, none⟩ ['a'] = some 1 := by decide
  obtain ⟨hroot, hlink, hpath, hfind⟩ := hfacts s hs
  have hwalk : ∀ nofollow resolve toks last, resolve 1 = none → ¬ (nofollow = true ∧ last = true) →
      lookupWalk nofollow resolve s.tree ((['a'], last) :: toks) 0 = none := by
    intro nofollow resolve toks last hres hlast
    unfold lookupWalk
    rw [hroot, Option.bind_some, if_neg (by decide), if_neg (by decide), hfind]
    dsimp only
    rw [hlink, Option.bind_some, if_neg (by decide), if_neg hlast, if_neg (by decide), hres, Option.bind_none]
  have hdeep : ∀ depth, lookup depth s.tree ['/', 'a'] = none := by
    intro depth
    induction depth with
    | zero => rfl
    | succ depth ih =>
      have htoks : pathTokens ['a'] = [(['a'], true)] := by decide
      rw [lookup, if_pos (by decide), List.tail_cons, htoks]
      exact hwalk _ _ _ _ ((resolveLink_eq_lookup hpath _).trans ih) (by decide)
  refine ⟨s, hs, closedTree_of_run hs, fun depth => ?_, fun depth => ?_⟩
  · have hsame := (vfsOpen_follows depth s ['/', 'a'] rfl).isSome_eq
    rw [hdeep] at hsame
    exact Option.not_isSome_iff_eq_none.mp (by simp [hsame])
  · have hsame := (vfsOpenNofollow_follows depth s ['/', 'a', '/', 'b']).isSome_eq
    have htoks : pathTokens ['a', '/', 'b'] = [(['a'], false), (['b'], true)] := by decide
    have hnone : lookupNofollow depth s.tree ['/', 'a', '/', 'b'] = none := by
      rw [lookupNofollow, if_pos (by decide), List.tail_cons, htoks]
      exact hwalk _ _ _ _ ((resolveLink_eq_lookup hpath _).trans (hdeep depth)) (by decide)
    rw [hnone] at hsame
    exact Option.not_isSome_iff_eq_none.mp (by simp [hsame])

end CoolPotOS
