import CoolPotOS.Fs.Vfs

namespace CoolPotOS

open Option

/-- The node at the end of a path, if there is one, and the nodes that were found in a directory on
the way to it. -/
abbrev Found := Option (Option ℕ × List ℕ)

def resolveLink (lookup : List Char → Found) (t : Tree) (link : ℕ) : Found :=
  (t link).bind fun nd =>
    match nd.linkto, nd.linktoPath with
    | some target, _ => some (some target, [])
    | none, none => some (none, [])
    | none, some path =>
      if path.head? = some '/' then lookup path
      else
        (vfsGetFullpath t (nd.parent.getD rootdir)).bind fun base =>
          lookup (normalizePath (pathacat base path))

def lookupWalk (nofollow : Bool) (resolve : ℕ → Found) (t : Tree) :
    List (List Char × Bool) → ℕ → Found
  | [], current => some (some current, [])
  | (buf, last) :: toks, current =>
    (t current).bind fun cur =>
      if buf = ['.'] then lookupWalk nofollow resolve t toks current
      else if buf = ['.', '.'] then lookupWalk nofollow resolve t toks (cur.parent.getD current)
      else
        match vfsChildFind t cur buf with
        | none => some (none, [])
        | some c =>
          (t c).bind fun nd =>
            if nd.kind ≠ .symlink then
              (lookupWalk nofollow resolve t toks c).map fun r => (r.1, c :: r.2)
            else if nofollow ∧ last then some (some c, [c])
            else if nd.parent.isNone ∨ (nd.linkto.isNone ∧ nd.linktoPath.isNone) then
              some (none, [c])
            else
              (resolve c).bind fun r =>
                match r with
                | (none, vis) => some (none, c :: vis)
                | (some target, vis) =>
                  (t target).bind fun _ =>
                    (lookupWalk nofollow resolve t toks target).map fun r => (r.1, c :: vis ++ r.2)

def lookup : ℕ → Tree → List Char → Found
  | 0, _, _ => none
  | depth + 1, t, str =>
    if str.head? = some '/' then
      lookupWalk false (resolveLink (lookup depth t) t) t (pathTokens str.tail) rootdir
    else some (none, [])

def lookupNofollow (depth : ℕ) (t : Tree) (str : List Char) : Found :=
  if str.head? = some '/' then
    lookupWalk true (resolveLink (lookup depth t) t) t (pathTokens str.tail) rootdir
  else some (none, [])

inductive Walks (nofollow : Bool) (resolve : ℕ → Found) (t : Tree) :
    List (List Char × Bool) → ℕ → Option ℕ → List ℕ → Prop
  | done {current : ℕ} : Walks nofollow resolve t [] current (some current) []
  | dot {last : Bool} {toks : List (List Char × Bool)} {current : ℕ} {cur : TreeNode}
      {r : Option ℕ} {vis : List ℕ} (hcur : t current = some cur)
      (walk : Walks nofollow resolve t toks current r vis) :
      Walks nofollow resolve t ((['.'], last) :: toks) current r vis
  | dots {last : Bool} {toks : List (List Char × Bool)} {current : ℕ} {cur : TreeNode}
      {r : Option ℕ} {vis : List ℕ} (hcur : t current = some cur)
      (walk : Walks nofollow resolve t toks (cur.parent.getD current) r vis) :
      Walks nofollow resolve t ((['.', '.'], last) :: toks) current r vis
  | missing {buf : List Char} {last : Bool} {toks : List (List Char × Bool)} {current : ℕ}
      {cur : TreeNode} (hdot : buf ≠ ['.']) (hdots : buf ≠ ['.', '.'])
      (hcur : t current = some cur) (hfind : vfsChildFind t cur buf = none) :
      Walks nofollow resolve t ((buf, last) :: toks) current none []
  | enter {buf : List Char} {last : Bool} {toks : List (List Char × Bool)} {current c : ℕ}
      {cur nd : TreeNode} {r : Option ℕ} {vis : List ℕ} (hdot : buf ≠ ['.'])
      (hdots : buf ≠ ['.', '.']) (hcur : t current = some cur)
      (hfind : vfsChildFind t cur buf = some c) (hnd : t c = some nd) (hkind : nd.kind ≠ .symlink)
      (walk : Walks nofollow resolve t toks c r vis) :
      Walks nofollow resolve t ((buf, last) :: toks) current r (c :: vis)
  | stop {buf : List Char} {last : Bool} {toks : List (List Char × Bool)} {current c : ℕ}
      {cur nd : TreeNode} (hdot : buf ≠ ['.']) (hdots : buf ≠ ['.', '.'])
      (hcur : t current = some cur) (hfind : vfsChildFind t cur buf = some c)
      (hnd : t c = some nd) (hkind : nd.kind = .symlink) (hlast : nofollow ∧ last) :
      Walks nofollow resolve t ((buf, last) :: toks) current (some c) [c]
  | broken {buf : List Char} {last : Bool} {toks : List (List Char × Bool)} {current c : ℕ}
      {cur nd : TreeNode} (hdot : buf ≠ ['.']) (hdots : buf ≠ ['.', '.'])
      (hcur : t current = some cur) (hfind : vfsChildFind t cur buf = some c)
      (hnd : t c = some nd) (hkind : nd.kind = .symlink) (hlast : ¬ (nofollow ∧ last))
      (hbad : nd.parent.isNone ∨ (nd.linkto.isNone ∧ nd.linktoPath.isNone)) :
      Walks nofollow resolve t ((buf, last) :: toks) current none [c]
  | dangling {buf : List Char} {last : Bool} {toks : List (List Char × Bool)} {current c : ℕ}
      {cur nd : TreeNode} {vis : List ℕ} (hdot : buf ≠ ['.']) (hdots : buf ≠ ['.', '.'])
      (hcur : t current = some cur) (hfind : vfsChildFind t cur buf = some c)
      (hnd : t c = some nd) (hkind : nd.kind = .symlink) (hlast : ¬ (nofollow ∧ last))
      (hgood : ¬ (nd.parent.isNone ∨ (nd.linkto.isNone ∧ nd.linktoPath.isNone)))
      (hres : resolve c = some (none, vis)) :
      Walks nofollow resolve t ((buf, last) :: toks) current none (c :: vis)
  | follow {buf : List Char} {last : Bool} {toks : List (List Char × Bool)} {current c target : ℕ}
      {cur nd td : TreeNode} {r : Option ℕ} {vis vis' : List ℕ} (hdot : buf ≠ ['.'])
      (hdots : buf ≠ ['.', '.']) (hcur : t current = some cur)
      (hfind : vfsChildFind t cur buf = some c) (hnd : t c = some nd) (hkind : nd.kind = .symlink)
      (hlast : ¬ (nofollow ∧ last))
      (hgood : ¬ (nd.parent.isNone ∨ (nd.linkto.isNone ∧ nd.linktoPath.isNone)))
      (hres : resolve c = some (some target, vis)) (htd : t target = some td)
      (walk : Walks nofollow resolve t toks target r vis') :
      Walks nofollow resolve t ((buf, last) :: toks) current r (c :: vis ++ vis')

variable {nofollow : Bool} {resolve : ℕ → Found} {toks : List (List Char × Bool)} {current m n : ℕ}
  {r : Option ℕ} {vis : List ℕ} {s : Vfs}

theorem walks_of_lookupWalk {t : Tree} (h : lookupWalk nofollow resolve t toks current = some (r, vis)) :
    Walks nofollow resolve t toks current r vis := by
  induction toks generalizing current vis with
  | nil =>
    cases h
    exact .done
  | cons tok toks ih =>
    obtain ⟨buf, last⟩ := tok
    unfold lookupWalk at h
    obtain ⟨cur, hcur, hw⟩ := bind_eq_some_iff.mp h
    by_cases hdot : buf = ['.']
    · rw [if_pos hdot] at hw
      subst hdot
      exact .dot hcur (ih hw)
    rw [if_neg hdot] at hw
    by_cases hdots : buf = ['.', '.']
    · rw [if_pos hdots] at hw
      subst hdots
      exact .dots hcur (ih hw)
    rw [if_neg hdots] at hw
    cases hfind : vfsChildFind t cur buf with
    | none =>
      rw [hfind] at hw
      cases hw
      exact .missing hdot hdots hcur hfind
    | some c =>
      rw [hfind] at hw
      obtain ⟨nd, hnd, hw⟩ := bind_eq_some_iff.mp hw
      by_cases hlink : nd.kind ≠ .symlink
      · rw [if_pos hlink] at hw
        obtain ⟨⟨r', vis'⟩, hwalk, heq⟩ := map_eq_some_iff.mp hw
        cases heq
        exact .enter hdot hdots hcur hfind hnd hlink (ih hwalk)
      rw [if_neg hlink] at hw
      have hkind := not_not.mp hlink
      by_cases hlast : nofollow ∧ last
      · rw [if_pos hlast] at hw
        cases hw
        exact .stop hdot hdots hcur hfind hnd hkind hlast
      rw [if_neg hlast] at hw
      by_cases hbad : nd.parent.isNone ∨ (nd.linkto.isNone ∧ nd.linktoPath.isNone)
      · rw [if_pos hbad] at hw
        cases hw
        exact .broken hdot hdots hcur hfind hnd hkind hlast hbad
      rw [if_neg hbad] at hw
      obtain ⟨⟨target, vis'⟩, hres, hw⟩ := bind_eq_some_iff.mp hw
      cases target with
      | none =>
        cases hw
        exact .dangling hdot hdots hcur hfind hnd hkind hlast hbad hres
      | some target =>
        obtain ⟨td, htd, hw⟩ := bind_eq_some_iff.mp hw
        obtain ⟨⟨r', vis''⟩, hwalk, heq⟩ := map_eq_some_iff.mp hw
        cases heq
        exact .follow hdot hdots hcur hfind hnd hkind hlast hbad hres htd (ih hwalk)

theorem Walks.lookupWalk_eq {t : Tree} (h : Walks nofollow resolve t toks current r vis) :
    lookupWalk nofollow resolve t toks current = some (r, vis) := by
  induction h with
  | done => rfl
  | dot hcur walk ih =>
    unfold lookupWalk
    rw [hcur, bind_some, if_pos rfl, ih]
  | dots hcur walk ih =>
    unfold lookupWalk
    rw [hcur, bind_some, if_neg (by decide), if_pos rfl, ih]
  | missing hdot hdots hcur hfind =>
    unfold lookupWalk
    rw [hcur, bind_some, if_neg hdot, if_neg hdots, hfind]
  | enter hdot hdots hcur hfind hnd hkind walk ih =>
    unfold lookupWalk
    rw [hcur, bind_some, if_neg hdot, if_neg hdots, hfind]
    dsimp only
    rw [hnd, bind_some, if_pos hkind, ih, map_some]
  | stop hdot hdots hcur hfind hnd hkind hlast =>
    unfold lookupWalk
    rw [hcur, bind_some, if_neg hdot, if_neg hdots, hfind]
    dsimp only
    rw [hnd, bind_some, if_neg (not_not.mpr hkind), if_pos hlast]
  | broken hdot hdots hcur hfind hnd hkind hlast hbad =>
    unfold lookupWalk
    rw [hcur, bind_some, if_neg hdot, if_neg hdots, hfind]
    dsimp only
    rw [hnd, bind_some, if_neg (not_not.mpr hkind), if_neg hlast, if_pos hbad]
  | dangling hdot hdots hcur hfind hnd hkind hlast hgood hres =>
    unfold lookupWalk
    rw [hcur, bind_some, if_neg hdot, if_neg hdots, hfind]
    dsimp only
    rw [hnd, bind_some, if_neg (not_not.mpr hkind), if_neg hlast, if_neg hgood, hres, bind_some]
  | follow hdot hdots hcur hfind hnd hkind hlast hgood hres htd walk ih =>
    unfold lookupWalk
    rw [hcur, bind_some, if_neg hdot, if_neg hdots, hfind]
    dsimp only
    rw [hnd, bind_some, if_neg (not_not.mpr hkind), if_neg hlast, if_neg hgood, hres, bind_some]
    dsimp only
    rw [htd, bind_some, ih, map_some]

theorem Walks.lookupWalk_append {t : Tree} (h : Walks false resolve t toks current (some m) vis)
    (toks' : List (List Char × Bool)) : lookupWalk false resolve t (toks ++ toks') current =
      (lookupWalk false resolve t toks' m).map fun x => (x.1, vis ++ x.2) := by
  generalize hm : some m = r at h
  induction h with
  | done =>
    cases hm
    rw [List.nil_append]
    exact map_id'.symm
  | dot hcur walk ih =>
    rw [List.cons_append, lookupWalk, hcur, bind_some, if_pos rfl, ih hm]
  | dots hcur walk ih =>
    rw [List.cons_append, lookupWalk, hcur, bind_some, if_neg (by decide), if_pos rfl, ih hm]
  | missing => cases hm
  | enter hdot hdots hcur hfind hnd hkind walk ih =>
    rw [List.cons_append, lookupWalk, hcur, bind_some, if_neg hdot, if_neg hdots, hfind]
    dsimp only
    rw [hnd, bind_some, if_pos hkind, ih hm, map_map]
    rfl
  | stop hdot hdots hcur hfind hnd hkind hlast => exact absurd hlast.1 Bool.false_ne_true
  | broken => cases hm
  | dangling => cases hm
  | follow hdot hdots hcur hfind hnd hkind hlast hgood hres htd walk ih =>
    rw [List.cons_append, lookupWalk, hcur, bind_some, if_neg hdot, if_neg hdots, hfind]
    dsimp only
    rw [hnd, bind_some, if_neg (not_not.mpr hkind), if_neg hlast, if_neg hgood, hres, bind_some]
    dsimp only
    rw [htd, bind_some, ih hm, map_map]
    simp only [Function.comp_def, List.append_assoc]

theorem Walks.append {t : Tree} {toks' : List (List Char × Bool)} {vis' : List ℕ}
    (h : Walks false resolve t toks current (some m) vis) (h' : Walks false resolve t toks' m r vis') :
    Walks false resolve t (toks ++ toks') current r (vis ++ vis') := by
  apply walks_of_lookupWalk
  rw [h.lookupWalk_append, h'.lookupWalk_eq, map_some]

theorem Walks.mono {resolve' : ℕ → Found} {t : Tree} (hres : ∀ n x, resolve n = some x → resolve' n = some x)
    (h : Walks nofollow resolve t toks current r vis) : Walks nofollow resolve' t toks current r vis := by
  induction h with
  | done => exact .done
  | dot hcur walk ih => exact .dot hcur ih
  | dots hcur walk ih => exact .dots hcur ih
  | missing hdot hdots hcur hfind => exact .missing hdot hdots hcur hfind
  | enter hdot hdots hcur hfind hnd hkind walk ih =>
    exact .enter hdot hdots hcur hfind hnd hkind ih
  | stop hdot hdots hcur hfind hnd hkind hlast =>
    exact .stop hdot hdots hcur hfind hnd hkind hlast
  | broken hdot hdots hcur hfind hnd hkind hlast hbad =>
    exact .broken hdot hdots hcur hfind hnd hkind hlast hbad
  | dangling hdot hdots hcur hfind hnd hkind hlast hgood h =>
    exact .dangling hdot hdots hcur hfind hnd hkind hlast hgood (hres _ _ h)
  | follow hdot hdots hcur hfind hnd hkind hlast hgood h htd walk ih =>
    exact .follow hdot hdots hcur hfind hnd hkind hlast hgood (hres _ _ h) htd ih

theorem resolveLink_mono {lookup lookup' : List Char → Found}
    (hlookup : ∀ str x, lookup str = some x → lookup' str = some x) {t : Tree} {x : Option ℕ × List ℕ}
    (h : resolveLink lookup t n = some x) : resolveLink lookup' t n = some x := by
  unfold resolveLink at h ⊢
  obtain ⟨nd, hnd, h⟩ := bind_eq_some_iff.mp h
  rw [hnd, bind_some]
  cases hlinkto : nd.linkto with
  | some m =>
    rw [hlinkto] at h
    exact h
  | none =>
    rw [hlinkto] at h
    cases hpath : nd.linktoPath with
    | none =>
      rw [hpath] at h
      exact h
    | some path =>
      rw [hpath] at h
      dsimp only at h ⊢
      by_cases habs : path.head? = some '/'
      · rw [if_pos habs] at h ⊢
        exact hlookup _ _ h
      · rw [if_neg habs] at h ⊢
        obtain ⟨base, hbase, h⟩ := bind_eq_some_iff.mp h
        rw [hbase, bind_some]
        exact hlookup _ _ h

theorem lookup_succ {depth : ℕ} {t : Tree} {str : List Char} {x : Option ℕ × List ℕ}
    (h : lookup depth t str = some x) : lookup (depth + 1) t str = some x := by
  induction depth generalizing str x with
  | zero => cases h
  | succ depth ih =>
    rw [lookup] at h ⊢
    by_cases habs : str.head? = some '/'
    · rw [if_pos habs] at h ⊢
      have hwalk := walks_of_lookupWalk h
      exact (hwalk.mono fun n y hy => resolveLink_mono (fun str x hx => ih hx) hy).lookupWalk_eq
    · rw [if_neg habs] at h ⊢
      exact h

theorem lookup_of_le {depth depth' : ℕ} (hle : depth ≤ depth') {t : Tree} {str : List Char}
    {x : Option ℕ × List ℕ} (h : lookup depth t str = some x) : lookup depth' t str = some x := by
  induction hle with
  | refl => exact h
  | step _ ih => exact lookup_succ ih

section Result

variable {Q : ℕ → Prop} {t : Tree} (hroot : Q rootdir)
  (hparent : ∀ n nd p, Q n → t n = some nd → nd.parent = some p → Q p)
  (hfound : ∀ n nd, t n = some nd → nd.kind ≠ .symlink → Q n)
  (hlinkto : ∀ n nd m, t n = some nd → nd.linkto = some m → Q m)

include hparent hfound in
theorem Walks.result (hres : ∀ n target vis, resolve n = some (some target, vis) → Q target) {r : ℕ}
    (hwalk : Walks false resolve t toks current (some r) vis) (hcur : Q current) : Q r := by
  generalize hr : some r = x at hwalk
  induction hwalk with
  | done =>
    cases hr
    exact hcur
  | dot hnd walk ih => exact ih hcur hr
  | @dots last toks current cur r vis hnd walk ih =>
    refine ih ?_ hr
    cases hp : cur.parent with
    | none => exact hcur
    | some p => exact hparent current cur p hcur hnd hp
  | missing => cases hr
  | enter hdot hdots hcur hfind hnd hkind walk ih => exact ih (hfound _ _ hnd hkind) hr
  | stop hdot hdots hcur hfind hnd hkind hlast => exact absurd hlast.1 Bool.false_ne_true
  | broken => cases hr
  | dangling => cases hr
  | follow hdot hdots hcur hfind hnd hkind hlast hgood h htd walk ih => exact ih (hres _ _ _ h) hr

include hlinkto in
theorem resolveLink_result {lookup : List Char → Found}
    (hlookup : ∀ str r vis, lookup str = some (some r, vis) → Q r) {target : ℕ}
    (hres : resolveLink lookup t n = some (some target, vis)) : Q target := by
  unfold resolveLink at hres
  obtain ⟨nd, hnd, hw⟩ := bind_eq_some_iff.mp hres
  cases hto : nd.linkto with
  | some m =>
    rw [hto] at hw
    cases hw
    exact hlinkto n nd target hnd hto
  | none =>
    rw [hto] at hw
    cases hpath : nd.linktoPath with
    | none =>
      rw [hpath] at hw
      cases hw
    | some path =>
      rw [hpath] at hw
      dsimp only at hw
      by_cases habs : path.head? = some '/'
      · rw [if_pos habs] at hw
        exact hlookup path target vis hw
      · rw [if_neg habs] at hw
        obtain ⟨base, -, hw⟩ := bind_eq_some_iff.mp hw
        exact hlookup _ target vis hw

include hroot hparent hfound hlinkto in
/-- What holds of the root, of parents, of nodes that are not links and of kept targets holds of the
node that a lookup ends at. -/
theorem lookup_result {depth r : ℕ} {str : List Char} (h : lookup depth t str = some (some r, vis)) : Q r := by
  induction depth generalizing str r vis with
  | zero => cases h
  | succ depth ih =>
    unfold lookup at h
    by_cases habs : str.head? = some '/'
    · rw [if_pos habs] at h
      refine (walks_of_lookupWalk h).result hparent hfound ?_ hroot
      exact fun n target vis => resolveLink_result hlinkto fun str r vis hl => ih hl
    · rw [if_neg habs] at h
      cases h

end Result

/-- The marks of a lookup: the tree is as before, no node is newly removed, and the references to
removed nodes do not get fewer. -/
structure Touched (s s' : Vfs) : Prop where
  tree_eq : s'.tree = s.tree
  next_eq : s'.next = s.next
  wrapped : s'.wrapped = false → s.wrapped = false
  removed : ∀ n nd', s'.node n = some nd' → nd'.delete →
    ∃ nd, s.node n = some nd ∧ nd.delete ∧ (s'.wrapped = false → nd.refcount < 2 ^ 32 →
      nd.refcount ≤ nd'.refcount ∧ nd'.refcount < 2 ^ 32)

theorem Touched.refl (s : Vfs) : Touched s s :=
  ⟨rfl, rfl, id, fun _ nd h hd => ⟨nd, h, hd, fun _ hlt => ⟨le_rfl, hlt⟩⟩⟩

theorem Touched.trans {s1 s2 s3 : Vfs} (h1 : Touched s1 s2) (h2 : Touched s2 s3) : Touched s1 s3 := by
  refine ⟨h2.tree_eq.trans h1.tree_eq, h2.next_eq.trans h1.next_eq, fun hw => h1.wrapped (h2.wrapped hw), ?_⟩
  intro n nd3 hnd3 hd3
  obtain ⟨nd2, hnd2, hd2, hle2⟩ := h2.removed n nd3 hnd3 hd3
  obtain ⟨nd1, hnd1, hd1, hle1⟩ := h1.removed n nd2 hnd2 hd2
  refine ⟨nd1, hnd1, hd1, fun hw hlt => ?_⟩
  obtain ⟨hle1, hlt1⟩ := hle1 (h2.wrapped hw) hlt
  obtain ⟨hle2, hlt2⟩ := hle2 hw hlt1
  exact ⟨hle1.trans hle2, hlt2⟩

theorem Vfs.modify_node (s : Vfs) (n m : ℕ) (f : VfsNode → VfsNode) :
    (s.modify n f).node m = if m = n then (s.node n).map f else s.node m := by
  unfold Vfs.modify
  simp only [Function.update_apply]

theorem Vfs.tree_eq_some {nd : TreeNode} :
    s.tree n = some nd ↔ ∃ vd, s.node n = some vd ∧ vd.toTreeNode = nd := by
  unfold Vfs.tree
  exact map_eq_some_iff

theorem Vfs.tree_modify_of_keeps (s : Vfs) (n : ℕ) (f : VfsNode → VfsNode)
    (hf : ∀ nd, (f nd).toTreeNode = nd.toTreeNode) : (s.modify n f).tree = s.tree := by
  funext m
  unfold Vfs.tree
  rw [Vfs.modify_node]
  split_ifs with hm
  · subst hm
    cases hnd : s.node m with
    | none => rfl
    | some nd => simp [hf]
  · rfl

@[simp] theorem tree_doUpdate (s : Vfs) (n : ℕ) : (doUpdate s n).tree = s.tree :=
  Vfs.tree_modify_of_keeps s n _ fun _ => rfl

@[simp] theorem tree_setProxy (s : Vfs) (n : ℕ) : (setProxy s n).tree = s.tree :=
  Vfs.tree_modify_of_keeps s n _ fun _ => rfl

@[simp] theorem tree_incRef (s : Vfs) (n : ℕ) : (incRef s n).tree = s.tree :=
  Vfs.tree_modify_of_keeps s n _ fun _ => rfl

theorem touched_modify (s : Vfs) (n : ℕ) (f : VfsNode → VfsNode)
    (hf : ∀ nd, (f nd).toTreeNode = nd.toTreeNode) (hd : ∀ nd, (f nd).delete = false) :
    Touched s (s.modify n f) := by
  refine ⟨Vfs.tree_modify_of_keeps s n f hf, rfl, id, ?_⟩
  intro m nd' hnd' hdel
  rw [Vfs.modify_node] at hnd'
  by_cases hm : m = n
  · rw [if_pos hm] at hnd'
    obtain ⟨nd, _, rfl⟩ := map_eq_some_iff.mp hnd'
    rw [hd] at hdel
    cases hdel
  · rw [if_neg hm] at hnd'
    exact ⟨nd', hnd', hdel, fun _ hlt => ⟨le_rfl, hlt⟩⟩

theorem touched_doUpdate (s : Vfs) (n : ℕ) : Touched s (doUpdate s n) :=
  touched_modify s n _ (fun _ => rfl) (fun _ => rfl)

theorem touched_setProxy (s : Vfs) (n : ℕ) : Touched s (setProxy s n) :=
  touched_modify s n _ (fun _ => rfl) (fun _ => rfl)

theorem refcount_incRef {nd : VfsNode} (hw : (incRef s n).wrapped = false) (hnd : s.node n = some nd)
    (hd : nd.delete) :
    (incRef s n).node n = some { nd with refcount := nd.refcount + 1 } ∧
      nd.refcount + 1 < 2 ^ 32 := by
  have hlt : nd.refcount + 1 < 2 ^ 32 := by
    unfold incRef at hw
    simp only [hnd, any_some, hd, Bool.true_and, Bool.or_eq_false_iff,
      decide_eq_false_iff_not, not_le] at hw
    exact hw.2
  have hnode : (incRef s n).node n =
      (s.node n).map fun nd => { nd with refcount := (nd.refcount + 1) % 2 ^ 32 } := by
    refine (Vfs.modify_node s n n _).trans ?_
    rw [if_pos rfl]
  refine ⟨?_, hlt⟩
  rw [hnode, hnd, map_some, Nat.mod_eq_of_lt hlt]

theorem incRef_node_of_ne (h : m ≠ n) : (incRef s n).node m = s.node m := by
  refine (Vfs.modify_node s n m _).trans ?_
  rw [if_neg h]

theorem touched_incRef (s : Vfs) (n : ℕ) : Touched s (incRef s n) := by
  refine ⟨tree_incRef s n, rfl, ?_, ?_⟩
  · intro hw
    unfold incRef at hw
    exact (Bool.or_eq_false_iff.mp hw).1
  · intro m nd' hnd' hd
    by_cases hm : m = n
    · subst hm
      cases hnd : s.node m with
      | none =>
        have hnode := (Vfs.modify_node s m m _).symm.trans hnd'
        rw [if_pos rfl, hnd] at hnode
        cases hnode
      | some nd =>
        have hdel : nd.delete = true := by
          have hnode := (Vfs.modify_node s m m _).symm.trans hnd'
          rw [if_pos rfl, hnd] at hnode
          cases hnode
          exact hd
        refine ⟨nd, rfl, hdel, fun hw _ => ?_⟩
        obtain ⟨hnode, hlt⟩ := refcount_incRef hw hnd hdel
        rw [hnode] at hnd'
        cases hnd'
        exact ⟨Nat.le_succ _, hlt⟩
    · rw [incRef_node_of_ne hm] at hnd'
      exact ⟨nd', hnd', hd, fun _ hlt => ⟨le_rfl, hlt⟩⟩

/-- A call that gives the result of a lookup, and only leaves its marks on the state. -/
inductive Follows (s : Vfs) : Option (Vfs × Option ℕ) → Found → Prop
  | fault : Follows s none none
  | found {s' : Vfs} {r : Option ℕ} {vis : List ℕ} (h : Touched s s') :
      Follows s (some (s', r)) (some (r, vis))

theorem Follows.of_touched {s1 s2 : Vfs} {x : Option (Vfs × Option ℕ)} {y : Found}
    (h : Touched s1 s2) (hf : Follows s2 x y) : Follows s1 x y := by
  cases hf with
  | fault => exact .fault
  | found h' => exact .found (h.trans h')

theorem Follows.map {x : Option (Vfs × Option ℕ)} {y : Found} (hf : Follows s x y) (f : List ℕ → List ℕ) :
    Follows s x (y.map fun r => (r.1, f r.2)) := by
  cases hf with
  | fault => exact .fault
  | found h => exact .found h

theorem vfsWalk_follows {t : Tree} {resolve : Vfs → ℕ → Option (Vfs × Option ℕ)} {resolve' : ℕ → Found}
    (hres : ∀ s n, s.tree = t → Follows s (resolve s n) (resolve' n)) (toks : List (List Char × Bool)) (s : Vfs)
    (current : ℕ) (ht : s.tree = t) :
    Follows s (vfsWalk nofollow resolve toks s current) (lookupWalk nofollow resolve' t toks current) := by
  induction toks generalizing s current with
  | nil => exact .found (Touched.refl s)
  | cons tok toks ih =>
    obtain ⟨buf, last⟩ := tok
    unfold vfsWalk lookupWalk
    rw [ht]
    cases hcur : t current with
    | none => exact .fault
    | some cur =>
      simp only [bind_some]
      by_cases hdot : buf = ['.']
      · rw [if_pos hdot, if_pos hdot]
        exact ih s current ht
      rw [if_neg hdot, if_neg hdot]
      by_cases hdots : buf = ['.', '.']
      · rw [if_pos hdots, if_pos hdots]
        exact ih s _ ht
      rw [if_neg hdots, if_neg hdots]
      cases vfsChildFind t cur buf with
      | none => exact .found (Touched.refl s)
      | some c =>
        simp only
        cases hnd : t c with
        | none => exact .fault
        | some nd =>
          simp only [bind_some]
          have htouch := touched_doUpdate s c
          by_cases hlink : nd.kind ≠ .symlink
          · rw [if_pos hlink, if_pos hlink]
            exact ((ih (doUpdate s c) c ((tree_doUpdate s c).trans ht)).map _).of_touched htouch
          rw [if_neg hlink, if_neg hlink]
          by_cases hlast : nofollow ∧ last
          · rw [if_pos hlast, if_pos hlast]
            exact .found htouch
          rw [if_neg hlast, if_neg hlast]
          by_cases hbad : nd.parent.isNone ∨ (nd.linkto.isNone ∧ nd.linktoPath.isNone)
          · rw [if_pos hbad, if_pos hbad]
            exact .found htouch
          rw [if_neg hbad, if_neg hbad]
          have hproxy := htouch.trans (touched_setProxy (doUpdate s c) c)
          have hr := hres (setProxy (doUpdate s c) c) c (by simp [ht])
          generalize resolve (setProxy (doUpdate s c) c) c = x at hr
          generalize resolve' c = y at hr
          cases hr with
          | fault => exact .fault
          | found h =>
            rename_i s' r vis
            have hs' : s'.tree = t := by rw [h.tree_eq]; simp [ht]
            cases r with
            | none => exact .found (hproxy.trans h)
            | some target =>
              simp only [bind_some, hs']
              cases t target with
              | none => exact .fault
              | some td =>
                simp only [bind_some]
                have htouch' := (hproxy.trans h).trans (touched_incRef s' target)
                exact ((ih (incRef s' target) target (by simp [hs'])).map _).of_touched htouch'

theorem vfsResolveSymlinkTarget_follows {vfsOpen : Vfs → List Char → Option (Vfs × Option ℕ)} {t : Tree}
    {lookup : List Char → Found} (hopen : ∀ s str, s.tree = t → Follows s (vfsOpen s str) (lookup str))
    (ht : s.tree = t) (link : ℕ) :
    Follows s (vfsResolveSymlinkTarget vfsOpen s link) (resolveLink lookup t link) := by
  unfold vfsResolveSymlinkTarget resolveLink
  rw [ht]
  have hnode : t link = (s.node link).map VfsNode.toTreeNode := by rw [← ht]; rfl
  rw [hnode]
  cases s.node link with
  | none => exact .fault
  | some nd =>
    simp only [bind_some, map_some]
    cases nd.linkto with
    | some target => exact .found (Touched.refl s)
    | none =>
      cases nd.linktoPath with
      | none => exact .found (Touched.refl s)
      | some path =>
        simp only
        by_cases habs : path.head? = some '/'
        · rw [if_pos habs, if_pos habs]
          exact hopen s path ht
        · rw [if_neg habs, if_neg habs]
          cases vfsGetFullpath t (nd.parent.getD rootdir) with
          | none => exact .fault
          | some base => exact hopen s _ ht

theorem vfsOpen_follows (depth : ℕ) {t : Tree} (s : Vfs) (str : List Char) (ht : s.tree = t) :
    Follows s (vfsOpen depth s str) (lookup depth t str) := by
  induction depth generalizing s str with
  | zero => exact .fault
  | succ depth ih =>
    unfold vfsOpen lookup
    by_cases habs : str.head? = some '/'
    · rw [if_pos habs, if_pos habs]
      exact vfsWalk_follows (fun s n hs => vfsResolveSymlinkTarget_follows ih hs n) _ s rootdir ht
    · rw [if_neg habs, if_neg habs]
      exact .found (Touched.refl s)

theorem vfsOpenNofollow_follows (depth : ℕ) (s : Vfs) (str : List Char) :
    Follows s (vfsOpenNofollow depth s str) (lookupNofollow depth s.tree str) := by
  unfold vfsOpenNofollow lookupNofollow
  by_cases habs : str.head? = some '/'
  · rw [if_pos habs, if_pos habs]
    exact vfsWalk_follows (fun s' n hs => vfsResolveSymlinkTarget_follows
      (fun s'' str h => vfsOpen_follows depth s'' str h) hs n) _ s rootdir rfl
  · rw [if_neg habs, if_neg habs]
    exact .found (Touched.refl s)

end CoolPotOS
