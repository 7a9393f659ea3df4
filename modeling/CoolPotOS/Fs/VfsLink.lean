import CoolPotOS.Fs.VfsNames

namespace CoolPotOS

open List Option

/-- The second tree has the nodes of the first, and finds in the directories of the first what they
held, but for nodes of `X`. -/
structure TreeKeeps (X : ℕ → Prop) (t t' : Tree) : Prop where
  node : ∀ n nd, t n = some nd → ∃ nd', t' n = some nd' ∧ nd'.parent = nd.parent ∧
    nd'.name = nd.name ∧ nd'.kind = nd.kind ∧
    (nd'.linkto = nd.linkto ∧ nd'.linktoPath = nd.linktoPath ∨
      nd.linkto = none ∧ nd.linktoPath = none)
  find : ∀ p pd pd' name c, t p = some pd → t' p = some pd' → vfsChildFind t pd name = some c →
    ¬ X c → vfsChildFind t' pd' name = some c

variable {X : ℕ → Prop} {t t' : Tree}

theorem TreeKeeps.trans {t'' : Tree} (h : TreeKeeps X t t') (h' : TreeKeeps X t' t'') :
    TreeKeeps X t t'' := by
  constructor
  · intro n nd hnd
    obtain ⟨nd', hnd', hpar, hname, hkind, hlink⟩ := h.node n nd hnd
    obtain ⟨nd'', hnd'', hpar', hname', hkind', hlink'⟩ := h'.node n nd' hnd'
    refine ⟨nd'', hnd'', hpar'.trans hpar, hname'.trans hname, hkind'.trans hkind, ?_⟩
    obtain ⟨hto, hpath⟩ | hnone := hlink
    · rwa [hto, hpath] at hlink'
    · exact .inr hnone
  · intro p pd pd'' name c hp hp'' hfind hc
    obtain ⟨pd', hp', -⟩ := h.node p pd hp
    exact h'.find p pd' pd'' name c hp' hp'' (h.find p pd pd' name c hp hp' hfind hc) hc

variable {n depth p link : ℕ} {vis : List ℕ} {resolve : ℕ → Found} {r : Option ℕ} {str : List Char}
  {pd nd : TreeNode} {s s' : Vfs}

theorem TreeKeeps.pathNames_eq (h : TreeKeeps X t t') {fuel : ℕ} {names : List (List Char)}
    (hnames : pathNames t fuel n = some names) : pathNames t' fuel n = some names := by
  induction fuel generalizing n names with
  | zero => cases hnames
  | succ fuel ih =>
    unfold pathNames at hnames ⊢
    obtain ⟨nd, hnd, hw⟩ := bind_eq_some_iff.mp hnames
    obtain ⟨nd', hnd', hpar, hname, -, -⟩ := h.node n nd hnd
    rw [hnd', bind_some, hpar, hname]
    dsimp only at hw ⊢
    cases hp : nd.parent with
    | none =>
      rw [hp] at hw
      exact hw
    | some p =>
      rw [hp] at hw
      obtain ⟨names', hnames', heq⟩ := map_eq_some_iff.mp hw
      dsimp only
      rw [ih hnames', map_some, heq]

theorem TreeKeeps.vfsGetFullpath_eq (h : TreeKeeps X t t') {path : List Char}
    (hpath : vfsGetFullpath t n = some path) : vfsGetFullpath t' n = some path := by
  unfold vfsGetFullpath at hpath ⊢
  obtain ⟨names, hnames, hw⟩ := bind_eq_some_iff.mp hpath
  rw [h.pathNames_eq hnames, bind_some]
  exact hw

theorem TreeKeeps.resolveLink_eq (h : TreeKeeps X t t') {lookup lookup' : List Char → Found}
    (hlookup : ∀ str r vis, (∀ v ∈ vis, ¬ X v) → lookup str = some (some r, vis) → lookup' str = some (some r, vis))
    {target : ℕ} (hvis : ∀ v ∈ vis, ¬ X v) (hres : resolveLink lookup t n = some (some target, vis)) :
    resolveLink lookup' t' n = some (some target, vis) := by
  unfold resolveLink at hres ⊢
  obtain ⟨nd, hnd, hw⟩ := bind_eq_some_iff.mp hres
  obtain ⟨nd', hnd', hpar, -, -, hlink⟩ := h.node n nd hnd
  rw [hnd', bind_some, hpar]
  obtain ⟨hto, hpath⟩ | ⟨hto, hpath⟩ := hlink
  · rw [hto, hpath]
    cases hlinkto : nd.linkto with
    | some m =>
      rw [hlinkto] at hw
      exact hw
    | none =>
      rw [hlinkto] at hw
      cases hlinkpath : nd.linktoPath with
      | none =>
        rw [hlinkpath] at hw
        cases hw
      | some path =>
        rw [hlinkpath] at hw
        dsimp only at hw ⊢
        by_cases habs : path.head? = some '/'
        · rw [if_pos habs] at hw ⊢
          exact hlookup path target vis hvis hw
        · rw [if_neg habs] at hw ⊢
          obtain ⟨base, hbase, hw⟩ := bind_eq_some_iff.mp hw
          rw [h.vfsGetFullpath_eq hbase, bind_some]
          exact hlookup _ target vis hvis hw
  · rw [hto, hpath] at hw
    cases hw

theorem TreeKeeps.walks (h : TreeKeeps X t t') {nofollow : Bool} {resolve' : ℕ → Found}
    (hres : ∀ n target vis, (∀ v ∈ vis, ¬ X v) → resolve n = some (some target, vis) → resolve' n = some (some target, vis))
    {toks : List (List Char × Bool)} {current m : ℕ}
    (hwalk : Walks nofollow resolve t toks current (some m) vis) (hvis : ∀ v ∈ vis, ¬ X v) :
    Walks nofollow resolve' t' toks current (some m) vis := by
  generalize hm : some m = r at hwalk
  induction hwalk with
  | done => exact .done
  | dot hcur walk ih =>
    obtain ⟨cur', hcur', -⟩ := h.node _ _ hcur
    exact .dot hcur' (ih hvis hm)
  | dots hcur walk ih =>
    obtain ⟨cur', hcur', hpar, -⟩ := h.node _ _ hcur
    exact .dots hcur' (hpar ▸ ih hvis hm)
  | missing => cases hm
  | enter hdot hdots hcur hfind hnd hkind walk ih =>
    obtain ⟨hc, hvis⟩ := forall_mem_cons.mp hvis
    obtain ⟨cur', hcur', -⟩ := h.node _ _ hcur
    obtain ⟨nd', hnd', -, -, hkind', -⟩ := h.node _ _ hnd
    exact .enter hdot hdots hcur' (h.find _ _ cur' _ _ hcur hcur' hfind hc) hnd' (hkind' ▸ hkind) (ih hvis hm)
  | stop hdot hdots hcur hfind hnd hkind hlast =>
    obtain ⟨hc, -⟩ := forall_mem_cons.mp hvis
    obtain ⟨cur', hcur', -⟩ := h.node _ _ hcur
    obtain ⟨nd', hnd', -, -, hkind', -⟩ := h.node _ _ hnd
    exact .stop hdot hdots hcur' (h.find _ _ cur' _ _ hcur hcur' hfind hc) hnd' (hkind' ▸ hkind) hlast
  | broken => cases hm
  | dangling => cases hm
  | follow hdot hdots hcur hfind hnd hkind hlast hgood hr htd walk ih =>
    rw [cons_append] at hvis
    obtain ⟨hc, hvis⟩ := forall_mem_cons.mp hvis
    obtain ⟨hvis1, hvis2⟩ := forall_mem_append.mp hvis
    obtain ⟨cur', hcur', -⟩ := h.node _ _ hcur
    obtain ⟨nd', hnd', hpar, -, hkind', hlink⟩ := h.node _ _ hnd
    obtain ⟨td', htd', -⟩ := h.node _ _ htd
    have hgood' : ¬ (nd'.parent.isNone ∨ (nd'.linkto.isNone ∧ nd'.linktoPath.isNone)) := by
      obtain ⟨hto, hpath⟩ | ⟨hto, hpath⟩ := hlink
      · rw [hpar, hto, hpath]
        exact hgood
      · rw [hto, hpath] at hgood
        exact absurd (.inr ⟨rfl, rfl⟩) hgood
    exact .follow hdot hdots hcur' (h.find _ _ cur' _ _ hcur hcur' hfind hc) hnd' (hkind' ▸ hkind)
      hlast hgood' (hres _ _ _ hvis1 hr) htd' (ih hvis2 hm)

theorem TreeKeeps.lookup_eq (h : TreeKeeps X t t') {r : ℕ} (hvis : ∀ v ∈ vis, ¬ X v)
    (hlookup : lookup depth t str = some (some r, vis)) : lookup depth t' str = some (some r, vis) := by
  induction depth generalizing str r vis with
  | zero => cases hlookup
  | succ depth ih =>
    rw [lookup] at hlookup ⊢
    by_cases habs : str.head? = some '/'
    · rw [if_pos habs] at hlookup ⊢
      exact (h.walks (fun n target vis hv => h.resolveLink_eq (fun str r vis hv => ih hv) hv)
        (walks_of_lookupWalk hlookup) hvis).lookupWalk_eq
    · rw [if_neg habs] at hlookup
      cases hlookup

theorem vfsChildFind_congr (h : ∀ c ∈ pd.child, nameOf t' c = nameOf t c) (name : List Char) :
    vfsChildFind t' pd name = vfsChildFind t pd name := by
  have hany : ∀ c ∈ pd.child, ((t' c).any fun nd => nd.name = name) =
      (t c).any fun nd => nd.name = name := by
    intro c hc
    have hname := h c hc
    unfold nameOf at hname
    cases htc : t c with
    | none =>
      rw [htc, map_none] at hname
      rw [map_eq_none_iff.mp hname]
    | some nd =>
      rw [htc, map_some] at hname
      obtain ⟨nd', hnd', heq⟩ := map_eq_some_iff.mp hname
      rw [hnd', any_some, any_some, heq]
  unfold vfsChildFind
  generalize pd.child = l at hany
  induction l with
  | nil => rfl
  | cons c l ih =>
    obtain ⟨hc, hl⟩ := forall_mem_cons.mp hany
    rw [List.find?_cons, List.find?_cons, hc, ih hl]

theorem keeps_append (h : Shape s) {name : List Char} (hp : s.tree p = some pd)
    (hfresh : vfsChildFind s.tree pd name = none) (kind : FileKind) :
    TreeKeeps (fun _ => False) s.tree (s.tree.append p s.next name kind) := by
  have hfree := h.next_free
  have hnameOf : ∀ c nd, s.tree c = some nd →
      nameOf (s.tree.append p s.next name kind) c = nameOf s.tree c := by
    intro c nd hc
    unfold nameOf
    rw [Tree.append_of_some hc hfree, hc]
    split_ifs <;> rfl
  constructor
  · intro n nd hnd
    rw [Tree.append_of_some hnd hfree]
    refine ⟨_, rfl, ?_⟩
    split_ifs
    · exact ⟨rfl, rfl, rfl, .inl ⟨rfl, rfl⟩⟩
    · exact ⟨rfl, rfl, rfl, .inl ⟨rfl, rfl⟩⟩
  · intro q qd qd' name' c hq hq' hfind _
    have hsame : vfsChildFind (s.tree.append p s.next name kind) qd name' = some c := by
      refine (vfsChildFind_congr ?_ name').trans hfind
      intro c hc
      obtain ⟨nd, hnd, -⟩ := h.child q qd c hq hc
      exact hnameOf c nd hnd
    rw [Tree.append_of_some hq hfree] at hq'
    cases hq'
    split_ifs with hqp
    · -- the new node does not have the name that is looked up
      subst hqp
      rw [hp] at hq
      cases hq
      have hne : name ≠ name' := by
        rintro rfl
        rw [hfresh] at hfind
        cases hfind
      unfold vfsChildFind at hsame ⊢
      rw [List.find?_cons_of_neg, hsame]
      rw [Tree.append_self]
      simpa using hne
    · exact hsame

theorem keeps_link (hnew : ∀ nd, t n = some nd → nd.linkto = none ∧ nd.linktoPath = none) (r : Option ℕ)
    (path : Option (List Char)) :
    TreeKeeps (fun _ => False) t (t.modify n fun nd => { nd with linkto := r, linktoPath := path }) := by
  constructor
  · intro m nd hnd
    rw [Tree.modify_of_some hnd]
    refine ⟨_, rfl, ?_⟩
    split_ifs with hm
    · exact ⟨rfl, rfl, rfl, .inr (hnew nd (hm ▸ hnd))⟩
    · exact ⟨rfl, rfl, rfl, .inl ⟨rfl, rfl⟩⟩
  · intro p pd pd' name c hp hp' hfind _
    have hnames : nameOf (t.modify n fun nd => { nd with linkto := r, linktoPath := path }) =
        nameOf t := nameOf_modify fun _ => rfl
    have hchild : pd'.child = pd.child := by
      rw [Tree.modify_of_some hp] at hp'
      cases hp'
      split_ifs <;> rfl
    refine Eq.trans ?_ hfind
    refine Eq.trans ?_ (vfsChildFind_congr (fun c _ => congrFun hnames c) name)
    unfold vfsChildFind
    rw [hchild]

theorem find?_erase {l : List ℕ} {c : ℕ} {p : ℕ → Bool} (h : l.find? p = some c) (hc : c ≠ n) :
    (l.erase n).find? p = some c := by
  induction l with
  | nil => cases h
  | cons a l ih =>
    rw [List.find?_cons] at h
    rw [erase_cons]
    by_cases ha : a = n
    · subst ha
      rw [if_pos (by simp)]
      cases hpa : p a with
      | true =>
        rw [hpa] at h
        exact absurd (Option.some.inj h).symm hc
      | false =>
        rw [hpa] at h
        exact h
    · rw [if_neg (by simpa using ha), List.find?_cons]
      cases hpa : p a with
      | true =>
        rw [hpa] at h
        exact h
      | false =>
        rw [hpa] at h
        exact ih h

theorem keeps_erase (n p : ℕ) :
    TreeKeeps (· = n) t (t.modify p fun pd => { pd with child := pd.child.erase n }) := by
  constructor
  · intro m nd hnd
    rw [Tree.modify_of_some hnd]
    refine ⟨_, rfl, ?_⟩
    split_ifs
    · exact ⟨rfl, rfl, rfl, .inl ⟨rfl, rfl⟩⟩
    · exact ⟨rfl, rfl, rfl, .inl ⟨rfl, rfl⟩⟩
  · intro q qd qd' name c hq hq' hfind hc
    have hnames : nameOf (t.modify p fun pd => { pd with child := pd.child.erase n }) = nameOf t :=
      nameOf_modify fun _ => rfl
    refine (vfsChildFind_congr (fun c _ => congrFun hnames c) name).trans ?_
    rw [Tree.modify_of_some hq] at hq'
    cases hq'
    split_ifs
    · exact find?_erase hfind hc
    · exact hfind

def Listed (t : Tree) (n : ℕ) : Prop :=
  ∃ nd ∈ t n, ∃ p ∈ nd.parent, ∃ pd ∈ t p, n ∈ pd.child

/-- Every link has a path, and the node that it keeps is the one that its path leads to. -/
structure LinksKept (depth : ℕ) (s : Vfs) : Prop extends Shape s where
  path : ∀ n nd, Listed s.tree n → s.tree n = some nd → nd.kind = .symlink →
    ∃ path, nd.linktoPath = some path
  kept : ∀ n nd target, Listed s.tree n → s.tree n = some nd → nd.linkto = some target →
    ∃ path vis, nd.linktoPath = some path ∧ lookup depth s.tree path = some (some target, vis)

theorem LinksKept.of_tree_eq (h : LinksKept depth s) (htree : s'.tree = s.tree) (hnext : s'.next = s.next) :
    LinksKept depth s' :=
  ⟨h.toShape.of_tree_eq htree hnext, htree ▸ h.path, htree ▸ h.kept⟩

theorem linksKept_boot (depth : ℕ) : LinksKept depth Vfs.boot := by
  have hlist : ∀ n, ¬ Listed Vfs.boot.tree n := by
    rintro n ⟨nd, hnd, p, hp, pd, hpd, hn⟩
    obtain ⟨rd, hrd, hpar, -⟩ := shape_boot.root
    have hroot : n = rootdir := by
      by_contra hne
      have hnone : Vfs.boot.tree n = none := shape_boot.bounded n (Nat.one_le_iff_ne_zero.mpr hne)
      rw [hnone] at hnd
      cases hnd
    rw [hroot, hrd] at hnd
    cases hnd
    rw [hpar] at hp
    cases hp
  exact ⟨shape_boot, fun n _ h => absurd h (hlist n), fun n _ _ h => absurd h (hlist n)⟩

theorem Listed.of_append {c : ℕ} {name : List Char} {kind : FileKind} (h : Listed (t.append p c name kind) n) :
    n = c ∨ Listed t n := by
  obtain ⟨nd', hnd', q, hq, qd', hqd', hn⟩ := h
  obtain ⟨rfl, -⟩ | ⟨nd, hnd, rfl⟩ := Tree.append_eq_some hnd'
  · exact .inl rfl
  obtain ⟨rfl, rfl⟩ | ⟨qd, hqd, rfl⟩ := Tree.append_eq_some hqd'
  · cases hn
  have hq' : q ∈ nd.parent := by split_ifs at hq <;> exact hq
  split_ifs at hn
  · obtain rfl | hn := mem_cons.mp hn
    · exact .inl rfl
    · exact .inr ⟨nd, hnd, q, hq', qd, hqd, hn⟩
  · exact .inr ⟨nd, hnd, q, hq', qd, hqd, hn⟩

theorem Listed.of_modify {m : ℕ} {f : TreeNode → TreeNode} (h : Listed (t.modify n f) m)
    (hpar : ∀ nd, (f nd).parent = nd.parent) (hchild : ∀ nd, (f nd).child ⊆ nd.child) : Listed t m := by
  obtain ⟨nd', hnd', q, hq, qd', hqd', hm⟩ := h
  obtain ⟨nd, hnd, rfl⟩ := Tree.modify_eq_some hnd'
  obtain ⟨qd, hqd, rfl⟩ := Tree.modify_eq_some hqd'
  refine ⟨nd, hnd, q, ?_, qd, hqd, ?_⟩
  · split_ifs at hq
    · exact hpar nd ▸ hq
    · exact hq
  · split_ifs at hm
    · exact hchild qd hm
    · exact hm

/-- What a change that keeps the tree does to the links: an old link has its fields, and its path
leads where it led if the way to it does not meet `X`. -/
theorem LinksKept.of_keeps (h : LinksKept depth s) (hs' : Shape s') (hkeeps : TreeKeeps X s.tree s'.tree)
    (hvis : ∀ n nd path r vis, Listed s.tree n → s.tree n = some nd → nd.linkto.isSome → nd.linktoPath = some path → lookup depth s.tree path = some (r, vis) → ∀ v ∈ vis, ¬ X v)
    (hold : ∀ n nd', Listed s'.tree n → s'.tree n = some nd' → (∃ nd, Listed s.tree n ∧ s.tree n = some nd ∧ nd'.kind = nd.kind ∧ nd'.linkto = nd.linkto ∧ nd'.linktoPath = nd.linktoPath) ∨ (nd'.kind = .symlink → ∃ path, nd'.linktoPath = some path) ∧ ∀ target, nd'.linkto = some target → ∃ path vis, nd'.linktoPath = some path ∧ lookup depth s'.tree path = some (some target, vis)) :
    LinksKept depth s' := by
  refine ⟨hs', ?_, ?_⟩
  · intro n nd' hlisted hnd' hkind'
    obtain ⟨nd, hl, hnd, hkind, hto, hpath⟩ | ⟨hpath, -⟩ := hold n nd' hlisted hnd'
    · exact hpath ▸ h.path n nd hl hnd (hkind ▸ hkind')
    · exact hpath hkind'
  · intro n nd' target hlisted hnd' hto'
    obtain ⟨nd, hl, hnd, hkind, hto, hpath⟩ | ⟨-, hkept⟩ := hold n nd' hlisted hnd'
    · obtain ⟨path, vis, hp, hlookup⟩ := h.kept n nd target hl hnd (hto ▸ hto')
      have hsome : nd.linkto.isSome := by rw [← hto, hto']; rfl
      exact ⟨path, vis, hpath.trans hp,
        hkeeps.lookup_eq (hvis n nd path _ vis hl hnd hsome hp hlookup) hlookup⟩
    · exact hkept target hto'

theorem linksKept_growing (depth : ℕ) : Growing depth NewName (LinksKept depth) := by
  constructor
  · exact fun s h => h.toShape.root_kind
  · exact fun s n nd p pd h => h.toShape.parent_kind
  · exact fun s s' ht h => h.of_tree_eq ht.tree_eq ht.next_eq
  · intro s p pd name kind h hp hdir hfind hkind
    have htree := tree_vfsNodeAlloc s p name kind
    refine h.of_keeps (h.toShape.append hp hdir name kind)
      (htree ▸ keeps_append h.toShape hp hfind kind) (fun _ _ _ _ _ _ _ _ _ _ v _ hv => hv) ?_
    intro n nd' hlisted hnd'
    rw [htree] at hlisted hnd'
    have hnew := hlisted.of_append
    obtain ⟨rfl, rfl⟩ | ⟨nd, hnd, rfl⟩ := Tree.append_eq_some hnd'
    · exact .inr ⟨fun hk => absurd hk hkind, fun _ ht => nomatch ht⟩
    · have hne : n ≠ s.next := by
        rintro rfl
        rw [h.next_free] at hnd
        cases hnd
      refine .inl ⟨nd, hnew.resolve_left hne, hnd, ?_⟩
      split_ifs
      · exact ⟨rfl, rfl, rfl⟩
      · exact ⟨rfl, rfl, rfl⟩
  · intro s p pd name target s' r h hp hdir hfind hopen
    obtain ⟨ht, vis, hlookup⟩ := vfsOpen_lookup hopen
    have htree := ht.tree_eq.trans (tree_vfsNodeAlloc s p name .symlink)
    have htree' := s'.tree_modify s.next (fun nd => { nd with linkto := r, linktoPath := some target })
      (fun nd => { nd with linkto := r, linktoPath := some target }) (fun _ => rfl)
    have hshape := (h.toShape.append hp hdir name .symlink).of_tree_eq ht.tree_eq ht.next_eq
    rw [← ht.tree_eq] at hlookup
    -- the new link has no target yet while its path is looked up
    have hlink : TreeKeeps (fun _ => False) s'.tree (s'.modify s.next
        fun nd => { nd with linkto := r, linktoPath := some target }).tree := by
      rw [htree']
      refine keeps_link ?_ r (some target)
      intro nd hnd
      rw [htree, Tree.append_self] at hnd
      cases hnd
      exact ⟨rfl, rfl⟩
    have happend : TreeKeeps (fun _ => False) s.tree s'.tree :=
      htree ▸ keeps_append h.toShape hp hfind .symlink
    refine h.of_keeps (hshape.link hlookup s.next) (happend.trans hlink)
      (fun _ _ _ _ _ _ _ _ _ _ v _ hv => hv) ?_
    intro n nd'' hlisted hnd''
    rw [htree'] at hlisted hnd''
    have hlisted' := hlisted.of_modify (fun _ => rfl) (fun _ => List.Subset.refl _)
    obtain ⟨nd', hnd', rfl⟩ := Tree.modify_eq_some hnd''
    rw [htree] at hlisted' hnd'
    by_cases hn : n = s.next
    · right
      rw [if_pos hn]
      refine ⟨fun _ => ⟨target, rfl⟩, ?_⟩
      rintro m rfl
      exact ⟨target, vis, rfl, hlink.lookup_eq (fun v _ hv => hv) hlookup⟩
    · left
      rw [if_neg hn]
      obtain ⟨rfl, -⟩ | ⟨nd, hnd, rfl⟩ := Tree.append_eq_some hnd'
      · exact absurd rfl hn
      · refine ⟨nd, hlisted'.of_append.resolve_left hn, hnd, ?_⟩
        split_ifs
        · exact ⟨rfl, rfl, rfl⟩
        · exact ⟨rfl, rfl, rfl⟩

def Removable (s : Vfs) (n : ℕ) : Prop :=
  n ≠ rootdir ∧ ∀ nd ∈ s.node n, ¬ (nd.kind = .dir ∧ vfsDirHasLiveChild s nd)

/-- A node that is taken away is not on the way from the root along the path of a link that keeps its
target. -/
def VfsOp.LeavesLinks (depth : ℕ) (s : Vfs) : VfsOp → Prop
  | .delete n => Removable s n → ∀ m < s.next, ∀ nd ∈ s.tree m, Listed s.tree m →
      nd.linkto.isSome → ∀ path ∈ nd.linktoPath, ∀ x ∈ lookup depth s.tree path, n ∉ x.2
  | _ => True

instance (t : Tree) (n : ℕ) : Decidable (Listed t n) :=
  inferInstanceAs (Decidable (∃ nd ∈ t n, ∃ p ∈ nd.parent, ∃ pd ∈ t p, n ∈ pd.child))

instance (s : Vfs) (n : ℕ) : Decidable (Removable s n) :=
  inferInstanceAs (Decidable (n ≠ rootdir ∧ ∀ nd ∈ s.node n, ¬ (_ ∧ _)))

instance (depth : ℕ) (s : Vfs) : ∀ op : VfsOp, Decidable (op.LeavesLinks depth s)
  | .mkdir _ => .isTrue trivial
  | .mkfile _ => .isTrue trivial
  | .symlink _ _ => .isTrue trivial
  | .delete n => inferInstanceAs (Decidable (Removable s n → ∀ m < s.next, ∀ nd ∈ s.tree m,
      Listed s.tree m → nd.linkto.isSome → ∀ path ∈ nd.linktoPath,
        ∀ x ∈ lookup depth s.tree path, n ∉ x.2))

theorem vfsDelete_of_not_removable {res : Except VfsError Unit} (hn : ¬ Removable s n)
    (h : vfsDelete s n = some (s', res)) : s' = s := by
  unfold vfsDelete at h
  obtain ⟨nd, hnd, hw⟩ := bind_eq_some_iff.mp h
  by_cases hroot : n = rootdir
  · rw [if_pos hroot] at hw
    cases hw
    rfl
  rw [if_neg hroot] at hw
  by_cases hfull : nd.kind = .dir ∧ vfsDirHasLiveChild s nd
  · rw [if_pos hfull] at hw
    cases hw
    rfl
  refine absurd ⟨hroot, fun nd' hnd' => ?_⟩ hn
  rw [hnd] at hnd'
  cases hnd'
  exact hfull

theorem linksKept_step {op : VfsOp} (h : LinksKept depth s) (hfresh : op.Fresh NewName depth s)
    (hleaves : op.LeavesLinks depth s) (hstep : vfsStep depth s op = some s') : LinksKept depth s' := by
  refine (linksKept_growing depth).step_keeps (fun _ _ _ hnew _ => hnew) h hfresh ?_ hstep
  rintro n res rfl hdelete
  by_cases hn : Removable s n
  · have hshape := h.toShape.delete hdelete
    obtain rfl | ⟨nd, hnd, hnext, htree | ⟨p, hp, htree⟩⟩ := vfsDelete_spec hdelete
    · exact h
    · exact h.of_tree_eq htree hnext
    · refine h.of_keeps hshape (htree ▸ keeps_erase n p) ?_ ?_
      · rintro m md path r vis hl hmd hto hpath hlookup v hv rfl
        have hlt : m < s.next := by
          by_contra hge
          rw [h.bounded m (not_lt.mp hge)] at hmd
          cases hmd
        exact hleaves hn m hlt md hmd hl hto path hpath _ hlookup hv
      · intro m md' hlisted hmd'
        rw [htree] at hlisted hmd'
        have hlisted' := hlisted.of_modify (fun _ => rfl) (fun _ => erase_subset)
        obtain ⟨md, hmd, rfl⟩ := Tree.modify_eq_some hmd'
        refine .inl ⟨md, hlisted', hmd, ?_⟩
        split_ifs
        · exact ⟨rfl, rfl, rfl⟩
        · exact ⟨rfl, rfl, rfl⟩
  · rw [vfsDelete_of_not_removable hn hdelete]
    exact h

/-- `vfs_open` of a path returns `r`, with enough depth. -/
def PathOpens (s : Vfs) (str : List Char) (r : Option ℕ) : Prop :=
  ∃ depth s', vfsOpen depth s str = some (s', r)

theorem opens_iff : PathOpens s str r ↔ ∃ depth vis, lookup depth s.tree str = some (r, vis) := by
  constructor
  · rintro ⟨depth, s', h⟩
    exact ⟨depth, (vfsOpen_lookup h).2⟩
  · rintro ⟨depth, vis, h⟩
    have hf := vfsOpen_follows depth s str rfl
    rw [h] at hf
    generalize hx : vfsOpen depth s str = x at hf
    cases hf with
    | found ht => exact ⟨depth, _, hx⟩

theorem opens_iff_of_le (depth : ℕ) :
    PathOpens s str r ↔ ∃ depth' ≥ depth, (lookup depth' s.tree str).map Prod.fst = some r := by
  rw [opens_iff]
  constructor
  · rintro ⟨d, vis, h⟩
    refine ⟨max d depth, le_max_right d depth, ?_⟩
    rw [lookup_of_le (le_max_left d depth) h, map_some]
  · rintro ⟨d, -, h⟩
    obtain ⟨⟨r', vis⟩, hlookup, rfl⟩ := map_eq_some_iff.mp h
    exact ⟨d, vis, hlookup⟩

theorem PathOpens.unique {r' : Option ℕ} (h : PathOpens s str r) (h' : PathOpens s str r') : r = r' := by
  obtain ⟨d, vis, h⟩ := opens_iff.mp h
  obtain ⟨d', vis', h'⟩ := opens_iff.mp h'
  have hmax := lookup_of_le (le_max_left d d') h
  rw [lookup_of_le (le_max_right d d') h'] at hmax
  cases hmax
  rfl

/-- Only the last token of a path has the mark of the last. -/
def EndsLast : List (List Char × Bool) → Prop
  | [] => True
  | (_, last) :: toks => (last = true → toks = []) ∧ EndsLast toks

theorem endsLast_pathTokens (str : List Char) : EndsLast (pathTokens str) := by
  refine pathTokens_induction (P := EndsLast) trivial ?_ str
  intro buf rest _ ih
  refine ⟨fun hlast => ?_, ih⟩
  rw [List.isEmpty_iff.mp hlast]
  rfl

theorem Shape.walks_to_link (h : Shape s)
    (hres : ∀ n target vis, resolve n = some (some target, vis) → ∃ td, s.tree target = some td ∧ td.kind ≠ .symlink)
    {toks : List (List Char × Bool)} {current : ℕ}
    (hwalk : Walks true resolve s.tree toks current (some link) vis) (hends : EndsLast toks)
    (hcur : ∃ cur, s.tree current = some cur ∧ cur.kind ≠ .symlink) (hnd : s.tree link = some nd)
    (hkind : nd.kind = .symlink) :
    ∃ toks0 buf last p pd vis0, toks = toks0 ++ [(buf, last)] ∧ buf ≠ ['.'] ∧ buf ≠ ['.', '.'] ∧
      Walks false resolve s.tree toks0 current (some p) vis0 ∧ s.tree p = some pd ∧
      vfsChildFind s.tree pd buf = some link := by
  generalize hr : some link = r at hwalk
  induction hwalk with
  | done =>
    cases hr
    obtain ⟨cur, hcur, hk⟩ := hcur
    rw [hnd] at hcur
    cases hcur
    exact absurd hkind hk
  | dot hcur' walk ih =>
    obtain ⟨toks0, buf, last, p, pd, vis0, rfl, hdot, hdots, hwalk, hp, hfind⟩ := ih hends.2 hcur hr
    exact ⟨_ :: toks0, buf, last, p, pd, vis0, rfl, hdot, hdots, .dot hcur' hwalk, hp, hfind⟩
  | @dots last' toks current cur r vis hcur' walk ih =>
    have hparent : ∃ pd, s.tree (cur.parent.getD current) = some pd ∧ pd.kind ≠ .symlink := by
      cases hp : cur.parent with
      | none => exact hcur
      | some p =>
        obtain ⟨pd, hpd, hdir⟩ := h.parent_dir hcur' hp
        exact ⟨pd, hpd, by rw [hdir]; decide⟩
    obtain ⟨toks0, buf, last, p, pd, vis0, rfl, hdot, hdots, hwalk, hp, hfind⟩ := ih hends.2 hparent hr
    exact ⟨_ :: toks0, buf, last, p, pd, vis0, rfl, hdot, hdots, .dots hcur' hwalk, hp, hfind⟩
  | missing => cases hr
  | enter hdot' hdots' hcur' hfind' hnd' hkind' walk ih =>
    obtain ⟨toks0, buf, last, p, pd, vis0, rfl, hdot, hdots, hwalk, hp, hfind⟩ :=
      ih hends.2 ⟨_, hnd', hkind'⟩ hr
    exact ⟨_ :: toks0, buf, last, p, pd, _, rfl, hdot, hdots,
      .enter hdot' hdots' hcur' hfind' hnd' hkind' hwalk, hp, hfind⟩
  | stop hdot hdots hcur' hfind hnd' hkind' hlast =>
    cases hr
    have hnil := hends.1 hlast.2
    subst hnil
    exact ⟨[], _, _, _, _, [], rfl, hdot, hdots, .done, hcur', hfind⟩
  | broken => cases hr
  | dangling => cases hr
  | follow hdot' hdots' hcur' hfind' hnd' hkind' hlast' hgood hres' htd walk ih =>
    obtain ⟨toks0, buf, last, p, pd, vis0, rfl, hdot, hdots, hwalk, hp, hfind⟩ :=
      ih hends.2 (hres _ _ _ hres') hr
    exact ⟨_ :: toks0, buf, last, p, pd, _, rfl, hdot, hdots,
      .follow hdot' hdots' hcur' hfind' hnd' hkind' (by simp) hgood hres' htd hwalk, hp, hfind⟩

theorem lookupWalk_link {buf : List Char} {last : Bool} (hdot : buf ≠ ['.']) (hdots : buf ≠ ['.', '.'])
    (hp : t p = some pd) (hfind : vfsChildFind t pd buf = some link) (hnd : t link = some nd)
    (hkind : nd.kind = .symlink) (hpar : nd.parent.isSome) (hpath : nd.linktoPath.isSome)
    (hres : ∀ target vis, resolve link = some (some target, vis) → (t target).isSome) :
    (lookupWalk false resolve t [(buf, last)] p).map Prod.fst = (resolve link).map Prod.fst := by
  have hgood : ¬ (nd.parent.isNone ∨ (nd.linkto.isNone ∧ nd.linktoPath.isNone)) := by
    obtain ⟨par, hpar⟩ := isSome_iff_exists.mp hpar
    obtain ⟨path, hpath⟩ := isSome_iff_exists.mp hpath
    rw [hpar, hpath]
    simp
  rw [lookupWalk, hp, bind_some, if_neg hdot, if_neg hdots, hfind]
  dsimp only
  rw [hnd, bind_some, if_neg (not_not.mpr hkind), if_neg (by simp), if_neg hgood]
  cases hr : resolve link with
  | none => rfl
  | some x =>
    obtain ⟨target, vis⟩ := x
    rw [bind_some]
    cases target with
    | none => rfl
    | some target =>
      obtain ⟨td, htd⟩ := isSome_iff_exists.mp (hres target vis hr)
      dsimp only
      rw [htd]
      rfl

/-- The path that a link stands for: its stored path, seen from the directory of the link. -/
def linkTarget (t : Tree) (link : ℕ) : Option (List Char) :=
  (t link).bind fun nd =>
    nd.linktoPath.bind fun path =>
      if path.head? = some '/' then some path
      else
        (pathNames t (nd.parent.getD rootdir + 1) (nd.parent.getD rootdir)).map fun names =>
          normalizePath (pathacat (joinPath names) path)

theorem LinksKept.lookup_link {d : ℕ} (h : LinksKept depth s) {q : List Char}
    (hq : lookupNofollow d s.tree q = some (some link, vis)) (hnd : s.tree link = some nd)
    (hkind : nd.kind = .symlink) : Listed s.tree link ∧ ∀ d' ≥ d, (lookup (d' + 1) s.tree q).map Prod.fst =
      (resolveLink (lookup d' s.tree) s.tree link).map Prod.fst := by
  have hkinds : ∀ d' n target vis, resolveLink (lookup d' s.tree) s.tree n = some (some target, vis) →
      ∃ td, s.tree target = some td ∧ td.kind ≠ .symlink :=
    fun d' n target vis => h.toShape.resolveLink_kind
  unfold lookupNofollow at hq
  by_cases habs : q.head? = some '/'
  · rw [if_pos habs] at hq
    obtain ⟨rd, hrd, -, hdir⟩ := h.root
    obtain ⟨toks0, buf, last, p, pd, vis0, htoks, hdot, hdots, hwalk, hp, hfind⟩ :=
      h.toShape.walks_to_link (hkinds d) (walks_of_lookupWalk hq) (endsLast_pathTokens q.tail)
        ⟨rd, hrd, by rw [hdir]; decide⟩ hnd hkind
    have hmem := (mem_of_vfsChildFind hfind).1
    obtain ⟨nd', hnd', hpar⟩ := h.child p pd link hp hmem
    rw [hnd] at hnd'
    cases hnd'
    have hlisted : Listed s.tree link := ⟨nd, hnd, p, hpar, pd, hp, hmem⟩
    refine ⟨hlisted, fun d' hd' => ?_⟩
    obtain ⟨path, hpath⟩ := h.path link nd hlisted hnd hkind
    -- the way to the directory of the link is the same with more depth
    have hwalk' := hwalk.mono fun n x hx =>
      resolveLink_mono (fun str y hy => lookup_of_le hd' hy) hx
    have hlookup : lookup (d' + 1) s.tree q =
        (lookupWalk false (resolveLink (lookup d' s.tree) s.tree) s.tree [(buf, last)] p).map
          fun x => (x.1, vis0 ++ x.2) := by
      rw [lookup, if_pos habs, htoks, hwalk'.lookupWalk_append]
    rw [hlookup, Option.map_map]
    refine (lookupWalk_link hdot hdots hp hfind hnd hkind (isSome_of_eq_some hpar)
      (isSome_of_eq_some hpath) ?_)
    intro target vis hr
    obtain ⟨td, htd, -⟩ := hkinds d' link target vis hr
    exact isSome_of_eq_some htd
  · rw [if_neg habs] at hq
    cases hq

theorem resolveLink_of_linkto_none (lookup : List Char → Found) {path : List Char} (hnd : t link = some nd)
    (hto : nd.linkto = none) (hpath : nd.linktoPath = some path)
    (hfull : path.head? ≠ some '/' → ∃ names, pathNames t (nd.parent.getD rootdir + 1) (nd.parent.getD rootdir) = some names ∧ PathFits t (nd.parent.getD rootdir)) :
    ∃ target, linkTarget t link = some target ∧ resolveLink lookup t link = lookup target := by
  unfold linkTarget resolveLink
  rw [hnd, bind_some, bind_some, hto, hpath, bind_some]
  dsimp only
  by_cases habs : path.head? = some '/'
  · rw [if_pos habs, if_pos habs]
    exact ⟨path, rfl, rfl⟩
  · rw [if_neg habs, if_neg habs]
    obtain ⟨names, hnames, hfits⟩ := hfull habs
    obtain ⟨base, hbase⟩ := isSome_iff_exists.mp ((isSome_vfsGetFullpath hnames).mpr hfits)
    rw [hnames, hbase, map_some, bind_some, vfsGetFullpath_eq hnames hbase]
    exact ⟨_, rfl, rfl⟩

theorem Shape.exists_pathNames (h : Shape s) (hnd : s.tree n = some nd) :
    ∃ names, pathNames s.tree (n + 1) n = some names := by
  induction n using Nat.strong_induction_on generalizing nd with
  | _ n ih =>
    by_cases hn : n = rootdir
    · subst hn
      exact ⟨[], h.pathNames_root⟩
    · obtain ⟨p, pd, hp, hlt, hpd, -⟩ := h.parent n nd hnd hn
      obtain ⟨names, hnames⟩ := ih p hlt hpd
      exact ⟨_, h.pathNames_child hnd hn hp hnames⟩

/-- In every state that calls reach which put no second node of a name into a directory and take away
no node on the way to the kept target of a link, opening a link gives what opening the path that it
stands for gives. -/
theorem vfs_open_link (depth : ℕ) (ops : List VfsOp) (s : Vfs)
    (hok : Runs.Meets (vfsStep depth)
      (fun s op => op.Fresh NewName depth s ∧ op.LeavesLinks depth s) ops Vfs.boot)
    (hrun : Runs.run (vfsStep depth) ops Vfs.boot = some s) (q : List Char) (link : ℕ)
    (nd : TreeNode) (hq : ∃ d s', vfsOpenNofollow d s q = some (s', some link))
    (hnd : s.tree link = some nd) (hkind : nd.kind = .symlink)
    (hfits : ∀ path ∈ nd.linktoPath, path.head? ≠ some '/' →
      PathFits s.tree (nd.parent.getD rootdir)) :
    ∃ path, linkTarget s.tree link = some path ∧ ∀ r, PathOpens s q r ↔ PathOpens s path r := by
  have h : LinksKept depth s := Runs.run_keeps
    (fun s op s' h hok hstep => linksKept_step h hok.1 hok.2 hstep) (linksKept_boot depth) hok hrun
  obtain ⟨d, s', hq⟩ := hq
  obtain ⟨vis, hq⟩ : ∃ vis, lookupNofollow d s.tree q = some (some link, vis) := by
    have hf := vfsOpenNofollow_follows d s q
    rw [hq] at hf
    generalize hy : lookupNofollow d s.tree q = y at hf
    cases hf with
    | found ht => exact ⟨_, rfl⟩
  obtain ⟨hlisted, hlookup⟩ := h.lookup_link hq hnd hkind
  have hopens : ∀ r, PathOpens s q r ↔
      ∃ d' ≥ d, (resolveLink (lookup d' s.tree) s.tree link).map Prod.fst = some r := by
    intro r
    rw [opens_iff_of_le (d + 1)]
    constructor
    · rintro ⟨d', hd', hr⟩
      obtain ⟨d', rfl⟩ : ∃ k, d' = k + 1 := ⟨d' - 1, by omega⟩
      exact ⟨d', by omega, (hlookup d' (by omega)).symm.trans hr⟩
    · rintro ⟨d', hd', hr⟩
      exact ⟨d' + 1, by omega, (hlookup d' hd').trans hr⟩
  cases hto : nd.linkto with
  | some target =>
    obtain ⟨path, vis', hpath, hpathto⟩ := h.kept link nd target hlisted hnd hto
    have habs : path.head? = some '/' := by
      by_contra habs
      cases depth with
      | zero => cases hpathto
      | succ depth =>
        rw [lookup, if_neg habs] at hpathto
        cases hpathto
    have hresolve : ∀ d', resolveLink (lookup d' s.tree) s.tree link = some (some target, []) := by
      intro d'
      unfold resolveLink
      rw [hnd, Option.bind_some, hto]
    refine ⟨path, ?_, fun r => ?_⟩
    · unfold linkTarget
      rw [hnd, Option.bind_some, hpath, Option.bind_some, if_pos habs]
    · rw [hopens, opens_iff_of_le depth]
      constructor
      · rintro ⟨d', -, hr⟩
        rw [hresolve] at hr
        exact ⟨depth, le_rfl, by rw [hpathto]; exact hr⟩
      · rintro ⟨d', hd', hr⟩
        rw [lookup_of_le hd' hpathto] at hr
        exact ⟨d, le_rfl, by rw [hresolve]; exact hr⟩
  | none =>
    obtain ⟨path, hpath⟩ := h.path link nd hlisted hnd hkind
    obtain ⟨p, pd, hp, -, hpd, -⟩ := h.parent link nd hnd (by
      rintro rfl
      obtain ⟨rd, hrd, -, hdir⟩ := h.root
      rw [hnd] at hrd
      cases hrd
      rw [hkind] at hdir
      cases hdir)
    have hfull : path.head? ≠ some '/' → ∃ names,
        pathNames s.tree (nd.parent.getD rootdir + 1) (nd.parent.getD rootdir) = some names ∧
          PathFits s.tree (nd.parent.getD rootdir) := by
      intro habs
      refine (h.toShape.exists_pathNames (?_ : s.tree (nd.parent.getD rootdir) = some pd)).imp
        fun names hnames => ⟨hnames, hfits path hpath habs⟩
      rw [hp, Option.getD_some]
      exact hpd
    obtain ⟨target, htarget, -⟩ :=
      resolveLink_of_linkto_none (fun _ => none) hnd hto hpath hfull
    refine ⟨target, htarget, fun r => ?_⟩
    rw [hopens, opens_iff_of_le d]
    refine exists_congr fun d' => and_congr_right fun _ => ?_
    obtain ⟨target', htarget', heq⟩ :=
      resolveLink_of_linkto_none (lookup d' s.tree) hnd hto hpath hfull
    rw [htarget] at htarget'
    cases htarget'
    rw [heq]

/-- A link to a directory, and the removal of a file beside it. -/
def linkCalls : List VfsOp :=
  [.mkdir ['/', 'a'], .mkfile ['/', 'b'], .symlink ['/', 'l'] ['/', 'a'], .delete 2]

theorem vfs_open_link_linkCalls :
    ∃ s, Runs.run (vfsStep 2) linkCalls Vfs.boot = some s ∧
      ∃ path, linkTarget s.tree 3 = some path ∧ ∀ r, PathOpens s ['/', 'l'] r ↔ PathOpens s path r := by
  obtain ⟨s, hs⟩ := Option.isSome_iff_exists.mp
    (show (Runs.run (vfsStep 2) linkCalls Vfs.boot).isSome = true by decide)
  have hq : ∀ s ∈ Runs.run (vfsStep 2) linkCalls Vfs.boot,
      (vfsOpenNofollow 1 s ['/', 'l']).map Prod.snd = some (some 3) := by decide
  have hnd : ∀ s ∈ Runs.run (vfsStep 2) linkCalls Vfs.boot, s.tree 3 =
      some ⟨some 0, ['l'], .symlink, [], some 1, some ['/', 'a']⟩ := by decide
  obtain ⟨⟨s', _⟩, hopen, rfl⟩ := Option.map_eq_some_iff.mp (hq s hs)
  refine ⟨s, hs, vfs_open_link 2 linkCalls s (by decide) hs ['/', 'l'] 3 _ ⟨1, s', hopen⟩
    (hnd s hs) rfl ?_⟩
  rintro path ⟨⟩ habs
  exact absurd rfl habs

/-- A link keeps leading to a file that has been removed. -/
theorem vfsOpen_stale_link :
    ∃ s, Runs.run (vfsStep 2) [.mkfile ['/', 'a'], .symlink ['/', 'l'] ['/', 'a'], .delete 1]
        Vfs.boot = some s ∧
      (∃ d s', vfsOpenNofollow d s ['/', 'l'] = some (s', some 2)) ∧
      linkTarget s.tree 2 = some ['/', 'a'] ∧
      ¬ ∀ r, PathOpens s ['/', 'l'] r ↔ PathOpens s ['/', 'a'] r := by
  obtain ⟨s, hs⟩ := Option.isSome_iff_exists.mp
    (show (Runs.run (vfsStep 2) [.mkfile ['/', 'a'], .symlink ['/', 'l'] ['/', 'a'], .delete 1]
      Vfs.boot).isSome = true by decide)
  have hfacts : ∀ s ∈ Runs.run (vfsStep 2)
      [.mkfile ['/', 'a'], .symlink ['/', 'l'] ['/', 'a'], .delete 1] Vfs.boot,
      (vfsOpenNofollow 1 s ['/', 'l']).map Prod.snd = some (some 2) ∧
        linkTarget s.tree 2 = some ['/', 'a'] ∧
        (vfsOpen 1 s ['/', 'l']).map Prod.snd = some (some 1) ∧
        (vfsOpen 1 s ['/', 'a']).map Prod.snd = some none := by decide
  obtain ⟨hq, htarget, hl, ha⟩ := hfacts s hs
  obtain ⟨⟨s₁, _⟩, hq, rfl⟩ := Option.map_eq_some_iff.mp hq
  obtain ⟨⟨s₂, _⟩, hl, rfl⟩ := Option.map_eq_some_iff.mp hl
  obtain ⟨⟨s₃, _⟩, ha, rfl⟩ := Option.map_eq_some_iff.mp ha
  refine ⟨s, hs, ⟨1, s₁, hq⟩, htarget, fun hiff => ?_⟩
  exact nomatch ((hiff (some 1)).mp ⟨1, s₂, hl⟩).unique ⟨1, s₃, ha⟩

end CoolPotOS
