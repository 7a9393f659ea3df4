import CoolPotOS.Fs.VfsLookup
import CoolPotOS.Lib.Runs

namespace CoolPotOS

open Function Option

def Tree.modify (t : Tree) (n : ℕ) (f : TreeNode → TreeNode) : Tree :=
  Function.update t n ((t n).map f)

/-- The tree with a new node `c` at the head of the list of `p`. -/
def Tree.append (t : Tree) (p c : ℕ) (name : List Char) (kind : FileKind) : Tree :=
  Function.update (t.modify p fun pd => { pd with child := c :: pd.child }) c
    (some { parent := some p, name := name, kind := kind, child := [], linkto := none,
            linktoPath := none })

theorem Vfs.tree_modify (s : Vfs) (n : ℕ) (f : VfsNode → VfsNode) (g : TreeNode → TreeNode)
    (h : ∀ nd, (f nd).toTreeNode = g nd.toTreeNode) : (s.modify n f).tree = s.tree.modify n g := by
  funext m
  unfold Vfs.tree Tree.modify
  rw [Vfs.modify_node, update_apply]
  split_ifs with hm
  · dsimp only
    cases s.node n with
    | none => rfl
    | some nd => simp [h]
  · rfl

theorem tree_vfsNodeAlloc (s : Vfs) (p : ℕ) (name : List Char) (kind : FileKind) :
    (vfsNodeAlloc s p name kind).tree = s.tree.append p s.next name kind := by
  have hmod := s.tree_modify p (fun nd => { nd with child := s.next :: nd.child })
    (fun pd => { pd with child := s.next :: pd.child }) (fun _ => rfl)
  funext m
  unfold Tree.append
  rw [← hmod, update_apply]
  unfold vfsNodeAlloc Vfs.tree
  simp only [update_apply]
  split_ifs with hm
  · rfl
  · rfl

variable {t : Tree} {n m p c depth : ℕ} {nd pd : TreeNode} {name : List Char} {s s' : Vfs} {r : Option ℕ}
  {vis : List ℕ} {res : Except VfsError Unit}

theorem Tree.modify_eq_some {f : TreeNode → TreeNode} {nd' : TreeNode} (h : t.modify n f m = some nd') :
    ∃ nd, t m = some nd ∧ nd' = if m = n then f nd else nd := by
  unfold Tree.modify at h
  rw [update_apply] at h
  split_ifs at h ⊢ with hm
  · subst hm
    obtain ⟨nd, hnd, rfl⟩ := map_eq_some_iff.mp h
    exact ⟨nd, hnd, rfl⟩
  · exact ⟨nd', h, rfl⟩

theorem Tree.modify_of_some (h : t m = some nd) (n : ℕ) (f : TreeNode → TreeNode) :
    t.modify n f m = some (if m = n then f nd else nd) := by
  unfold Tree.modify
  rw [update_apply]
  split_ifs with hm
  · rw [← hm, h, map_some]
  · exact h

theorem Tree.append_eq_some {kind : FileKind} {nd' : TreeNode} (h : t.append p c name kind m = some nd') :
    (m = c ∧ nd' = ⟨some p, name, kind, [], none, none⟩) ∨
      ∃ nd, t m = some nd ∧ nd' = if m = p then { nd with child := c :: nd.child } else nd := by
  unfold Tree.append at h
  rw [update_apply] at h
  split_ifs at h with hm
  · exact .inl ⟨hm, (Option.some.inj h).symm⟩
  · exact .inr (Tree.modify_eq_some h)

theorem Tree.append_of_some (h : t m = some nd) (hc : t c = none) (p : ℕ) (name : List Char) (kind : FileKind) :
    t.append p c name kind m = some (if m = p then { nd with child := c :: nd.child } else nd) := by
  have hm : m ≠ c := fun hm => by rw [hm, hc] at h; cases h
  unfold Tree.append
  rw [update_of_ne hm, Tree.modify_of_some h]

theorem Tree.append_self (t : Tree) (p c : ℕ) (name : List Char) (kind : FileKind) :
    t.append p c name kind c = some ⟨some p, name, kind, [], none, none⟩ :=
  update_self _ _ _

structure Shape (s : Vfs) : Prop where
  root : ∃ nd, s.tree rootdir = some nd ∧ nd.parent = none ∧ nd.kind = .dir
  bounded : ∀ n, s.next ≤ n → s.tree n = none
  parent : ∀ n nd, s.tree n = some nd → n ≠ rootdir →
    ∃ p pd, nd.parent = some p ∧ p < n ∧ s.tree p = some pd ∧ pd.kind = .dir
  child : ∀ p pd c, s.tree p = some pd → c ∈ pd.child →
    ∃ nd, s.tree c = some nd ∧ nd.parent = some p
  linkto : ∀ n nd m, s.tree n = some nd → nd.linkto = some m →
    ∃ md, s.tree m = some md ∧ md.kind ≠ .symlink

theorem shape_boot : Shape Vfs.boot := by
  have htree : ∀ n nd, Vfs.boot.tree n = some nd →
      n = rootdir ∧ nd = ⟨none, ['/'], .dir, [], none, none⟩ := by
    intro n nd h
    unfold Vfs.tree Vfs.boot at h
    simp only [update_apply] at h
    split_ifs at h with hn
    · exact ⟨hn, (Option.some.inj h).symm⟩
    · cases h
  constructor
  · exact ⟨_, rfl, rfl, rfl⟩
  · intro n hn
    cases h : Vfs.boot.tree n with
    | none => rfl
    | some nd =>
      have hroot := (htree n nd h).1
      subst hroot
      cases hn
  · exact fun n nd h hn => absurd (htree n nd h).1 hn
  · intro p pd c h hc
    rw [(htree p pd h).2] at hc
    cases hc
  · intro n nd m h hm
    rw [(htree n nd h).2] at hm
    cases hm

theorem Shape.next_free (h : Shape s) : s.tree s.next = none := h.bounded s.next le_rfl

theorem Shape.of_tree_eq (h : Shape s) (htree : s'.tree = s.tree) (hnext : s'.next = s.next) : Shape s' := by
  constructor
  · exact htree ▸ h.root
  · exact htree ▸ hnext ▸ h.bounded
  · exact htree ▸ h.parent
  · exact htree ▸ h.child
  · exact htree ▸ h.linkto

theorem Shape.parent_dir (h : Shape s) (hnd : s.tree n = some nd) (hp : nd.parent = some p) :
    ∃ pd, s.tree p = some pd ∧ pd.kind = .dir := by
  by_cases hn : n = rootdir
  · obtain ⟨rd, hrd, hroot, -⟩ := h.root
    rw [hn, hrd] at hnd
    cases hnd
    rw [hroot] at hp
    cases hp
  · obtain ⟨p', pd, hp', -, hpd, hdir⟩ := h.parent n nd hnd hn
    rw [hp'] at hp
    cases hp
    exact ⟨pd, hpd, hdir⟩

theorem mem_of_vfsChildFind (h : vfsChildFind t pd name = some c) :
    c ∈ pd.child ∧ ∃ nd, t c = some nd ∧ nd.name = name := by
  unfold vfsChildFind at h
  refine ⟨List.mem_of_find?_eq_some h, ?_⟩
  have hname := List.find?_some h
  cases hnd : t c with
  | none => simp [hnd] at hname
  | some nd => exact ⟨nd, rfl, by simpa [hnd] using hname⟩

theorem Shape.append (h : Shape s) (hp : s.tree p = some pd) (hdir : pd.kind = .dir) (name : List Char)
    (kind : FileKind) : Shape (vfsNodeAlloc s p name kind) := by
  have hfree := h.next_free
  have htree := tree_vfsNodeAlloc s p name kind
  -- an old node keeps all but its list
  have hold : ∀ m nd, s.tree m = some nd → ∃ nd', (vfsNodeAlloc s p name kind).tree m = some nd' ∧
      nd'.kind = nd.kind ∧ nd'.parent = nd.parent := by
    intro m nd hm
    rw [htree, Tree.append_of_some hm hfree]
    split_ifs
    · exact ⟨_, rfl, rfl, rfl⟩
    · exact ⟨_, rfl, rfl, rfl⟩
  have hlt : ∀ m nd, s.tree m = some nd → m < s.next := by
    intro m nd hm
    by_contra hge
    rw [h.bounded m (not_lt.mp hge)] at hm
    cases hm
  constructor
  · obtain ⟨rd, hrd, hpar, hk⟩ := h.root
    obtain ⟨rd', hrd', hk', hpar'⟩ := hold rootdir rd hrd
    exact ⟨rd', hrd', hpar'.trans hpar, hk'.trans hk⟩
  · intro n hn
    have hn' : s.next + 1 ≤ n := hn
    cases hnd : (vfsNodeAlloc s p name kind).tree n with
    | none => rfl
    | some nd' =>
      rw [htree] at hnd
      obtain ⟨rfl, -⟩ | ⟨nd, hnd, -⟩ := Tree.append_eq_some hnd
      · omega
      · have := hlt n nd hnd
        omega
  · intro n nd' hnd' hn
    rw [htree] at hnd'
    obtain ⟨rfl, rfl⟩ | ⟨nd, hnd, rfl⟩ := Tree.append_eq_some hnd'
    · obtain ⟨pd', hpd', hk', -⟩ := hold p pd hp
      exact ⟨p, pd', rfl, hlt p pd hp, hpd', hk'.trans hdir⟩
    · obtain ⟨q, qd, hq, hlt, hqd, hk⟩ := h.parent n nd hnd hn
      obtain ⟨qd', hqd', hk', -⟩ := hold q qd hqd
      refine ⟨q, qd', ?_, hlt, hqd', hk'.trans hk⟩
      split_ifs <;> exact hq
  · intro q qd' c hqd' hc
    rw [htree] at hqd'
    obtain ⟨rfl, rfl⟩ | ⟨qd, hqd, rfl⟩ := Tree.append_eq_some hqd'
    · cases hc
    · have hcase : (q = p ∧ c = s.next) ∨ c ∈ qd.child := by
        split_ifs at hc with hqp
        · exact (List.mem_cons.mp hc).imp_left (⟨hqp, ·⟩)
        · exact .inr hc
      obtain ⟨rfl, rfl⟩ | hc := hcase
      · rw [htree, Tree.append_self]
        exact ⟨_, rfl, rfl⟩
      · obtain ⟨nd, hnd, hpar⟩ := h.child q qd c hqd hc
        obtain ⟨nd', hnd', -, hpar'⟩ := hold c nd hnd
        exact ⟨nd', hnd', hpar'.trans hpar⟩
  · intro n nd' m hnd' hm
    rw [htree] at hnd'
    obtain ⟨rfl, rfl⟩ | ⟨nd, hnd, rfl⟩ := Tree.append_eq_some hnd'
    · cases hm
    · have hm : nd.linkto = some m := by split_ifs at hm <;> exact hm
      obtain ⟨md, hmd, hk⟩ := h.linkto n nd m hnd hm
      obtain ⟨md', hmd', hk', -⟩ := hold m md hmd
      exact ⟨md', hmd', hk' ▸ hk⟩

theorem Shape.modify (h : Shape s) (n : ℕ) (f : VfsNode → VfsNode) (g : TreeNode → TreeNode)
    (hfg : ∀ nd, (f nd).toTreeNode = g nd.toTreeNode) (hpar : ∀ nd, (g nd).parent = nd.parent)
    (hkind : ∀ nd, (g nd).kind = nd.kind) (hchild : ∀ nd, (g nd).child ⊆ nd.child)
    (hlink : ∀ nd m, s.tree n = some nd → (g nd).linkto = some m → ∃ md, s.tree m = some md ∧ md.kind ≠ .symlink) :
    Shape (s.modify n f) := by
  have htree := s.tree_modify n f g hfg
  have hold : ∀ m nd, s.tree m = some nd → ∃ nd', (s.modify n f).tree m = some nd' ∧
      nd'.kind = nd.kind ∧ nd'.parent = nd.parent := by
    intro m nd hm
    rw [htree, Tree.modify_of_some hm]
    split_ifs
    · exact ⟨_, rfl, hkind nd, hpar nd⟩
    · exact ⟨_, rfl, rfl, rfl⟩
  constructor
  · obtain ⟨rd, hrd, hp, hk⟩ := h.root
    obtain ⟨rd', hrd', hk', hp'⟩ := hold rootdir rd hrd
    exact ⟨rd', hrd', hp'.trans hp, hk'.trans hk⟩
  · intro m hm
    cases hnd : (s.modify n f).tree m with
    | none => rfl
    | some nd' =>
      rw [htree] at hnd
      obtain ⟨nd, hnd, -⟩ := Tree.modify_eq_some hnd
      rw [h.bounded m hm] at hnd
      cases hnd
  · intro m nd' hnd' hm
    rw [htree] at hnd'
    obtain ⟨nd, hnd, rfl⟩ := Tree.modify_eq_some hnd'
    obtain ⟨q, qd, hq, hlt, hqd, hk⟩ := h.parent m nd hnd hm
    obtain ⟨qd', hqd', hk', -⟩ := hold q qd hqd
    refine ⟨q, qd', ?_, hlt, hqd', hk'.trans hk⟩
    split_ifs
    · exact (hpar nd).trans hq
    · exact hq
  · intro q qd' c hqd' hc
    rw [htree] at hqd'
    obtain ⟨qd, hqd, rfl⟩ := Tree.modify_eq_some hqd'
    have hc : c ∈ qd.child := by
      split_ifs at hc
      · exact hchild qd hc
      · exact hc
    obtain ⟨nd, hnd, hp⟩ := h.child q qd c hqd hc
    obtain ⟨nd', hnd', -, hp'⟩ := hold c nd hnd
    exact ⟨nd', hnd', hp'.trans hp⟩
  · intro m nd' k hnd' hk
    rw [htree] at hnd'
    obtain ⟨nd, hnd, rfl⟩ := Tree.modify_eq_some hnd'
    obtain ⟨kd, hkd, hkind⟩ : ∃ kd, s.tree k = some kd ∧ kd.kind ≠ .symlink := by
      split_ifs at hk with hmn
      · exact hlink nd k (hmn ▸ hnd) hk
      · exact h.linkto m nd k hnd hk
    obtain ⟨kd', hkd', hkind', -⟩ := hold k kd hkd
    exact ⟨kd', hkd', hkind' ▸ hkind⟩

section Kind

variable {s : Vfs} (h : Shape s)

include h

theorem Shape.parent_not_link (n : ℕ) (nd : TreeNode) (p : ℕ)
    (_ : ∃ nd, s.tree n = some nd ∧ nd.kind ≠ .symlink) (hnd : s.tree n = some nd)
    (hp : nd.parent = some p) : ∃ pd, s.tree p = some pd ∧ pd.kind ≠ .symlink := by
  obtain ⟨pd, hpd, hdir⟩ := h.parent_dir hnd hp
  exact ⟨pd, hpd, by rw [hdir]; decide⟩

theorem Shape.root_not_link : ∃ nd, s.tree rootdir = some nd ∧ nd.kind ≠ .symlink := by
  obtain ⟨rd, hrd, -, hdir⟩ := h.root
  exact ⟨rd, hrd, by rw [hdir]; decide⟩

theorem Shape.lookup_kind {r : ℕ} {str : List Char} (hlookup : lookup depth s.tree str = some (some r, vis)) :
    ∃ rd, s.tree r = some rd ∧ rd.kind ≠ .symlink :=
  lookup_result (Q := fun n => ∃ nd, s.tree n = some nd ∧ nd.kind ≠ .symlink) h.root_not_link
    h.parent_not_link (fun _ nd hnd hkind => ⟨nd, hnd, hkind⟩) h.linkto hlookup

theorem Shape.resolveLink_kind {target : ℕ}
    (hres : resolveLink (lookup depth s.tree) s.tree n = some (some target, vis)) :
    ∃ td, s.tree target = some td ∧ td.kind ≠ .symlink :=
  resolveLink_result (Q := fun n => ∃ nd, s.tree n = some nd ∧ nd.kind ≠ .symlink) h.linkto
    (fun _ _ _ hl => h.lookup_kind hl) hres

end Kind

theorem Shape.link (h : Shape s) {target : List Char} (hlookup : lookup depth s.tree target = some (r, vis))
    (n : ℕ) : Shape (s.modify n fun nd => { nd with linkto := r, linktoPath := some target }) := by
  refine h.modify n _ (fun nd => { nd with linkto := r, linktoPath := some target })
    (fun _ => rfl) (fun _ => rfl) (fun _ => rfl) (fun _ => List.Subset.refl _) ?_
  intro nd m _ hm
  cases hm
  exact h.lookup_kind hlookup

/-- An invariant of the changes that the creating calls make, where `P` holds of the directory and the
name of a new node. -/
structure Growing (depth : ℕ) (P : Tree → TreeNode → List Char → Prop) (I : Vfs → Prop) : Prop where
  root : ∀ s, I s → ∃ nd, s.tree rootdir = some nd ∧ nd.kind = .dir
  parent : ∀ s n nd p pd, I s → s.tree n = some nd → nd.parent = some p → s.tree p = some pd →
    pd.kind = .dir
  touched : ∀ s s', Touched s s' → I s → I s'
  append : ∀ s p pd name kind, I s → s.tree p = some pd → pd.kind = .dir → P s.tree pd name →
    kind ≠ .symlink → I (vfsNodeAlloc s p name kind)
  link : ∀ s p pd name target s' r, I s → s.tree p = some pd → pd.kind = .dir → P s.tree pd name →
    vfsOpen depth (vfsNodeAlloc s p name .symlink) target = some (s', r) →
    I (s'.modify s.next fun nd => { nd with linkto := r, linktoPath := some target })

theorem Shape.root_kind (h : Shape s) : ∃ nd, s.tree rootdir = some nd ∧ nd.kind = .dir := by
  obtain ⟨nd, hnd, -, hdir⟩ := h.root
  exact ⟨nd, hnd, hdir⟩

theorem Shape.parent_kind (h : Shape s) (hnd : s.tree n = some nd) (hp : nd.parent = some p)
    (hpd : s.tree p = some pd) : pd.kind = .dir := by
  obtain ⟨pd', hpd', hdir⟩ := h.parent_dir hnd hp
  rw [hpd] at hpd'
  cases hpd'
  exact hdir

def NewName (t : Tree) (pd : TreeNode) (name : List Char) : Prop := vfsChildFind t pd name = none

def NewValidName (t : Tree) (pd : TreeNode) (name : List Char) : Prop :=
  NewName t pd name ∧ ValidName name

instance (t : Tree) (pd : TreeNode) (name : List Char) : Decidable (NewName t pd name) :=
  inferInstanceAs (Decidable (_ = none))

instance (t : Tree) (pd : TreeNode) (name : List Char) : Decidable (NewValidName t pd name) :=
  inferInstanceAs (Decidable (_ ∧ _))

theorem vfsOpen_lookup {str : List Char} (h : vfsOpen depth s str = some (s', r)) :
    Touched s s' ∧ ∃ vis, lookup depth s.tree str = some (r, vis) := by
  have hf := vfsOpen_follows depth s str rfl
  rw [h] at hf
  generalize hl : lookup depth s.tree str = y at hf
  cases hf with
  | found ht => exact ⟨ht, _, rfl⟩

theorem vfsResolveSymlinkTarget_touched {link : ℕ}
    (h : vfsResolveSymlinkTarget (vfsOpen depth) s link = some (s', r)) : Touched s s' := by
  have hf := vfsResolveSymlinkTarget_follows
    (fun s' str hs => vfsOpen_follows depth s' str hs) (rfl : s.tree = s.tree) link
  rw [h] at hf
  generalize resolveLink (lookup depth s.tree) s.tree link = y at hf
  cases hf with
  | found ht => exact ht

theorem vfsMkdirEnter_spec (h : vfsMkdirEnter depth s n = some (s', r)) :
    Touched s s' ∧ ∀ m, r = some m → ∀ md, s'.tree m = some md → md.kind = .dir := by
  unfold vfsMkdirEnter at h
  obtain ⟨cur, hcur, hw⟩ := bind_eq_some_iff.mp h
  by_cases hlink : cur.kind = .symlink
  · rw [if_pos hlink] at hw
    obtain ⟨⟨s1, target⟩, hres, hw⟩ := bind_eq_some_iff.mp hw
    have ht := (touched_doUpdate s n).trans (vfsResolveSymlinkTarget_touched hres)
    cases target with
    | none =>
      cases hw
      exact ⟨ht, fun m hm => nomatch hm⟩
    | some target =>
      obtain ⟨td, htd, hw⟩ := bind_eq_some_iff.mp hw
      cases hw
      refine ⟨ht.trans (touched_doUpdate s1 target), ?_⟩
      intro m hm md hmd
      split_ifs at hm with hdir
      cases hm
      rw [tree_doUpdate, htd] at hmd
      cases hmd
      exact hdir
  · rw [if_neg hlink] at hw
    cases hw
    refine ⟨touched_doUpdate s n, ?_⟩
    intro m hm md hmd
    split_ifs at hm with hdir
    cases hm
    rw [tree_doUpdate, hcur] at hmd
    cases hmd
    exact hdir

variable {depth : ℕ} {P : Tree → TreeNode → List Char → Prop} {I : Vfs → Prop}

theorem Growing.append_dir (hI : Growing depth P I) (h : I s) (hp : s.tree p = some pd) (hdir : pd.kind = .dir)
    (hname : P s.tree pd name) : I (doUpdate (vfsNodeAlloc s p name .dir) s.next) ∧
      ∀ cd, (doUpdate (vfsNodeAlloc s p name .dir) s.next).tree s.next = some cd → cd.kind = .dir := by
  refine ⟨hI.touched _ _ (touched_doUpdate _ _) (hI.append s p pd name .dir h hp hdir hname (by decide)), ?_⟩
  intro cd hcd
  rw [tree_doUpdate, tree_vfsNodeAlloc, Tree.append_self] at hcd
  cases hcd
  rfl

theorem Growing.root_dir (hI : Growing depth P I) (h : I s) (rd : TreeNode) (hrd : s.tree rootdir = some rd) :
    rd.kind = .dir := by
  obtain ⟨nd, hnd, hdir⟩ := hI.root s h
  rw [hrd] at hnd
  cases hnd
  exact hdir

theorem Growing.mkdirLoop_keeps (hI : Growing depth P I)
    (hP : ∀ t pd name, NewName t pd name → ValidName name → P t pd name) {toks : List (List Char × Bool)}
    (htoks : ∀ tok ∈ toks, IsToken tok.1) {current : ℕ} (h : I s)
    (hcur : ∀ cur, s.tree current = some cur → cur.kind = .dir)
    (hloop : vfsMkdirLoop depth toks s current = some (s', res)) : I s' := by
  induction toks generalizing s current with
  | nil =>
    cases hloop
    exact h
  | cons tok toks ih =>
    obtain ⟨buf, last⟩ := tok
    obtain ⟨htok, htoks⟩ := List.forall_mem_cons.mp htoks
    -- what the call does with a node that exists
    have henter : ∀ n f, (vfsMkdirEnter depth s n).bind f = some (s', res) →
        (∀ s, f (s, none) = some (s, .error .notdir)) →
        (∀ s m, f (s, some m) = vfsMkdirLoop depth toks s m) → I s' := by
      intro n f hn hnone hsome
      obtain ⟨⟨s1, r⟩, henter, hn⟩ := bind_eq_some_iff.mp hn
      obtain ⟨ht, hr⟩ := vfsMkdirEnter_spec henter
      cases r with
      | none =>
        cases (hnone s1).symm.trans hn
        exact hI.touched s s' ht h
      | some m => exact ih htoks (hI.touched s s1 ht h) (hr m rfl) ((hsome s1 m).symm.trans hn)
    unfold vfsMkdirLoop at hloop
    obtain ⟨cur, hcur', hloop⟩ := bind_eq_some_iff.mp hloop
    have hdir := hcur cur hcur'
    by_cases hdot : buf = ['.']
    · rw [if_pos hdot] at hloop
      exact ih htoks h hcur hloop
    rw [if_neg hdot] at hloop
    by_cases hdots : buf = ['.', '.']
    · rw [if_pos hdots] at hloop
      cases hp : cur.parent with
      | none =>
        rw [hp] at hloop
        cases hloop
        exact h
      | some p =>
        rw [hp] at hloop
        dsimp only at hloop
        rw [if_pos hdir] at hloop
        exact henter p _ hloop (fun _ => rfl) fun _ _ => rfl
    rw [if_neg hdots] at hloop
    cases hfind : vfsChildFind s.tree cur buf with
    | none =>
      rw [hfind] at hloop
      obtain ⟨h', hnew⟩ := hI.append_dir h hcur' hdir (hP s.tree cur buf hfind ⟨htok, hdot, hdots⟩)
      exact ih htoks h' hnew hloop
    | some c =>
      rw [hfind] at hloop
      exact henter c _ hloop (fun _ => rfl) fun _ _ => rfl

theorem Growing.mkdir_keeps (hI : Growing depth P I)
    (hP : ∀ t pd name, NewName t pd name → ValidName name → P t pd name) (h : I s)
    (hcall : vfsMkdir depth s name = some (s', res)) : I s' := by
  unfold vfsMkdir at hcall
  split_ifs at hcall
  · exact hI.mkdirLoop_keeps hP (fun tok htok => isToken_of_mem_pathTokens htok) h (hI.root_dir h) hcall
  · cases hcall
    exact h

theorem vfsMkfileDir_spec (h : vfsMkfileDir depth s name = some (s', r)) :
    Touched s s' ∧ ∀ p, r = some p → ∃ pd, s'.tree p = some pd ∧ pd.kind = .dir := by
  unfold vfsMkfileDir at h
  obtain ⟨⟨s1, parent⟩, hopen, hw⟩ := bind_eq_some_iff.mp h
  have ht : Touched s s1 := by
    split_ifs at hopen
    · cases hopen
      exact Touched.refl s
    · exact (vfsOpen_lookup hopen).1
  cases parent with
  | none =>
    cases hw
    exact ⟨ht, fun p hp => nomatch hp⟩
  | some parent =>
    obtain ⟨nd, hnd, hw⟩ := bind_eq_some_iff.mp hw
    cases hw
    refine ⟨ht, ?_⟩
    intro p hp
    split_ifs at hp with hdir
    cases hp
    exact ⟨nd.toTreeNode, Vfs.tree_eq_some.mpr ⟨nd, hnd, rfl⟩, hdir.1⟩

/-- `P` holds of the directory that a call has found, if any, and this name. -/
def FreshIn (P : Tree → TreeNode → List Char → Prop) (r : Option (Vfs × Option ℕ))
    (name : List Char) : Prop :=
  ∀ x ∈ r, ∀ p ∈ x.2, ∀ pd ∈ x.1.tree p, P x.1.tree pd name

instance [∀ t pd name, Decidable (P t pd name)] (r : Option (Vfs × Option ℕ)) (name : List Char) :
    Decidable (FreshIn P r name) :=
  inferInstanceAs (Decidable (∀ x ∈ r, ∀ p ∈ x.2, ∀ pd ∈ x.1.tree p, P x.1.tree pd name))

theorem Growing.mkfile_keeps (hI : Growing depth P I) (h : I s)
    (hfresh : name.head? = some '/' → FreshIn P (vfsMkfileDir depth s name) (fileName name))
    (hcall : vfsMkfile depth s name = some (s', res)) : I s' := by
  unfold vfsMkfile at hcall
  split_ifs at hcall with habs
  · obtain ⟨⟨s1, parent⟩, hdir, hw⟩ := bind_eq_some_iff.mp hcall
    obtain ⟨ht, hparent⟩ := vfsMkfileDir_spec hdir
    have h1 := hI.touched s s1 ht h
    cases parent with
    | none =>
      cases hw
      exact h1
    | some p =>
      cases hw
      obtain ⟨pd, hpd, hk⟩ := hparent p rfl
      exact hI.append s1 p pd _ .none h1 hpd hk (hfresh habs _ hdir p rfl pd hpd) (by decide)
  · cases hcall
    exact h

theorem Growing.symlinkLoop_keeps (hI : Growing depth P I)
    (hP : ∀ t pd name, NewName t pd name → ValidName name → P t pd name) {toks : List (List Char × Bool)}
    (htoks : ∀ tok ∈ toks, IsToken tok.1) {current : ℕ} (h : I s)
    (hcur : ∀ cur, s.tree current = some cur → cur.kind = .dir)
    (hloop : vfsSymlinkLoop toks s current = some (s', r)) :
    I s' ∧ ∀ m, r = some m → ∀ md, s'.tree m = some md → md.kind = .dir := by
  induction toks generalizing s current with
  | nil =>
    cases hloop
    refine ⟨h, ?_⟩
    rintro m ⟨⟩
    exact hcur
  | cons tok toks ih =>
    obtain ⟨buf, last⟩ := tok
    obtain ⟨htok, htoks⟩ := List.forall_mem_cons.mp htoks
    unfold vfsSymlinkLoop at hloop
    obtain ⟨cur, hcur', hloop⟩ := bind_eq_some_iff.mp hloop
    have hdir := hcur cur hcur'
    by_cases hdot : buf = ['.']
    · rw [if_pos hdot] at hloop
      exact ih htoks h hcur hloop
    rw [if_neg hdot] at hloop
    by_cases hdots : buf = ['.', '.']
    · rw [if_pos hdots] at hloop
      cases hp : cur.parent with
      | none =>
        rw [hp] at hloop
        cases hloop
        exact ⟨h, fun m hm => nomatch hm⟩
      | some p =>
        rw [hp] at hloop
        dsimp only at hloop
        rw [if_pos hdir] at hloop
        exact ih htoks h (fun pd hpd => hI.parent s current cur p pd h hcur' hp hpd) hloop
    rw [if_neg hdots] at hloop
    cases hfind : vfsChildFind s.tree cur buf with
    | none =>
      rw [hfind] at hloop
      obtain ⟨h', hnew⟩ := hI.append_dir h hcur' hdir (hP s.tree cur buf hfind ⟨htok, hdot, hdots⟩)
      exact ih htoks h' hnew hloop
    | some c =>
      rw [hfind] at hloop
      obtain ⟨nd, hnd, hw⟩ := bind_eq_some_iff.mp hloop
      have h' := hI.touched s _ (touched_doUpdate s c) h
      split_ifs at hw with hk
      · refine ih htoks h' ?_ hw
        intro cd hcd
        rw [tree_doUpdate, hnd] at hcd
        cases hcd
        exact hk
      · cases hw
        exact ⟨h', fun m hm => nomatch hm⟩

theorem Growing.symlinkDir_keeps (hI : Growing depth P I)
    (hP : ∀ t pd name, NewName t pd name → ValidName name → P t pd name) (h : I s)
    (hdir : vfsSymlinkDir s name = some (s', r)) :
    I s' ∧ ∀ m, r = some m → ∀ md, s'.tree m = some md → md.kind = .dir := by
  unfold vfsSymlinkDir at hdir
  split_ifs at hdir
  exact hI.symlinkLoop_keeps hP (fun tok htok => isToken_of_mem_pathTokens htok) h (hI.root_dir h) hdir

theorem Growing.symlink_keeps (hI : Growing depth P I)
    (hP : ∀ t pd name, NewName t pd name → ValidName name → P t pd name) {target : List Char} (h : I s)
    (hfresh : FreshIn P (vfsSymlinkDir s name) (symlinkName name.tail))
    (hcall : vfsSymlink depth s name target = some (s', res)) : I s' := by
  unfold vfsSymlink at hcall
  obtain ⟨⟨s1, current⟩, hdir, hw⟩ := bind_eq_some_iff.mp hcall
  obtain ⟨h1, hcur⟩ := hI.symlinkDir_keeps hP h hdir
  cases current with
  | none =>
    cases hw
    exact h1
  | some p =>
    obtain ⟨pd, hpd, hw⟩ := bind_eq_some_iff.mp hw
    obtain ⟨⟨s2, r⟩, hopen, hw⟩ := bind_eq_some_iff.mp hw
    cases hw
    exact hI.link s1 p pd _ target s2 r h1 hpd (hcur p rfl pd hpd) (hfresh _ hdir p rfl pd hpd) hopen

theorem vfsDelete_spec (h : vfsDelete s n = some (s', res)) :
    s' = s ∨ ∃ nd, s.tree n = some nd ∧ s'.next = s.next ∧ (s'.tree = s.tree ∨ ∃ p, nd.parent = some p ∧
        s'.tree = s.tree.modify p fun pd => { pd with child := pd.child.erase n }) := by
  unfold vfsDelete at h
  obtain ⟨nd, hnd, hw⟩ := bind_eq_some_iff.mp h
  have hnd' : s.tree n = some nd.toTreeNode := Vfs.tree_eq_some.mpr ⟨nd, hnd, rfl⟩
  split_ifs at hw
  · cases hw
    exact .inl rfl
  · cases hw
    exact .inl rfl
  · refine .inr ⟨nd.toTreeNode, hnd', ?_⟩
    have hmark := s.tree_modify_of_keeps n (fun nd => { nd with delete := true }) (fun _ => rfl)
    cases hp : nd.parent with
    | none =>
      rw [hp] at hw
      cases hw
      exact ⟨rfl, .inl hmark⟩
    | some p =>
      rw [hp] at hw
      obtain ⟨pd, -, hw⟩ := bind_eq_some_iff.mp hw
      cases hw
      refine ⟨rfl, .inr ⟨p, rfl, ?_⟩⟩
      rw [Vfs.tree_modify _ p _ (fun pd => { pd with child := pd.child.erase n }) (fun _ => rfl), hmark]

/-- `P` holds of the directory that a call puts a node in and the name of the node. -/
def VfsOp.Fresh (P : Tree → TreeNode → List Char → Prop) (depth : ℕ) (s : Vfs) : VfsOp → Prop
  | .mkdir _ => True
  | .mkfile name => name.head? = some '/' → FreshIn P (vfsMkfileDir depth s name) (fileName name)
  | .symlink name _ => FreshIn P (vfsSymlinkDir s name) (symlinkName name.tail)
  | .delete _ => True

instance [∀ t pd name, Decidable (P t pd name)] (depth : ℕ) (s : Vfs) :
    ∀ op : VfsOp, Decidable (op.Fresh P depth s)
  | .mkdir _ => .isTrue trivial
  | .mkfile name => inferInstanceAs (Decidable (name.head? = some '/' → FreshIn P _ _))
  | .symlink _ _ => inferInstanceAs (Decidable (FreshIn P _ _))
  | .delete _ => .isTrue trivial

theorem Growing.step_keeps (hI : Growing depth P I)
    (hP : ∀ t pd name, NewName t pd name → ValidName name → P t pd name) {op : VfsOp} (h : I s)
    (hfresh : op.Fresh P depth s) (hdelete : ∀ n res, op = .delete n → vfsDelete s n = some (s', res) → I s')
    (hstep : vfsStep depth s op = some s') : I s' := by
  cases op with
  | mkdir name =>
    obtain ⟨⟨_, res⟩, hcall, rfl⟩ := map_eq_some_iff.mp hstep
    exact hI.mkdir_keeps hP h hcall
  | mkfile name =>
    obtain ⟨⟨_, res⟩, hcall, rfl⟩ := map_eq_some_iff.mp hstep
    exact hI.mkfile_keeps h hfresh hcall
  | symlink name target =>
    obtain ⟨⟨_, res⟩, hcall, rfl⟩ := map_eq_some_iff.mp hstep
    exact hI.symlink_keeps hP h hfresh hcall
  | delete n =>
    obtain ⟨⟨_, res⟩, hcall, rfl⟩ := map_eq_some_iff.mp hstep
    exact hdelete n res rfl hcall

theorem Shape.delete (h : Shape s) (hdelete : vfsDelete s n = some (s', res)) : Shape s' := by
  obtain rfl | ⟨nd, hnd, hnext, htree | ⟨p, hp, htree⟩⟩ := vfsDelete_spec hdelete
  · exact h
  · exact h.of_tree_eq htree hnext
  · have hmod := h.modify p (fun pd => { pd with child := pd.child.erase n })
      (fun pd => { pd with child := pd.child.erase n }) (fun _ => rfl) (fun _ => rfl) (fun _ => rfl)
      (fun pd => List.erase_subset) (fun pd m hpd hm => h.linkto p pd m hpd hm)
    exact hmod.of_tree_eq (htree.trans (s.tree_modify p _ _ fun _ => rfl).symm) hnext

end CoolPotOS
