import CoolPotOS.Fs.Mount
import CoolPotOS.Lib.ParentTree

namespace CoolPotOS

open ParentTree Function List Option CoolPotOS.Tree

/-- The tree is whole: the root is in no list, every other node that has not been removed is in the
list of its parent, once, and in no other, what is in a list exists, and the parent pointers of every
node lead to the root. -/
structure Mounts.Whole (s : Mounts) : Prop where
  root : ∃ nd, s.vfs.node s.top = some nd ∧ nd.parent = none
  unlisted : ∀ p pd, s.vfs.node p = some pd → s.top ∉ pd.child
  listed : ∀ n nd, s.vfs.node n = some nd → n ≠ s.top → s.removed n = false →
    ∃ p pd, nd.parent = some p ∧ s.vfs.node p = some pd ∧
      ∀ q qd, s.vfs.node q = some qd → qd.child.count n = if q = p then 1 else 0
  exists_node : ∀ p pd, s.vfs.node p = some pd → ∀ c ∈ pd.child, (s.vfs.node c).isSome
  reaches : ∀ n nd, s.vfs.node n = some nd → Rooted s.vfs.tree.parentOf s.top n

def Tree.kindOf (t : Tree) (n : ℕ) : Option FileKind := (t n).map TreeNode.kind

/-- The invariant of the nodes, where `removed` are those that have been removed. -/
structure Intact (removed : ℕ → Bool) (s : Vfs) : Prop where
  root_kind : s.tree.kindOf rootdir = some .dir
  root_parent : s.tree.parentOf rootdir = none
  root_kept : removed rootdir = false
  bounded : ∀ n, s.next ≤ n → s.tree n = none ∧ removed n = false
  parent_dir : ∀ n p, s.tree.parentOf n = some p → s.tree.kindOf p = some .dir
  rooted : ∀ n, (s.tree n).isSome → Rooted s.tree.parentOf rootdir n
  lists : Lists s.tree.parentOf s.tree.childOf
    fun n => (s.tree n).isSome ∧ removed n = false
  unmarked : ∀ n nd, s.node n = some nd → removed n = false → nd.delete = false

variable {t : Tree} {n p depth c m : ℕ} {nd : VfsNode} {s s' : Mounts}

theorem Tree.isSome_of_kindOf {k : FileKind} (h : t.kindOf n = some k) : (t n).isSome := by
  unfold kindOf at h
  obtain ⟨nd, hnd, -⟩ := map_eq_some_iff.mp h
  exact isSome_of_eq_some hnd

theorem Tree.isSome_of_parentOf (h : t.parentOf n = some p) : (t n).isSome := by
  unfold parentOf at h
  obtain ⟨nd, hnd, -⟩ := bind_eq_some_iff.mp h
  exact isSome_of_eq_some hnd

theorem Tree.parentOf_of_some {nd : TreeNode} (h : t n = some nd) : t.parentOf n = nd.parent := by
  unfold parentOf
  rw [h, bind_some]

theorem Tree.childOf_of_some {nd : TreeNode} (h : t n = some nd) : t.childOf n = nd.child := by
  unfold childOf
  rw [h]
  rfl

theorem Vfs.tree_of_node {s : Vfs} (h : s.node n = some nd) : s.tree n = some nd.toTreeNode :=
  Vfs.tree_eq_some.mpr ⟨nd, h, rfl⟩

theorem Vfs.isSome_tree (s : Vfs) (n : ℕ) : (s.tree n).isSome = (s.node n).isSome := by
  unfold Vfs.tree
  exact isSome_map

section Modify

variable (t : Tree) (n : ℕ) (f : TreeNode → TreeNode)

theorem Tree.isSome_modify (m : ℕ) : (t.modify n f m).isSome = (t m).isSome := by
  unfold Tree.modify
  rw [update_apply]
  split_ifs with hm
  · rw [hm, isSome_map]
  · rfl

theorem Tree.kindOf_modify (hf : ∀ nd, (f nd).kind = nd.kind) : (t.modify n f).kindOf = t.kindOf := by
  funext m
  unfold kindOf Tree.modify
  rw [update_apply]
  split_ifs with hm
  · rw [hm, Option.map_map]
    congr 1
    funext nd
    exact hf nd
  · rfl

theorem Tree.parentOf_modify (hf : ∀ nd, (f nd).parent = nd.parent) :
    (t.modify n f).parentOf = t.parentOf := by
  funext m
  unfold parentOf Tree.modify
  rw [update_apply]
  split_ifs with hm
  · rw [hm]
    cases t n with
    | none => rfl
    | some nd => simp [hf]
  · rfl

theorem Tree.childOf_modify (hf : ∀ nd, (f nd).child = nd.child) : (t.modify n f).childOf = t.childOf := by
  funext m
  unfold childOf Tree.modify
  rw [update_apply]
  split_ifs with hm
  · rw [hm]
    cases t n with
    | none => rfl
    | some nd => simp [hf]
  · rfl

variable {t n}

theorem Tree.parentOf_modify_parent (h : (t n).isSome) (p : Option ℕ) :
    (t.modify n fun nd => { nd with parent := p }).parentOf = update t.parentOf n p := by
  funext m
  unfold parentOf Tree.modify
  rw [update_apply, update_apply]
  split_ifs with hm
  · obtain ⟨nd, hnd⟩ := isSome_iff_exists.mp h
    rw [hnd, map_some, bind_some]
  · rfl

theorem Tree.childOf_modify_child (h : (t n).isSome) (g : List ℕ → List ℕ) :
    (t.modify n fun nd => { nd with child := g nd.child }).childOf =
      update t.childOf n (g (t.childOf n)) := by
  funext m
  obtain ⟨nd, hnd⟩ := isSome_iff_exists.mp h
  rw [childOf_of_some hnd]
  unfold childOf Tree.modify
  rw [update_apply, update_apply]
  split_ifs with hm
  · rw [hnd]
    rfl
  · rfl

end Modify

section Append

variable (t : Tree) (p c : ℕ) (name : List Char) (kind : FileKind)

theorem Tree.kindOf_append : (t.append p c name kind).kindOf = update t.kindOf c (some kind) := by
  rw [← t.kindOf_modify p (fun pd => { pd with child := c :: pd.child }) fun _ => rfl]
  funext m
  unfold kindOf append
  rw [update_apply, update_apply]
  split_ifs <;> rfl

theorem Tree.parentOf_append : (t.append p c name kind).parentOf = update t.parentOf c (some p) := by
  rw [← t.parentOf_modify p (fun pd => { pd with child := c :: pd.child }) fun _ => rfl]
  funext m
  unfold parentOf append
  rw [update_apply, update_apply]
  split_ifs <;> rfl

theorem Tree.childOf_append (h : (t p).isSome) : (t.append p c name kind).childOf =
    update (update t.childOf p (c :: t.childOf p)) c [] := by
  rw [← childOf_modify_child h (cons c)]
  funext m
  unfold childOf append
  rw [update_apply, update_apply]
  split_ifs <;> rfl

theorem Tree.isSome_append (m : ℕ) : (t.append p c name kind m).isSome ↔ m = c ∨ (t m).isSome := by
  unfold append
  rw [update_apply]
  split_ifs with hm
  · simp [hm]
  · rw [Tree.isSome_modify]
    simp [hm]

end Append

section Intact

variable {removed : ℕ → Bool} {s s' : Vfs}

theorem intact_boot : Intact (fun _ => false) Vfs.boot := by
  have hnode : ∀ n, n ≠ rootdir → Vfs.boot.tree n = none := by
    intro n hn
    unfold Vfs.tree Vfs.boot
    dsimp only
    rw [update_of_ne hn]
    rfl
  have hroot : Vfs.boot.tree rootdir = some ⟨none, ['/'], .dir, [], none, none⟩ := rfl
  have hparent : ∀ n, Vfs.boot.tree.parentOf n = none := by
    intro n
    by_cases hn : n = rootdir
    · rw [hn, parentOf_of_some hroot]
    · unfold parentOf
      rw [hnode n hn]
      rfl
  have hchild : ∀ n, Vfs.boot.tree.childOf n = [] := by
    intro n
    by_cases hn : n = rootdir
    · rw [hn, childOf_of_some hroot]
    · unfold childOf
      rw [hnode n hn]
      rfl
  constructor
  · rfl
  · exact hparent rootdir
  · rfl
  · intro n hn
    exact ⟨hnode n (Nat.one_le_iff_ne_zero.mp hn), rfl⟩
  · intro n p hp
    rw [hparent] at hp
    cases hp
  · intro n hn
    by_cases hn' : n = rootdir
    · rw [hn']
      exact .root
    · rw [hnode n hn'] at hn
      cases hn
  · intro p c
    simp [hparent, hchild]
  · intro n nd hnd _
    unfold Vfs.boot at hnd
    simp only [update_apply] at hnd
    split_ifs at hnd
    cases hnd
    rfl

theorem Intact.of_marks (h : Intact removed s) (htree : s'.tree = s.tree) (hnext : s'.next = s.next)
    (hmarks : ∀ n nd', s'.node n = some nd' → nd'.delete →
      ∃ nd, s.node n = some nd ∧ nd.delete) : Intact removed s' := by
  constructor
  · rw [htree]
    exact h.root_kind
  · rw [htree]
    exact h.root_parent
  · exact h.root_kept
  · rw [htree, hnext]
    exact h.bounded
  · rw [htree]
    exact h.parent_dir
  · rw [htree]
    exact h.rooted
  · have hlists := h.lists
    simp only [← htree] at hlists
    exact hlists
  · intro n nd' hnd' hr
    by_contra hd
    obtain ⟨nd, hnd, hd'⟩ := hmarks n nd' hnd' (Bool.eq_true_of_not_eq_false hd)
    rw [h.unmarked n nd hnd hr] at hd'
    cases hd'

theorem Intact.touched (h : Intact removed s) (ht : Touched s s') : Intact removed s' :=
  h.of_marks ht.tree_eq ht.next_eq fun n nd' hnd' hd' =>
    let ⟨nd, hnd, hd, _⟩ := ht.removed n nd' hnd' hd'
    ⟨nd, hnd, hd⟩

theorem Intact.modify (h : Intact removed s) (n : ℕ) (f : VfsNode → VfsNode)
    (g : TreeNode → TreeNode) (hfg : ∀ nd, (f nd).toTreeNode = g nd.toTreeNode)
    (hparent : ∀ nd, (g nd).parent = nd.parent) (hchild : ∀ nd, (g nd).child = nd.child)
    (hkind : ∀ nd, (g nd).kind = nd.kind) (hd : ∀ nd, (f nd).delete = nd.delete) :
    Intact removed (s.modify n f) := by
  have htree := s.tree_modify n f g hfg
  have hp := s.tree.parentOf_modify n g hparent
  have hc := s.tree.childOf_modify n g hchild
  have hk := s.tree.kindOf_modify n g hkind
  constructor
  · rw [htree, hk]
    exact h.root_kind
  · rw [htree, hp]
    exact h.root_parent
  · exact h.root_kept
  · intro m hm
    obtain ⟨hfree, hkept⟩ := h.bounded m hm
    refine ⟨?_, hkept⟩
    rw [← not_isSome_iff_eq_none, htree, Tree.isSome_modify, hfree]
    exact Bool.false_ne_true
  · rw [htree, hp, hk]
    exact h.parent_dir
  · intro m hm
    rw [htree, Tree.isSome_modify] at hm
    rw [htree, hp]
    exact h.rooted m hm
  · intro p c
    rw [htree, hp, hc]
    simp only [Tree.isSome_modify]
    exact h.lists p c
  · intro m nd' hnd' hr
    rw [Vfs.modify_node] at hnd'
    split_ifs at hnd' with hm
    · obtain ⟨nd, hnd, rfl⟩ := map_eq_some_iff.mp hnd'
      rw [hd]
      exact h.unmarked n nd hnd (hm ▸ hr)
    · exact h.unmarked m nd' hnd' hr

theorem Intact.isSome_parent (h : Intact removed s) (hp : s.tree.parentOf n = some p) : (s.tree p).isSome :=
  isSome_of_kindOf (h.parent_dir n p hp)

theorem Intact.append (h : Intact removed s) (hp : s.tree.kindOf p = some .dir) (name : List Char)
    (kind : FileKind) : Intact removed (vfsNodeAlloc s p name kind) := by
  have htree := tree_vfsNodeAlloc s p name kind
  obtain ⟨hfree, hkept⟩ := h.bounded s.next le_rfl
  have hsome := isSome_of_kindOf hp
  have hne : ∀ m, (s.tree m).isSome → m ≠ s.next := by
    intro m hm heq
    rw [heq, hfree] at hm
    cases hm
  have hpar := s.tree.parentOf_append p s.next name kind
  have hrooted : ∀ m, (s.tree m).isSome → Rooted (vfsNodeAlloc s p name kind).tree.parentOf rootdir m := by
    intro m hm
    apply (h.rooted m hm).congr (S := fun m => (s.tree m).isSome) _ _ hm
    · exact fun _ _ _ hq => h.isSome_parent hq
    · intro q hq
      rw [htree, hpar, update_of_ne (hne q hq)]
  constructor
  · rw [htree, kindOf_append, update_of_ne (hne rootdir (isSome_of_kindOf h.root_kind))]
    exact h.root_kind
  · rw [htree, hpar, update_of_ne (hne rootdir (isSome_of_kindOf h.root_kind))]
    exact h.root_parent
  · exact h.root_kept
  · intro n hn
    have hn' : s.next + 1 ≤ n := hn
    obtain ⟨hnone, hr⟩ := h.bounded n (by omega)
    refine ⟨?_, hr⟩
    rw [← not_isSome_iff_eq_none, htree, isSome_append, hnone]
    simp only [isSome_none, Bool.false_eq_true, or_false]
    omega
  · intro n q hq
    rw [htree, hpar, update_apply] at hq
    have hq' : s.tree.kindOf q = some .dir := by
      split_ifs at hq
      · cases hq
        exact hp
      · exact h.parent_dir n q hq
    rw [htree, kindOf_append, update_of_ne (hne q (isSome_of_kindOf hq'))]
    exact hq'
  · intro n hn
    rw [htree, isSome_append] at hn
    obtain rfl | hn := hn
    · apply Rooted.up (p := p) _ (hrooted p hsome)
      rw [htree, hpar, update_self]
    · exact hrooted n hn
  · apply h.lists.cons (p := p) (c := s.next)
    · simp [hfree]
    · rw [htree, hpar]
    · unfold childOf
      rw [hfree]
      rfl
    · rw [htree, childOf_append _ _ _ _ _ hsome]
    · exact hne p hsome
    · intro m
      rw [htree, isSome_append]
      constructor
      · rintro ⟨rfl | hm, hr⟩
        · exact .inl rfl
        · exact .inr ⟨hm, hr⟩
      · rintro (rfl | ⟨hm, hr⟩)
        · exact ⟨.inl rfl, hkept⟩
        · exact ⟨.inr hm, hr⟩
  · intro n nd hnd hr
    unfold vfsNodeAlloc at hnd
    simp only [update_apply] at hnd
    split_ifs at hnd with hn
    · cases hnd
      rfl
    · rw [Vfs.modify_node] at hnd
      split_ifs at hnd with hnp
      · obtain ⟨pd, hpd, rfl⟩ := map_eq_some_iff.mp hnd
        exact h.unmarked p pd hpd (hnp ▸ hr)
      · exact h.unmarked n nd hnd hr

theorem intact_growing (removed : ℕ → Bool) (depth : ℕ) :
    Growing depth (fun _ _ _ => True) (Intact removed) := by
  have hdir : ∀ (s : Vfs) n nd, s.tree n = some nd → nd.kind = .dir →
      s.tree.kindOf n = some .dir := by
    intro s n nd hnd hk
    unfold kindOf
    rw [hnd, map_some, hk]
  constructor
  · intro s h
    obtain ⟨nd, hnd, hk⟩ := map_eq_some_iff.mp h.root_kind
    exact ⟨nd, hnd, hk⟩
  · intro s n nd p pd h hnd hp hpd
    have hk := h.parent_dir n p ((parentOf_of_some hnd).trans hp)
    unfold kindOf at hk
    rw [hpd] at hk
    exact Option.some.inj hk
  · exact fun s s' ht h => h.touched ht
  · intro s p pd name kind h hpd hk _ _
    exact h.append (hdir s p pd hpd hk) name kind
  · intro s p pd name target s' r h hpd hk _ hopen
    have h' := (h.append (hdir s p pd hpd hk) name .symlink).touched (vfsOpen_lookup hopen).1
    exact h'.modify s.next _ (fun nd => { nd with linkto := r, linktoPath := some target })
      (fun _ => rfl) (fun _ => rfl) (fun _ => rfl) (fun _ => rfl) (fun _ => rfl)

end Intact

section Removal

variable {removed : ℕ → Bool} {s s' : Vfs}

theorem Intact.isSome_root (h : Intact removed s) : (s.tree rootdir).isSome :=
  isSome_of_kindOf h.root_kind

theorem Intact.exists_parent (h : Intact removed s) (hn : (s.tree n).isSome) (hroot : n ≠ rootdir) :
    ∃ p, s.tree.parentOf n = some p ∧ (s.tree p).isSome := by
  obtain ⟨p, hp, -⟩ := (h.rooted n hn).exists_parent hroot
  exact ⟨p, hp, h.isSome_parent hp⟩

theorem vfsDelete_cases {res : Except VfsError Unit} (h : vfsDelete s n = some (s', res)) :
    (res ≠ .ok () ∧ s' = s) ∨ (res = .ok () ∧ n ≠ rootdir ∧ ∃ nd, s.node n = some nd ∧
        ∀ p, nd.parent = some p → s' = (s.modify n fun nd => { nd with delete := true }).modify p
            fun pd => { pd with child := pd.child.erase n }) := by
  unfold vfsDelete at h
  obtain ⟨nd, hnd, hw⟩ := bind_eq_some_iff.mp h
  split_ifs at hw with hroot
  · cases hw
    exact .inl ⟨by simp, rfl⟩
  · cases hw
    exact .inl ⟨by simp, rfl⟩
  · dsimp only at hw
    cases hp : nd.parent with
    | none =>
      rw [hp] at hw
      cases hw
      refine .inr ⟨rfl, hroot, nd, hnd, fun p hp' => ?_⟩
      rw [hp] at hp'
      cases hp'
    | some p =>
      rw [hp] at hw
      obtain ⟨pd, -, hw⟩ := bind_eq_some_iff.mp hw
      cases hw
      refine .inr ⟨rfl, hroot, nd, hnd, fun q hq => ?_⟩
      rw [hp] at hq
      cases hq
      rfl

theorem Intact.delete (h : Intact removed s) (hn : (s.tree n).isSome) (hroot : n ≠ rootdir)
    (hp : s.tree.parentOf n = some p)
    (hs' : s' = (s.modify n fun nd => { nd with delete := true }).modify p fun pd => { pd with child := pd.child.erase n }) :
    Intact (update removed n true) s' := by
  have htree : s'.tree = s.tree.modify p fun pd => { pd with child := pd.child.erase n } := by
    rw [hs', Vfs.tree_modify _ p _ (fun pd => { pd with child := pd.child.erase n }) fun _ => rfl]
    congr 1
    exact s.tree_modify_of_keeps n _ fun _ => rfl
  have hpar : s'.tree.parentOf = s.tree.parentOf := by
    rw [htree]
    exact s.tree.parentOf_modify p _ fun _ => rfl
  have hkind : s'.tree.kindOf = s.tree.kindOf := by
    rw [htree]
    exact s.tree.kindOf_modify p _ fun _ => rfl
  have hsome : ∀ m, (s'.tree m).isSome = (s.tree m).isSome := by
    intro m
    rw [htree]
    exact s.tree.isSome_modify p _ m
  have hnext : s'.next = s.next := by rw [hs']; rfl
  constructor
  · rw [hkind]
    exact h.root_kind
  · rw [hpar]
    exact h.root_parent
  · rw [update_of_ne hroot.symm]
    exact h.root_kept
  · intro m hm
    rw [hnext] at hm
    obtain ⟨hfree, hkept⟩ := h.bounded m hm
    have hmn : m ≠ n := by
      rintro rfl
      rw [hfree] at hn
      cases hn
    refine ⟨?_, by rw [update_of_ne hmn, hkept]⟩
    rw [← not_isSome_iff_eq_none, hsome, hfree]
    exact Bool.false_ne_true
  · rw [hpar, hkind]
    exact h.parent_dir
  · intro m hm
    rw [hsome] at hm
    rw [hpar]
    exact h.rooted m hm
  · rw [hpar]
    apply h.lists.erase hp
    · rw [htree]
      exact childOf_modify_child (h.isSome_parent hp) fun l => l.erase n
    · intro m
      rw [hsome, update_apply]
      split_ifs with hm
      · simp [hm]
      · simp [hm]
  · intro m md hmd hr
    rw [update_apply] at hr
    split_ifs at hr with hm
    rw [hs', Vfs.modify_node] at hmd
    by_cases hmp : m = p
    · rw [if_pos hmp, Vfs.modify_node, if_neg (hmp ▸ hm)] at hmd
      obtain ⟨pd, hpd, rfl⟩ := map_eq_some_iff.mp hmd
      exact h.unmarked p pd hpd (hmp ▸ hr)
    · rw [if_neg hmp, Vfs.modify_node, if_neg hm] at hmd
      exact h.unmarked m md hmd hr

end Removal

theorem callStep_keeps {op : VfsOp} (h : Intact s.removed s.vfs) (hstep : callStep depth s op = some s') :
    Intact s'.removed s'.vfs ∧ s'.top = s.top := by
  have hmake : ∀ op : VfsOp, (∀ n, op ≠ .delete n) → (vfsStep depth s.vfs op).map s.grow = some s' →
      Intact s'.removed s'.vfs ∧ s'.top = s.top := by
    intro op hop hstep
    obtain ⟨v, hv, rfl⟩ := map_eq_some_iff.mp hstep
    refine ⟨?_, rfl⟩
    apply (intact_growing s.removed depth).step_keeps (fun _ _ _ _ _ => trivial) h _
      (fun n _ hdel _ => absurd hdel (hop n)) hv
    cases op with
    | mkdir _ => trivial
    | mkfile _ => exact fun _ _ _ _ _ _ _ => trivial
    | symlink _ _ => exact fun _ _ _ _ _ _ => trivial
    | delete _ => trivial
  cases op with
  | mkdir name => exact hmake (.mkdir name) (fun _ h => nomatch h) hstep
  | mkfile name => exact hmake (.mkfile name) (fun _ h => nomatch h) hstep
  | symlink name target => exact hmake (.symlink name target) (fun _ h => nomatch h) hstep
  | delete n =>
    obtain ⟨⟨v, res⟩, hdel, rfl⟩ := map_eq_some_iff.mp hstep
    refine ⟨?_, rfl⟩
    dsimp only
    obtain ⟨hres, rfl⟩ | ⟨rfl, hroot, nd, hnd, hv⟩ := vfsDelete_cases hdel
    · rw [if_neg hres]
      exact h
    · rw [if_pos rfl]
      have htree := Vfs.tree_of_node hnd
      have hsome := isSome_of_eq_some htree
      obtain ⟨p, hp, -⟩ := h.exists_parent hsome hroot
      exact h.delete hsome hroot hp (hv p ((parentOf_of_some htree).symm.trans hp))

theorem mountFill_keeps {first : ℕ} {made : List MadeNode} (h : Intact s.removed s.vfs)
    (hfill : mountFill n first made s = some s') : Intact s'.removed s'.vfs ∧ s'.top = s.top := by
  induction made generalizing s with
  | nil =>
    cases hfill
    exact ⟨h, rfl⟩
  | cons m made ih =>
    unfold mountFill at hfill
    obtain ⟨pd, hpd, hw⟩ := bind_eq_some_iff.mp hfill
    split_ifs at hw with hdir
    apply ih _ hw
    apply Intact.modify (g := fun nd => { nd with linktoPath := m.linktoPath }) _
    · exact fun _ => rfl
    · exact fun _ => rfl
    · exact fun _ => rfl
    · exact fun _ => rfl
    · exact fun _ => rfl
    · apply h.append
      unfold kindOf
      rw [Vfs.tree_of_node hpd, map_some, hdir]

theorem fsMount_keeps {fs : FsType} {made : List MadeNode} {res : Except MountError Unit}
    (h : Intact s.removed s.vfs) (hmount : fsMount s n fs made = some (s', res)) :
    Intact s'.removed s'.vfs ∧ s'.top = s.top := by
  unfold fsMount at hmount
  by_cases hbusy : fs = .pipefs ∧ s.pipefsRoot
  · rw [if_pos hbusy] at hmount
    cases hmount
    exact ⟨h, rfl⟩
  · rw [if_neg hbusy] at hmount
    obtain ⟨s1, hfill, heq⟩ := map_eq_some_iff.mp hmount
    have hkeep := fun h => mountFill_keeps h hfill
    cases heq
    exact hkeep h

theorem vfsMount_keeps {fs : Option FsType} {src : List Char} {made : List MadeNode}
    {res : Except MountError Unit} (h : Intact s.removed s.vfs) (hfs : fs ≠ some .overlayfs)
    (hmount : vfsMount depth s n fs src made = some (s', res)) :
    Intact s'.removed s'.vfs ∧ s'.top = s.top := by
  unfold vfsMount at hmount
  obtain ⟨nd, -, hw⟩ := bind_eq_some_iff.mp hmount
  split_ifs at hw
  · cases hw
    exact ⟨h, rfl⟩
  · cases hw
    exact ⟨h, rfl⟩
  · cases fs with
    | none =>
      cases hw
      exact ⟨h, rfl⟩
    | some fs =>
      obtain ⟨⟨s1, res1⟩, hcall, heq⟩ := map_eq_some_iff.mp hw
      rw [if_neg fun hover => hfs (congrArg some hover)] at hcall
      have hkeep := fsMount_keeps h hcall
      cases res1 with
      | error e =>
        cases heq
        exact hkeep
      | ok _ =>
        cases heq
        exact hkeep

theorem close_eq (hnd : s.vfs.node n = some nd) (hd : nd.delete = false) (hclose : s.close n = some s') :
    s' = s ∨ s' = { s with
      vfs := s.vfs.modify n fun nd => { nd with refcount := decRef nd.refcount } } := by
  unfold Mounts.close at hclose
  split_ifs at hclose with htop hhandle
  · cases hclose
    exact .inl rfl
  · obtain ⟨v, hv, rfl⟩ := map_eq_some_iff.mp hclose
    unfold vfsClose at hv
    rw [if_neg hhandle.2, hnd, bind_some] at hv
    simp only [hd, Bool.false_eq_true, not_false_eq_true, true_or, or_true, if_true] at hv
    split_ifs at hv
    · cases hv
      exact .inr rfl
    · cases hv
      exact .inr rfl
    · cases hv
      exact .inr rfl
  · rw [hnd] at hclose
    cases hclose
    exact .inr rfl

theorem Intact.close (h : Intact s.removed s.vfs) (hnd : s.vfs.node n = some nd) (hr : s.removed n = false)
    (hclose : s.close n = some s') : Intact s'.removed s'.vfs ∧ s'.top = s.top ∧ s'.removed = s.removed ∧
      ∀ m, (s'.vfs.node m).isSome = (s.vfs.node m).isSome := by
  obtain rfl | rfl := close_eq hnd (h.unmarked n nd hnd hr) hclose
  · exact ⟨h, rfl, rfl, fun _ => rfl⟩
  · refine ⟨?_, rfl, rfl, fun m => ?_⟩
    · apply h.modify n _ id <;> exact fun _ => rfl
    · dsimp only
      rw [Vfs.modify_node]
      split_ifs with hm
      · rw [hm, isSome_map]
      · rfl

section Subtree

variable (t : Tree)

/-- The node and what the lists of children lead to from it, `depth` levels in all. -/
def Tree.subtree : ℕ → ℕ → List ℕ
  | 0, _ => []
  | depth + 1, n => n :: (t.childOf n).flatMap (Tree.subtree depth)

variable {t} {removed : ℕ → Bool} {s₀ : Vfs}

theorem Intact.mem_child (h : Intact removed s₀) : c ∈ s₀.tree.childOf p ↔
      ((s₀.tree c).isSome ∧ removed c = false) ∧ s₀.tree.parentOf c = some p :=
  h.lists.mem_iff

theorem Intact.mem_subtree (h : Intact removed s₀) (hm : m ∈ s₀.tree.subtree depth n) :
    m = n ∨ Above s₀.tree.parentOf n m := by
  induction depth generalizing n with
  | zero => cases hm
  | succ depth ih =>
    unfold subtree at hm
    obtain rfl | hm := mem_cons.mp hm
    · exact .inl rfl
    · obtain ⟨c, hc, hm⟩ := mem_flatMap.mp hm
      have hp := (h.mem_child.mp hc).2
      obtain rfl | habove := ih hm
      · exact .inr (.parent hp)
      · exact .inr (habove.up_left hp)

theorem Tree.parent_mem_subtree (hm : m ∈ t.subtree depth n) (hmn : m ≠ n) :
    ∃ q ∈ t.subtree depth n, m ∈ t.childOf q := by
  induction depth generalizing n with
  | zero => cases hm
  | succ depth ih =>
    unfold Tree.subtree at hm ⊢
    obtain rfl | hm := mem_cons.mp hm
    · contradiction
    · obtain ⟨c, hc, hm⟩ := mem_flatMap.mp hm
      by_cases hmc : m = c
      · subst hmc
        exact ⟨n, mem_cons_self, hc⟩
      · obtain ⟨q, hq, hmq⟩ := ih hm hmc
        exact ⟨q, mem_cons_of_mem _ (mem_flatMap.mpr ⟨c, hc, hq⟩), hmq⟩

theorem above_total {parent : ℕ → Option ℕ} {a b : ℕ} (ha : Above parent a n) (hb : Above parent b n) :
    a = b ∨ Above parent a b ∨ Above parent b a := by
  induction ha with
  | @parent n h =>
    obtain rfl | hb := (above_iff h).mp hb
    · exact .inl rfl
    · exact .inr (.inr hb)
  | @up n p h hp ih =>
    obtain rfl | hb := (above_iff h).mp hb
    · exact .inr (.inl hp)
    · exact ih hb

theorem Intact.subtree_disjoint (h : Intact removed s₀) {d : ℕ} (hc : c ∈ s₀.tree.childOf n)
    (hd : d ∈ s₀.tree.childOf n) (hcd : c ≠ d) (hmc : m ∈ s₀.tree.subtree depth c)
    (hmd : m ∈ s₀.tree.subtree depth d) : False := by
  have hpc := (h.mem_child.mp hc).2
  have hpd := (h.mem_child.mp hd).2
  have hself := (h.rooted n (h.isSome_parent hpc)).not_above_self h.root_parent
  -- one of the two children is above the other, and so above their parent
  have habove : Above s₀.tree.parentOf c d ∨ Above s₀.tree.parentOf d c := by
    obtain rfl | hmc := h.mem_subtree hmc
    · obtain rfl | hmd := h.mem_subtree hmd
      · contradiction
      · exact .inr hmd
    · obtain rfl | hmd := h.mem_subtree hmd
      · exact .inl hmc
      · exact (above_total hmc hmd).resolve_left hcd
  obtain habove | habove := habove
  · obtain rfl | hn := (above_iff hpd).mp habove
    · exact hself (.parent hpc)
    · exact hself (hn.up_left hpc)
  · obtain rfl | hn := (above_iff hpc).mp habove
    · exact hself (.parent hpd)
    · exact hself (hn.up_left hpd)

def Tree.Closed (t : Tree) (l : List ℕ) : Prop := ∀ m ∈ l, ∀ c ∈ t.childOf m, c ∈ l

/-- What `vfs_free` has freed is a subtree with everything below it. -/
structure Freed (s₀ : Vfs) (l : List ℕ) (s s' : Mounts) : Prop where
  node : ∀ m, s'.vfs.node m = if m ∈ l then none else s.vfs.node m
  next_eq : s'.vfs.next = s.vfs.next
  others : s' = { s with vfs := s'.vfs }
  closed : s₀.tree.Closed l

theorem mem_flatMap_of_foldlM {l : List ℕ} (hfree : l.foldlM (vfsFree depth) s = some s') (hc : c ∈ l) :
    c ∈ l.flatMap (t.subtree depth) := by
  cases depth with
  | zero =>
    cases l with
    | nil => cases hc
    | cons d l =>
      rw [foldlM_cons] at hfree
      cases hfree
  | succ depth =>
    apply mem_flatMap.mpr
    exact ⟨c, hc, mem_cons_self⟩

theorem Intact.freed_children (h : Intact removed s₀)
    (ih : ∀ {s s' : Mounts} {c}, c ∈ s₀.tree.childOf n → (∀ m ∈ s₀.tree.subtree depth c, s.vfs.node m = s₀.node m) → vfsFree depth s c = some s' → Freed s₀ (s₀.tree.subtree depth c) s s')
    {l : List ℕ} (hl : ∀ c ∈ l, c ∈ s₀.tree.childOf n) (hnodup : l.Nodup)
    (hsame : ∀ m ∈ l.flatMap (s₀.tree.subtree depth), s.vfs.node m = s₀.node m)
    (hfree : l.foldlM (vfsFree depth) s = some s') : Freed s₀ (l.flatMap (s₀.tree.subtree depth)) s s' := by
  induction l generalizing s with
  | nil =>
    cases hfree
    exact ⟨fun _ => rfl, rfl, rfl, fun m hm => by cases hm⟩
  | cons c l ihl =>
    obtain ⟨hcl, hnodup⟩ := nodup_cons.mp hnodup
    obtain ⟨hc, hl⟩ := forall_mem_cons.mp hl
    rw [foldlM_cons] at hfree
    obtain ⟨s1, hs1, hfree⟩ := bind_eq_some_iff.mp hfree
    simp only [flatMap_cons, mem_append] at hsame ⊢
    have h1 := ih hc (fun m hm => hsame m (.inl hm)) hs1
    have hrest : ∀ m ∈ l.flatMap (s₀.tree.subtree depth), m ∉ s₀.tree.subtree depth c := by
      intro m hm hmc
      obtain ⟨d, hd, hmd⟩ := mem_flatMap.mp hm
      refine h.subtree_disjoint hc (hl d hd) ?_ hmc hmd
      rintro rfl
      exact hcl hd
    have h2 := ihl hl hnodup (fun m hm => by
      rw [h1.node, if_neg (hrest m hm)]
      exact hsame m (.inr hm)) hfree
    constructor
    · intro m
      rw [h2.node, h1.node]
      by_cases hm : m ∈ l.flatMap (s₀.tree.subtree depth)
      · rw [if_pos hm, if_pos (mem_append_right _ hm)]
      · rw [if_neg hm]
        by_cases hmc : m ∈ s₀.tree.subtree depth c
        · rw [if_pos hmc, if_pos (mem_append_left _ hmc)]
        · rw [if_neg hmc, if_neg fun hmem => (mem_append.mp hmem).elim hmc hm]
    · rw [h2.next_eq, h1.next_eq]
    · rw [h2.others, h1.others]
    · intro m hm c' hc'
      rw [mem_append] at hm ⊢
      obtain hm | hm := hm
      · exact .inl (h1.closed m hm c' hc')
      · exact .inr (h2.closed m hm c' hc')

theorem Intact.vfsFree_freed (h : Intact removed s₀) (hn : removed n = false) (hsome : (s₀.tree n).isSome)
    (hsame : ∀ m ∈ s₀.tree.subtree depth n, s.vfs.node m = s₀.node m) (hfree : vfsFree depth s n = some s') :
    Freed s₀ (s₀.tree.subtree depth n) s s' := by
  induction depth generalizing n s s' with
  | zero => cases hfree
  | succ depth ih =>
    unfold vfsFree at hfree
    unfold Tree.subtree at hsame ⊢
    obtain ⟨nd, hnd, hw⟩ := bind_eq_some_iff.mp hfree
    obtain ⟨s1, hs1, hw⟩ := bind_eq_some_iff.mp hw
    obtain ⟨s2, hs2, hw⟩ := bind_eq_some_iff.mp hw
    obtain ⟨nd2, -, rfl⟩ := map_eq_some_iff.mp hw
    have hnd0 : s₀.node n = some nd := (hsame n mem_cons_self).symm.trans hnd
    have hchild : s₀.tree.childOf n = nd.child := childOf_of_some (Vfs.tree_of_node hnd0)
    have hkids : Freed s₀ ((s₀.tree.childOf n).flatMap (s₀.tree.subtree depth)) s s1 := by
      apply h.freed_children (n := n) _ (fun _ hc => hc) (h.lists.nodup n)
        (fun m hm => hsame m (mem_cons_of_mem _ hm)) (hchild ▸ hs1)
      intro s s' c hc hsame hfree
      obtain ⟨⟨hsome, hr⟩, -⟩ := h.mem_child.mp hc
      exact ih hr hsome hsame hfree
    -- a node is not in the subtree of one of its children
    have hself : n ∉ (s₀.tree.childOf n).flatMap (s₀.tree.subtree depth) := by
      intro hmem
      obtain ⟨c, hc, hmem⟩ := mem_flatMap.mp hmem
      have hpc := (h.mem_child.mp hc).2
      have hnot := (h.rooted n hsome).not_above_self h.root_parent
      obtain rfl | habove := h.mem_subtree hmem
      · exact hnot (.parent hpc)
      · exact hnot (habove.up_left hpc)
    have hnd1 : s1.vfs.node n = some nd := by
      rw [hkids.node, if_neg hself, hnd]
    have hclose := close_eq hnd1 (h.unmarked n nd hnd0 hn) hs2
    have hnode : ∀ m, m ≠ n → s2.vfs.node m = s1.vfs.node m := by
      intro m hm
      obtain rfl | rfl := hclose
      · rfl
      · dsimp only
        rw [Vfs.modify_node, if_neg hm]
    have hothers : s2 = { s1 with vfs := s2.vfs } ∧ s2.vfs.next = s1.vfs.next := by
      obtain rfl | rfl := hclose
      · exact ⟨rfl, rfl⟩
      · exact ⟨rfl, rfl⟩
    constructor
    · intro m
      unfold Mounts.release
      dsimp only
      rw [update_apply]
      by_cases hm : m = n
      · rw [if_pos hm, if_pos (hm ▸ mem_cons_self)]
      · rw [if_neg hm, hnode m hm, hkids.node]
        by_cases hmem : m ∈ (s₀.tree.childOf n).flatMap (s₀.tree.subtree depth)
        · rw [if_pos hmem, if_pos (mem_cons_of_mem _ hmem)]
        · rw [if_neg hmem, if_neg fun h' => (mem_cons.mp h').elim hm hmem]
    · exact hothers.2.trans hkids.next_eq
    · unfold Mounts.release
      rw [hothers.1, hkids.others]
    · intro m hm c hc
      rw [mem_cons] at hm ⊢
      obtain rfl | hm := hm
      · rw [hchild] at hc
        exact .inr (hchild ▸ mem_flatMap_of_foldlM hs1 hc)
      · exact .inr (hkids.closed m hm c hc)

end Subtree

end CoolPotOS
