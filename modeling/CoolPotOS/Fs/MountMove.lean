import CoolPotOS.Fs.MountTree

namespace CoolPotOS

open ParentTree Option
open Function hiding swap

/-- The nodes that `vfs_unmount` frees. -/
def Tree.below (t : Tree) (depth n : ℕ) : List ℕ := (t.childOf n).flatMap (t.subtree depth)

section Unmount

variable {s0 : Vfs} {depth n : ℕ} {s s' : Mounts}

/-- No node that has been removed is left below a node that is freed. -/
def LeavesNone (removed : ℕ → Bool) (v : Vfs) (l : List ℕ) : Prop :=
  ∀ x < v.next, removed x → ∀ p ∈ v.tree.parentOf x, p ∉ l

instance (removed : ℕ → Bool) (v : Vfs) (l : List ℕ) : Decidable (LeavesNone removed v l) :=
  inferInstanceAs (Decidable (∀ x < v.next, removed x → ∀ p ∈ v.tree.parentOf x, p ∉ l))

theorem Tree.parentOf_freed {t t' : Tree} {l : List ℕ} {f : TreeNode → TreeNode}
    (htree : ∀ m, t' m = if m ∈ l then none else t.modify n f m)
    (hf : ∀ nd, (f nd).parent = nd.parent) (m : ℕ) :
    t'.parentOf m = if m ∈ l then none else t.parentOf m := by
  rw [← t.parentOf_modify n f hf]
  unfold Tree.parentOf
  rw [htree]
  split_ifs <;> rfl

theorem Intact.freed {removed : ℕ → Bool} (h : Intact removed s0) {v : Vfs}
    (hn : (s0.tree n).isSome) {l : List ℕ}
    (htree : ∀ m, v.tree m =
      if m ∈ l then none else s0.tree.modify n (fun nd => { nd with child := [] }) m)
    (hnext : v.next = s0.next) (hkids : ∀ c ∈ s0.tree.childOf n, c ∈ l)
    (hclosed : s0.tree.Closed l) (hleft : LeavesNone removed s0 l)
    (hup : ∀ m ∈ l, ∃ q, s0.tree.parentOf m = some q ∧ (q = n ∨ q ∈ l))
    (hmarks : ∀ m nd', v.node m = some nd' → nd'.delete →
      ∃ nd, s0.node m = some nd ∧ nd.delete) : Intact removed v := by
  have hpar := Tree.parentOf_freed htree fun _ => rfl
  have hsome : ∀ m, (v.tree m).isSome ↔ m ∉ l ∧ (s0.tree m).isSome := by
    intro m
    rw [htree]
    split_ifs with hm
    · simp [hm]
    · rw [Tree.isSome_modify]
      simp [hm]
  have hroot : rootdir ∉ l := by
    intro hm
    obtain ⟨q, hq, -⟩ := hup rootdir hm
    rw [h.root_parent] at hq
    cases hq
  -- a node that stays has a parent that stays
  have hstay : ∀ m p, m ∉ l → s0.tree.parentOf m = some p → p ∉ l := by
    intro m p hm hp hpl
    have hm' := Tree.isSome_of_parentOf hp
    cases hr : removed m with
    | false => exact hm (hclosed p hpl m (h.mem_child.mpr ⟨⟨hm', hr⟩, hp⟩))
    | true =>
      apply hleft m _ hr p hp hpl
      by_contra hge
      rw [(h.bounded m (not_lt.mp hge)).1] at hm'
      cases hm'
  have hkind : ∀ m, m ∉ l → v.tree.kindOf m = s0.tree.kindOf m := by
    intro m hm
    rw [← s0.tree.kindOf_modify n (fun nd => { nd with child := [] }) fun _ => rfl]
    unfold Tree.kindOf
    rw [htree, if_neg hm]
  constructor
  · rw [hkind rootdir hroot]
    exact h.root_kind
  · rw [hpar, if_neg hroot]
    exact h.root_parent
  · exact h.root_kept
  · intro m hm
    rw [hnext] at hm
    obtain ⟨hfree, hr⟩ := h.bounded m hm
    refine ⟨?_, hr⟩
    rw [← not_isSome_iff_eq_none, hsome, hfree]
    simp
  · intro m p hp
    rw [hpar] at hp
    split_ifs at hp with hm
    rw [hkind p (hstay m p hm hp)]
    exact h.parent_dir m p hp
  · intro m hm
    rw [hsome] at hm
    apply (h.rooted m hm.2).congr (S := fun m => m ∉ l) hstay _ hm.1
    intro q hq
    rw [hpar, if_neg hq]
  · intro p c
    have hcount := h.lists p c
    simp only [hsome, hpar]
    by_cases hp : p ∈ l
    · have hnil : v.tree.childOf p = [] := by
        unfold Tree.childOf
        rw [htree, if_pos hp]
        rfl
      rw [hnil, List.count_nil, if_neg]
      rintro ⟨⟨⟨hc, hc'⟩, hr⟩, hpc⟩
      rw [if_neg hc] at hpc
      exact hc (hclosed p hp c (h.mem_child.mpr ⟨⟨hc', hr⟩, hpc⟩))
    · have hchild : v.tree.childOf p = update s0.tree.childOf n [] p := by
        rw [← Tree.childOf_modify_child hn fun _ => []]
        unfold Tree.childOf
        rw [htree, if_neg hp]
      rw [hchild, update_apply]
      by_cases hpn : p = n
      · subst hpn
        rw [if_pos rfl, List.count_nil, if_neg]
        rintro ⟨⟨⟨hc, hc'⟩, hr⟩, hpc⟩
        rw [if_neg hc] at hpc
        exact hc (hkids c (h.mem_child.mpr ⟨⟨hc', hr⟩, hpc⟩))
      · rw [if_neg hpn, hcount]
        by_cases hc : c ∈ l
        · -- the parent of a freed node is freed, or is the mount point
          have hne : s0.tree.parentOf c ≠ some p := by
            obtain ⟨q, hq, hqn⟩ := hup c hc
            rw [hq]
            rintro ⟨⟩
            exact hqn.elim hpn hp
          rw [if_neg fun hcp => hne hcp.2, if_neg fun hcp => hcp.1.1.1 hc]
        · simp [hc]
  · intro m nd' hnd' hr
    by_contra hd
    obtain ⟨nd, hnd, hd'⟩ := hmarks m nd' hnd' (Bool.eq_true_of_not_eq_false hd)
    rw [h.unmarked m nd hnd hr] at hd'
    cases hd'

theorem Intact.unmount (h : Intact s.removed s.vfs) {nd : VfsNode} (hnd : s.vfs.node n = some nd)
    (hleft : LeavesNone s.removed s.vfs (s.vfs.tree.below depth n))
    (hfree : nd.child.foldlM (vfsFree depth) s = some s') :
    s'.removed = s.removed ∧ s'.top = s.top ∧ s'.fsid = s.fsid ∧
      Intact s.removed (s'.vfs.modify n fun nd => { nd with child := [] }) := by
  have hchild : s.vfs.tree.childOf n = nd.child := Tree.childOf_of_some (Vfs.tree_of_node hnd)
  have hsome := isSome_of_eq_some (Vfs.tree_of_node hnd)
  have hfreed : Freed s.vfs (s.vfs.tree.below depth n) s s' := by
    apply h.freed_children (n := n) _ (fun _ hc => hc) (h.lists.nodup n) (fun _ _ => rfl) (hchild ▸ hfree)
    intro s1 s2 c hc hsame hfree
    obtain ⟨⟨hsome, hr⟩, -⟩ := h.mem_child.mp hc
    exact h.vfsFree_freed hr hsome hsame hfree
  have htree : ∀ m, s'.vfs.tree m = if m ∈ s.vfs.tree.below depth n then none else s.vfs.tree m := by
    intro m
    have hnode := hfreed.node m
    unfold Vfs.tree at hnode ⊢
    rw [hnode]
    split_ifs <;> rfl
  have hothers := hfreed.others
  refine ⟨by rw [hothers], by rw [hothers], by rw [hothers], ?_⟩
  apply h.freed (n := n) hsome (l := s.vfs.tree.below depth n)
  · intro m
    rw [Vfs.tree_modify _ n _ (fun nd => { nd with child := [] }) fun _ => rfl]
    unfold Tree.modify
    rw [update_apply, update_apply]
    by_cases hmn : m = n
    · subst hmn
      rw [if_pos rfl, if_pos rfl, htree]
      split_ifs <;> rfl
    · rw [if_neg hmn, if_neg hmn, htree]
  · exact hfreed.next_eq
  · intro c hc
    rw [hchild] at hc
    unfold Tree.below
    rw [hchild]
    exact mem_flatMap_of_foldlM hfree hc
  · exact hfreed.closed
  · exact hleft
  · intro m hm
    obtain ⟨c, hc, hmc⟩ := List.mem_flatMap.mp hm
    by_cases hmc' : m = c
    · subst hmc'
      exact ⟨n, (h.mem_child.mp hc).2, .inl rfl⟩
    · obtain ⟨q, hq, hmq⟩ := Tree.parent_mem_subtree hmc hmc'
      exact ⟨q, (h.mem_child.mp hmq).2, .inr (List.mem_flatMap.mpr ⟨c, hc, hq⟩)⟩
  · intro m nd' hnd' hd
    rw [Vfs.modify_node] at hnd'
    split_ifs at hnd' with hmn
    · obtain ⟨nd1, hnd1, rfl⟩ := map_eq_some_iff.mp hnd'
      rw [hfreed.node] at hnd1
      split_ifs at hnd1
      exact ⟨nd1, hmn ▸ hnd1, hd⟩
    · rw [hfreed.node] at hnd'
      split_ifs at hnd'
      exact ⟨nd', hnd', hd⟩

end Unmount

/-- Between the states lies a change of names, parents and lists. -/
structure Reshaped (s v : Vfs) : Prop where
  next_eq : v.next = s.next
  kind_eq : v.tree.kindOf = s.tree.kindOf
  marks : ∀ m, (v.node m).map VfsNode.delete = (s.node m).map VfsNode.delete

section Move

variable {s v w : Vfs}

theorem Reshaped.trans (h : Reshaped s v) (h' : Reshaped v w) : Reshaped s w :=
  ⟨h'.next_eq.trans h.next_eq, h'.kind_eq.trans h.kind_eq, fun m => (h'.marks m).trans (h.marks m)⟩

theorem reshaped_modify (s : Vfs) (n : ℕ) (f : VfsNode → VfsNode)
    (g : TreeNode → TreeNode) (hfg : ∀ nd, (f nd).toTreeNode = g nd.toTreeNode)
    (hkind : ∀ nd, (g nd).kind = nd.kind) (hd : ∀ nd, (f nd).delete = nd.delete) :
    Reshaped s (s.modify n f) := by
  refine ⟨rfl, ?_, fun m => ?_⟩
  · rw [s.tree_modify n f g hfg]
    exact s.tree.kindOf_modify n g hkind
  · rw [Vfs.modify_node]
    split_ifs with hm
    · rw [hm, map_map]
      congr 1
      funext nd
      exact hd nd
    · rfl

theorem Reshaped.isSome_eq (h : Reshaped s v) (m : ℕ) : (v.tree m).isSome = (s.tree m).isSome := by
  have hk := congrArg isSome (congrFun h.kind_eq m)
  unfold Tree.kindOf at hk
  rw [isSome_map, isSome_map] at hk
  exact hk

theorem tree_list (s : Vfs) (n : ℕ) (g : List ℕ → List ℕ) :
    (s.modify n fun nd => { nd with child := g nd.child }).tree =
      s.tree.modify n fun nd => { nd with child := g nd.child } :=
  s.tree_modify n _ _ fun _ => rfl

theorem parentOf_list (s : Vfs) (n : ℕ) (g : List ℕ → List ℕ) :
    (s.modify n fun nd => { nd with child := g nd.child }).tree.parentOf = s.tree.parentOf := by
  rw [tree_list]
  exact s.tree.parentOf_modify n _ fun _ => rfl

theorem childOf_list {s : Vfs} {n : ℕ} (h : (s.tree n).isSome) (g : List ℕ → List ℕ) :
    (s.modify n fun nd => { nd with child := g nd.child }).tree.childOf =
      update s.tree.childOf n (g (s.tree.childOf n)) := by
  rw [tree_list]
  exact Tree.childOf_modify_child h g

theorem listAppend_eq {parent : Option ℕ} {c : ℕ} (h : listAppend parent c s = some v) :
    ∃ p, parent = some p ∧ (s.tree p).isSome ∧ Reshaped s v ∧ v.tree.parentOf = s.tree.parentOf ∧
      v.tree.childOf = update s.tree.childOf p (s.tree.childOf p ++ [c]) := by
  unfold listAppend at h
  obtain ⟨p, hp, hw⟩ := bind_eq_some_iff.mp h
  obtain ⟨pd, hpd, rfl⟩ := map_eq_some_iff.mp hw
  have hsome := isSome_of_eq_some (Vfs.tree_of_node hpd)
  refine ⟨p, hp, hsome, ?_, parentOf_list s p (· ++ [c]), childOf_list hsome (· ++ [c])⟩
  exact reshaped_modify s p _ (fun nd => { nd with child := nd.child ++ [c] }) (fun _ => rfl)
    (fun _ => rfl) (fun _ => rfl)

theorem listDelete_eq {parent : Option ℕ} {c : ℕ} (h : listDelete parent c s = some v) :
    ∃ p, parent = some p ∧ (s.tree p).isSome ∧ Reshaped s v ∧ v.tree.parentOf = s.tree.parentOf ∧
      v.tree.childOf = update s.tree.childOf p ((s.tree.childOf p).erase c) := by
  unfold listDelete at h
  obtain ⟨p, hp, hw⟩ := bind_eq_some_iff.mp h
  obtain ⟨pd, hpd, rfl⟩ := map_eq_some_iff.mp hw
  have hsome := isSome_of_eq_some (Vfs.tree_of_node hpd)
  refine ⟨p, hp, hsome, ?_, parentOf_list s p (List.erase · c), childOf_list hsome (List.erase · c)⟩
  exact reshaped_modify s p _ (fun nd => { nd with child := nd.child.erase c }) (fun _ => rfl)
    (fun _ => rfl) (fun _ => rfl)

theorem renamed_eq (s : Vfs) (n : ℕ) (name : List Char) :
    Reshaped s (s.modify n fun nd => { nd with name := name }) ∧
      (s.modify n fun nd => { nd with name := name }).tree.parentOf = s.tree.parentOf ∧
      (s.modify n fun nd => { nd with name := name }).tree.childOf = s.tree.childOf := by
  have htree := s.tree_modify n (fun nd => { nd with name := name })
    (fun nd => { nd with name := name }) fun _ => rfl
  refine ⟨?_, ?_, ?_⟩
  · exact reshaped_modify s n _ (fun nd => { nd with name := name }) (fun _ => rfl) (fun _ => rfl)
      (fun _ => rfl)
  · rw [htree]
    exact s.tree.parentOf_modify n _ fun _ => rfl
  · rw [htree]
    exact s.tree.childOf_modify n _ fun _ => rfl

theorem reparented_eq {s : Vfs} {n : ℕ} (h : (s.tree n).isSome) (p : Option ℕ) :
    Reshaped s (s.modify n fun nd => { nd with parent := p }) ∧
      (s.modify n fun nd => { nd with parent := p }).tree.parentOf =
        update s.tree.parentOf n p ∧
      (s.modify n fun nd => { nd with parent := p }).tree.childOf = s.tree.childOf := by
  have htree := s.tree_modify n (fun nd => { nd with parent := p })
    (fun nd => { nd with parent := p }) fun _ => rfl
  refine ⟨?_, ?_, ?_⟩
  · exact reshaped_modify s n _ (fun nd => { nd with parent := p }) (fun _ => rfl) (fun _ => rfl)
      (fun _ => rfl)
  · rw [htree]
    exact Tree.parentOf_modify_parent h p
  · rw [htree]
    exact s.tree.childOf_modify n _ fun _ => rfl

theorem moveExchange_eq {s s' : Mounts} {a b : ℕ} {da db : VfsNode}
    (ha : s.vfs.node a = some da) (hb : s.vfs.node b = some db) (htop : a ≠ s.top)
    (h : moveExchange s a b da db = some s') :
    ∃ pa pb c1 c2 c3, (s.vfs.tree.parentOf a = some pa ∧ s.vfs.tree.parentOf b = some pb) ∧
      s' = { s with vfs := s'.vfs } ∧ Reshaped s.vfs s'.vfs ∧
      s'.vfs.tree.parentOf = swap s.vfs.tree.parentOf a b ∧
      c1 = update s.vfs.tree.childOf pa (s.vfs.tree.childOf pa ++ [b]) ∧
      c2 = update c1 pb (c1 pb ++ [a]) ∧
      c3 = update c2 pb ((c2 pb).erase b) ∧
      s'.vfs.tree.childOf = update c3 pa ((c3 pa).erase a) := by
  unfold moveExchange at h
  rw [if_neg htop] at h
  obtain ⟨v1, h1, hw⟩ := bind_eq_some_iff.mp h
  obtain ⟨v2, h2, hw⟩ := bind_eq_some_iff.mp hw
  obtain ⟨v3, h3, hw⟩ := bind_eq_some_iff.mp hw
  obtain ⟨v4, h4, rfl⟩ := map_eq_some_iff.mp hw
  rw [if_neg htop] at h4
  obtain ⟨pa, hpa, -, r1, p1, c1⟩ := listAppend_eq h1
  obtain ⟨rb, pb', cb⟩ := renamed_eq v1 b da.name
  obtain ⟨ra, pa', ca⟩ := renamed_eq (v1.modify b fun nd => { nd with name := da.name }) a db.name
  obtain ⟨pb, hpb, -, r2, p2, c2⟩ := listAppend_eq h2
  obtain ⟨qb, hqb, -, r3, p3, c3⟩ := listDelete_eq h3
  obtain ⟨qa, hqa, -, r4, p4, c4⟩ := listDelete_eq h4
  rw [hpb] at hqb
  cases hqb
  rw [hpa] at hqa
  cases hqa
  have hr := r1.trans (rb.trans (ra.trans (r2.trans (r3.trans r4))))
  have hsa : (v4.tree a).isSome := by
    rw [hr.isSome_eq]
    exact isSome_of_eq_some (Vfs.tree_of_node ha)
  have hsb : (v4.tree b).isSome := by
    rw [hr.isSome_eq]
    exact isSome_of_eq_some (Vfs.tree_of_node hb)
  obtain ⟨r5, p5, c5⟩ := reparented_eq hsa db.parent
  obtain ⟨r6, p6, c6⟩ := reparented_eq ((r5.isSome_eq b).trans hsb) da.parent
  have hpar : v4.tree.parentOf = s.vfs.tree.parentOf := by
    rw [p4, p3, p2, pa', pb', p1]
  have hpa0 : s.vfs.tree.parentOf a = some pa := (Tree.parentOf_of_some (Vfs.tree_of_node ha)).trans hpa
  have hpb0 : s.vfs.tree.parentOf b = some pb := (Tree.parentOf_of_some (Vfs.tree_of_node hb)).trans hpb
  rw [ca, cb, c1] at c2
  refine ⟨pa, pb, _, v2.tree.childOf, v3.tree.childOf, ⟨hpa0, hpb0⟩, ?_, hr.trans (r5.trans r6), ?_,
    rfl, c2, c3, ?_⟩
  · rw [if_neg htop]
  · dsimp only
    rw [p6, p5, hpar, hpa, hpb]
    unfold swap
    rw [hpa0, hpb0]
  · dsimp only
    rw [c6, c5, c4]

theorem Intact.exchange {s s' : Mounts} (h : Intact s.removed s.vfs) (htop : s.top = rootdir)
    {a b : ℕ} {da db : VfsNode} (ha : s.vfs.node a = some da) (hb : s.vfs.node b = some db)
    (hra : s.removed a = false) (hrb : s.removed b = false)
    (hab : ¬ Above s.vfs.tree.parentOf a b) (hba : ¬ Above s.vfs.tree.parentOf b a)
    (haroot : a ≠ rootdir) (hexch : moveExchange s a b da db = some s') :
    s' = { s with vfs := s'.vfs } ∧ Intact s.removed s'.vfs ∧
      ∀ m, (s'.vfs.tree m).isSome = (s.vfs.tree m).isSome := by
  obtain ⟨pa, pb, c1, c2, c3, ⟨hpa, hpb⟩, hothers, hr, hpar, h1, h2, h3, h4⟩ :=
    moveExchange_eq ha hb (htop ▸ haroot) hexch
  have hsa := isSome_of_eq_some (Vfs.tree_of_node ha)
  have hsb := isSome_of_eq_some (Vfs.tree_of_node hb)
  have hbroot : b ≠ rootdir := by
    rintro rfl
    rw [h.root_parent] at hpb
    cases hpb
  have hswap : ∀ n, swap s.vfs.tree.parentOf a b n = s.vfs.tree.parentOf n ∨
      swap s.vfs.tree.parentOf a b n = some pa ∨ swap s.vfs.tree.parentOf a b n = some pb := by
    intro n
    unfold swap
    rw [update_apply, update_apply]
    split_ifs
    · exact .inr (.inl hpa)
    · exact .inr (.inr hpb)
    · exact .inl rfl
  refine ⟨hothers, ?_, hr.isSome_eq⟩
  constructor
  · rw [hr.kind_eq]
    exact h.root_kind
  · rw [hpar]
    unfold swap
    rw [update_of_ne hbroot.symm, update_of_ne haroot.symm]
    exact h.root_parent
  · exact h.root_kept
  · intro n hn
    rw [hr.next_eq] at hn
    obtain ⟨hfree, hkept⟩ := h.bounded n hn
    refine ⟨?_, hkept⟩
    rw [← not_isSome_iff_eq_none, hr.isSome_eq, hfree]
    exact Bool.false_ne_true
  · intro n p hp
    rw [hpar] at hp
    rw [hr.kind_eq]
    obtain heq | heq | heq := hswap n
    · exact h.parent_dir n p (heq.symm.trans hp)
    · exact h.parent_dir a p ((hpa.trans heq.symm).trans hp)
    · exact h.parent_dir b p ((hpb.trans heq.symm).trans hp)
  · intro n hn
    rw [hr.isSome_eq] at hn
    rw [hpar]
    exact (h.rooted a hsa).swap h.root_parent (h.rooted b hsb) haroot hbroot hab hba (h.rooted n hn)
  · rw [hpar]
    have hlists := h.lists.swap ⟨hsa, hra⟩ ⟨hsb, hrb⟩ hpa hpb h1 h2 h3 h4
    intro p c
    simp only [hr.isSome_eq]
    exact hlists p c
  · intro n nd hnd hkept
    have hmark := hr.marks n
    rw [hnd, map_some] at hmark
    obtain ⟨nd0, hnd0, hd⟩ := map_eq_some_iff.mp hmark.symm
    rw [← hd]
    exact h.unmarked n nd0 hnd0 hkept

end Move

/-- The names of the two nodes of a move, when there are such nodes and the second is a mount. -/
def moveNodes (depth : ℕ) (s : Mounts) (devName dirName : List Char) : Option (ℕ × ℕ) :=
  (vfsOpen depth s.vfs dirName).bind fun r =>
    r.2.bind fun dir =>
      (vfsOpen depth r.1 devName).bind fun r =>
        r.2.bind fun oldRoot => if s.isMount oldRoot then some (dir, oldRoot) else none

def unmountNode (depth : ℕ) (s : Mounts) (path : List Char) : Option ℕ :=
  (vfsOpen depth s.vfs path).bind fun r =>
    r.2.bind fun n =>
      (r.1.node n).bind fun nd =>
        if (nd.kind = .dir ∧ nd.delete = false ∧ nd.proxy = false) ∧ nd.parent.isSome ∧ s.root n = n
          then some n else none

/-- The moves are of nodes that have not been removed, neither of which is above the other. The
unmounts are of file systems that do not free their mount point, and leave no removed node behind. No overlay is
mounted, nor `proc_self`. -/
def MountOp.Apart (depth : ℕ) (s : Mounts) : MountOp → Prop
  | .call _ => True
  | .mount _ fs _ _ => fs ≠ some .overlayfs ∧ fs ≠ some .procSelf
  | .unmount path => ∀ n ∈ unmountNode depth s path,
      (s.fsid n ≠ .tmpfs ∧ s.fsid n ≠ .devtmpfs) ∧ LeavesNone s.removed s.vfs (s.vfs.tree.below depth n)
  | .move devName dirName _ => ∀ r ∈ moveNodes depth s devName dirName,
      (s.removed r.1 = false ∧ s.removed r.2 = false) ∧
        r.1 ∉ ancestors s.vfs.tree.parentOf s.vfs.next r.2 ∧
        r.2 ∉ ancestors s.vfs.tree.parentOf s.vfs.next r.1

instance (depth : ℕ) (s : Mounts) : ∀ op : MountOp, Decidable (op.Apart depth s)
  | .call _ => .isTrue trivial
  | .mount _ fs _ _ => inferInstanceAs (Decidable (fs ≠ some .overlayfs ∧ fs ≠ some .procSelf))
  | .unmount path => inferInstanceAs (Decidable (∀ n ∈ unmountNode depth s path,
      (s.fsid n ≠ .tmpfs ∧ s.fsid n ≠ .devtmpfs) ∧ LeavesNone s.removed s.vfs (s.vfs.tree.below depth n)))
  | .move devName dirName _ => inferInstanceAs (Decidable (∀ r ∈ moveNodes depth s devName dirName,
      (s.removed r.1 = false ∧ s.removed r.2 = false) ∧
        r.1 ∉ ancestors s.vfs.tree.parentOf s.vfs.next r.2 ∧
        r.2 ∉ ancestors s.vfs.tree.parentOf s.vfs.next r.1))

theorem Intact.mem_ancestors {removed : ℕ → Bool} {v : Vfs} (h : Intact removed v) {a n : ℕ}
    (hn : (v.tree n).isSome) : a ∈ ancestors v.tree.parentOf v.next n ↔ Above v.tree.parentOf a n := by
  have hbound : ∀ m p, v.tree.parentOf m = some p → p ∈ Finset.range v.next := by
    intro m p hp
    rw [Finset.mem_range]
    by_contra hge
    have hsome := h.isSome_parent hp
    rw [(h.bounded p (not_lt.mp hge)).1] at hsome
    cases hsome
  have hmem := (h.rooted n hn).mem_ancestors h.root_parent hbound (a := a)
  rw [Finset.card_range] at hmem
  exact hmem

variable {depth : ℕ} {s s' : Mounts}

theorem msMove_keeps (h : Intact s.removed s.vfs) (htop : s.top = rootdir)
    {devName dirName : List Char} {remount : Bool} {res : Except MountError Unit}
    (hapart : (MountOp.move devName dirName remount).Apart depth s)
    (hmove : msMove depth s devName dirName remount = some (s', res)) :
    Intact s'.removed s'.vfs ∧ s'.top = rootdir := by
  unfold msMove at hmove
  obtain ⟨⟨v, dir⟩, hdir, hw⟩ := bind_eq_some_iff.mp hmove
  have hv := (vfsOpen_lookup hdir).1
  cases dir with
  | none =>
    cases hw
    exact ⟨h.touched hv, htop⟩
  | some a =>
    dsimp only at hw
    split_ifs at hw with hremount
    · cases hw
      exact ⟨h.touched hv, htop⟩
    obtain ⟨⟨w, oldRoot⟩, hold, hw⟩ := bind_eq_some_iff.mp hw
    have ht := hv.trans (vfsOpen_lookup hold).1
    have hw0 := h.touched ht
    cases oldRoot with
    | none =>
      cases hw
      exact ⟨hw0, htop⟩
    | some b =>
      dsimp only at hw
      split_ifs at hw with hmount
      · obtain ⟨da, hda, hw⟩ := bind_eq_some_iff.mp hw
        obtain ⟨db, hdb, hw⟩ := bind_eq_some_iff.mp hw
        obtain ⟨s1, hexch, hw⟩ := bind_eq_some_iff.mp hw
        obtain ⟨s2, hclose, hw⟩ := bind_eq_some_iff.mp hw
        obtain ⟨s3, hclose', heq⟩ := map_eq_some_iff.mp hw
        cases heq
        have hnodes : moveNodes depth s devName dirName = some (a, b) := by
          unfold moveNodes
          simp only [hdir, hold, bind_some, hmount, if_true]
        obtain ⟨⟨hra, hrb⟩, hab, hba⟩ := hapart (a, b) hnodes
        have hsa := isSome_of_eq_some (Vfs.tree_of_node hda)
        have hsb := isSome_of_eq_some (Vfs.tree_of_node hdb)
        rw [ht.tree_eq] at hsa hsb
        rw [h.mem_ancestors hsb] at hab
        rw [h.mem_ancestors hsa] at hba
        rw [← ht.tree_eq] at hab hba
        have haroot : a ≠ rootdir := by
          rintro rfl
          by_cases hb : b = rootdir
          · -- the root has no parent to be appended to
            subst hb
            rw [hda] at hdb
            cases hdb
            have hp := (Tree.parentOf_of_some (Vfs.tree_of_node hda)).symm.trans hw0.root_parent
            unfold moveExchange listAppend at hexch
            simp [htop, hp] at hexch
          · apply hab
            apply (hw0.rooted b _).above hb
            exact isSome_of_eq_some (Vfs.tree_of_node hdb)
        obtain ⟨hothers, hs1, hsome⟩ := hw0.exchange (s := { s with vfs := w }) htop hda hdb hra hrb
          hab hba haroot hexch
        have hr1 : s1.removed = s.removed := by rw [hothers]
        have hexists : ∀ n nd, w.node n = some nd → ∃ nd', s1.vfs.node n = some nd' := by
          intro n nd hnd
          rw [← isSome_iff_exists, ← Vfs.isSome_tree, hsome]
          exact isSome_of_eq_some (Vfs.tree_of_node hnd)
        obtain ⟨nb, hnb⟩ := hexists b db hdb
        obtain ⟨na, hna⟩ := hexists a da hda
        rw [← hr1] at hs1
        obtain ⟨hs2, htop2, hr2, hsome2⟩ := hs1.close hnb (hr1 ▸ hrb) hclose
        have hna' : (s2.vfs.node a).isSome := by
          rw [hsome2]
          exact isSome_of_eq_some hna
        obtain ⟨na', hna'⟩ := isSome_iff_exists.mp hna'
        obtain ⟨hs3, htop3, -, -⟩ := hs2.close hna' (hr2 ▸ hr1 ▸ hra) hclose'
        refine ⟨hs3, htop3.trans (htop2.trans ?_)⟩
        rw [hothers]
        exact htop
      · cases hw
        exact ⟨hw0, htop⟩

theorem vfsUnmount_keeps (h : Intact s.removed s.vfs) {path : List Char}
    {res : Except MountError Unit} (hapart : (MountOp.unmount path).Apart depth s)
    (hunmount : vfsUnmount depth s path = some (s', res)) : Intact s'.removed s'.vfs ∧ s'.top = s.top := by
  unfold vfsUnmount at hunmount
  obtain ⟨⟨v, node⟩, hopen, hw⟩ := bind_eq_some_iff.mp hunmount
  have ht := (vfsOpen_lookup hopen).1
  have hv := h.touched ht
  cases node with
  | none =>
    cases hw
    exact ⟨hv, rfl⟩
  | some n =>
    obtain ⟨nd, hnd, hw⟩ := bind_eq_some_iff.mp hw
    by_cases hdir : nd.kind ≠ .dir ∨ nd.delete ∨ nd.proxy
    · rw [if_pos hdir] at hw
      cases hw
      exact ⟨hv, rfl⟩
    rw [if_neg hdir] at hw
    cases hp : nd.parent with
    | none =>
      rw [hp] at hw
      cases hw
      exact ⟨hv, rfl⟩
    | some p =>
      rw [hp] at hw
      dsimp only at hw
      split_ifs at hw with hroot
      · obtain ⟨s1, hfree, hw⟩ := bind_eq_some_iff.mp hw
        obtain ⟨s2, hfs, heq⟩ := map_eq_some_iff.mp hw
        cases heq
        simp only [not_or, not_not, Bool.not_eq_true] at hdir
        have hnode : unmountNode depth s path = some n := by
          unfold unmountNode
          simp only [hopen, bind_some, hnd, hp, hdir, hroot, and_self, isSome_some, if_true]
        obtain ⟨hsys, hleft⟩ := hapart n hnode
        have hleft' : LeavesNone s.removed v (v.tree.below depth n) := by
          unfold LeavesNone
          rw [ht.tree_eq, ht.next_eq]
          exact hleft
        have hfreed := Intact.unmount (s := { s with vfs := v }) hv hnd hleft' hfree
        obtain ⟨hr1, htop1, hfs1, hs1⟩ := hfreed
        have hfs' : s1.fsid n ≠ .tmpfs ∧ s1.fsid n ≠ .devtmpfs := by
          rw [hfs1]
          exact hsys
        unfold fsUnmount at hfs
        cases hid : s1.fsid n with
        | tmpfs => exact absurd hid hfs'.1
        | devtmpfs => exact absurd hid hfs'.2
        | overlayfs =>
          rw [hid] at hfs
          cases hfs
        | sysfs | proc | procSelf | pipefs | other =>
          rw [hid] at hfs
          obtain ⟨pd, -, rfl⟩ := map_eq_some_iff.mp hfs
          refine ⟨?_, htop1⟩
          dsimp only
          rw [hr1]
          exact hs1
      · cases hw
        exact ⟨hv, rfl⟩

theorem mountStep_keeps (h : Intact s.removed s.vfs) {op : MountOp} (hapart : op.Apart depth s)
    (hstep : mountStep depth s op = some s') : Intact s'.removed s'.vfs ∧ s'.top = rootdir := by
  unfold mountStep at hstep
  split_ifs at hstep with hcond
  have htop := hcond.1
  cases op with
  | call op =>
    obtain ⟨hs', htop'⟩ := callStep_keeps h hstep
    exact ⟨hs', htop'.trans htop⟩
  | mount dirName fs src made =>
    obtain ⟨⟨_, res⟩, hmount, rfl⟩ := map_eq_some_iff.mp hstep
    unfold sysMount at hmount
    obtain ⟨⟨v, node⟩, hopen, hw⟩ := bind_eq_some_iff.mp hmount
    have hv := h.touched (vfsOpen_lookup hopen).1
    cases node with
    | none =>
      cases hw
      exact ⟨hv, htop⟩
    | some n =>
      obtain ⟨hs', htop'⟩ := vfsMount_keeps (s := { s with vfs := v }) hv hapart.1 hw
      exact ⟨hs', htop'.trans htop⟩
  | unmount path =>
    obtain ⟨⟨_, res⟩, hunmount, rfl⟩ := map_eq_some_iff.mp hstep
    obtain ⟨hs', htop'⟩ := vfsUnmount_keeps h hapart hunmount
    exact ⟨hs', htop'.trans htop⟩
  | move devName dirName remount =>
    obtain ⟨⟨_, res⟩, hmove, rfl⟩ := map_eq_some_iff.mp hstep
    exact msMove_keeps h htop hapart hmove

theorem Intact.whole (h : Intact s.removed s.vfs) (htop : s.top = rootdir) : s.Whole := by
  have hchild : ∀ p pd, s.vfs.node p = some pd → s.vfs.tree.childOf p = pd.child :=
    fun p pd hpd => Tree.childOf_of_some (Vfs.tree_of_node hpd)
  have hparent : ∀ n nd, s.vfs.node n = some nd → s.vfs.tree.parentOf n = nd.parent :=
    fun n nd hnd => Tree.parentOf_of_some (Vfs.tree_of_node hnd)
  constructor
  · have hroot := h.isSome_root
    rw [Vfs.isSome_tree] at hroot
    obtain ⟨nd, hnd⟩ := isSome_iff_exists.mp hroot
    rw [htop]
    exact ⟨nd, hnd, (hparent rootdir nd hnd).symm.trans h.root_parent⟩
  · intro p pd hpd hmem
    rw [← hchild p pd hpd, htop, h.mem_child, h.root_parent] at hmem
    cases hmem.2
  · intro n nd hnd hn hr
    have hsome := isSome_of_eq_some (Vfs.tree_of_node hnd)
    rw [htop] at hn
    obtain ⟨p, hp, hps⟩ := h.exists_parent hsome hn
    rw [Vfs.isSome_tree] at hps
    obtain ⟨pd, hpd⟩ := isSome_iff_exists.mp hps
    refine ⟨p, pd, (hparent n nd hnd).symm.trans hp, hpd, fun q qd hqd => ?_⟩
    rw [← hchild q qd hqd, h.lists q n, hp]
    simp [hsome, hr, eq_comm]
  · intro p pd hpd c hc
    rw [← hchild p pd hpd, h.mem_child] at hc
    rw [← Vfs.isSome_tree]
    exact hc.1.1
  · intro n nd hnd
    rw [htop]
    exact h.rooted n (isSome_of_eq_some (Vfs.tree_of_node hnd))

/-- Three directories, of which one becomes a `proc`, and another a mount that is put in the place of the third and
unmounted. -/
def mountCalls : List MountOp :=
  [.call (.mkdir ['/', 'a', '/', 'b']), .call (.mkdir ['/', 'm']), .call (.mkdir ['/', 'p']),
    .mount ['/', 'p'] (some .proc) ['/'] [⟨none, ['1'], .dir, none⟩], .call (.mkdir ['/', 'p', '/', '1', '/', 'x']),
    .mount ['/', 'm'] (some .sysfs) ['/'] [⟨none, ['d'], .dir, none⟩, ⟨some 0, ['f'], .none, none⟩],
    .move ['/', 'm'] ['/', 'a', '/', 'b'] false, .unmount ['/', 'a', '/', 'b']]

/-- The mount of an overlay puts what is below the mount point below a node that is in no list and has no parent. -/
example : (Runs.run (mountStep 4) [.call (.mkdir ['/', 'm', '/', 'a']), .call (.mkdir ['/', 'u']),
    .mount ['/', 'm'] (some .overlayfs) ['/', 'u'] []] Mounts.boot).map
    (fun s => (s.vfs.tree.parentOf 2, s.vfs.tree.parentOf 4, s.vfs.tree.childOf 1)) = some (some 4, none, []) := by
  decide +kernel

/-- A mount on a directory of the root is moved to the root. -/
def rootCalls : List MountOp :=
  [.call (.mkdir ['/', 'm']), .mount ['/', 'm'] (some .tmpfs) ['/'] [], .move ['/', 'm'] ['/'] false]

end CoolPotOS
