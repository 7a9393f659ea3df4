import CoolPotOS.Fs.VfsTree

namespace CoolPotOS

open List Option

def nameOf (t : Tree) (n : ℕ) : Option (List Char) := (t n).map TreeNode.name

/-- The names of the tree are names that a lookup can ask for, and differ in each directory. -/
structure Named (s : Vfs) : Prop extends Shape s where
  nodup : ∀ p pd, s.tree p = some pd → (pd.child.map (nameOf s.tree)).Nodup
  valid : ∀ n nd, s.tree n = some nd → n ≠ rootdir → ValidName nd.name

variable {s s' : Vfs} {t : Tree} {pd nd : TreeNode} {n : ℕ} {names : List (List Char)}

theorem Named.of_tree_eq (h : Named s) (htree : s'.tree = s.tree) (hnext : s'.next = s.next) : Named s' :=
  ⟨h.toShape.of_tree_eq htree hnext, htree ▸ h.nodup, htree ▸ h.valid⟩

theorem named_boot : Named Vfs.boot := by
  have htree : ∀ n nd, Vfs.boot.tree n = some nd → n = rootdir ∧ nd.child = [] := by
    intro n nd h
    unfold Vfs.tree Vfs.boot at h
    simp only [Function.update_apply] at h
    split_ifs at h with hn
    · cases h
      exact ⟨hn, rfl⟩
    · cases h
  refine ⟨shape_boot, ?_, fun n nd h hn => absurd (htree n nd h).1 hn⟩
  intro p pd h
  rw [(htree p pd h).2]
  exact nodup_nil

theorem vfsChildFind_eq_none {name : List Char} (h : vfsChildFind t pd name = none) :
    some name ∉ pd.child.map (nameOf t) := by
  intro hmem
  obtain ⟨c, hc, hname⟩ := List.mem_map.mp hmem
  have hnone := List.find?_eq_none.mp h c hc
  unfold nameOf at hname
  obtain ⟨nd, hnd, rfl⟩ := map_eq_some_iff.mp hname
  simp [hnd] at hnone

theorem vfsChildFind_of_mem {c : ℕ} (hnodup : (pd.child.map (nameOf t)).Nodup) (hc : c ∈ pd.child)
    (hnd : t c = some nd) : vfsChildFind t pd nd.name = some c := by
  cases hfind : vfsChildFind t pd nd.name with
  | none =>
    have hname : nameOf t c = some nd.name := by rw [nameOf, hnd, map_some]
    exact absurd (List.mem_map.mpr ⟨c, hc, hname⟩) (vfsChildFind_eq_none hfind)
  | some c' =>
    obtain ⟨hc', nd', hnd', hname⟩ := mem_of_vfsChildFind hfind
    have heq : nameOf t c' = nameOf t c := by
      rw [nameOf, nameOf, hnd, hnd', map_some, map_some, hname]
    rw [inj_on_of_nodup_map hnodup hc' hc heq]

theorem nameOf_modify {f : TreeNode → TreeNode} (hf : ∀ nd, (f nd).name = nd.name) :
    nameOf (t.modify n f) = nameOf t := by
  funext m
  unfold nameOf Tree.modify
  rw [Function.update_apply]
  split_ifs with hm
  · subst hm
    cases t m with
    | none => rfl
    | some nd => simp [hf]
  · rfl

theorem Named.modify (h : Named s) (hs' : Shape s') {g : TreeNode → TreeNode}
    (htree : s'.tree = s.tree.modify n g) (hname : ∀ nd, (g nd).name = nd.name)
    (hchild : ∀ nd, (g nd).child.Sublist nd.child) : Named s' := by
  refine ⟨hs', ?_, ?_⟩
  · intro p pd' hpd'
    rw [htree] at hpd'
    obtain ⟨pd, hpd, rfl⟩ := Tree.modify_eq_some hpd'
    rw [htree, nameOf_modify hname]
    refine (h.nodup p pd hpd).sublist (List.Sublist.map _ ?_)
    split_ifs
    · exact hchild pd
    · exact List.Sublist.refl _
  · intro m nd' hnd' hm
    rw [htree] at hnd'
    obtain ⟨nd, hnd, rfl⟩ := Tree.modify_eq_some hnd'
    split_ifs
    · exact (hname nd).symm ▸ h.valid m nd hnd hm
    · exact h.valid m nd hnd hm

theorem Named.append (h : Named s) {p : ℕ} {name : List Char} (hp : s.tree p = some pd) (hdir : pd.kind = .dir)
    (hfind : vfsChildFind s.tree pd name = none) (hname : ValidName name) (kind : FileKind) :
    Named (vfsNodeAlloc s p name kind) := by
  have hfree := h.next_free
  have htree := tree_vfsNodeAlloc s p name kind
  have hnameOf : ∀ c nd, s.tree c = some nd →
      nameOf (vfsNodeAlloc s p name kind).tree c = nameOf s.tree c := by
    intro c nd hc
    unfold nameOf
    rw [htree, Tree.append_of_some hc hfree, hc]
    split_ifs <;> rfl
  have hmap : ∀ q qd, s.tree q = some qd →
      qd.child.map (nameOf (vfsNodeAlloc s p name kind).tree) = qd.child.map (nameOf s.tree) := by
    intro q qd hq
    refine map_congr_left fun c hc => ?_
    obtain ⟨nd, hnd, -⟩ := h.child q qd c hq hc
    exact hnameOf c nd hnd
  refine ⟨h.toShape.append hp hdir name kind, ?_, ?_⟩
  · intro q qd' hqd'
    rw [htree] at hqd'
    obtain ⟨rfl, rfl⟩ | ⟨qd, hqd, rfl⟩ := Tree.append_eq_some hqd'
    · exact nodup_nil
    · split_ifs with hqp
      · subst hqp
        rw [hp] at hqd
        cases hqd
        have hnew : nameOf (vfsNodeAlloc s q name kind).tree s.next = some name := by
          rw [htree, nameOf, Tree.append_self, map_some]
        rw [map_cons, hmap q pd hp, hnew]
        exact nodup_cons.mpr ⟨vfsChildFind_eq_none hfind, h.nodup q pd hp⟩
      · rw [hmap q qd hqd]
        exact h.nodup q qd hqd
  · intro n nd' hnd' hn
    rw [htree] at hnd'
    obtain ⟨rfl, rfl⟩ | ⟨nd, hnd, rfl⟩ := Tree.append_eq_some hnd'
    · exact hname
    · split_ifs
      · exact h.valid n nd hnd hn
      · exact h.valid n nd hnd hn

theorem named_growing (depth : ℕ) : Growing depth NewValidName Named := by
  constructor
  · exact fun s h => h.toShape.root_kind
  · exact fun s n nd p pd h => h.toShape.parent_kind
  · exact fun s s' ht h => h.of_tree_eq ht.tree_eq ht.next_eq
  · exact fun s p pd name kind h hp hdir hname _ => h.append hp hdir hname.1 hname.2 kind
  · intro s p pd name target s' r h hp hdir hname hopen
    obtain ⟨ht, vis, hlookup⟩ := vfsOpen_lookup hopen
    have h' := (h.append hp hdir hname.1 hname.2 .symlink).of_tree_eq ht.tree_eq ht.next_eq
    refine h'.modify ?_ (s'.tree_modify s.next _
      (fun nd => { nd with linkto := r, linktoPath := some target }) fun _ => rfl)
      (fun _ => rfl) (fun _ => List.Sublist.refl _)
    exact h'.toShape.link (ht.tree_eq ▸ hlookup) s.next

theorem named_step {depth : ℕ} {op : VfsOp} (h : Named s) (hfresh : op.Fresh NewValidName depth s)
    (hstep : vfsStep depth s op = some s') : Named s' := by
  refine (named_growing depth).step_keeps (fun _ _ _ hnew hname => ⟨hnew, hname⟩) h hfresh ?_ hstep
  intro n res _ hdelete
  have hshape := h.toShape.delete hdelete
  obtain rfl | ⟨nd, hnd, hnext, htree | ⟨p, hp, htree⟩⟩ := vfsDelete_spec hdelete
  · exact h
  · exact h.of_tree_eq htree hnext
  · exact h.modify hshape htree (fun _ => rfl) (fun _ => erase_sublist)

/-- The names on the path of a node, with a slash before each, have at most 255 characters. -/
def PathFits (t : Tree) (n : ℕ) : Prop :=
  ∀ names ∈ pathNames t (n + 1) n, (names.map fun name => name.length + 1).sum ≤ 255

/-- The nodes of the tree: those that the lists of children lead to from the root. -/
inductive Live (t : Tree) : ℕ → Prop
  | root : Live t rootdir
  | child {p c : ℕ} {pd : TreeNode} (parent : Live t p) (hpd : t p = some pd)
      (hc : c ∈ pd.child) : Live t c

theorem pathNames_of_le {fuel fuel' : ℕ} (hle : fuel ≤ fuel') (h : pathNames t fuel n = some names) :
    pathNames t fuel' n = some names := by
  induction fuel generalizing fuel' n names with
  | zero => cases h
  | succ fuel ih =>
    obtain ⟨fuel', rfl⟩ : ∃ k, fuel' = k + 1 := ⟨fuel' - 1, by omega⟩
    unfold pathNames at h ⊢
    obtain ⟨nd, hnd, hw⟩ := bind_eq_some_iff.mp h
    rw [hnd, bind_some]
    dsimp only at hw ⊢
    cases hp : nd.parent with
    | none =>
      rw [hp] at hw
      exact hw
    | some p =>
      rw [hp] at hw
      obtain ⟨names', hnames', heq⟩ := map_eq_some_iff.mp hw
      dsimp only
      rw [ih (by omega) hnames', map_some, heq]

theorem Shape.pathNames_root (h : Shape s) : pathNames s.tree (rootdir + 1) rootdir = some [] := by
  obtain ⟨nd, hnd, hpar, -⟩ := h.root
  unfold pathNames
  rw [hnd, bind_some]
  dsimp only
  rw [hpar, if_pos rfl]

theorem Shape.pathNames_child (h : Shape s) {p : ℕ} (hnd : s.tree n = some nd) (hn : n ≠ rootdir)
    (hp : nd.parent = some p) (hnames : pathNames s.tree (p + 1) p = some names) :
    pathNames s.tree (n + 1) n = some (names ++ [nd.name]) := by
  obtain ⟨p', pd, hp', hlt, -, -⟩ := h.parent n nd hnd hn
  rw [hp] at hp'
  cases hp'
  unfold pathNames
  rw [hnd, bind_some]
  dsimp only
  rw [hp, if_neg hn]
  dsimp only
  rw [pathNames_of_le hlt hnames, map_some]

theorem Named.walks_live (h : Named s) (resolve : ℕ → Found) (hlive : Live s.tree n) :
    ∃ names nd, pathNames s.tree (n + 1) n = some names ∧ s.tree n = some nd ∧
      (∀ name ∈ names, ValidName name) ∧
      (nd.kind ≠ .symlink → ∀ toks : List (List Char × Bool), toks.map Prod.fst = names →
        ∃ vis, Walks false resolve s.tree toks rootdir (some n) vis) := by
  induction hlive with
  | root =>
    obtain ⟨nd, hnd, -, -⟩ := h.root
    refine ⟨[], nd, h.toShape.pathNames_root, hnd, fun _ hm => absurd hm not_mem_nil, ?_⟩
    intro _ toks htoks
    rw [map_eq_nil_iff.mp htoks]
    exact ⟨[], .done⟩
  | @child p c pd parent hpd hc ih =>
    obtain ⟨names, pd', hnames, hpd', hvalid, hwalk⟩ := ih
    rw [hpd] at hpd'
    cases hpd'
    obtain ⟨nd, hnd, hpar⟩ := h.child p pd c hpd hc
    have hroot : c ≠ rootdir := by
      rintro rfl
      obtain ⟨rd, hrd, hrpar, -⟩ := h.root
      rw [hrd] at hnd
      cases hnd
      rw [hrpar] at hpar
      cases hpar
    obtain ⟨pd'', hpd'', hdir⟩ := h.toShape.parent_dir hnd hpar
    rw [hpd] at hpd''
    cases hpd''
    have hname := h.valid c nd hnd hroot
    refine ⟨names ++ [nd.name], nd, h.toShape.pathNames_child hnd hroot hpar hnames, hnd, ?_, ?_⟩
    · intro name hm
      obtain hm | hm := mem_append.mp hm
      · exact hvalid name hm
      · exact mem_singleton.mp hm ▸ hname
    · intro hkind toks htoks
      obtain ⟨toks1, toks2, rfl, htoks1, htoks2⟩ := map_eq_append_iff.mp htoks
      obtain ⟨⟨buf, last⟩, rfl, rfl⟩ := map_eq_singleton_iff.mp htoks2
      obtain ⟨vis, hwalk⟩ := hwalk (by rw [hdir]; decide) toks1 htoks1
      refine ⟨vis ++ [c], hwalk.append ?_⟩
      exact .enter hname.2.1 hname.2.2 hpd (vfsChildFind_of_mem (h.nodup p pd hpd) hc hnd) hnd hkind .done

theorem length_joinPath_lt :
    (joinPath names).length < 256 ↔ (names.map fun name => name.length + 1).sum ≤ 255 := by
  rw [length_joinPath]
  unfold pathWeight
  omega

theorem vfsGetFullpath_eq {path : List Char} (hnames : pathNames t (n + 1) n = some names)
    (h : vfsGetFullpath t n = some path) : path = joinPath names := by
  unfold vfsGetFullpath at h
  rw [pathNames_of_le (by omega) hnames, bind_some] at h
  split_ifs at h
  exact (Option.some.inj h).symm

theorem isSome_vfsGetFullpath (hnames : pathNames t (n + 1) n = some names) :
    (vfsGetFullpath t n).isSome ↔ PathFits t n := by
  have hfits : PathFits t n ↔ (joinPath names).length < 256 := by
    unfold PathFits
    rw [hnames, length_joinPath_lt]
    exact ⟨fun h => h names rfl, fun h _ hn => Option.some.inj hn ▸ h⟩
  unfold vfsGetFullpath
  rw [pathNames_of_le (by omega) hnames, bind_some, hfits]
  split_ifs with hlen
  · exact iff_of_true rfl hlen
  · exact iff_of_false Bool.false_ne_true hlen

theorem Named.vfsOpen_fullpath (h : Named s) (hlive : Live s.tree n) (hnd : s.tree n = some nd)
    (hkind : nd.kind ≠ .symlink) : ∃ names, pathNames s.tree (n + 1) n = some names ∧
      ∀ depth, ∃ s', vfsOpen (depth + 1) s (joinPath names) = some (s', some n) := by
  obtain ⟨names, nd', hnames, hnd', -, -⟩ := h.walks_live (fun _ => none) hlive
  rw [hnd] at hnd'
  cases hnd'
  refine ⟨names, hnames, fun depth => ?_⟩
  obtain ⟨names', nd', hnames', hnd', hvalid, hwalk⟩ :=
    h.walks_live (resolveLink (lookup depth s.tree) s.tree) hlive
  rw [hnames] at hnames'
  rw [hnd] at hnd'
  cases hnames'
  cases hnd'
  obtain ⟨vis, hwalk⟩ := hwalk hkind _ (pathTokens_names fun m hm => (hvalid m hm).1)
  have hlookup : lookup (depth + 1) s.tree (joinPath names) = some (some n, vis) := by
    unfold lookup
    exact (if_pos rfl).trans hwalk.lookupWalk_eq
  have hf := vfsOpen_follows (depth + 1) s (joinPath names) rfl
  rw [hlookup] at hf
  generalize vfsOpen (depth + 1) s (joinPath names) = x at hf
  cases hf with
  | found ht => exact ⟨_, rfl⟩

/-- In every tree that calls reach which put no second node of a name into a directory and give only
names that a path can hold, the names in each directory differ, and the full path of a node that is
not a link opens this node if and only if it has at most 255 characters. -/
theorem vfs_names_identify (depth : ℕ) (ops : List VfsOp) (s : Vfs)
    (hok : Runs.Meets (vfsStep depth) (fun s op => op.Fresh NewValidName depth s) ops Vfs.boot)
    (hrun : Runs.run (vfsStep depth) ops Vfs.boot = some s) :
    (∀ d nd, s.tree d = some nd → (nd.child.map (nameOf s.tree)).Nodup) ∧
      ∀ n nd, Live s.tree n → s.tree n = some nd → nd.kind ≠ .symlink →
        ((∃ path, vfsGetFullpath s.tree n = some path ∧
            ∀ depth, ∃ s', vfsOpen (depth + 1) s path = some (s', some n)) ↔
          PathFits s.tree n) := by
  have h : Named s := Runs.run_keeps (fun s op s' h hok hstep => named_step h hok hstep) named_boot
    hok hrun
  refine ⟨h.nodup, ?_⟩
  intro n nd hlive hnd hkind
  obtain ⟨names, hnames, hopen⟩ := h.vfsOpen_fullpath hlive hnd hkind
  rw [← isSome_vfsGetFullpath hnames]
  constructor
  · rintro ⟨path, hpath, -⟩
    exact Option.isSome_of_eq_some hpath
  · intro hfits
    obtain ⟨path, hpath⟩ := Option.isSome_iff_exists.mp hfits
    obtain rfl := vfsGetFullpath_eq hnames hpath
    exact ⟨_, hpath, hopen⟩

def someCalls : List VfsOp :=
  [.mkdir ['/', 'a', '/', 'b'], .mkfile ['/', 'a', '/', 'f'], .symlink ['/', 'l'] ['/', 'a']]

theorem vfs_names_identify_someCalls :
    ∃ s, Runs.run (vfsStep 2) someCalls Vfs.boot = some s ∧
      ∀ d nd, s.tree d = some nd → (nd.child.map (nameOf s.tree)).Nodup := by
  obtain ⟨s, hs⟩ := Option.isSome_iff_exists.mp
    (show (Runs.run (vfsStep 2) someCalls Vfs.boot).isSome = true by decide)
  exact ⟨s, hs, (vfs_names_identify 2 someCalls s (by decide) hs).1⟩

/-- `vfs_mkfile` makes a second file of a name. -/
theorem vfsMkfile_twice :
    ∃ s nd, Runs.run (vfsStep 2) [.mkfile ['/', 'a'], .mkfile ['/', 'a']] Vfs.boot = some s ∧
      s.tree rootdir = some nd ∧ ¬ (nd.child.map (nameOf s.tree)).Nodup := by
  obtain ⟨s, hs⟩ := Option.isSome_iff_exists.mp
    (show (Runs.run (vfsStep 2) [.mkfile ['/', 'a'], .mkfile ['/', 'a']] Vfs.boot).isSome = true by
      decide)
  have hbad : ∀ s ∈ Runs.run (vfsStep 2) [.mkfile ['/', 'a'], .mkfile ['/', 'a']] Vfs.boot,
      ∀ nd ∈ s.tree rootdir, ¬ (nd.child.map (nameOf s.tree)).Nodup := by decide
  have hroot : ∀ s ∈ Runs.run (vfsStep 2) [.mkfile ['/', 'a'], .mkfile ['/', 'a']] Vfs.boot,
      (s.tree rootdir).isSome := by decide
  obtain ⟨nd, hnd⟩ := Option.isSome_iff_exists.mp (hroot s hs)
  exact ⟨s, nd, hs, hnd, hbad s hs nd hnd⟩

end CoolPotOS
