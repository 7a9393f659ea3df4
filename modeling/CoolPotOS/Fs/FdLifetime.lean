import CoolPotOS.Fs.Fds

namespace CoolPotOS

open Function List Option

variable {depth : ℕ} {skip skip' : Option ℕ} {count count' : ℕ → ℕ} {s s' : Vfs}

/-- Every descriptor counted has its node, and the count of a removed node covers them, except maybe
for a node that is being removed. -/
structure Held (skip : Option ℕ) (count : ℕ → ℕ) (s : Vfs) : Prop where
  root : ∃ nd, s.node rootdir = some nd ∧ nd.kind = .dir ∧ nd.delete = false
  bounded : ∀ n nd, s.node n = some nd → n < s.next ∧ (∀ p, nd.parent = some p → p < s.next) ∧
    ∀ m, nd.linkto = some m → m < s.next
  parent : ∀ n nd p pd, s.node n = some nd → nd.parent = some p → s.node p = some pd →
    pd.kind = .dir
  linkto : ∀ n nd m md, s.node n = some nd → nd.linkto = some m → s.node m = some md →
    md.kind ≠ .symlink
  open_node : ∀ n, 0 < count n → ∃ nd, s.node n = some nd ∧ nd.kind ≠ .symlink
  removed : ∀ n nd, skip ≠ some n → s.node n = some nd → nd.delete → nd.kind ≠ .dir ∧
    (s.wrapped = false → count n ≤ nd.refcount ∧ nd.refcount < 2 ^ 32)

theorem held_boot : Held none (fun _ => 0) Vfs.boot := by
  have hnode : ∀ n nd, Vfs.boot.node n = some nd → n = rootdir ∧ nd.parent = none ∧
      nd.linkto = none ∧ nd.delete = false := by
    intro n nd h
    unfold Vfs.boot at h
    simp only [update_apply] at h
    split_ifs at h with hn
    cases h
    exact ⟨hn, rfl, rfl, rfl⟩
  constructor
  · exact ⟨_, rfl, rfl, rfl⟩
  · intro n nd hnd
    obtain ⟨rfl, hpar, hto, -⟩ := hnode n nd hnd
    rw [hpar, hto]
    exact ⟨Nat.one_pos, fun _ h => (nomatch h), fun _ h => (nomatch h)⟩
  · intro n nd p pd hnd hp
    rw [(hnode n nd hnd).2.1] at hp
    cases hp
  · intro n nd m md hnd hm
    rw [(hnode n nd hnd).2.2.1] at hm
    cases hm
  · exact fun n hn => absurd hn (lt_irrefl 0)
  · intro n nd _ hnd hd
    rw [(hnode n nd hnd).2.2.2] at hd
    cases hd

theorem Held.of_nodes (h : Held skip count s) (hnext : s'.next = s.next)
    (hnode : ∀ n nd', s'.node n = some nd' → ∃ nd, s.node n = some nd ∧ nd'.parent = nd.parent ∧
      nd'.linkto = nd.linkto ∧ nd'.kind = nd.kind)
    (hroot : ∃ nd', s'.node rootdir = some nd' ∧ nd'.delete = false)
    (hopen : ∀ n, 0 < count' n → (∃ nd, s.node n = some nd ∧ nd.kind ≠ .symlink) ∧ (s'.node n).isSome)
    (hremoved : ∀ n nd', skip' ≠ some n → s'.node n = some nd' → nd'.delete → nd'.kind ≠ .dir ∧
      (s'.wrapped = false → count' n ≤ nd'.refcount ∧ nd'.refcount < 2 ^ 32)) :
    Held skip' count' s' := by
  constructor
  · obtain ⟨nd', hnd', hd⟩ := hroot
    obtain ⟨nd, hnd, -, -, hkind⟩ := hnode rootdir nd' hnd'
    obtain ⟨rd, hrd, hdir, -⟩ := h.root
    rw [hnd] at hrd
    cases hrd
    exact ⟨nd', hnd', hkind.trans hdir, hd⟩
  · intro n nd' hnd'
    obtain ⟨nd, hnd, hpar, hto, -⟩ := hnode n nd' hnd'
    rw [hpar, hto, hnext]
    exact h.bounded n nd hnd
  · intro n nd' p pd' hnd' hp hpd'
    obtain ⟨nd, hnd, hpar, -, -⟩ := hnode n nd' hnd'
    obtain ⟨pd, hpd, -, -, hkind⟩ := hnode p pd' hpd'
    exact hkind.trans (h.parent n nd p pd hnd (hpar ▸ hp) hpd)
  · intro n nd' m md' hnd' hm hmd'
    obtain ⟨nd, hnd, -, hto, -⟩ := hnode n nd' hnd'
    obtain ⟨md, hmd, -, -, hkind⟩ := hnode m md' hmd'
    exact hkind ▸ h.linkto n nd m md hnd (hto ▸ hm) hmd
  · intro n hn
    obtain ⟨⟨nd, hnd, hk⟩, hsome⟩ := hopen n hn
    obtain ⟨nd', hnd'⟩ := isSome_iff_exists.mp hsome
    obtain ⟨nd1, hnd1, -, -, hkind⟩ := hnode n nd' hnd'
    rw [hnd] at hnd1
    cases hnd1
    exact ⟨nd', hnd', hkind ▸ hk⟩
  · exact hremoved

variable {n p r m pid fd node : ℕ} {nd' nd : VfsNode} {res : Except VfsError Unit} {path : List Char}
  {fdts : List (List (Option ℕ))} {fdt : List (Option ℕ)} {alloc : Bool} {fs' fs : Files} {x : Option ℕ}

theorem Touched.node_eq (ht : Touched s s') (hnd' : s'.node n = some nd') :
    ∃ nd, s.node n = some nd ∧ nd.toTreeNode = nd'.toTreeNode := by
  have htree : s'.tree n = some nd'.toTreeNode := Vfs.tree_eq_some.mpr ⟨nd', hnd', rfl⟩
  rw [ht.tree_eq] at htree
  exact Vfs.tree_eq_some.mp htree

theorem Touched.isSome_node (ht : Touched s s') (h : (s.node n).isSome) : (s'.node n).isSome := by
  obtain ⟨nd, hnd⟩ := isSome_iff_exists.mp h
  have htree : s.tree n = some nd.toTreeNode := Vfs.tree_eq_some.mpr ⟨nd, hnd, rfl⟩
  rw [← ht.tree_eq] at htree
  obtain ⟨nd', hnd', -⟩ := Vfs.tree_eq_some.mp htree
  exact isSome_of_eq_some hnd'

theorem Held.touched (h : Held none count s) (ht : Touched s s') : Held none count s' := by
  refine h.of_nodes ht.next_eq ?_ ?_ ?_ ?_
  · intro n nd' hnd'
    obtain ⟨nd, hnd, heq⟩ := ht.node_eq hnd'
    exact ⟨nd, hnd, congrArg TreeNode.parent heq.symm, congrArg TreeNode.linkto heq.symm,
      congrArg TreeNode.kind heq.symm⟩
  · obtain ⟨rd, hrd, -, hd⟩ := h.root
    obtain ⟨rd', hrd'⟩ := isSome_iff_exists.mp (ht.isSome_node (isSome_of_eq_some hrd))
    refine ⟨rd', hrd', ?_⟩
    by_contra hd'
    obtain ⟨nd, hnd, hdel, -⟩ := ht.removed rootdir rd' hrd' (by simpa using hd')
    rw [hrd] at hnd
    cases hnd
    rw [hd] at hdel
    cases hdel
  · intro n hn
    obtain ⟨nd, hnd, hk⟩ := h.open_node n hn
    exact ⟨⟨nd, hnd, hk⟩, ht.isSome_node (isSome_of_eq_some hnd)⟩
  · intro n nd' _ hnd' hd'
    obtain ⟨nd, hnd, hd, hle⟩ := ht.removed n nd' hnd' hd'
    obtain ⟨nd1, hnd1, heq⟩ := ht.node_eq hnd'
    rw [hnd] at hnd1
    cases hnd1
    obtain ⟨hdir, hcount⟩ := h.removed n nd nofun hnd hd
    refine ⟨(congrArg TreeNode.kind heq) ▸ hdir, fun hw => ?_⟩
    obtain ⟨hcount, hlt⟩ := hcount (ht.wrapped hw)
    obtain ⟨hle, hlt'⟩ := hle hw hlt
    exact ⟨hcount.trans hle, hlt'⟩

theorem vfsNodeAlloc_node {name : List Char} {kind : FileKind}
    (h : (vfsNodeAlloc s p name kind).node n = some nd') :
    (n = s.next ∧ nd' = ⟨⟨some p, name, kind, [], none, none⟩, false, false, 1⟩) ∨
      ∃ nd, s.node n = some nd ∧ nd'.parent = nd.parent ∧ nd'.linkto = nd.linkto ∧
        nd'.kind = nd.kind ∧ nd'.delete = nd.delete ∧ nd'.refcount = nd.refcount := by
  unfold vfsNodeAlloc at h
  simp only [update_apply] at h
  split_ifs at h with hn
  · cases h
    exact .inl ⟨hn, rfl⟩
  · rw [Vfs.modify_node] at h
    split_ifs at h with hp
    · subst hp
      obtain ⟨nd, hnd, rfl⟩ := map_eq_some_iff.mp h
      exact .inr ⟨nd, hnd, rfl, rfl, rfl, rfl, rfl⟩
    · exact .inr ⟨nd', h, rfl, rfl, rfl, rfl, rfl⟩

theorem vfsNodeAlloc_isSome (name : List Char) (kind : FileKind) (h : (s.node n).isSome) :
    ((vfsNodeAlloc s p name kind).node n).isSome := by
  unfold vfsNodeAlloc
  simp only [update_apply]
  split_ifs
  · rfl
  · rw [Vfs.modify_node]
    split_ifs with hp
    · subst hp
      rwa [isSome_map]
    · exact h

theorem Held.append (h : Held none count s) {pd : TreeNode} (hp : s.tree p = some pd) (hdir : pd.kind = .dir)
    (name : List Char) (kind : FileKind) : Held none count (vfsNodeAlloc s p name kind) := by
  obtain ⟨pd, hpd, rfl⟩ := Vfs.tree_eq_some.mp hp
  have hplt := (h.bounded p pd hpd).1
  have hnew : ∀ n nd, s.node n = some nd → n ≠ s.next := fun n nd hnd =>
    (h.bounded n nd hnd).1.ne
  -- the name of a new node is not a place or a target yet
  constructor
  · obtain ⟨rd, hrd, hk, hd⟩ := h.root
    obtain ⟨rd', hrd'⟩ := isSome_iff_exists.mp
      (vfsNodeAlloc_isSome (p := p) name kind (isSome_of_eq_some hrd))
    obtain ⟨hn, -⟩ | ⟨nd, hnd, -, -, hk', hd', -⟩ := vfsNodeAlloc_node hrd'
    · exact absurd hn (hnew rootdir rd hrd)
    · rw [hrd] at hnd
      cases hnd
      exact ⟨rd', hrd', hk'.trans hk, hd'.trans hd⟩
  · intro n nd' hnd'
    have hnext : (vfsNodeAlloc s p name kind).next = s.next + 1 := rfl
    rw [hnext]
    obtain ⟨rfl, rfl⟩ | ⟨nd, hnd, hpar, hto, -, -, -⟩ := vfsNodeAlloc_node hnd'
    · refine ⟨Nat.lt_succ_self _, ?_, fun _ h => (nomatch h)⟩
      rintro q ⟨⟩
      omega
    · obtain ⟨hlt, hp', hm'⟩ := h.bounded n nd hnd
      rw [hpar, hto]
      exact ⟨by omega, fun q hq => Nat.lt_succ_of_lt (hp' q hq), fun m hm => Nat.lt_succ_of_lt (hm' m hm)⟩
  · intro n nd' q qd' hnd' hq hqd'
    obtain ⟨rfl, rfl⟩ | ⟨nd, hnd, hpar, -, -, -, -⟩ := vfsNodeAlloc_node hnd'
    · cases hq
      obtain ⟨rfl, -⟩ | ⟨qd, hqd, -, -, hk, -, -⟩ := vfsNodeAlloc_node hqd'
      · exact absurd rfl (hnew s.next pd hpd)
      · rw [hpd] at hqd
        cases hqd
        exact hk.trans hdir
    · rw [hpar] at hq
      obtain ⟨rfl, -⟩ | ⟨qd, hqd, -, -, hk, -, -⟩ := vfsNodeAlloc_node hqd'
      · exact absurd ((h.bounded n nd hnd).2.1 s.next hq) (lt_irrefl _)
      · exact hk.trans (h.parent n nd q qd hnd hq hqd)
  · intro n nd' m md' hnd' hm hmd'
    obtain ⟨rfl, rfl⟩ | ⟨nd, hnd, -, hto, -, -, -⟩ := vfsNodeAlloc_node hnd'
    · cases hm
    · rw [hto] at hm
      obtain ⟨rfl, -⟩ | ⟨md, hmd, -, -, hk, -, -⟩ := vfsNodeAlloc_node hmd'
      · exact absurd ((h.bounded n nd hnd).2.2 s.next hm) (lt_irrefl _)
      · exact hk ▸ h.linkto n nd m md hnd hm hmd
  · intro n hn
    obtain ⟨nd, hnd, hk⟩ := h.open_node n hn
    obtain ⟨nd', hnd'⟩ := isSome_iff_exists.mp
      (vfsNodeAlloc_isSome (p := p) name kind (isSome_of_eq_some hnd))
    obtain ⟨hn', -⟩ | ⟨nd1, hnd1, -, -, hk', -, -⟩ := vfsNodeAlloc_node hnd'
    · exact absurd hn' (hnew n nd hnd)
    · rw [hnd] at hnd1
      cases hnd1
      exact ⟨nd', hnd', hk' ▸ hk⟩
  · intro n nd' hskip hnd' hd'
    obtain ⟨rfl, rfl⟩ | ⟨nd, hnd, -, -, hk, hd, hrc⟩ := vfsNodeAlloc_node hnd'
    · cases hd'
    · rw [hk, hrc]
      exact h.removed n nd hskip hnd (hd ▸ hd')

theorem Held.lookup_kind (h : Held none count s) {str : List Char} {vis : List ℕ}
    (hlookup : lookup depth s.tree str = some (some r, vis)) :
    r < s.next ∧ ∀ nd, s.node r = some nd → nd.kind ≠ .symlink := by
  refine lookup_result (Q := fun n => n < s.next ∧ ∀ nd, s.node n = some nd → nd.kind ≠ .symlink)
    ?_ ?_ ?_ ?_ hlookup
  · obtain ⟨rd, hrd, hdir, -⟩ := h.root
    refine ⟨(h.bounded rootdir rd hrd).1, fun nd hnd => ?_⟩
    rw [hrd] at hnd
    cases hnd
    rw [hdir]
    decide
  · intro n nd p _ hnd hp
    obtain ⟨vd, hvd, rfl⟩ := Vfs.tree_eq_some.mp hnd
    refine ⟨(h.bounded n vd hvd).2.1 p hp, fun pd hpd => ?_⟩
    rw [h.parent n vd p pd hvd hp hpd]
    decide
  · intro n nd hnd hk
    obtain ⟨vd, hvd, rfl⟩ := Vfs.tree_eq_some.mp hnd
    refine ⟨(h.bounded n vd hvd).1, fun nd' hnd' => ?_⟩
    rw [hvd] at hnd'
    cases hnd'
    exact hk
  · intro n nd m hnd hm
    obtain ⟨vd, hvd, rfl⟩ := Vfs.tree_eq_some.mp hnd
    exact ⟨(h.bounded n vd hvd).2.2 m hm, fun md hmd => h.linkto n vd m md hvd hm hmd⟩

theorem Held.link (h : Held none count s) {r : Option ℕ} {target : List Char} {vis : List ℕ}
    (hlookup : lookup depth s.tree target = some (r, vis)) (n : ℕ) :
    Held none count (s.modify n fun nd => { nd with linkto := r, linktoPath := some target }) := by
  have hnode : ∀ m nd', (s.modify n fun nd =>
      { nd with linkto := r, linktoPath := some target }).node m = some nd' →
      ∃ nd, s.node m = some nd ∧ nd'.parent = nd.parent ∧
        (nd'.linkto = nd.linkto ∨ nd'.linkto = r) ∧ nd'.kind = nd.kind ∧ nd'.delete = nd.delete ∧
        nd'.refcount = nd.refcount := by
    intro m nd' hnd'
    rw [Vfs.modify_node] at hnd'
    split_ifs at hnd' with hm
    · subst hm
      obtain ⟨nd, hnd, rfl⟩ := map_eq_some_iff.mp hnd'
      exact ⟨nd, hnd, rfl, .inr rfl, rfl, rfl, rfl⟩
    · exact ⟨nd', hnd', rfl, .inl rfl, rfl, rfl, rfl⟩
  have hsome : ∀ m nd, s.node m = some nd → ∃ nd', (s.modify n fun nd =>
      { nd with linkto := r, linktoPath := some target }).node m = some nd' ∧ nd'.kind = nd.kind ∧
        nd'.delete = nd.delete := by
    intro m nd hnd
    rw [Vfs.modify_node]
    split_ifs with hm
    · subst hm
      rw [hnd]
      exact ⟨_, rfl, rfl, rfl⟩
    · exact ⟨nd, hnd, rfl, rfl⟩
  constructor
  · obtain ⟨rd, hrd, hk, hd⟩ := h.root
    obtain ⟨rd', hrd', hk', hd'⟩ := hsome rootdir rd hrd
    exact ⟨rd', hrd', hk'.trans hk, hd'.trans hd⟩
  · intro m nd' hnd'
    obtain ⟨nd, hnd, hpar, hto, -, -, -⟩ := hnode m nd' hnd'
    obtain ⟨hlt, hp, hm⟩ := h.bounded m nd hnd
    refine ⟨hlt, hpar ▸ hp, fun k hk => ?_⟩
    obtain hto | hto := hto
    · exact hm k (hto ▸ hk)
    · obtain rfl : r = some k := hto.symm.trans hk
      exact (h.lookup_kind hlookup).1
  · intro m nd' p pd' hnd' hp hpd'
    obtain ⟨nd, hnd, hpar, -, -, -, -⟩ := hnode m nd' hnd'
    obtain ⟨pd, hpd, -, -, hk, -, -⟩ := hnode p pd' hpd'
    exact hk.trans (h.parent m nd p pd hnd (hpar ▸ hp) hpd)
  · intro m nd' k kd' hnd' hk hkd'
    obtain ⟨nd, hnd, -, hto, -, -, -⟩ := hnode m nd' hnd'
    obtain ⟨kd, hkd, -, -, hkind, -, -⟩ := hnode k kd' hkd'
    rw [hkind]
    obtain hto | hto := hto
    · exact h.linkto m nd k kd hnd (hto ▸ hk) hkd
    · obtain rfl : r = some k := hto.symm.trans hk
      exact (h.lookup_kind hlookup).2 kd hkd
  · intro m hm
    obtain ⟨nd, hnd, hk⟩ := h.open_node m hm
    obtain ⟨nd', hnd', hk', -⟩ := hsome m nd hnd
    exact ⟨nd', hnd', hk' ▸ hk⟩
  · intro m nd' hskip hnd' hd'
    obtain ⟨nd, hnd, -, -, hk, hd, hrc⟩ := hnode m nd' hnd'
    rw [hk, hrc]
    exact h.removed m nd hskip hnd (hd ▸ hd')

theorem held_growing (depth : ℕ) (count : ℕ → ℕ) (s0 : Vfs) : Growing depth (fun _ _ _ => True)
    fun s => Held none count s ∧ (s.wrapped = false → s0.wrapped = false) := by
  constructor
  · rintro s ⟨h, -⟩
    obtain ⟨rd, hrd, hdir, -⟩ := h.root
    exact ⟨rd.toTreeNode, Vfs.tree_eq_some.mpr ⟨rd, hrd, rfl⟩, hdir⟩
  · rintro s n nd p pd ⟨h, -⟩ hnd hp hpd
    obtain ⟨vd, hvd, rfl⟩ := Vfs.tree_eq_some.mp hnd
    obtain ⟨wd, hwd, rfl⟩ := Vfs.tree_eq_some.mp hpd
    exact h.parent n vd p wd hvd hp hwd
  · exact fun s s' ht h => ⟨h.1.touched ht, fun hw => h.2 (ht.wrapped hw)⟩
  · exact fun s p pd name kind h hp hdir _ _ => ⟨h.1.append hp hdir name kind, h.2⟩
  · intro s p pd name target s' r h hp hdir _ hopen
    obtain ⟨ht, vis, hlookup⟩ := vfsOpen_lookup hopen
    rw [← ht.tree_eq] at hlookup
    exact ⟨((h.1.append hp hdir name .symlink).touched ht).link hlookup s.next, fun hw => h.2 (ht.wrapped hw)⟩

theorem decRef_lt (refcount : ℕ) : decRef refcount < 2 ^ 32 := Nat.mod_lt _ (by norm_num)

theorem decRef_of_pos {refcount : ℕ} (h : 0 < refcount) (hlt : refcount < 2 ^ 32) :
    decRef refcount = refcount - 1 := by
  unfold decRef
  omega

theorem vfsClose_cases (h : vfsClose s n = some s') :
    (n = rootdir ∧ s' = s) ∨ ∃ nd, n ≠ rootdir ∧ s.node n = some nd ∧
      ((s' = s.modify n fun nd => { nd with refcount := decRef nd.refcount }) ∧
          (nd.kind = .dir → nd.delete → nd.proxy ∨ nd.child ≠ []) ∨
        vfsDestroy (s.modify n fun nd => { nd with refcount := decRef nd.refcount }) n nd = some s' ∧
          nd.delete ∧ (nd.kind = .dir ∨ decRef nd.refcount = 0)) := by
  unfold vfsClose at h
  split_ifs at h with hroot
  · cases h
    exact .inl ⟨hroot, rfl⟩
  obtain ⟨nd, hnd, hw⟩ := bind_eq_some_iff.mp h
  refine .inr ⟨nd, hroot, hnd, ?_⟩
  dsimp only at hw
  by_cases hproxy : nd.proxy
  · rw [if_pos hproxy] at hw
    cases hw
    exact .inl ⟨rfl, fun _ _ => .inl hproxy⟩
  rw [if_neg hproxy] at hw
  by_cases hdir : nd.kind = .dir
  · rw [if_pos hdir] at hw
    split_ifs at hw with hlive
    · cases hw
      refine .inl ⟨rfl, fun _ hd => .inr fun hnil => ?_⟩
      obtain hlive | hlive := hlive
      · exact hlive hd
      · unfold vfsDirHasLiveChild at hlive
        rw [hnil] at hlive
        cases hlive
    · push Not at hlive
      exact .inr ⟨hw, hlive.1, .inl hdir⟩
  · rw [if_neg hdir] at hw
    split_ifs at hw with hzero
    · cases hw
      exact .inl ⟨rfl, fun h => absurd h hdir⟩
    · push Not at hzero
      exact .inr ⟨hw, hzero.2, .inr hzero.1⟩

theorem vfsDestroy_node {md' : VfsNode} (h : vfsDestroy s n nd = some s') (hmd' : s'.node m = some md') :
    m ≠ n ∧ ∃ md, s.node m = some md ∧ md'.parent = md.parent ∧ md'.linkto = md.linkto ∧
      md'.kind = md.kind ∧ md'.delete = md.delete ∧ md'.refcount = md.refcount := by
  unfold vfsDestroy at h
  obtain ⟨p, -, h⟩ := bind_eq_some_iff.mp h
  obtain ⟨pd, -, h⟩ := bind_eq_some_iff.mp h
  split_ifs at h
  cases h
  simp only [update_apply] at hmd'
  split_ifs at hmd' with hm
  refine ⟨hm, ?_⟩
  rw [Vfs.modify_node] at hmd'
  split_ifs at hmd' with hp
  · subst hp
    obtain ⟨md, hmd, rfl⟩ := map_eq_some_iff.mp hmd'
    exact ⟨md, hmd, rfl, rfl, rfl, rfl, rfl⟩
  · exact ⟨md', hmd', rfl, rfl, rfl, rfl, rfl⟩

theorem vfsDestroy_isSome (h : vfsDestroy s n nd = some s') (hm : m ≠ n) (hmd : (s.node m).isSome) :
    (s'.node m).isSome ∧ s'.next = s.next ∧ s'.wrapped = s.wrapped := by
  unfold vfsDestroy at h
  obtain ⟨p, -, h⟩ := bind_eq_some_iff.mp h
  obtain ⟨pd, -, h⟩ := bind_eq_some_iff.mp h
  split_ifs at h
  cases h
  refine ⟨?_, rfl, rfl⟩
  dsimp only
  rw [update_of_ne hm, Vfs.modify_node]
  split_ifs with hp
  · subst hp
    rwa [isSome_map]
  · exact hmd

theorem isSome_modify {f : VfsNode → VfsNode} (h : (s.node m).isSome) : ((s.modify n f).node m).isSome := by
  rw [Vfs.modify_node]
  split_ifs with hm
  · subst hm
    rwa [isSome_map]
  · exact h

theorem Held.close (h : Held skip count s) (hskip : ∀ m, skip = some m → m = n) (hle : ∀ m, count' m ≤ count m)
    (hn : ∀ nd, s.node n = some nd → nd.delete → count' n ≤ decRef nd.refcount ∧ (nd.kind = .dir → nd.proxy = false ∧ nd.child = [] ∧ count' n = 0))
    (hclose : vfsClose s n = some s') : Held none count' s' := by
  have hothers : ∀ m, m ≠ n → skip ≠ some m := fun m hm hs => hm (hskip m hs)
  obtain ⟨hroot, rfl⟩ | ⟨nd, hroot, hnd, hcase⟩ := vfsClose_cases hclose
  · refine h.of_nodes rfl (fun m md hmd => ⟨md, hmd, rfl, rfl, rfl⟩) ?_ ?_ ?_
    · obtain ⟨rd, hrd, -, hd⟩ := h.root
      exact ⟨rd, hrd, hd⟩
    · intro m hm
      obtain ⟨md, hmd, hk⟩ := h.open_node m (hm.trans_le (hle m))
      exact ⟨⟨md, hmd, hk⟩, isSome_of_eq_some hmd⟩
    · intro m md _ hmd hd
      have hm : m ≠ n := by
        rintro rfl
        obtain ⟨rd, hrd, -, hd'⟩ := h.root
        rw [hroot, hrd] at hmd
        cases hmd
        rw [hd'] at hd
        cases hd
      obtain ⟨hdir, hcount⟩ := h.removed m md (hothers m hm) hmd hd
      exact ⟨hdir, fun hw => ⟨(hle m).trans (hcount hw).1, (hcount hw).2⟩⟩
  -- the nodes while the count is written back
  have hdec : ∀ m md', (s.modify n fun nd => { nd with refcount := decRef nd.refcount }).node m =
      some md' → ∃ md, s.node m = some md ∧ md'.parent = md.parent ∧ md'.linkto = md.linkto ∧
        md'.kind = md.kind ∧ md'.delete = md.delete ∧
        md'.refcount = if m = n then decRef md.refcount else md.refcount := by
    intro m md' hmd'
    rw [Vfs.modify_node] at hmd'
    split_ifs at hmd' with hm
    · subst hm
      obtain ⟨md, hmd, rfl⟩ := map_eq_some_iff.mp hmd'
      exact ⟨md, hmd, rfl, rfl, rfl, rfl, (if_pos rfl).symm⟩
    · exact ⟨md', hmd', rfl, rfl, rfl, rfl, (if_neg hm).symm⟩
  have hremoved : ∀ m md, m ≠ n → s.node m = some md → md.delete → md.kind ≠ .dir ∧
      (s.wrapped = false → count' m ≤ md.refcount ∧ md.refcount < 2 ^ 32) := by
    intro m md hm hmd hd
    obtain ⟨hdir, hcount⟩ := h.removed m md (hothers m hm) hmd hd
    exact ⟨hdir, fun hw => ⟨(hle m).trans (hcount hw).1, (hcount hw).2⟩⟩
  obtain ⟨rd, hrd, -, hrootd⟩ := h.root
  obtain ⟨rfl, hkept⟩ | ⟨hdestroy, hd, hgone⟩ := hcase
  · refine h.of_nodes rfl ?_ ?_ ?_ ?_
    · intro m md' hmd'
      obtain ⟨md, hmd, hpar, hto, hk, -, -⟩ := hdec m md' hmd'
      exact ⟨md, hmd, hpar, hto, hk⟩
    · obtain ⟨rd', hrd'⟩ := isSome_iff_exists.mp (isSome_modify (isSome_of_eq_some hrd))
      obtain ⟨rd1, hrd1, -, -, -, hd', -⟩ := hdec rootdir rd' hrd'
      rw [hrd] at hrd1
      cases hrd1
      exact ⟨rd', hrd', hd'.trans hrootd⟩
    · intro m hm
      obtain ⟨md, hmd, hk⟩ := h.open_node m (hm.trans_le (hle m))
      exact ⟨⟨md, hmd, hk⟩, isSome_modify (isSome_of_eq_some hmd)⟩
    · intro m md' _ hmd' hd'
      obtain ⟨md, hmd, -, -, hk, hd, hrc⟩ := hdec m md' hmd'
      rw [hk, hrc]
      rw [hd] at hd'
      by_cases hm : m = n
      · subst hm
        rw [if_pos rfl]
        rw [hnd] at hmd
        cases hmd
        obtain ⟨hcount, hdir⟩ := hn nd hnd hd'
        refine ⟨fun hkd => ?_, fun _ => ⟨hcount, decRef_lt _⟩⟩
        obtain ⟨hproxy, hnil, -⟩ := hdir hkd
        obtain hp | hc := hkept hkd hd'
        · rw [hproxy] at hp
          cases hp
        · exact hc hnil
      · rw [if_neg hm]
        exact hremoved m md hm hmd hd'
  · obtain ⟨hcount, hdir⟩ := hn nd hnd hd
    have hzero : count' n = 0 := by
      obtain hk | hrc := hgone
      · exact (hdir hk).2.2
      · rw [hrc] at hcount
        exact Nat.le_zero.mp hcount
    have hroot' := vfsDestroy_isSome hdestroy (Ne.symm hroot) (isSome_modify (isSome_of_eq_some hrd))
    refine h.of_nodes hroot'.2.1 ?_ ?_ ?_ ?_
    · intro m md'' hmd''
      obtain ⟨-, md', hmd', hpar', hto', hk', -, -⟩ := vfsDestroy_node hdestroy hmd''
      obtain ⟨md, hmd, hpar, hto, hk, -, -⟩ := hdec m md' hmd'
      exact ⟨md, hmd, hpar'.trans hpar, hto'.trans hto, hk'.trans hk⟩
    · obtain ⟨rd'', hrd''⟩ := isSome_iff_exists.mp hroot'.1
      obtain ⟨-, rd', hrd', -, -, -, hd'', -⟩ := vfsDestroy_node hdestroy hrd''
      obtain ⟨rd1, hrd1, -, -, -, hd', -⟩ := hdec rootdir rd' hrd'
      rw [hrd] at hrd1
      cases hrd1
      exact ⟨rd'', hrd'', hd''.trans (hd'.trans hrootd)⟩
    · intro m hm
      have hmn : m ≠ n := by
        rintro rfl
        rw [hzero] at hm
        exact absurd hm (lt_irrefl 0)
      obtain ⟨md, hmd, hk⟩ := h.open_node m (hm.trans_le (hle m))
      exact ⟨⟨md, hmd, hk⟩, (vfsDestroy_isSome hdestroy hmn (isSome_modify (isSome_of_eq_some hmd))).1⟩
    · intro m md'' _ hmd'' hd''
      obtain ⟨hmn, md', hmd', -, -, hk', hd', hrc'⟩ := vfsDestroy_node hdestroy hmd''
      obtain ⟨md, hmd, -, -, hk, hd, hrc⟩ := hdec m md' hmd'
      rw [hk', hk, hrc', hrc, if_neg hmn, hroot'.2.2]
      exact hremoved m md hmn hmd (by rw [← hd, ← hd']; exact hd'')

theorem vfsClose_wrapped (h : vfsClose s n = some s') : s'.wrapped = s.wrapped := by
  obtain ⟨-, rfl⟩ | ⟨nd, -, -, ⟨rfl, -⟩ | ⟨hdestroy, -, -⟩⟩ := vfsClose_cases h
  · rfl
  · rfl
  · unfold vfsDestroy at hdestroy
    obtain ⟨p, -, hw⟩ := bind_eq_some_iff.mp hdestroy
    obtain ⟨pd, -, hw⟩ := bind_eq_some_iff.mp hw
    split_ifs at hw
    cases hw
    rfl

theorem vfsDelete_node {md' : VfsNode} (h : vfsDelete s n = some (s', res)) (hmd' : s'.node m = some md') :
    ∃ md, s.node m = some md ∧ md'.parent = md.parent ∧ md'.linkto = md.linkto ∧
      md'.kind = md.kind ∧ md'.refcount = md.refcount ∧ md'.proxy = md.proxy ∧
      (md.child = [] → md'.child = []) ∧ (m ≠ n ∨ m = rootdir → md'.delete = md.delete) := by
  unfold vfsDelete at h
  obtain ⟨nd, hnd, hw⟩ := bind_eq_some_iff.mp h
  by_cases hroot : n = rootdir
  · rw [if_pos hroot] at hw
    cases hw
    exact ⟨md', hmd', rfl, rfl, rfl, rfl, rfl, id, fun _ => rfl⟩
  rw [if_neg hroot] at hw
  split_ifs at hw
  · cases hw
    exact ⟨md', hmd', rfl, rfl, rfl, rfl, rfl, id, fun _ => rfl⟩
  -- the mark, then the list
  have hmark : ∀ m md', (s.modify n fun nd => { nd with delete := true }).node m = some md' →
      ∃ md, s.node m = some md ∧ md'.parent = md.parent ∧ md'.linkto = md.linkto ∧
        md'.kind = md.kind ∧ md'.refcount = md.refcount ∧ md'.proxy = md.proxy ∧
        (md.child = [] → md'.child = []) ∧ (m ≠ n ∨ m = rootdir → md'.delete = md.delete) := by
    intro m md' hmd'
    rw [Vfs.modify_node] at hmd'
    split_ifs at hmd' with hm
    · subst hm
      obtain ⟨md, hmd, rfl⟩ := map_eq_some_iff.mp hmd'
      exact ⟨md, hmd, rfl, rfl, rfl, rfl, rfl, id, fun hor => hor.elim (absurd rfl) (absurd · hroot)⟩
    · exact ⟨md', hmd', rfl, rfl, rfl, rfl, rfl, id, fun _ => rfl⟩
  dsimp only at hw
  cases hp : nd.parent with
  | none =>
    rw [hp] at hw
    cases hw
    exact hmark m md' hmd'
  | some p =>
    rw [hp] at hw
    obtain ⟨pd, -, hw⟩ := bind_eq_some_iff.mp hw
    cases hw
    rw [Vfs.modify_node] at hmd'
    split_ifs at hmd' with hm
    · subst hm
      obtain ⟨md1, hmd1, rfl⟩ := map_eq_some_iff.mp hmd'
      obtain ⟨md, hmd, h1, h2, h3, h4, h5, hchild, h6⟩ := hmark m md1 hmd1
      refine ⟨md, hmd, h1, h2, h3, h4, h5, fun hnil => ?_, h6⟩
      dsimp only
      rw [hchild hnil, erase_nil]
    · exact hmark m md' hmd'

theorem vfsDelete_isSome (h : vfsDelete s n = some (s', res)) (hmd : (s.node m).isSome) :
    (s'.node m).isSome ∧ s'.next = s.next ∧ s'.wrapped = s.wrapped := by
  unfold vfsDelete at h
  obtain ⟨nd, hnd, hw⟩ := bind_eq_some_iff.mp h
  split_ifs at hw
  · cases hw
    exact ⟨hmd, rfl, rfl⟩
  · cases hw
    exact ⟨hmd, rfl, rfl⟩
  · dsimp only at hw
    cases hp : nd.parent with
    | none =>
      rw [hp] at hw
      cases hw
      exact ⟨isSome_modify hmd, rfl, rfl⟩
    | some p =>
      rw [hp] at hw
      obtain ⟨pd, -, hw⟩ := bind_eq_some_iff.mp hw
      cases hw
      exact ⟨isSome_modify (isSome_modify hmd), rfl, rfl⟩

theorem Held.delete (h : Held none count s) (hdelete : vfsDelete s n = some (s', res)) :
    Held (some n) count s' := by
  obtain ⟨rd, hrd, -, hd⟩ := h.root
  obtain ⟨hsome, hnext, hwrapped⟩ := vfsDelete_isSome hdelete (isSome_of_eq_some hrd)
  refine h.of_nodes hnext ?_ ?_ ?_ ?_
  · intro m md' hmd'
    obtain ⟨md, hmd, hpar, hto, hk, -⟩ := vfsDelete_node hdelete hmd'
    exact ⟨md, hmd, hpar, hto, hk⟩
  · obtain ⟨rd', hrd'⟩ := isSome_iff_exists.mp hsome
    obtain ⟨rd1, hrd1, -, -, -, -, -, -, hd'⟩ := vfsDelete_node hdelete hrd'
    rw [hrd] at hrd1
    cases hrd1
    exact ⟨rd', hrd', (hd' (.inr rfl)).trans hd⟩
  · intro m hm
    obtain ⟨md, hmd, hk⟩ := h.open_node m hm
    exact ⟨⟨md, hmd, hk⟩, (vfsDelete_isSome hdelete (isSome_of_eq_some hmd)).1⟩
  · intro m md' hm hmd' hdel
    obtain ⟨md, hmd, -, -, hk, hrc, -, -, hd'⟩ := vfsDelete_node hdelete hmd'
    have hmn : m ≠ n := fun hmn => hm (congrArg some hmn.symm)
    rw [hk, hrc, hwrapped]
    exact h.removed m md nofun hmd (hd' (.inl hmn) ▸ hdel)

theorem Held.remove (h : Held none count s) (hnd : s.node n = some nd) (hproxy : nd.proxy = false)
    (hfile : nd.kind ≠ .dir → count n ≤ decRef nd.refcount)
    (hdir : nd.kind = .dir → nd.child = [] ∧ (n ≠ rootdir → count n = 0)) (hcall : deleteAndClose s n = some s') :
    Held none count s' := by
  unfold deleteAndClose at hcall
  obtain ⟨⟨s1, res⟩, hdelete, hclose⟩ := bind_eq_some_iff.mp hcall
  refine (h.delete hdelete).close (fun m hm => (Option.some.inj hm).symm) (fun _ => le_rfl) ?_ hclose
  intro nd' hnd' hd
  obtain ⟨nd1, hnd1, -, -, hk, hrc, hp, hchild, hd'⟩ := vfsDelete_node hdelete hnd'
  rw [hnd] at hnd1
  cases hnd1
  have hroot : n ≠ rootdir := by
    rintro rfl
    obtain ⟨rd, hrd, -, hrd'⟩ := h.root
    rw [hnd] at hrd
    cases hrd
    rw [hd' (.inr rfl), hrd'] at hd
    cases hd
  rw [hk, hrc, hp]
  by_cases hkd : nd.kind = .dir
  · obtain ⟨hnil, hzero⟩ := hdir hkd
    rw [hzero hroot]
    exact ⟨Nat.zero_le _, fun _ => ⟨hproxy, hchild hnil, rfl⟩⟩
  · exact ⟨hfile hkd, fun hk' => absurd hk' hkd⟩

theorem Held.dup (h : Held none count s) (hw : (incRef s n).wrapped = false)
    (hn : ∃ nd, s.node n = some nd ∧ nd.kind ≠ .symlink)
    (hcount : ∀ m, count' m ≤ count m + if m = n then 1 else 0) : Held none count' (incRef s n) := by
  have h' := h.touched (touched_incRef s n)
  refine h'.of_nodes rfl (fun m md hmd => ⟨md, hmd, rfl, rfl, rfl⟩) ?_ ?_ ?_
  · obtain ⟨rd, hrd, -, hd⟩ := h'.root
    exact ⟨rd, hrd, hd⟩
  · intro m hm
    suffices hnode : ∃ md, (incRef s n).node m = some md ∧ md.kind ≠ .symlink by
      obtain ⟨md, hmd, hk⟩ := hnode
      exact ⟨⟨md, hmd, hk⟩, isSome_of_eq_some hmd⟩
    by_cases hmn : m = n
    · subst hmn
      obtain ⟨nd, hnd, hk⟩ := hn
      obtain ⟨nd', hnd'⟩ := isSome_iff_exists.mp
        ((touched_incRef s m).isSome_node (isSome_of_eq_some hnd))
      obtain ⟨nd1, hnd1, heq⟩ := (touched_incRef s m).node_eq hnd'
      rw [hnd] at hnd1
      cases hnd1
      exact ⟨nd', hnd', (congrArg TreeNode.kind heq) ▸ hk⟩
    · have hle := hcount m
      rw [if_neg hmn, add_zero] at hle
      exact h'.open_node m (hm.trans_le hle)
  · intro m md' _ hmd' hd'
    obtain ⟨hdir, hold⟩ := h'.removed m md' nofun hmd' hd'
    refine ⟨hdir, fun _ => ?_⟩
    obtain ⟨hle', hlt'⟩ := hold hw
    refine ⟨?_, hlt'⟩
    have hle := hcount m
    by_cases hmn : m = n
    · subst hmn
      rw [if_pos rfl] at hle
      obtain ⟨nd, hnd, hd, -⟩ := (touched_incRef s m).removed m md' hmd' hd'
      obtain ⟨hnode, -⟩ := refcount_incRef hw hnd hd
      rw [hnode] at hmd'
      cases hmd'
      have hold := ((h.removed m nd nofun hnd hd).2 ((touched_incRef s m).wrapped hw)).1
      dsimp only
      omega
    · rw [if_neg hmn] at hle
      omega

def LastMarked : List (List Char × Bool) → Prop
  | [] => True
  | (_, last) :: toks => (toks = [] → last = true) ∧ LastMarked toks

theorem lastMarked_pathTokens {names : List (List Char)} (h : ∀ n ∈ names, IsToken n) :
    LastMarked (pathTokens (['/'].intercalate names)) := by
  induction names with
  | nil => trivial
  | cons name names ih =>
    obtain ⟨hname, h⟩ := forall_mem_cons.mp h
    rw [pathTokens_cons hname h]
    refine ⟨fun hnil => ?_, ih h⟩
    have hnames := pathTokens_names h
    rw [hnil, map_nil] at hnames
    rw [← hnames]
    rfl

theorem normalizePath_tokens (path : List Char) : (normalizePath path).head? = some '/' ∧
      (∀ tok ∈ pathTokens (normalizePath path).tail, ValidName tok.1) ∧
      LastMarked (pathTokens (normalizePath path).tail) := by
  obtain ⟨names, hnames, heq⟩ := normalizePath_eq path
  have htokens : ∀ n ∈ names, IsToken n := fun n hn => (hnames n hn).1
  rw [heq]
  refine ⟨rfl, fun tok htok => ?_, lastMarked_pathTokens htokens⟩
  have hmem := List.mem_map_of_mem (f := Prod.fst) htok
  unfold joinPath at hmem
  rw [tail_cons, pathTokens_names htokens] at hmem
  exact hnames tok.1 hmem

theorem vfsWalk_bumped {resolve : Vfs → ℕ → Option (Vfs × Option ℕ)}
    (hres : ∀ s n s' r, resolve s n = some (s', r) → Touched s s') {toks : List (List Char × Bool)}
    (hnames : ∀ tok ∈ toks, ValidName tok.1) (hne : toks ≠ []) {current : ℕ}
    (hwalk : vfsWalk false resolve toks s current = some (s', some r)) :
    Touched s s' ∧ ∃ nd', s'.node r = some nd' ∧ (nd'.delete → ∃ nd, s.node r = some nd ∧
      nd.delete ∧ (s'.wrapped = false → nd.refcount < 2 ^ 32 → nd.refcount + 1 ≤ nd'.refcount)) := by
  induction toks generalizing s current with
  | nil => exact absurd rfl hne
  | cons tok toks ih =>
    obtain ⟨buf, last⟩ := tok
    obtain ⟨hname, hnames⟩ := forall_mem_cons.mp hnames
    unfold vfsWalk at hwalk
    obtain ⟨cur, hcur, hw⟩ := bind_eq_some_iff.mp hwalk
    rw [if_neg hname.2.1, if_neg hname.2.2] at hw
    -- the rest of the path, from a state with more marks
    have hrest : ∀ s1 next, Touched s s1 → toks ≠ [] →
        vfsWalk false resolve toks s1 next = some (s', some r) →
        Touched s s' ∧ ∃ nd', s'.node r = some nd' ∧ (nd'.delete → ∃ nd, s.node r = some nd ∧
          nd.delete ∧ (s'.wrapped = false → nd.refcount < 2 ^ 32 → nd.refcount + 1 ≤ nd'.refcount)) := by
      intro s1 next ht htoks hwalk
      obtain ⟨ht', nd', hnd', hbump⟩ := ih hnames htoks hwalk
      refine ⟨ht.trans ht', nd', hnd', fun hd' => ?_⟩
      obtain ⟨nd1, hnd1, hd1, hle1⟩ := hbump hd'
      obtain ⟨nd, hnd, hd, hle⟩ := ht.removed r nd1 hnd1 hd1
      refine ⟨nd, hnd, hd, fun hw hlt => ?_⟩
      obtain ⟨hle, hlt⟩ := hle (ht'.wrapped hw) hlt
      exact (Nat.succ_le_succ hle).trans (hle1 hw hlt)
    cases hfind : vfsChildFind s.tree cur buf with
    | none =>
      rw [hfind] at hw
      cases hw
    | some c =>
      rw [hfind] at hw
      obtain ⟨cd, hcd, hw⟩ := bind_eq_some_iff.mp hw
      have htouch := touched_doUpdate s c
      by_cases hlink : cd.kind ≠ .symlink
      · rw [if_pos hlink] at hw
        by_cases htoks : toks = []
        · subst htoks
          cases hw
          obtain ⟨vd, hvd, -⟩ := Vfs.tree_eq_some.mp hcd
          refine ⟨htouch, vd.plain, ?_, fun hd => by cases hd⟩
          unfold doUpdate
          rw [Vfs.modify_node, if_pos rfl, hvd, map_some]
        · exact hrest _ c htouch htoks hw
      rw [if_neg hlink, if_neg (by simp)] at hw
      by_cases hbad : cd.parent.isNone ∨ (cd.linkto.isNone ∧ cd.linktoPath.isNone)
      · rw [if_pos hbad] at hw
        cases hw
      rw [if_neg hbad] at hw
      obtain ⟨⟨s2, target⟩, hr, hw⟩ := bind_eq_some_iff.mp hw
      cases target with
      | none => cases hw
      | some target =>
        obtain ⟨td, htd, hw⟩ := bind_eq_some_iff.mp hw
        have ht2 := (htouch.trans (touched_setProxy _ c)).trans (hres _ _ _ _ hr)
        have ht3 := ht2.trans (touched_incRef s2 target)
        by_cases htoks : toks = []
        · subst htoks
          cases hw
          obtain ⟨vd, hvd, -⟩ := Vfs.tree_eq_some.mp htd
          obtain ⟨nd', hnd'⟩ := isSome_iff_exists.mp
            ((touched_incRef s2 r).isSome_node (isSome_of_eq_some hvd))
          refine ⟨ht3, nd', hnd', fun hd' => ?_⟩
          obtain ⟨nd2, hnd2, hd2, -⟩ := (touched_incRef s2 r).removed r nd' hnd' hd'
          obtain ⟨nd, hnd, hd, hle⟩ := ht2.removed r nd2 hnd2 hd2
          refine ⟨nd, hnd, hd, fun hw hlt => ?_⟩
          obtain ⟨hnode, -⟩ := refcount_incRef hw hnd2 hd2
          rw [hnode] at hnd'
          cases hnd'
          exact Nat.succ_le_succ (hle ((touched_incRef s2 r).wrapped hw) hlt).1
        · exact hrest _ target ht3 htoks hw

theorem vfsWalk_plain {resolve : Vfs → ℕ → Option (Vfs × Option ℕ)} {toks : List (List Char × Bool)}
    (hnames : ∀ tok ∈ toks, ValidName tok.1) (hmarked : LastMarked toks) (hne : toks ≠ []) {current : ℕ}
    (hwalk : vfsWalk true resolve toks s current = some (s', some r)) (hnd' : s'.node r = some nd') :
    nd'.delete = false ∧ nd'.proxy = false := by
  induction toks generalizing s current with
  | nil => exact absurd rfl hne
  | cons tok toks ih =>
    obtain ⟨buf, last⟩ := tok
    obtain ⟨hname, hnames⟩ := forall_mem_cons.mp hnames
    unfold vfsWalk at hwalk
    obtain ⟨cur, hcur, hw⟩ := bind_eq_some_iff.mp hwalk
    rw [if_neg hname.2.1, if_neg hname.2.2] at hw
    have hplain : ∀ c, (doUpdate s c).node c = some nd' → nd'.delete = false ∧ nd'.proxy = false := by
      intro c hc
      unfold doUpdate at hc
      rw [Vfs.modify_node, if_pos rfl] at hc
      obtain ⟨cd, -, rfl⟩ := map_eq_some_iff.mp hc
      exact ⟨rfl, rfl⟩
    cases hfind : vfsChildFind s.tree cur buf with
    | none =>
      rw [hfind] at hw
      cases hw
    | some c =>
      rw [hfind] at hw
      obtain ⟨cd, hcd, hw⟩ := bind_eq_some_iff.mp hw
      by_cases hlink : cd.kind ≠ .symlink
      · rw [if_pos hlink] at hw
        by_cases htoks : toks = []
        · subst htoks
          cases hw
          exact hplain r hnd'
        · exact ih hnames hmarked.2 htoks hw
      rw [if_neg hlink] at hw
      by_cases hlast : True ∧ last
      · rw [if_pos (by simpa using hlast)] at hw
        cases hw
        exact hplain r hnd'
      rw [if_neg (by simpa using hlast)] at hw
      have htoks : toks ≠ [] := fun hnil => hlast ⟨trivial, hmarked.1 hnil⟩
      by_cases hbad : cd.parent.isNone ∨ (cd.linkto.isNone ∧ cd.linktoPath.isNone)
      · rw [if_pos hbad] at hw
        cases hw
      rw [if_neg hbad] at hw
      obtain ⟨⟨s2, target⟩, hr, hw⟩ := bind_eq_some_iff.mp hw
      cases target with
      | none => cases hw
      | some target =>
        obtain ⟨td, htd, hw⟩ := bind_eq_some_iff.mp hw
        exact ih hnames hmarked.2 htoks hw

theorem Held.opened (h : Held none count s) (hopen : vfsOpen depth s (normalizePath path) = some (s', some r))
    (hw : s'.wrapped = false) :
    Held none count s' ∧ s.wrapped = false ∧ ∃ nd, s'.node r = some nd ∧ nd.kind ≠ .symlink ∧
      (nd.delete → count r + 1 ≤ nd.refcount ∧ nd.refcount < 2 ^ 32) := by
  obtain ⟨ht, vis, hlookup⟩ := vfsOpen_lookup hopen
  have h' := h.touched ht
  have hs := ht.wrapped hw
  rw [← ht.tree_eq] at hlookup
  refine ⟨h', hs, ?_⟩
  obtain ⟨habs, hnames, -⟩ := normalizePath_tokens path
  cases depth with
  | zero => cases hopen
  | succ depth =>
    rw [vfsOpen, if_pos habs] at hopen
    by_cases htoks : pathTokens (normalizePath path).tail = []
    · rw [htoks] at hopen
      cases hopen
      obtain ⟨rd, hrd, hdir, hd⟩ := h.root
      refine ⟨rd, hrd, by rw [hdir]; decide, fun hd' => ?_⟩
      rw [hd] at hd'
      cases hd'
    · obtain ⟨-, nd', hnd', hbump⟩ := vfsWalk_bumped
        (fun s n s' r hr => vfsResolveSymlinkTarget_touched hr) hnames htoks hopen
      refine ⟨nd', hnd', (h'.lookup_kind hlookup).2 nd' hnd', fun hd' => ?_⟩
      obtain ⟨nd, hnd, hd, hle⟩ := hbump hd'
      obtain ⟨hcount, hlt⟩ := (h.removed r nd nofun hnd hd).2 hs
      refine ⟨(Nat.succ_le_succ hcount).trans (hle hw hlt), ?_⟩
      exact ((h'.removed r nd' nofun hnd' hd').2 hw).2

theorem vfsOpenNofollow_touched {r : Option ℕ} (hopen : vfsOpenNofollow depth s path = some (s', r)) :
    Touched s s' := by
  have hf := vfsOpenNofollow_follows depth s path
  rw [hopen] at hf
  generalize lookupNofollow depth s.tree path = y at hf
  cases hf with
  | found ht => exact ht

theorem vfsOpenNofollow_plain (hopen : vfsOpenNofollow depth s (normalizePath path) = some (s', some r))
    (hnd : s'.node r = some nd) : r = rootdir ∨ nd.delete = false ∧ nd.proxy = false := by
  obtain ⟨habs, hnames, hmarked⟩ := normalizePath_tokens path
  rw [vfsOpenNofollow, if_pos habs] at hopen
  by_cases htoks : pathTokens (normalizePath path).tail = []
  · rw [htoks] at hopen
    cases hopen
    exact .inl rfl
  · exact .inr (vfsWalk_plain hnames hmarked htoks hopen hnd)

theorem fdCount_set (h : fdts[pid]? = some fdt) (fdt' : List (Option ℕ)) (n : ℕ) :
    fdCount (fdts.set pid fdt') n + fdt.count (some n) = fdCount fdts n + fdt'.count (some n) := by
  unfold fdCount
  induction fdts generalizing pid with
  | nil => cases h
  | cons f fdts ih =>
    cases pid with
    | zero =>
      cases h
      simp only [set_cons_zero, map_cons, sum_cons]
      omega
    | succ pid =>
      have := ih h
      simp only [set_cons_succ, map_cons, sum_cons]
      omega

theorem count_set {o : Option ℕ} (h : fdt[fd]? = some o) (o' x : Option ℕ) :
    (fdt.set fd o').count x + (if o = x then 1 else 0) = fdt.count x + if o' = x then 1 else 0 := by
  induction fdt generalizing fd with
  | nil => cases h
  | cons a fdt ih =>
    cases fd with
    | zero =>
      cases h
      simp only [set_cons_zero, count_cons, beq_iff_eq]
      omega
    | succ fd =>
      have := ih h
      simp only [set_cons_succ, count_cons]
      omega

theorem findFreeFd_spec (h : findFreeFd fdt = some fd) : fdt[fd]? = some none := by
  obtain ⟨hlt, hnone, -⟩ := findIdx?_eq_some_iff_getElem.mp h
  rw [List.getElem?_eq_getElem hlt]
  exact congrArg some (isNone_iff_eq_none.mp hnone)

theorem count_addFd {fdt' : List (Option ℕ)} (h : addFd fdt node alloc = some (fdt', fd)) (n : ℕ) :
    fdt'.count (some n) = fdt.count (some n) + if n = node then 1 else 0 := by
  have hset : ∀ fdt : List (Option ℕ), ∀ fd, findFreeFd fdt = some fd →
      (fdt.set fd (some node)).count (some n) = fdt.count (some n) + if n = node then 1 else 0 := by
    intro fdt fd hfree
    have hcount := count_set (findFreeFd_spec hfree) (some node) (some n)
    rw [if_neg nofun, add_zero] at hcount
    rw [hcount]
    simp only [Option.some.injEq, eq_comm]
  unfold addFd at h
  cases hfree : findFreeFd fdt with
  | some i =>
    rw [hfree] at h
    cases h
    exact hset fdt fd hfree
  | none =>
    rw [hfree] at h
    obtain ⟨fdt1, hexpand, hw⟩ := bind_eq_some_iff.mp h
    obtain ⟨i, hfree', heq⟩ := map_eq_some_iff.mp hw
    cases heq
    rw [hset fdt1 fd hfree']
    congr 1
    unfold expandFdsTable at hexpand
    dsimp only at hexpand
    split_ifs at hexpand
    all_goals
      cases hexpand
      simp [count_append, count_replicate]

theorem getFd_eq_some (h : getFd fdt fd = some node) :
    fdt[fd]? = some (some node) := join_eq_some_iff.mp h

theorem fdCount_pos (hfdt : fdt ∈ fdts) (hn : some n ∈ fdt) : 0 < fdCount fdts n := by
  have hcount : fdt.count (some n) ∈ fdts.map fun fdt => fdt.count (some n) :=
    List.mem_map.mpr ⟨fdt, hfdt, rfl⟩
  exact (count_pos_iff.mpr hn).trans_le (single_le_sum (fun _ _ => Nat.zero_le _) _ hcount)

theorem fdCount_close (hfdt : fdts[pid]? = some fdt) (hfd : fdt[fd]? = some (some node)) (n : ℕ) :
    fdCount (fdts.set pid (fdt.set fd none)) n + (if n = node then 1 else 0) = fdCount fdts n := by
  have h1 := fdCount_set hfdt (fdt.set fd none) n
  have h2 := count_set hfd none (some n)
  rw [if_neg (nofun : none ≠ some n), add_zero] at h2
  simp only [Option.some.injEq, eq_comm (a := node)] at h2
  omega

theorem Held.fd_closed (h : Held none (fdCount fdts) s) (hw : s.wrapped = false) (hfdt : fdts[pid]? = some fdt)
    (hfd : fdt[fd]? = some (some node)) (hclose : vfsClose s node = some s') :
    Held none (fdCount (fdts.set pid (fdt.set fd none))) s' := by
  have hcount := fdCount_close hfdt hfd
  refine h.close nofun (fun m => by have := hcount m; omega) ?_ hclose
  intro nd hnd hd
  obtain ⟨hdir, hrc⟩ := h.removed node nd nofun hnd hd
  obtain ⟨hle, hlt⟩ := hrc hw
  refine ⟨?_, fun hk => absurd hk hdir⟩
  have hnode := hcount node
  rw [if_pos rfl] at hnode
  rw [decRef_of_pos (by omega) hlt]
  omega

theorem Held.fd_opened (h : Held none (fdCount fdts) s) (hnd : s.node r = some nd) (hk : nd.kind ≠ .symlink)
    (hcover : nd.delete → fdCount fdts r + 1 ≤ nd.refcount ∧ nd.refcount < 2 ^ 32)
    (hopen : openFd s fdts pid r alloc = some (fs', x)) : Held none (fdCount fs'.fdts) fs'.vfs := by
  unfold openFd at hopen
  obtain ⟨fdt, hfdt, hw⟩ := bind_eq_some_iff.mp hopen
  cases hadd : addFd fdt r alloc with
  | some y =>
    obtain ⟨fdt', fd⟩ := y
    rw [hadd] at hw
    cases hw
    have hcount : ∀ n, fdCount (fdts.set pid fdt') n = fdCount fdts n + if n = r then 1 else 0 := by
      intro n
      have h1 := fdCount_set hfdt fdt' n
      have h2 := count_addFd hadd n
      omega
    refine h.of_nodes rfl (fun m md hmd => ⟨md, hmd, rfl, rfl, rfl⟩) ?_ ?_ ?_
    · obtain ⟨rd, hrd, -, hd⟩ := h.root
      exact ⟨rd, hrd, hd⟩
    · intro m hm
      rw [hcount] at hm
      by_cases hmr : m = r
      · subst hmr
        exact ⟨⟨nd, hnd, hk⟩, isSome_of_eq_some hnd⟩
      · rw [if_neg hmr] at hm
        obtain ⟨md, hmd, hmk⟩ := h.open_node m hm
        exact ⟨⟨md, hmd, hmk⟩, isSome_of_eq_some hmd⟩
    · intro m md _ hmd hd
      obtain ⟨hdir, hrc⟩ := h.removed m md nofun hmd hd
      refine ⟨hdir, fun hw => ?_⟩
      rw [hcount]
      by_cases hmr : m = r
      · subst hmr
        rw [hnd] at hmd
        cases hmd
        rw [if_pos rfl]
        exact hcover hd
      · rw [if_neg hmr]
        exact hrc hw
  | none =>
    rw [hadd] at hw
    obtain ⟨s', hclose, heq⟩ := map_eq_some_iff.mp hw
    cases heq
    refine h.close nofun (fun _ => le_rfl) ?_ hclose
    intro nd' hnd' hd
    rw [hnd] at hnd'
    cases hnd'
    obtain ⟨hle, hlt⟩ := hcover hd
    rw [decRef_of_pos (by omega) hlt]
    exact ⟨Nat.le_sub_one_of_lt hle, fun hkd => absurd hkd (h.removed r nd nofun hnd hd).1⟩

theorem openFd_wrapped (hopen : openFd s fdts pid r alloc = some (fs', x)) : fs'.vfs.wrapped = s.wrapped := by
  unfold openFd at hopen
  obtain ⟨fdt, hfdt, hw⟩ := bind_eq_some_iff.mp hopen
  cases hadd : addFd fdt r alloc with
  | some y =>
    rw [hadd] at hw
    cases hw
    rfl
  | none =>
    rw [hadd] at hw
    obtain ⟨s', hclose, heq⟩ := map_eq_some_iff.mp hw
    cases heq
    exact vfsClose_wrapped hclose

theorem Held.sys_opened {create directory : Bool} (h : Held none (fdCount fs.fdts) fs.vfs)
    (hw : fs'.vfs.wrapped = false) (hcall : sysOpen depth fs pid path create directory alloc = some (fs', x)) :
    Held none (fdCount fs'.fdts) fs'.vfs := by
  -- the end of the call, from the state in which the path is opened
  have hfinish : ∀ s s1 r, Held none (fdCount fs.fdts) s →
      vfsOpen depth s (normalizePath path) = some (s1, some r) →
      openFd s1 fs.fdts pid r alloc = some (fs', x) →
      Held none (fdCount fs'.fdts) fs'.vfs := by
    intro s s1 r h hopen hfd
    rw [openFd_wrapped hfd] at hw
    obtain ⟨h1, -, nd, hnd, hk, hcover⟩ := h.opened hopen hw
    exact h1.fd_opened hnd hk hcover hfd
  unfold sysOpen at hcall
  obtain ⟨⟨s1, r⟩, hopen, hcall⟩ := bind_eq_some_iff.mp hcall
  cases r with
  | some r => exact hfinish fs.vfs s1 r h hopen hcall
  | none =>
    have h1 := h.touched (vfsOpen_lookup hopen).1
    dsimp only at hcall
    cases create with
    | false =>
      cases hcall
      exact h1
    | true =>
      obtain ⟨⟨s2, res⟩, hmake, hcall⟩ := bind_eq_some_iff.mp hcall
      have h2 : Held none (fdCount fs.fdts) s2 := by
        have hgrow := held_growing depth (fdCount fs.fdts) s1
        cases directory with
        | true => exact (hgrow.mkdir_keeps (fun _ _ _ _ _ => trivial) ⟨h1, id⟩ hmake).1
        | false => exact (hgrow.mkfile_keeps ⟨h1, id⟩ (fun _ _ _ _ _ _ _ => trivial) hmake).1
      obtain ⟨⟨s3, r⟩, hopen', hcall⟩ := bind_eq_some_iff.mp hcall
      cases r with
      | some r => exact hfinish s2 s3 r h2 hopen' hcall
      | none =>
        cases hcall
        exact h2.touched (vfsOpen_lookup hopen').1

theorem copyFdt_touched (h : copyFdt fdt s = some s') : Touched s s' := by
  induction fdt generalizing s with
  | nil =>
    cases h
    exact Touched.refl _
  | cons o fdt ih =>
    cases o with
    | none => exact ih h
    | some node =>
      unfold copyFdt at h
      obtain ⟨s1, hdup, h⟩ := bind_eq_some_iff.mp h
      obtain ⟨nd, -, rfl⟩ := map_eq_some_iff.mp hdup
      exact (touched_incRef s node).trans (ih h)

theorem Held.copied (h : Held none count s) (hopen : ∀ n, some n ∈ fdt → 0 < count n) (hw : s'.wrapped = false)
    (hcopy : copyFdt fdt s = some s') : Held none (fun n => count n + fdt.count (some n)) s' := by
  induction fdt generalizing s count with
  | nil =>
    cases hcopy
    exact h
  | cons o fdt ih =>
    cases o with
    | none =>
      have hcount : (fun n => count n + (none :: fdt).count (some n)) =
          fun n => count n + fdt.count (some n) := by
        funext n
        rw [count_cons_of_ne (some_ne_none n).symm]
      rw [hcount]
      exact ih h (fun n hn => hopen n (mem_cons_of_mem none hn)) hcopy
    | some node =>
      unfold copyFdt at hcopy
      obtain ⟨s1, hdup, hcopy⟩ := bind_eq_some_iff.mp hcopy
      obtain ⟨nd, -, rfl⟩ := map_eq_some_iff.mp hdup
      have hw1 := (copyFdt_touched hcopy).wrapped hw
      have h1 : Held none (fun n => count n + if n = node then 1 else 0) (incRef s node) :=
        h.dup hw1 (h.open_node node (hopen node mem_cons_self)) (fun _ => le_rfl)
      have h2 := ih h1 (fun n hn => by
        have := hopen n (mem_cons_of_mem _ hn)
        omega) hcopy
      have hcount : (fun n => count n + (some node :: fdt).count (some n)) =
          fun n => (count n + if n = node then 1 else 0) + fdt.count (some n) := by
        funext n
        rw [count_cons]
        simp only [beq_iff_eq, Option.some.injEq, eq_comm (a := node)]
        omega
      rw [hcount]
      exact h2

theorem count_ensureFdtCapacity {fdt' : List (Option ℕ)} (h : ensureFdtCapacity fdt fd alloc = some fdt') :
    (∀ n, fdt'.count (some n) = fdt.count (some n)) ∧ fd < fdt'.length ∧
      ∀ (i o : ℕ), fdt[i]? = some (some o) → fdt'[i]? = some (some o) := by
  unfold ensureFdtCapacity at h
  by_cases hlt : fd < fdt.length
  · rw [if_pos hlt] at h
    cases h
    exact ⟨fun _ => rfl, hlt, fun _ _ hi => hi⟩
  rw [if_neg hlt] at h
  dsimp only at h
  cases alloc with
  | false => cases h
  | true =>
    cases h
    refine ⟨fun n => ?_, ?_, fun i o hi => ?_⟩
    · simp [count_append, count_replicate]
    · rw [length_append, length_replicate]
      split_ifs <;> omega
    · rw [List.getElem?_append_left (List.getElem?_eq_some_iff.mp hi).1]
      exact hi

theorem Held.sys_dup2 {newfd : ℕ} (h : Held none (fdCount fs.fdts) fs.vfs) (hs : fs.vfs.wrapped = false)
    (hw : fs'.vfs.wrapped = false) (hcall : sysDup2 fs pid fd newfd alloc = some fs') :
    Held none (fdCount fs'.fdts) fs'.vfs := by
  unfold sysDup2 at hcall
  obtain ⟨fdt, hfdt, hcall⟩ := bind_eq_some_iff.mp hcall
  cases hget : getFd fdt fd with
  | none =>
    rw [hget] at hcall
    cases hcall
    exact h
  | some node =>
    rw [hget] at hcall
    dsimp only at hcall
    by_cases hfd : fd = newfd
    · rw [if_pos hfd] at hcall
      cases hcall
      exact h
    rw [if_neg hfd] at hcall
    cases hensure : ensureFdtCapacity fdt newfd alloc with
    | none =>
      rw [hensure] at hcall
      cases hcall
      exact h
    | some fdt1 =>
      rw [hensure] at hcall
      obtain ⟨⟨s1, fdt2⟩, hclose, hcall⟩ := bind_eq_some_iff.mp hcall
      obtain ⟨s2, hdup, rfl⟩ := map_eq_some_iff.mp hcall
      obtain ⟨nd, -, rfl⟩ := map_eq_some_iff.mp hdup
      obtain ⟨hcount1, hlen, hget1⟩ := count_ensureFdtCapacity hensure
      have hnode1 := hget1 fd node (getFd_eq_some hget)
      have hpid : pid < fs.fdts.length := (List.getElem?_eq_some_iff.mp hfdt).1
      have hfdt1 : (fs.fdts.set pid fdt1)[pid]? = some fdt1 := List.getElem?_set_self hpid
      -- the table with room for the new descriptor
      have h1 : Held none (fdCount (fs.fdts.set pid fdt1)) fs.vfs := by
        have hcount : fdCount (fs.fdts.set pid fdt1) = fdCount fs.fdts := by
          funext n
          have := fdCount_set hfdt fdt1 n
          have := hcount1 n
          omega
        rw [hcount]
        exact h
      -- the descriptor in the way is closed
      obtain ⟨h2, hempty, hnode2⟩ : Held none (fdCount (fs.fdts.set pid fdt2)) s1 ∧
          fdt2[newfd]? = some none ∧ fdt2[fd]? = some (some node) := by
        unfold closeFd at hclose
        cases hold : getFd fdt1 newfd with
        | none =>
          rw [hold] at hclose
          cases hclose
          refine ⟨h1, ?_, hnode1⟩
          unfold getFd at hold
          rw [List.getElem?_eq_getElem hlen] at hold ⊢
          exact congrArg some hold
        | some old =>
          rw [hold] at hclose
          obtain ⟨s1', hclosed, heq⟩ := map_eq_some_iff.mp hclose
          cases heq
          have hheld := h1.fd_closed hs hfdt1 (getFd_eq_some hold) hclosed
          rw [set_set] at hheld
          refine ⟨hheld, List.getElem?_set_self hlen, ?_⟩
          rw [List.getElem?_set_ne (Ne.symm hfd)]
          exact hnode1
      have hfdt2 : (fs.fdts.set pid fdt2)[pid]? = some fdt2 := List.getElem?_set_self hpid
      have hopen := fdCount_pos (mem_of_getElem? hfdt2) (mem_of_getElem? hnode2)
      refine h2.dup hw (h2.open_node node hopen) fun n => ?_
      have hset1 := fdCount_set hfdt2 (fdt2.set newfd (some node)) n
      have hset2 := count_set hempty (some node) (some n)
      rw [set_set] at hset1
      rw [if_neg (nofun : none ≠ some n), add_zero] at hset2
      simp only [Option.some.injEq, eq_comm (a := node)] at hset2
      dsimp only
      omega

/-- The calls that take a node out of the tree do not break the count of its descriptors: a file has
a reference more than descriptors, and a directory has no descriptor. -/
def FileOp.Balanced (depth : ℕ) (fs : Files) : FileOp → Prop
  | .unlink path => ∀ x ∈ vfsOpenNofollow depth fs.vfs (normalizePath path), ∀ n ∈ x.2,
      ∀ nd ∈ x.1.node n, nd.kind = .none → fdCount fs.fdts n ≤ decRef nd.refcount
  | .rmdir path => ∀ x ∈ vfsOpenNofollow depth fs.vfs (normalizePath path), ∀ n ∈ x.2,
      ∀ nd ∈ x.1.node n, nd.kind = .dir → nd.child = [] → n ≠ rootdir → fdCount fs.fdts n = 0
  | _ => True

instance (depth : ℕ) (fs : Files) : ∀ op : FileOp, Decidable (op.Balanced depth fs)
  | .mkdir _ => .isTrue trivial
  | .mkfile _ => .isTrue trivial
  | .symlink _ _ => .isTrue trivial
  | .open _ _ _ _ _ => .isTrue trivial
  | .close _ _ => .isTrue trivial
  | .dup _ _ _ => .isTrue trivial
  | .dup2 _ _ _ _ => .isTrue trivial
  | .fork _ => .isTrue trivial
  | .unlink path => inferInstanceAs (Decidable (∀ x ∈ vfsOpenNofollow depth fs.vfs
      (normalizePath path), ∀ n ∈ x.2, ∀ nd ∈ x.1.node n, nd.kind = .none →
        fdCount fs.fdts n ≤ decRef nd.refcount))
  | .rmdir path => inferInstanceAs (Decidable (∀ x ∈ vfsOpenNofollow depth fs.vfs
      (normalizePath path), ∀ n ∈ x.2, ∀ nd ∈ x.1.node n, nd.kind = .dir → nd.child = [] →
        n ≠ rootdir → fdCount fs.fdts n = 0))

theorem Held.removed_or_closed {c : Prop} [Decidable c] {s0 s1 : Vfs} (h : Held none count s0)
    (hopen : vfsOpenNofollow depth s0 (normalizePath path) = some (s, some n)) (hnd : s.node n = some nd)
    (hproxy : c → nd.proxy = false) (hfile : c → nd.kind ≠ .dir → count n ≤ decRef nd.refcount)
    (hdir : c → nd.kind = .dir → nd.child = [] ∧ (n ≠ rootdir → count n = 0))
    (hend : (if c then deleteAndClose s n else vfsClose s n) = some s1) : Held none count s1 := by
  have h' := h.touched (vfsOpenNofollow_touched hopen)
  by_cases hc : c
  · rw [if_pos hc] at hend
    exact h'.remove hnd (hproxy hc) (hfile hc) (hdir hc) hend
  · rw [if_neg hc] at hend
    refine h'.close nofun (fun _ => le_rfl) ?_ hend
    intro nd' hnd' hd
    rw [hnd] at hnd'
    cases hnd'
    obtain rfl | ⟨hd', -⟩ := vfsOpenNofollow_plain hopen hnd
    · obtain ⟨rd, hrd, -, hd'⟩ := h'.root
      rw [hnd] at hrd
      cases hrd
      rw [hd'] at hd
      cases hd
    · rw [hd'] at hd
      cases hd

theorem Held.sys_unlinked (h : Held none (fdCount fs.fdts) fs.vfs)
    (hok : (FileOp.unlink path).Balanced depth fs) (hcall : sysUnlink depth fs path = some fs') :
    Held none (fdCount fs'.fdts) fs'.vfs := by
  unfold sysUnlink at hcall
  obtain ⟨⟨s, n⟩, hopen, hcall⟩ := bind_eq_some_iff.mp hcall
  cases n with
  | none =>
    cases hcall
    exact h.touched (vfsOpenNofollow_touched hopen)
  | some n =>
    obtain ⟨nd, hnd, hcall⟩ := bind_eq_some_iff.mp hcall
    obtain ⟨s1, hend, rfl⟩ := map_eq_some_iff.mp hcall
    refine h.removed_or_closed hopen hnd (fun hc => by simpa using hc.2.2) ?_
      (fun hc hk => absurd hk hc.1) hend
    intro _ hk
    cases hkind : nd.kind with
    | none => exact hok _ hopen n rfl nd hnd hkind
    | dir => exact absurd hkind hk
    | symlink =>
      -- there are no descriptors of links
      have h' := h.touched (vfsOpenNofollow_touched hopen)
      by_contra hcount
      obtain ⟨nd', hnd', hlink⟩ := h'.open_node n (by omega)
      rw [hnd] at hnd'
      cases hnd'
      exact hlink hkind

theorem Held.sys_rmdired (h : Held none (fdCount fs.fdts) fs.vfs) (hok : (FileOp.rmdir path).Balanced depth fs)
    (hcall : sysRmdir depth fs path = some fs') : Held none (fdCount fs'.fdts) fs'.vfs := by
  unfold sysRmdir at hcall
  obtain ⟨⟨s, n⟩, hopen, hcall⟩ := bind_eq_some_iff.mp hcall
  cases n with
  | none =>
    cases hcall
    exact h.touched (vfsOpenNofollow_touched hopen)
  | some n =>
    obtain ⟨nd, hnd, hcall⟩ := bind_eq_some_iff.mp hcall
    obtain ⟨s1, hend, rfl⟩ := map_eq_some_iff.mp hcall
    exact h.removed_or_closed hopen hnd (fun hc => by simpa using hc.1.2.2) (fun hc hk => absurd hc.1.1 hk)
      (fun hc hk => ⟨hc.2, fun hroot => hok _ hopen n rfl nd hnd hk hc.2 hroot⟩) hend

theorem fdCount_fork (fdts : List (List (Option ℕ))) (fdt : List (Option ℕ)) (n : ℕ) :
    fdCount (fdts ++ [fdt]) n = fdCount fdts n + fdt.count (some n) := by
  unfold fdCount
  simp

def FilesHeld (fs : Files) : Prop :=
  Held none (fdCount fs.fdts) fs.vfs ∧ fs.vfs.wrapped = false

theorem filesHeld_boot : FilesHeld Files.boot := by
  have hcount : fdCount Files.boot.fdts = fun _ => 0 := by
    funext n
    simp [fdCount, Files.boot, count_replicate]
  unfold FilesHeld
  rw [hcount]
  exact ⟨held_boot, rfl⟩

theorem FilesHeld.step {op : FileOp} (h : FilesHeld fs) (hok : op.Balanced depth fs)
    (hw : fs'.vfs.wrapped = false) (hstep : fileStep depth fs op = some fs') : FilesHeld fs' := by
  obtain ⟨h, hs⟩ := h
  refine ⟨?_, hw⟩
  have hgrow := held_growing depth (fdCount fs.fdts) fs.vfs
  cases op with
  | mkdir name =>
    obtain ⟨⟨s, res⟩, hcall, rfl⟩ := map_eq_some_iff.mp hstep
    exact (hgrow.mkdir_keeps (fun _ _ _ _ _ => trivial) ⟨h, id⟩ hcall).1
  | mkfile name =>
    obtain ⟨⟨s, res⟩, hcall, rfl⟩ := map_eq_some_iff.mp hstep
    exact (hgrow.mkfile_keeps ⟨h, id⟩ (fun _ _ _ _ _ _ _ => trivial) hcall).1
  | symlink name target =>
    obtain ⟨⟨s, res⟩, hcall, rfl⟩ := map_eq_some_iff.mp hstep
    exact (hgrow.symlink_keeps (fun _ _ _ _ _ => trivial) ⟨h, id⟩ (fun _ _ _ _ _ _ => trivial) hcall).1
  | «open» pid path create directory alloc =>
    obtain ⟨⟨fs1, x⟩, hcall, rfl⟩ := map_eq_some_iff.mp hstep
    exact h.sys_opened hw hcall
  | close pid fd =>
    obtain ⟨fdt, hfdt, hcall⟩ := bind_eq_some_iff.mp hstep
    cases hget : getFd fdt fd with
    | none =>
      rw [hget] at hcall
      cases hcall
      exact h
    | some node =>
      rw [hget] at hcall
      obtain ⟨s, hclose, rfl⟩ := map_eq_some_iff.mp hcall
      exact h.fd_closed hs hfdt (getFd_eq_some hget) hclose
  | dup pid fd alloc =>
    obtain ⟨fdt, hfdt, hcall⟩ := bind_eq_some_iff.mp hstep
    cases hget : getFd fdt fd with
    | none =>
      rw [hget] at hcall
      cases hcall
      exact h
    | some node =>
      rw [hget] at hcall
      obtain ⟨s, hdup, rfl⟩ := map_eq_some_iff.mp hcall
      obtain ⟨nd, -, rfl⟩ := map_eq_some_iff.mp hdup
      have hopen := fdCount_pos (mem_of_getElem? hfdt) (mem_of_getElem? (getFd_eq_some hget))
      cases hadd : addFd fdt node alloc with
      | none => exact h.touched (touched_incRef fs.vfs node)
      | some x =>
        obtain ⟨fdt', fd'⟩ := x
        rw [hadd] at hw
        refine h.dup hw (h.open_node node hopen) fun n => ?_
        have h1 := fdCount_set hfdt fdt' n
        have h2 := count_addFd hadd n
        dsimp only
        omega
  | dup2 pid fd newfd alloc => exact h.sys_dup2 hs hw hstep
  | fork pid =>
    obtain ⟨fdt, hfdt, hcall⟩ := bind_eq_some_iff.mp hstep
    obtain ⟨s, hcopy, rfl⟩ := map_eq_some_iff.mp hcall
    have hcopied := h.copied (fun n hn => fdCount_pos (mem_of_getElem? hfdt) hn) hw hcopy
    have hcount : fdCount (fs.fdts ++ [fdt]) = fun n => fdCount fs.fdts n + fdt.count (some n) :=
      funext (fdCount_fork fs.fdts fdt)
    dsimp only
    rw [hcount]
    exact hcopied
  | unlink path => exact h.sys_unlinked hok hstep
  | rmdir path => exact h.sys_rmdired hok hstep

/-- A file is opened through a link, the process forks, the file is unlinked, and one of the two
descriptors is closed. -/
def linkedOpens : List FileOp :=
  [.mkfile ['/', 'a'], .symlink ['/', 'l'] ['/', 'a'], .open 0 ['/', 'l'] false false true,
    .fork 0, .unlink ['/', 'a'], .close 0 0]

end CoolPotOS
