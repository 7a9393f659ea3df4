import CoolPotOS.Fs.FdLifetime

namespace CoolPotOS

open Function List Option

def refs (s : Vfs) (n : ℕ) : Option ℕ := (s.node n).map fun nd => nd.refcount % 2 ^ 32

/-- The lookup with the list of the targets of the links that it follows. -/
def followWalk (resolve : ℕ → Found) (t : Tree) : List (List Char × Bool) → ℕ → Found
  | [], current => some (some current, [])
  | (buf, _) :: toks, current =>
    (t current).bind fun cur =>
      if buf = ['.'] then followWalk resolve t toks current
      else if buf = ['.', '.'] then followWalk resolve t toks (cur.parent.getD current)
      else
        match vfsChildFind t cur buf with
        | none => some (none, [])
        | some c =>
          (t c).bind fun nd =>
            if nd.kind ≠ .symlink then followWalk resolve t toks c
            else if nd.parent.isNone ∨ (nd.linkto.isNone ∧ nd.linktoPath.isNone) then some (none, [])
            else
              (resolve c).bind fun r =>
                match r with
                | (none, followed) => some (none, followed)
                | (some target, followed) =>
                  (t target).bind fun _ =>
                    (followWalk resolve t toks target).map fun r => (r.1, followed ++ target :: r.2)

def followLookup : ℕ → Tree → List Char → Found
  | 0, _, _ => none
  | depth + 1, t, str =>
    if str.head? = some '/' then
      followWalk (resolveLink (followLookup depth t) t) t (pathTokens str.tail) rootdir
    else some (none, [])

/-- A change that takes a reference for each node of a list. -/
structure TakesRefs (s s' : Vfs) (followed : List ℕ) : Prop where
  tree_eq : s'.tree = s.tree
  refs_eq : ∀ n, refs s' n = (refs s n).map fun count => (count + followed.count n) % 2 ^ 32

variable {s s' s1 : Vfs} {n : ℕ} {l : List ℕ} {t : Tree}

theorem refs_lt {count : ℕ} (h : refs s n = some count) : count < 2 ^ 32 := by
  obtain ⟨nd, -, rfl⟩ := map_eq_some_iff.mp h
  exact Nat.mod_lt _ (by norm_num)

theorem TakesRefs.of_refs_eq (htree : s'.tree = s.tree) (h : ∀ n, refs s' n = refs s n) :
    TakesRefs s s' [] := by
  refine ⟨htree, fun n => ?_⟩
  rw [h n]
  cases hn : refs s n with
  | none => rfl
  | some count => rw [map_some, count_nil, Nat.add_zero, Nat.mod_eq_of_lt (refs_lt hn)]

theorem TakesRefs.refl (s : Vfs) : TakesRefs s s [] := .of_refs_eq rfl fun _ => rfl

theorem TakesRefs.trans {s2 : Vfs} {l' : List ℕ} (h : TakesRefs s s1 l) (h' : TakesRefs s1 s2 l') :
    TakesRefs s s2 (l ++ l') := by
  refine ⟨h'.tree_eq.trans h.tree_eq, fun n => ?_⟩
  rw [h'.refs_eq, h.refs_eq, Option.map_map]
  congr 1
  funext count
  rw [comp_apply, count_append, Nat.mod_add_mod, Nat.add_assoc]

theorem refs_modify_of_keeps (s : Vfs) (n m : ℕ) (f : VfsNode → VfsNode)
    (hf : ∀ nd, (f nd).refcount = nd.refcount) : refs (s.modify n f) m = refs s m := by
  unfold refs
  rw [Vfs.modify_node]
  split_ifs with hm
  · subst hm
    rw [Option.map_map]
    congr 1
    funext nd
    rw [comp_apply, hf]
  · rfl

theorem takesRefs_doUpdate (s : Vfs) (n : ℕ) : TakesRefs s (doUpdate s n) [] :=
  .of_refs_eq (tree_doUpdate s n) fun m => refs_modify_of_keeps s n m _ fun _ => rfl

theorem takesRefs_setProxy (s : Vfs) (n : ℕ) : TakesRefs s (setProxy s n) [] :=
  .of_refs_eq (tree_setProxy s n) fun m => refs_modify_of_keeps s n m _ fun _ => rfl

theorem takesRefs_incRef (s : Vfs) (n : ℕ) : TakesRefs s (incRef s n) [n] := by
  refine ⟨tree_incRef s n, fun m => ?_⟩
  by_cases hm : m = n
  · subst hm
    have hnode : (incRef s m).node m = (s.node m).map fun nd => { nd with refcount := (nd.refcount + 1) % 2 ^ 32 } :=
      (Vfs.modify_node s m m _).trans (if_pos rfl)
    unfold refs
    rw [hnode, Option.map_map, Option.map_map]
    congr 1
    funext nd
    rw [comp_apply, comp_apply, count_singleton_self, Nat.mod_mod, Nat.mod_add_mod]
  · have hcount : List.count m [n] = 0 := count_eq_zero_of_not_mem (by rwa [mem_singleton])
    have hrefs : refs (incRef s n) m = refs s m := by
      unfold refs
      rw [incRef_node_of_ne hm]
    rw [hrefs, hcount]
    cases hn : refs s m with
    | none => rfl
    | some count => rw [map_some, Nat.add_zero, Nat.mod_eq_of_lt (refs_lt hn)]

/-- A call that gives the result of a lookup, and takes the references that the lookup lists. -/
inductive LookupTakes (s : Vfs) : Option (Vfs × Option ℕ) → Found → Prop
  | fault : LookupTakes s none none
  | found {s' : Vfs} {r : Option ℕ} {followed : List ℕ} (h : TakesRefs s s' followed) :
      LookupTakes s (some (s', r)) (some (r, followed))

theorem LookupTakes.of_takesRefs {x : Option (Vfs × Option ℕ)} {y : Found} (h : TakesRefs s s1 l)
    (ht : LookupTakes s1 x y) : LookupTakes s x (y.map fun r => (r.1, l ++ r.2)) := by
  cases ht with
  | fault => exact .fault
  | found h' => exact .found (h.trans h')

theorem LookupTakes.of_keeps {x : Option (Vfs × Option ℕ)} {y : Found} (h : TakesRefs s s1 [])
    (ht : LookupTakes s1 x y) : LookupTakes s x y := by
  cases ht with
  | fault => exact .fault
  | found h' => exact .found (h.trans h')

theorem vfsWalk_takes {resolve : Vfs → ℕ → Option (Vfs × Option ℕ)} {resolve' : ℕ → Found}
    (hres : ∀ s n, s.tree = t → LookupTakes s (resolve s n) (resolve' n)) (toks : List (List Char × Bool))
    (s : Vfs) (current : ℕ) (ht : s.tree = t) :
    LookupTakes s (vfsWalk false resolve toks s current) (followWalk resolve' t toks current) := by
  induction toks generalizing s current with
  | nil => exact .found (TakesRefs.refl s)
  | cons tok toks ih =>
    obtain ⟨buf, last⟩ := tok
    unfold vfsWalk followWalk
    rw [ht]
    cases hcur : t current with
    | none => exact .fault
    | some cur =>
      simp only [bind_some]
      by_cases hdot : buf = ['.']
      · rw [if_pos hdot, if_pos hdot]
        exact ih s current ht
      rw [if_neg hdot, if_neg hdot]
      by_cases hdots : buf = ['.', '.']
      · rw [if_pos hdots, if_pos hdots]
        exact ih s _ ht
      rw [if_neg hdots, if_neg hdots]
      cases vfsChildFind t cur buf with
      | none => exact .found (TakesRefs.refl s)
      | some c =>
        simp only
        cases hnd : t c with
        | none => exact .fault
        | some nd =>
          simp only [bind_some]
          have hupdate := takesRefs_doUpdate s c
          by_cases hlink : nd.kind ≠ .symlink
          · rw [if_pos hlink, if_pos hlink]
            exact (ih (doUpdate s c) c ((tree_doUpdate s c).trans ht)).of_keeps hupdate
          have hlast : ¬ (false = true ∧ last = true) := fun h => Bool.false_ne_true h.1
          rw [if_neg hlink, if_neg hlink, if_neg hlast]
          by_cases hbad : nd.parent.isNone ∨ (nd.linkto.isNone ∧ nd.linktoPath.isNone)
          · rw [if_pos hbad, if_pos hbad]
            exact .found hupdate
          rw [if_neg hbad, if_neg hbad]
          have hproxy := hupdate.trans (takesRefs_setProxy (doUpdate s c) c)
          have hr := (hres (setProxy (doUpdate s c) c) c (by simp [ht])).of_keeps hproxy
          generalize resolve (setProxy (doUpdate s c) c) c = x at hr
          generalize resolve' c = y at hr
          cases hr with
          | fault => exact .fault
          | found h =>
            rename_i s' r followed
            have hs' : s'.tree = t := h.tree_eq.trans ht
            cases r with
            | none => exact .found h
            | some target =>
              simp only [bind_some, hs']
              cases t target with
              | none => exact .fault
              | some td =>
                simp only [bind_some]
                have hrest := (ih (incRef s' target) target (by simp [hs'])).of_takesRefs
                  (h.trans (takesRefs_incRef s' target))
                simpa only [append_assoc, singleton_append] using hrest

theorem vfsResolveSymlinkTarget_takes {vfsOpen : Vfs → List Char → Option (Vfs × Option ℕ)}
    {lookup : List Char → Found} (hopen : ∀ s str, s.tree = t → LookupTakes s (vfsOpen s str) (lookup str))
    (ht : s.tree = t) (link : ℕ) :
    LookupTakes s (vfsResolveSymlinkTarget vfsOpen s link) (resolveLink lookup t link) := by
  unfold vfsResolveSymlinkTarget resolveLink
  rw [ht]
  have hnode : t link = (s.node link).map VfsNode.toTreeNode := by rw [← ht]; rfl
  rw [hnode]
  cases s.node link with
  | none => exact .fault
  | some nd =>
    simp only [bind_some, map_some]
    cases nd.linkto with
    | some target => exact .found (TakesRefs.refl s)
    | none =>
      cases nd.linktoPath with
      | none => exact .found (TakesRefs.refl s)
      | some path =>
        simp only
        by_cases habs : path.head? = some '/'
        · rw [if_pos habs, if_pos habs]
          exact hopen s path ht
        · rw [if_neg habs, if_neg habs]
          cases vfsGetFullpath t (nd.parent.getD rootdir) with
          | none => exact .fault
          | some base => exact hopen s _ ht

theorem vfsOpen_takes (depth : ℕ) (s : Vfs) (str : List Char) (ht : s.tree = t) :
    LookupTakes s (vfsOpen depth s str) (followLookup depth t str) := by
  induction depth generalizing s str with
  | zero => exact .fault
  | succ depth ih =>
    unfold vfsOpen followLookup
    by_cases habs : str.head? = some '/'
    · rw [if_pos habs, if_pos habs]
      exact vfsWalk_takes (fun s n hs => vfsResolveSymlinkTarget_takes ih hs n) _ s rootdir ht
    · rw [if_neg habs, if_neg habs]
      exact .found (TakesRefs.refl s)

theorem vfsOpen_takesRefs {depth : ℕ} {str : List Char} {r : Option ℕ} (h : vfsOpen depth s str = some (s', r)) :
    ∃ followed, followLookup depth s.tree str = some (r, followed) ∧ TakesRefs s s' followed := by
  have ht := vfsOpen_takes depth s str rfl
  rw [h] at ht
  generalize followLookup depth s.tree str = y at ht
  cases ht with
  | found h => exact ⟨_, rfl, h⟩

/-- A change that takes a reference for each node of one list and gives back one for each node of another. Nodes may be
removed, but none is made. -/
structure ChangesRefs (s s' : Vfs) (followed closed : List ℕ) : Prop where
  gone : ∀ n, s.node n = none → s'.node n = none
  refs_eq : ∀ n, (s'.node n).isSome → refs s' n = (refs s n).map fun count =>
    (count + followed.count n + (2 ^ 32 - 1) * closed.count n) % 2 ^ 32

theorem node_eq_none_of_tree_eq (htree : s'.tree = s.tree) (h : s.node n = none) : s'.node n = none := by
  have ht : s'.tree n = none := by
    rw [htree]
    exact map_eq_none_iff.mpr h
  exact map_eq_none_iff.mp ht

theorem TakesRefs.changesRefs {followed : List ℕ} (h : TakesRefs s s' followed) :
    ChangesRefs s s' followed [] := by
  refine ⟨fun n => node_eq_none_of_tree_eq h.tree_eq, fun n _ => ?_⟩
  rw [h.refs_eq]
  rfl

theorem ChangesRefs.refl (s : Vfs) : ChangesRefs s s [] [] := (TakesRefs.refl s).changesRefs

theorem ChangesRefs.trans {s2 : Vfs} {l1 l' l1' : List ℕ} (h : ChangesRefs s s1 l l')
    (h1 : ChangesRefs s1 s2 l1 l1') : ChangesRefs s s2 (l ++ l1) (l' ++ l1') := by
  refine ⟨fun n hn => h1.gone n (h.gone n hn), fun n hn => ?_⟩
  have hmid : (s1.node n).isSome := by
    rw [isSome_iff_ne_none]
    intro hnone
    rw [h1.gone n hnone] at hn
    cases hn
  rw [h1.refs_eq n hn, h.refs_eq n hmid, Option.map_map]
  congr 1
  funext count
  rw [comp_apply, count_append, count_append]
  omega

/-- The references that `vfs_close` gives back. -/
def closeRefs (n : ℕ) : List ℕ := if n = rootdir then [] else [n]

theorem vfsClose_changesRefs (h : vfsClose s n = some s') : ChangesRefs s s' [] (closeRefs n) := by
  have hdec : n ≠ rootdir → ChangesRefs s (s.modify n fun nd => { nd with refcount := decRef nd.refcount }) []
      (closeRefs n) := by
    intro hroot
    refine ⟨fun m hm => ?_, fun m _ => ?_⟩
    · rw [Vfs.modify_node]
      split_ifs with hmn
      · rw [← hmn, hm, map_none]
      · exact hm
    · rw [closeRefs, if_neg hroot]
      unfold refs
      rw [Vfs.modify_node]
      split_ifs with hmn
      · subst hmn
        rw [Option.map_map, Option.map_map]
        apply Option.map_congr
        intro nd _
        rw [comp_apply, comp_apply, count_singleton_self, count_nil]
        unfold decRef
        dsimp only
        omega
      · have hcount : count m [n] = 0 := count_eq_zero_of_not_mem (by rwa [mem_singleton])
        rw [hcount, count_nil, Option.map_map]
        apply Option.map_congr
        intro nd _
        rw [comp_apply]
        omega
  rcases vfsClose_cases h with ⟨rfl, rfl⟩ | ⟨nd, hroot, -, hkept | hdestroy⟩
  · rw [closeRefs, if_pos rfl]
    exact ChangesRefs.refl s'
  · rw [hkept.1]
    exact hdec hroot
  · refine ⟨fun m hm => ?_, fun m hm => ?_⟩
    · have hmod := (hdec hroot).gone m hm
      rw [← not_isSome_iff_eq_none]
      intro hsome
      obtain ⟨md', hmd'⟩ := isSome_iff_exists.mp hsome
      obtain ⟨-, md, hmd, -⟩ := vfsDestroy_node hdestroy.1 hmd'
      rw [hmod] at hmd
      cases hmd
    · obtain ⟨md', hmd'⟩ := isSome_iff_exists.mp hm
      obtain ⟨-, md, hmd, -, -, -, -, hcount⟩ := vfsDestroy_node hdestroy.1 hmd'
      have hrefs : refs s' m = refs (s.modify n fun nd => { nd with refcount := decRef nd.refcount }) m := by
        unfold refs
        rw [hmd', hmd, map_some, map_some, hcount]
      rw [hrefs]
      exact (hdec hroot).refs_eq m (hmd ▸ rfl)

end CoolPotOS
