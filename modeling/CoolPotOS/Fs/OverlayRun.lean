import CoolPotOS.Fs.OverlayView

namespace CoolPotOS

open NamedTree Runs List Option

variable {upper upper' lower : FsTree} {p path : RelPath} {n : FileName}

theorem overlayView_of_cons (hc : Compatible upper lower)
    (h : overlayView upper lower (p ++ n :: path) ≠ none) : overlayView upper lower (p ++ [n]) ≠ none := by
  cases path with
  | nil => exact h
  | cons m path =>
    have hdir := overlayView_of_append hc (p := p ++ [n]) (n := m) (q := path) (by simpa using h)
    rw [hdir]
    exact some_ne_none _

theorem UpperStep.mono {view : RelPath → Option (Entry SparseFile)}
    (h : UpperStep lower upper upper' view) (q : RelPath) (hq : overlayView upper lower q ≠ none) :
    overlayView upper' lower q ≠ none :=
  overlayView_ne_none.mpr ((overlayView_ne_none.mp hq).imp_left (h.kept q))

/-- What a walk of `vfs_open` from the wrapper `node` of `p` does. -/
structure OverlayOpens (upper lower : FsTree) (p : RelPath) (node : Wrappers) (path : RelPath)
    (r : Wrappers × Bool) : Prop where
  sound : WrappersSound upper lower p r.1
  grows : WrappersGrow node r.1
  found_iff : r.2 = true ↔ overlayView upper lower (p ++ path) ≠ none
  found : r.2 = true → ∃ c, r.1.walk path = some c ∧ ListsAll upper lower (p ++ path) c

theorem overlayOpen_opens (hc : Compatible upper lower) {node : Wrappers} (hs : WrappersSound upper lower p node)
    (hl : ListsAll upper lower p node) (hp : overlayView upper lower p ≠ none) :
    OverlayOpens upper lower p node path (overlayOpen upper lower p node path) := by
  induction path generalizing p node with
  | nil =>
    refine ⟨hs, .refl node, ?_, fun _ => ⟨node, walk_nil, ?_⟩⟩
    · rw [append_nil]
      exact iff_of_true rfl hp
    · rw [append_nil]
      exact hl
  | cons n rest ih =>
    unfold overlayOpen
    cases hn : node.child.lookup n with
    | none =>
      refine ⟨hs, .refl node, ?_, fun hfalse => by cases hfalse⟩
      apply iff_of_false Bool.false_ne_true
      rw [not_not]
      by_contra hne
      exact (mem_fst_iff n node.child).mp (hl n (overlayView_of_cons hc hne)) hn
    | some c =>
      obtain ⟨hview, hsound⟩ := (sound_iff.mp hs).2 n c hn
      have hrest := ih (hsound.overlayStat hc) (listed_overlayStat hc _ c) hview
      have hpath : p ++ [n] ++ rest = p ++ n :: rest := by simp
      refine ⟨hs.setFirst hrest.sound, .setFirst hn ((grows_overlayStat hc _ c).trans hrest.grows), ?_,
        fun hfound => ?_⟩
      · rw [← hpath]
        exact hrest.found_iff
      · obtain ⟨c', hc', hlisted⟩ := hrest.found hfound
        rw [hpath] at hlisted
        refine ⟨c', ?_, hlisted⟩
        rw [walk_cons, child, lookup_setFirst, if_pos rfl, hn]
        exact hc'

/-- What a walk of `vfs_mkdir` from the wrapper `node` of `p` does. -/
structure MakesDirs (upper lower : FsTree) (p : RelPath) (node : Wrappers) (path : RelPath)
    (r : FsTree × Wrappers) : Prop where
  step : UpperStep lower upper r.1 fun q =>
    if q <+: p ++ path then some .dir else overlayView upper lower q
  sound : WrappersSound r.1 lower p r.2
  grows : WrappersGrow node r.2
  walk : r.2.walk path ≠ none

theorem overlayMkdir_makes (hc : Compatible upper lower) {node : Wrappers} (hs : WrappersSound upper lower p node)
    (hl : ListsAll upper lower p node) (hp : overlayView upper lower p = some .dir) {r : FsTree × Wrappers}
    (h : overlayMkdir lower p upper node path = some r) : MakesDirs upper lower p node path r := by
  have habove : ∀ q, q <+: p → overlayView upper lower q = some .dir := fun q hq =>
    overlayView_above hc hq hp
  induction path generalizing p upper node r with
  | nil =>
    cases h
    refine ⟨(UpperSame.refl hc).congr fun q => ?_, hs, .refl node, by simp⟩
    rw [append_nil]
    split_ifs with hq
    · exact habove q hq
    · rfl
  | cons n rest ih =>
    unfold overlayMkdir at h
    have hsplit : ∀ q, q <+: p ++ [n] → q <+: p ++ n :: rest := fun q hq =>
      hq.trans ⟨rest, by simp⟩
    cases hn : node.child.lookup n with
    | none =>
      rw [hn] at h
      obtain ⟨u1, hensure, h⟩ := bind_eq_some_iff.mp h
      obtain ⟨u2, hmk, h⟩ := bind_eq_some_iff.mp h
      obtain ⟨r', hrest, rfl⟩ := map_eq_some_iff.mp h
      have hnew : n ∉ node.names := fun hmem => (mem_fst_iff n node.child).mp hmem hn
      have hnone : overlayView upper lower (p ++ [n]) = none := by
        by_contra hne
        exact hnew (hl n hne)
      have hsame := (overlayEnsureUpperDir_same hc hp hensure).1
      have hstep := hsame.trans (UpperStep.mkdirs hsame.compatible hmk fun q hq => by
        rw [hsame.view_eq]
        rcases prefix_concat_iff.mp (by simpa using hq) with rfl | hq
        · exact .inr hnone
        · exact .inl (habove q hq))
      have hview : overlayView u2 lower (p ++ [n]) = some .dir := by
        rw [hstep.view_eq, if_pos prefix_rfl]
      have hmade := ih hstep.compatible ((sound_dir_nil _).overlayStat hstep.compatible)
        (listed_overlayStat hstep.compatible _ _) hview hrest
        (fun q hq => overlayView_above hstep.compatible hq hview)
      refine ⟨(hstep.trans hmade.step).congr fun q => ?_, ?_, .cons hnew _, ?_⟩
      · rw [append_assoc, singleton_append]
        simp only [hstep.view_eq, hsame.view_eq]
        by_cases hq : q <+: p ++ n :: rest
        · rw [if_pos hq, if_pos hq]
        · rw [if_neg hq, if_neg hq, if_neg (fun hq' => hq (hsplit q hq'))]
      · apply (hs.mono fun q hq => hmade.step.mono q (hstep.mono q hq)).cons hnew _ hmade.sound
        apply hmade.step.mono
        rw [hview]
        exact some_ne_none _
      · rw [walk_cons, child, lookup_cons_eq, if_pos rfl]
        exact hmade.walk
    | some c =>
      rw [hn] at h
      cases hm : overlayMetaNode upper lower (p ++ [n]) with
      | none =>
        rw [hm] at h
        cases h
      | some t =>
        rw [hm] at h
        cases t with
        | file f => cases h
        | dir cs =>
          obtain ⟨r', hrest, rfl⟩ := map_eq_some_iff.mp h
          have hview : overlayView upper lower (p ++ [n]) = some .dir := by
            rw [← overlayMetaNode_isDir, hm]
            rfl
          obtain ⟨-, hsound⟩ := (sound_iff.mp hs).2 n c hn
          have hmade := ih hc (hsound.overlayStat hc) (listed_overlayStat hc _ c) hview hrest
            (fun q hq => overlayView_above hc hq hview)
          refine ⟨?_, ?_, .setFirst hn ((grows_overlayStat hc _ c).trans hmade.grows), ?_⟩
          · have hstep := hmade.step
            rwa [append_assoc, singleton_append] at hstep
          · exact (hs.mono hmade.step.mono).setFirst hmade.sound
          · rw [walk_cons, child, lookup_setFirst, if_pos rfl, hn]
            exact hmade.walk

theorem WrappersSound.walk {node c : Wrappers} (h : WrappersSound upper lower p node) (hc : node.walk path = some c) :
    WrappersSound upper lower (p ++ path) c := by
  intro q w hw
  have hwalk : node.walk (path ++ q) = some w := by
    rw [walk_append, hc]
    exact hw
  simpa using h (path ++ q) w hwalk

variable {f : Wrappers → Option Wrappers} {root root' : Wrappers}

theorem WrappersSound.alter (h : WrappersSound upper lower [] root) (hf : alter f root p = some root')
    (hp : ∀ c c', root.walk p = some c → f c = some c' → WrappersSound upper lower p c') :
    WrappersSound upper lower [] root' := by
  intro q w hw
  by_cases hq : p <+: q
  · obtain ⟨r, rfl⟩ := hq
    obtain ⟨c, c', hc, hc'⟩ := walk_of_alter hf
    rw [walk_alter_append hf, hc, bind_some, hc', bind_some] at hw
    simpa using hp c c' hc hc' r w hw
  · have hshape := shape_alter_elsewhere hf hq
    rw [hw, map_some] at hshape
    obtain ⟨w', hw', hshape⟩ := map_eq_some_iff.mp hshape.symm
    have hnames : w'.names = w.names := congrArg Prod.snd hshape
    rw [← hnames]
    exact h q w' hw'

theorem WrappersGrow.alter (hf : alter f root p = some root')
    (hp : ∀ c c', root.walk p = some c → f c = some c' → WrappersGrow c c') : WrappersGrow root root' := by
  intro q w hw
  by_cases hq : p <+: q
  · obtain ⟨r, rfl⟩ := hq
    obtain ⟨c, c', hc, hc'⟩ := walk_of_alter hf
    rw [walk_append, hc] at hw
    rw [walk_alter_append hf, hc, bind_some, hc', bind_some]
    exact hp c c' hc hc' r w hw
  · have hshape := shape_alter_elsewhere hf hq
    rw [hw, map_some] at hshape
    obtain ⟨w', hw', hshape⟩ := map_eq_some_iff.mp hshape
    have hnames : w'.names = w.names := congrArg Prod.snd hshape
    exact ⟨w', hw', hnames ▸ List.Subset.refl _⟩

theorem StoredFile.eq_read (f : StoredFile) {offset size : ℕ} (hsize : size < 2 ^ 64) {bytes : List UInt8}
    (h : tmpfsRead f.file offset size = some bytes) : bytes = f.array.read offset size := by
  by_cases hwrap : offset < f.file.size ∧ 2 ^ 64 ≤ offset + size
  · have hle := f.holds.size_le
    have hlt := f.holds.capacity_lt
    have hword : wrap (offset + size) = offset + size - 2 ^ 64 := by
      unfold wrap
      omega
    have hactual : (if wrap (offset + size) > f.file.size then f.file.size - offset else size) = size := by
      rw [hword]
      exact if_neg (by omega)
    unfold tmpfsRead at h
    rw [if_neg (by omega)] at h
    simp only [hactual] at h
    rw [if_neg (by omega)] at h
    cases h
  · have := (tmpfsRead_iff f.holds size hsize).mpr hwrap
    exact Option.some.inj (h.symm.trans this)

/-- What holds after the calls `ops` on a mount of `u₀` over `l₀`. -/
structure OverlayInv (u₀ l₀ : FsTree) (ops : List OverlayOp) (s : Overlay) : Prop where
  lower_eq : s.lower = l₀
  compatible : Compatible s.upper s.lower
  root_dir : overlayView s.upper s.lower [] = some .dir
  kept : ∀ p, u₀.entry p ≠ none → s.upper.entry p ≠ none
  contents : ∀ p a, overlayView s.upper s.lower p = some (.file a) → a = overlayContents u₀ l₀ ops p
  absent : ∀ p, overlayView s.upper s.lower p = none → overlayContents u₀ l₀ ops p = .empty
  sound : WrappersSound s.upper s.lower [] s.root
  listed : ∀ p ∈ s.opened, ∃ c, s.root.walk p = some c ∧ ListsAll s.upper s.lower p c

variable {u₀ l₀ : FsTree} {ops : List OverlayOp} {s s' : Overlay}

theorem overlayContents_concat (op : OverlayOp) (p : RelPath) :
    overlayContents u₀ l₀ (ops ++ [op]) p = op.apply p (overlayContents u₀ l₀ ops p) := by
  unfold overlayContents
  rw [foldl_concat]

theorem OverlayInv.mount (hc : Compatible u₀ l₀) (h : overlayMount u₀ l₀ = some s) :
    OverlayInv u₀ l₀ [] s := by
  unfold overlayMount at h
  split at h
  · rename_i us ls
    cases h
    refine ⟨rfl, hc, rfl, fun _ hp => hp, fun p a hp => ?_, fun p hp => ?_, sound_dir_nil _,
      fun p hp => absurd hp not_mem_nil⟩
    · change a = originalContents (.dir us) (.dir ls) p
      unfold overlayView at hp
      unfold originalContents
      revert hp
      cases (NamedTree.dir us : FsTree).entry p with
      | none =>
        cases (NamedTree.dir ls : FsTree).entry p with
        | none => simp
        | some e => cases e <;> simp [Entry.map, eq_comm]
      | some e => cases e <;> simp [Entry.map, eq_comm]
    · change originalContents (.dir us) (.dir ls) p = .empty
      unfold originalContents
      rw [(overlayView_eq_none.mp hp).1, (overlayView_eq_none.mp hp).2]
  · cases h

theorem OverlayInv.updateRoot (h : OverlayInv u₀ l₀ ops s) :
    WrappersSound s.upper s.lower [] s.updateRoot ∧ ListsAll s.upper s.lower [] s.updateRoot ∧
      WrappersGrow s.root s.updateRoot :=
  ⟨h.sound.overlayStat h.compatible, listed_overlayStat h.compatible _ _, grows_overlayStat h.compatible _ _⟩

theorem OverlayInv.opens (h : OverlayInv u₀ l₀ ops s) (path : RelPath) :
    OverlayOpens s.upper s.lower [] s.updateRoot path (overlayOpen s.upper s.lower [] s.updateRoot path) := by
  obtain ⟨hsound, hlisted, -⟩ := h.updateRoot
  apply overlayOpen_opens h.compatible hsound hlisted
  rw [h.root_dir]
  exact some_ne_none _

theorem listed_of_grows {opened : List RelPath} (hgrows : WrappersGrow root root')
    (hlisted : ∀ p ∈ opened, ∃ c, root.walk p = some c ∧ ListsAll upper lower p c)
    (hnew : ∀ p n, overlayView upper' lower (p ++ [n]) ≠ none →
      overlayView upper lower (p ++ [n]) ≠ none ∨ root'.walk (p ++ [n]) ≠ none) :
    ∀ p ∈ opened, ∃ c, root'.walk p = some c ∧ ListsAll upper' lower p c := by
  intro p hp
  obtain ⟨c, hc, hl⟩ := hlisted p hp
  obtain ⟨c', hc', hsub⟩ := hgrows p c hc
  refine ⟨c', hc', fun n hn => ?_⟩
  rcases hnew p n hn with hold | hwalk
  · exact hsub (hl n hold)
  · rw [mem_names_of_walk hc', entry_ne_none]
    exact hwalk

theorem OverlayInv.same (h : OverlayInv u₀ l₀ ops s) {op : OverlayOp} (hop : ∀ p a, op.apply p a = a)
    (hupper : UpperSame s.lower s.upper s'.upper) (hlower : s'.lower = s.lower)
    (hsound : WrappersSound s.upper s.lower [] s'.root)
    (hlisted : ∀ p ∈ s'.opened, ∃ c, s'.root.walk p = some c ∧ ListsAll s.upper s.lower p c) :
    OverlayInv u₀ l₀ (ops ++ [op]) s' := by
  have hview := hupper.view_eq
  refine ⟨hlower.trans h.lower_eq, hlower ▸ hupper.compatible, ?_, fun p hp => hupper.kept p (h.kept p hp),
    fun p a hp => ?_, fun p hp => ?_, ?_, fun p hp => ?_⟩
  · rw [hlower, hview]
    exact h.root_dir
  · rw [hlower, hview] at hp
    rw [overlayContents_concat, hop]
    exact h.contents p a hp
  · rw [hlower, hview] at hp
    rw [overlayContents_concat, hop]
    exact h.absent p hp
  · rw [hlower]
    exact hsound.mono hupper.mono
  · obtain ⟨c, hc, hl⟩ := hlisted p hp
    refine ⟨c, hc, fun n hn => hl n ?_⟩
    rwa [hlower, hview] at hn

theorem OverlayInv.vfsOpen (h : OverlayInv u₀ l₀ ops s) (hstep : s.vfsOpen path = some s') :
    OverlayInv u₀ l₀ (ops ++ [.lookup path]) s' := by
  have hopens := h.opens path
  unfold Overlay.vfsOpen at hstep
  dsimp only at hstep
  split_ifs at hstep with hfound
  cases hstep
  refine OverlayInv.same h (fun _ _ => rfl) (.refl h.compatible) rfl hopens.sound ?_
  intro p hp
  rcases mem_cons.mp hp with rfl | hp
  · simpa using hopens.found hfound
  · obtain ⟨c, hc, hl⟩ := h.listed p hp
    obtain ⟨c', hc', hsub⟩ := h.updateRoot.2.2.trans hopens.grows p c hc
    exact ⟨c', hc', fun n hn => hsub (hl n hn)⟩

theorem OverlayInv.vfsChmod (h : OverlayInv u₀ l₀ ops s) (hstep : s.vfsChmod path = some s') :
    OverlayInv u₀ l₀ (ops ++ [.chmod path]) s' := by
  unfold Overlay.vfsChmod at hstep
  split_ifs at hstep
  obtain ⟨root', hroot, hstep⟩ := bind_eq_some_iff.mp hstep
  obtain ⟨upper', hupper, rfl⟩ := map_eq_some_iff.mp hstep
  have hgrows : WrappersGrow s.root root' := by
    apply WrappersGrow.alter hroot
    intro c c' _ hc'
    cases hc'
    exact grows_overlayStat h.compatible path c
  refine OverlayInv.same h (fun _ _ => rfl) (overlayCopyUp_same h.compatible hupper).1 rfl ?_ ?_
  · apply h.sound.alter hroot
    intro c c' hc hc'
    cases hc'
    exact (h.sound.walk hc).overlayStat h.compatible
  · exact listed_of_grows hgrows h.listed fun p n hn => .inl hn

theorem OverlayInv.vfsMkdir (h : OverlayInv u₀ l₀ ops s) (hstep : s.vfsMkdir path = some s') :
    OverlayInv u₀ l₀ (ops ++ [.mkdir path]) s' := by
  obtain ⟨hsound, hlisted, hgrows⟩ := h.updateRoot
  obtain ⟨r, hr, rfl⟩ := map_eq_some_iff.mp hstep
  have hmakes := overlayMkdir_makes h.compatible hsound hlisted h.root_dir hr
  have hview := hmakes.step.view_eq
  simp only [nil_append] at hview
  refine ⟨h.lower_eq, hmakes.step.compatible, ?_, fun p hp => hmakes.step.kept p (h.kept p hp),
    fun p a hp => ?_, fun p hp => ?_, hmakes.sound, ?_⟩
  · rw [hview, if_pos nil_prefix]
  · rw [hview] at hp
    rw [overlayContents_concat]
    split_ifs at hp
    · cases hp
    · exact h.contents p a hp
  · rw [hview] at hp
    rw [overlayContents_concat]
    split_ifs at hp
    exact h.absent p hp
  · apply listed_of_grows (hgrows.trans hmakes.grows) h.listed
    intro p n hn
    rw [hview] at hn
    split_ifs at hn with hp
    · right
      obtain ⟨rest, hrest⟩ := hp
      have hwalk := hmakes.walk
      rw [← hrest, walk_append] at hwalk
      intro hnone
      exact hwalk (by rw [hnone]; rfl)
    · exact .inl hn

theorem OverlayInv.vfsMkfile (h : OverlayInv u₀ l₀ ops s) {parent : RelPath}
    (hfresh : (OverlayOp.mkfile parent n).Fresh s) (hstep : s.vfsMkfile parent n = some s') :
    OverlayInv u₀ l₀ (ops ++ [.mkfile parent n]) s' := by
  have hopens := h.opens parent
  unfold Overlay.vfsMkfile at hstep
  dsimp only at hstep
  split_ifs at hstep with hfound
  obtain ⟨root', hroot, hstep⟩ := bind_eq_some_iff.mp hstep
  obtain ⟨u1, hensure, hstep⟩ := bind_eq_some_iff.mp hstep
  obtain ⟨u2, hadd, rfl⟩ := map_eq_some_iff.mp hstep
  have hdir := overlayMetaNode_isDir.mp hfound.2
  have hnone : overlayView s.upper s.lower (parent ++ [n]) = none := overlayView_eq_none.mpr hfresh
  have hsame := (overlayEnsureUpperDir_same h.compatible hdir hensure).1
  have hnew : u1.entry (parent ++ [n]) = none := by
    rw [← hsame.view_eq] at hnone
    exact (overlayView_eq_none.mp hnone).1
  have hset := UpperStep.setFile hsame.compatible (entry_alter_add_file hadd hnew) (by simp [hfresh.2])
  have hview : ∀ q, overlayView u2 s.lower q =
      if q = parent ++ [n] then some (.file .empty) else overlayView s.upper s.lower q := fun q => by
    rw [hset.view_eq, Function.update_apply, hsame.view_eq]
    rfl
  have hmono : ∀ q, overlayView s.upper s.lower q ≠ none → overlayView u2 s.lower q ≠ none := fun q hq => by
    rw [hview]
    split_ifs
    · exact some_ne_none _
    · exact hq
  -- the wrapper of the directory has no child of the name
  have hmissing : ∀ c, (overlayOpen s.upper s.lower [] s.updateRoot parent).1.walk parent = some c →
      n ∉ c.names := fun c hc hn => (hopens.sound parent c hc).2 n hn (by simpa using hnone)
  have hgrows : WrappersGrow s.root root' := by
    apply (h.updateRoot.2.2.trans hopens.grows).trans
    apply WrappersGrow.alter hroot
    intro c c' hc hc'
    cases c with
    | file d => cases hc'
    | dir cs =>
      cases hc'
      have hgrow : WrappersGrow (.dir cs) (.dir ((n, .dir []) :: cs)) := WrappersGrow.cons (hmissing _ hc) _
      exact hgrow
  refine ⟨h.lower_eq, hset.compatible, ?_, fun p hp => hset.kept p (hsame.kept p (h.kept p hp)),
    fun p a hp => ?_, fun p hp => ?_, ?_, ?_⟩
  · change overlayView u2 s.lower [] = _
    rw [hview, if_neg (by simp)]
    exact h.root_dir
  · change overlayView u2 s.lower p = _ at hp
    rw [hview] at hp
    rw [overlayContents_concat]
    split_ifs at hp with hq
    · obtain rfl := Entry.file.inj (Option.some.inj hp)
      rw [hq]
      exact (h.absent _ hnone).symm
    · exact h.contents p a hp
  · change overlayView u2 s.lower p = _ at hp
    rw [hview] at hp
    rw [overlayContents_concat]
    split_ifs at hp
    exact h.absent p hp
  · apply (hopens.sound.mono hmono).alter hroot
    intro c c' hc hc'
    cases c with
    | file d => cases hc'
    | dir cs =>
      cases hc'
      have hsound := (hopens.sound.mono hmono).walk hc
      refine hsound.cons (hmissing _ hc) ?_ (sound_dir_nil _)
      simp [hview]
  · apply listed_of_grows hgrows h.listed
    intro p m hm
    change overlayView u2 s.lower _ ≠ none at hm
    rw [hview] at hm
    split_ifs at hm with hp
    · right
      obtain ⟨c, c', hc, hc'⟩ := walk_of_alter hroot
      rw [hp, walk_alter_append hroot, hc, bind_some, hc', bind_some]
      cases c with
      | file d => cases hc'
      | dir cs =>
        cases hc'
        simp [walk_cons, child]
    · exact .inl hm

theorem OverlayInv.vfsWrite (h : OverlayInv u₀ l₀ ops s) {offset : ℕ} {addr : List UInt8}
    (hstep : s.vfsWrite path offset addr = some s') :
    OverlayInv u₀ l₀ (ops ++ [.write path offset addr]) s' := by
  unfold Overlay.vfsWrite at hstep
  split_ifs at hstep
  obtain ⟨u1, hcopy, hstep⟩ := bind_eq_some_iff.mp hstep
  obtain ⟨u2, hwrite, rfl⟩ := map_eq_some_iff.mp hstep
  have hsame := (overlayCopyUp_same h.compatible hcopy).1
  obtain ⟨f, g, hf, hg, hentry⟩ := entry_alter_writeNode hwrite
  have hset := UpperStep.setFile hsame.compatible hentry (fun hd => (hsame.compatible path f).2 ⟨hf, hd⟩)
  have hview : ∀ q, overlayView u2 s.lower q =
      if q = path then some (.file g.array) else overlayView s.upper s.lower q := fun q => by
    rw [hset.view_eq, Function.update_apply, hsame.view_eq]
  have hold : overlayView s.upper s.lower path = some (.file f.array) := by
    rw [← hsame.view_eq, overlayView_upper hf]
    rfl
  have hmono : ∀ q, overlayView u2 s.lower q ≠ none ↔ overlayView s.upper s.lower q ≠ none := fun q => by
    rw [hview]
    split_ifs with hq
    · simp [hq, hold]
    · rfl
  have happly : ∀ q, overlayContents u₀ l₀ (ops ++ [.write path offset addr]) q =
      if q = path then g.array else overlayContents u₀ l₀ ops q := fun q => by
    rw [overlayContents_concat, OverlayOp.apply, hg, h.contents path f.array hold]
    by_cases hq : q = path
    · subst hq
      by_cases hnil : addr = [] <;> simp [hnil]
    · rw [if_neg hq, if_neg (fun hp => hq hp.1.symm)]
  refine ⟨h.lower_eq, hset.compatible, ?_, fun p hp => hset.kept p (hsame.kept p (h.kept p hp)),
    fun p a hp => ?_, fun p hp => ?_, h.sound.mono fun q => (hmono q).mpr, ?_⟩
  · change overlayView u2 s.lower [] = _
    rw [hview, if_neg]
    · exact h.root_dir
    · rintro rfl
      rw [h.root_dir] at hold
      cases hold
  · change overlayView u2 s.lower p = _ at hp
    rw [hview] at hp
    rw [happly]
    split_ifs at hp ⊢
    · exact (Entry.file.inj (Option.some.inj hp)).symm
    · exact h.contents p a hp
  · change overlayView u2 s.lower p = _ at hp
    rw [hview] at hp
    rw [happly]
    split_ifs at hp ⊢
    exact h.absent p hp
  · intro p hp
    obtain ⟨c, hc, hl⟩ := h.listed p hp
    exact ⟨c, hc, fun n hn => hl n ((hmono _).mp hn)⟩

theorem OverlayInv.step (h : OverlayInv u₀ l₀ ops s) {op : OverlayOp} (hfresh : op.Fresh s)
    (hstep : s.step op = some s') : OverlayInv u₀ l₀ (ops ++ [op]) s' := by
  cases op with
  | lookup path => exact h.vfsOpen hstep
  | mkfile parent name => exact h.vfsMkfile hfresh hstep
  | mkdir path => exact h.vfsMkdir hstep
  | read path offset size =>
    obtain ⟨bytes, -, rfl⟩ := map_eq_some_iff.mp hstep
    exact h.same (fun _ _ => rfl) (.refl h.compatible) rfl h.sound h.listed
  | write path offset addr => exact h.vfsWrite hstep
  | chmod path => exact h.vfsChmod hstep

theorem OverlayInv.run (hc : Compatible u₀ l₀) {s0 : Overlay} (hmount : overlayMount u₀ l₀ = some s0)
    (hok : Meets Overlay.step (fun s op => op.Fresh s) ops s0) (hrun : run Overlay.step ops s0 = some s) :
    OverlayInv u₀ l₀ ops s := by
  induction ops using reverseRecOn generalizing s with
  | nil =>
    cases hrun
    exact .mount hc hmount
  | append_singleton ops op ih =>
    rw [run_append] at hrun
    obtain ⟨s1, hrun1, hstep⟩ := bind_eq_some_iff.mp hrun
    rw [Runs.run] at hstep
    obtain ⟨s2, hstep1, hlast⟩ := bind_eq_some_iff.mp hstep
    cases hlast
    exact (ih (hok.of_isPrefix (prefix_append ops [op])) hrun1).step (hok.last hrun1) hstep1

theorem OverlayInv.view_of_opened (h : OverlayInv u₀ l₀ ops s) (hp : path ∈ s.opened) :
    overlayView s.upper s.lower path ≠ none := by
  obtain ⟨c, hc, -⟩ := h.listed path hp
  cases path using reverseRecOn with
  | nil =>
    rw [h.root_dir]
    exact some_ne_none _
  | append_singleton path n =>
    rw [walk_append] at hc
    obtain ⟨c', hc', hn⟩ := bind_eq_some_iff.mp hc
    apply (h.sound path c' hc').2 n
    rw [mem_names, entry_ne_none, hn]
    exact some_ne_none _

theorem overlayView_of_effective {t : FsTree} (h : overlayEffectiveNode upper lower p = some t) :
    overlayView upper lower p = some (t.kind.map StoredFile.array) := by
  unfold overlayEffectiveNode at h
  unfold overlayView entry
  rw [← map_or, h]
  rfl

theorem OverlayInv.presents (h : OverlayInv u₀ l₀ ops s) : s.Presents u₀ l₀ ops := by
  refine ⟨h.lower_eq, h.kept, fun path => ?_, fun path hp => ?_,
    fun path offset size bytes hsize hread => ?_, fun path hp hdir offset size hsize => ?_⟩
  · rw [← overlayView_ne_none]
    have hfound := (h.opens path).found_iff
    rw [nil_append] at hfound
    rw [← hfound]
    unfold Overlay.vfsOpen
    dsimp only
    split_ifs with hr <;> simp [hr]
  · obtain ⟨c, hc, hl⟩ := h.listed path hp
    have hsound := h.sound path c hc
    refine ⟨c, hc, hsound.1, fun n => ?_⟩
    rw [← overlayView_ne_none]
    exact ⟨hsound.2 n, hl n⟩
  · unfold Overlay.vfsRead at hread
    split_ifs at hread
    cases hnode : overlayEffectiveNode s.upper s.lower path with
    | none =>
      rw [hnode] at hread
      cases hread
    | some t =>
      rw [hnode] at hread
      cases t with
      | dir cs => cases hread
      | file f =>
        rw [← h.contents path f.array (overlayView_of_effective hnode)]
        exact f.eq_read hsize hread
  · unfold Overlay.vfsRead
    rw [if_pos ⟨hp, hdir⟩]
    have hview := h.view_of_opened hp
    unfold Overlay.isDirAt at hdir
    rw [overlayMetaNode_isDir] at hdir
    cases hnode : overlayEffectiveNode s.upper s.lower path with
    | none =>
      rw [overlayView_ne_none, entry_ne_none, entry_ne_none] at hview
      rw [overlayEffectiveNode, or_eq_none_iff] at hnode
      simp [hnode] at hview
    | some t =>
      cases t with
      | dir cs => exact absurd (overlayView_of_effective hnode) hdir
      | file f =>
        simp only
        rw [(tmpfsRead_iff f.holds size (by omega)).mpr (by omega)]
        exact some_ne_none _

/-- On a mount of compatible trees, the calls that succeed leave the lower tree as it is, and the mount
presents the upper tree over it, if each file that is made has a name that is not there. -/
theorem overlay_presents (upper lower : FsTree) (hc : Compatible upper lower) (ops : List OverlayOp)
    (s₀ s : Overlay) (hmount : overlayMount upper lower = some s₀)
    (hok : Meets Overlay.step (fun s op => op.Fresh s) ops s₀) (hrun : run Overlay.step ops s₀ = some s) :
    s.Presents upper lower ops :=
  (OverlayInv.run hc hmount hok hrun).presents

def someLower : FsTree :=
  .dir [(⟨['d'], by decide⟩, .dir [(⟨['f'], by decide⟩, .file (StoredFile.empty.write [1, 2] 0).1)])]

theorem entry_dir_nil (q : RelPath) :
    (NamedTree.dir [] : FsTree).entry q = if q = [] then some .dir else none := by
  cases q with
  | nil => rfl
  | cons n q =>
    rw [entry_cons, if_neg (cons_ne_nil n q)]
    rfl

theorem compatible_someLower : Compatible (.dir []) someLower := by
  intro q f
  rw [entry_dir_nil]
  by_cases hq : q = []
  · subst hq
    simp [someLower, kind]
  · simp [hq]

def someOverlayCalls : List OverlayOp :=
  [.lookup [⟨['d'], by decide⟩, ⟨['f'], by decide⟩], .write [⟨['d'], by decide⟩, ⟨['f'], by decide⟩] 1 [7],
    .mkdir [⟨['d'], by decide⟩, ⟨['e'], by decide⟩], .mkfile [⟨['d'], by decide⟩] ⟨['g'], by decide⟩,
    .lookup [⟨['d'], by decide⟩], .chmod [⟨['d'], by decide⟩],
    .read [⟨['d'], by decide⟩, ⟨['f'], by decide⟩] 0 2]

theorem overlay_presents_someOverlayCalls :
    ∃ s₀ s : Overlay, overlayMount (.dir []) someLower = some s₀ ∧
      run Overlay.step someOverlayCalls s₀ = some s ∧ s.Presents (.dir []) someLower someOverlayCalls := by
  have hrun : ((overlayMount (.dir []) someLower).bind (run Overlay.step someOverlayCalls)).isSome := by
    decide
  obtain ⟨s, hs⟩ := Option.isSome_iff_exists.mp hrun
  obtain ⟨s₀, hs₀, hs⟩ := Option.bind_eq_some_iff.mp hs
  cases hs₀
  exact ⟨_, s, rfl, hs, overlay_presents _ _ compatible_someLower someOverlayCalls _ s rfl (by decide) hs⟩

/-- A file is made under a name that the lower tree has: `vfs_mkfile` does not look for it, as `vfs_mknod`
does, and the empty file hides the contents. -/
theorem overlay_mkfile_hides :
    ¬ ∀ (upper lower : FsTree) (ops : List OverlayOp) (s₀ s : Overlay), Compatible upper lower →
      overlayMount upper lower = some s₀ → run Overlay.step ops s₀ = some s →
      s.Presents upper lower ops := by
  intro h
  have hread : ((overlayMount (.dir []) someLower).bind fun s₀ =>
      (run Overlay.step [.lookup [⟨['d'], by decide⟩, ⟨['f'], by decide⟩],
        .mkfile [⟨['d'], by decide⟩] ⟨['f'], by decide⟩] s₀).bind fun s =>
          s.vfsRead [⟨['d'], by decide⟩, ⟨['f'], by decide⟩] 0 2) = some [] := by
    decide
  obtain ⟨s₀, hs₀, hread⟩ := Option.bind_eq_some_iff.mp hread
  obtain ⟨s, hs, hread⟩ := Option.bind_eq_some_iff.mp hread
  have hp := (h _ _ _ s₀ s compatible_someLower hs₀ hs).read _ 0 2 [] (by norm_num) hread
  revert hp
  decide

end CoolPotOS
