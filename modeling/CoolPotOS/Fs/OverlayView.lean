import CoolPotOS.Fs.Overlay

namespace CoolPotOS

open NamedTree Bytes Function List Option

variable {f g : StoredFile} {offset : ℕ} {t : FsTree} {c node : Wrappers}

theorem StoredFile.write_array {addr : List UInt8} (h : (f.write addr offset).2 = addr.length) :
    (f.write addr offset).1.array = if addr = [] then f.array else f.array.write addr offset := by
  change (tmpfsWrite f.file addr offset true).2 = addr.length at h
  change (if (tmpfsWrite f.file addr offset true).2 = 0 then f.array else f.array.write addr offset) = _
  rw [h]
  by_cases hnil : addr = []
  · rw [if_pos hnil, if_pos (by rw [hnil]; rfl)]
  · rw [if_neg hnil, if_neg (by rwa [length_eq_zero_iff])]

theorem tmpfsRead_chunk (f : StoredFile) (h : offset < f.file.size) :
    tmpfsRead f.file offset (min (f.file.size - offset) 4096) =
      some (slice f.array.bytes offset (min (f.file.size - offset) 4096)) := by
  have hle := f.holds.size_le
  have hlt := f.holds.capacity_lt
  have hread : tmpfsRead f.file offset (min (f.file.size - offset) 4096) =
      some (f.array.read offset (min (f.file.size - offset) 4096)) := by
    rw [tmpfsRead_iff f.holds _ (by omega)]
    omega
  rw [hread]
  unfold SparseFile.read
  rw [← f.holds.size_eq]
  congr 2
  omega

/-- The first bytes of a file have been copied. -/
structure CopiedTo (f g : StoredFile) (n : ℕ) : Prop where
  size_eq : g.array.size = n
  le : n ≤ f.file.size
  bytes_eq : ∀ i < n, g.array.bytes i = f.array.bytes i

theorem StoredFile.zero (f : StoredFile) {i : ℕ} (h : f.array.size ≤ i) : f.array.bytes i = 0 := by
  apply f.holds.zero
  rw [f.holds.size_eq]
  exact h

theorem CopiedTo.array_eq {n : ℕ} (h : CopiedTo f g n) (hn : f.file.size ≤ n) : g.array = f.array := by
  have hsize : g.array.size = f.array.size := by
    rw [h.size_eq, ← f.holds.size_eq]
    exact le_antisymm h.le hn
  have hbytes : g.array.bytes = f.array.bytes := by
    funext i
    by_cases hi : i < n
    · exact h.bytes_eq i hi
    · rw [g.zero (by rw [h.size_eq]; omega), f.zero (by rw [← f.holds.size_eq]; omega)]
  cases hg : g.array
  cases hf : f.array
  rw [hg, hf] at hsize hbytes
  congr

theorem copyData_copies {fuel : ℕ} {upper : StoredFile} (h : CopiedTo f upper offset)
    (hfuel : f.file.size ≤ fuel + offset) (hcopy : copyData f fuel offset upper = some g) : g.array = f.array := by
  induction fuel generalizing offset upper with
  | zero =>
    obtain rfl := Option.some.inj hcopy
    apply h.array_eq
    omega
  | succ fuel ih =>
    unfold copyData at hcopy
    by_cases hlt : offset < f.file.size
    · rw [if_pos hlt, tmpfsRead_chunk f hlt, bind_some] at hcopy
      have hlen := length_slice f.array.bytes offset (min (f.file.size - offset) 4096)
      have hget : ∀ i < min (f.file.size - offset) 4096,
          (slice f.array.bytes offset (min (f.file.size - offset) 4096))[i]? =
            some (f.array.bytes (offset + i)) := fun i hi => getElem?_slice _ _ hi
      have hpos : 0 < min (f.file.size - offset) 4096 := by omega
      have hmin : min (f.file.size - offset) 4096 ≤ f.file.size - offset := min_le_left _ _
      generalize slice f.array.bytes offset (min (f.file.size - offset) 4096) = buffer at hcopy hlen hget
      generalize min (f.file.size - offset) 4096 = chunk at hcopy hlen hget hpos hmin
      have hne : buffer ≠ [] := by
        rintro rfl
        rw [length_nil] at hlen
        omega
      rw [if_neg hne] at hcopy
      split_ifs at hcopy with hwritten
      apply ih ⟨?_, ?_, ?_⟩ _ hcopy
      · rw [StoredFile.write_array hwritten, if_neg hne]
        change max upper.array.size (offset + buffer.length) = _
        rw [h.size_eq]
        omega
      · omega
      · intro i hi
        rw [StoredFile.write_array hwritten, if_neg hne]
        change overwrite upper.array.bytes offset buffer i = _
        unfold overwrite
        by_cases hold : i < offset
        · rw [if_pos hold]
          exact h.bytes_eq i hold
        · rw [if_neg hold, hget _ (by omega), getD_some]
          congr 1
          omega
      · omega
    · rw [if_neg hlt] at hcopy
      obtain rfl := Option.some.inj hcopy
      exact h.array_eq (by omega)

theorem copyData_array (h : copyData f f.file.size 0 .empty = some g) : g.array = f.array := by
  have hstart : CopiedTo f .empty 0 := ⟨rfl, Nat.zero_le _, fun i hi => absurd hi (Nat.not_lt_zero i)⟩
  exact copyData_copies hstart (by omega) h

def overlayView (upper lower : FsTree) (p : RelPath) : Option (Entry SparseFile) :=
  ((upper.entry p).or (lower.entry p)).map (Entry.map StoredFile.array)

variable {upper upper' lower : FsTree} {p q : RelPath} {n : FileName}

theorem overlayView_eq_none :
    overlayView upper lower p = none ↔ upper.entry p = none ∧ lower.entry p = none := by
  unfold overlayView
  cases upper.entry p <;> simp

theorem overlayView_ne_none :
    overlayView upper lower p ≠ none ↔ upper.entry p ≠ none ∨ lower.entry p ≠ none := by
  rw [ne_eq, overlayView_eq_none, not_and_or]

theorem overlayView_upper {e : Entry StoredFile} (h : upper.entry p = some e) :
    overlayView upper lower p = some (e.map StoredFile.array) := by
  unfold overlayView
  rw [h]
  rfl

theorem overlayView_lower (h : upper.entry p = none) :
    overlayView upper lower p = (lower.entry p).map (Entry.map StoredFile.array) := by
  unfold overlayView
  rw [h]
  rfl

theorem overlayView_congr (h : upper'.entry p = upper.entry p) :
    overlayView upper' lower p = overlayView upper lower p := by
  unfold overlayView
  rw [h]

theorem map_array_eq_dir {o : Option (Entry StoredFile)} :
    o.map (Entry.map StoredFile.array) = some .dir ↔ o = some .dir := by
  cases o with
  | none => simp
  | some e => cases e <;> simp [Entry.map]

theorem overlayView_eq_dir (hc : Compatible upper lower) :
    overlayView upper lower p = some .dir ↔ upper.entry p = some .dir ∨ lower.entry p = some .dir := by
  unfold overlayView
  rw [map_array_eq_dir]
  cases hu : upper.entry p with
  | none => simp
  | some e =>
    cases e with
    | dir => simp
    | file f =>
      have := (hc p f).2
      rw [hu] at this
      simpa using this

theorem Compatible.not_file (hc : Compatible upper lower) (h : overlayView upper lower p = some .dir)
    (f : StoredFile) : upper.entry p ≠ some (.file f) ∧ lower.entry p ≠ some (.file f) := by
  have := hc p f
  rcases (overlayView_eq_dir hc).mp h with hd | hd
  · rw [hd] at this ⊢
    simpa using this
  · rw [hd] at this ⊢
    simpa using this

theorem overlayView_of_append (hc : Compatible upper lower)
    (h : overlayView upper lower (p ++ n :: q) ≠ none) : overlayView upper lower p = some .dir := by
  rw [overlayView_eq_dir hc]
  rcases overlayView_ne_none.mp h with h | h
  · exact .inl (entry_of_append h)
  · exact .inr (entry_of_append h)

theorem overlayView_above (hc : Compatible upper lower) (hp : p <+: q)
    (h : overlayView upper lower q = some .dir) : overlayView upper lower p = some .dir := by
  obtain ⟨r, rfl⟩ := hp
  cases r with
  | nil => simpa using h
  | cons n r =>
    apply overlayView_of_append hc
    rw [h]
    exact some_ne_none _

theorem map_kind_overlayMetaNode (p : RelPath) :
    (overlayMetaNode upper lower p).map kind = (upper.entry p).or (lower.entry p) := by
  unfold overlayMetaNode overlayEffectiveNode entry
  cases upper.walk p with
  | none => simp
  | some u =>
    cases u with
    | file f => simp
    | dir us =>
      cases lower.walk p with
      | none => simp
      | some l => cases l <;> simp [kind]

theorem overlayMetaNode_isDir :
    (overlayMetaNode upper lower p).any isDir = true ↔ overlayView upper lower p = some .dir := by
  unfold overlayView
  rw [map_array_eq_dir, ← map_kind_overlayMetaNode]
  cases overlayMetaNode upper lower p with
  | none => simp
  | some t => cases t <;> simp [isDir, kind]

/-- The view after the change is another one, and the trees stay compatible. -/
structure UpperStep (lower upper upper' : FsTree) (view : RelPath → Option (Entry SparseFile)) : Prop where
  view_eq : ∀ q, overlayView upper' lower q = view q
  compatible : Compatible upper' lower
  kept : ∀ q, upper.entry q ≠ none → upper'.entry q ≠ none

abbrev UpperSame (lower upper upper' : FsTree) : Prop :=
  UpperStep lower upper upper' (overlayView upper lower)

theorem UpperSame.refl (hc : Compatible upper lower) : UpperSame lower upper upper :=
  ⟨fun _ => rfl, hc, fun _ h => h⟩

theorem UpperStep.trans {upper'' : FsTree} {view view' : RelPath → Option (Entry SparseFile)}
    (h : UpperStep lower upper upper' view) (h' : UpperStep lower upper' upper'' view') :
    UpperStep lower upper upper'' view' :=
  ⟨h'.view_eq, h'.compatible, fun q hq => h'.kept q (h.kept q hq)⟩

theorem UpperStep.congr {view view' : RelPath → Option (Entry SparseFile)}
    (h : UpperStep lower upper upper' view) (hv : ∀ q, view q = view' q) :
    UpperStep lower upper upper' view' :=
  ⟨fun q => (h.view_eq q).trans (hv q), h.compatible, h.kept⟩

theorem UpperStep.mkdirs (hc : Compatible upper lower) (h : upper.mkdirs p = some upper')
    (hp : ∀ q, q <+: p → overlayView upper lower q = some .dir ∨ overlayView upper lower q = none) :
    UpperStep lower upper upper' fun q => if q <+: p then some .dir else overlayView upper lower q := by
  have hentry := entry_mkdirs h
  refine ⟨fun q => ?_, fun q f => ?_, fun q hq => ?_⟩
  · by_cases hqp : q <+: p
    · rw [overlayView_upper ((hentry q).trans (if_pos hqp)), if_pos hqp]
      rfl
    · rw [overlayView_congr ((hentry q).trans (if_neg hqp)), if_neg hqp]
  · rw [hentry]
    by_cases hqp : q <+: p
    · rw [if_pos hqp]
      have hlower : lower.entry q ≠ some (.file f) := by
        rcases hp q hqp with hd | hn
        · exact (hc.not_file hd f).2
        · rw [(overlayView_eq_none.mp hn).2]
          exact (some_ne_none _).symm
      simp [hlower]
    · rw [if_neg hqp]
      exact hc q f
  · rw [hentry]
    split_ifs
    · exact some_ne_none _
    · exact hq

theorem UpperSame.mkdirs (hc : Compatible upper lower) (h : upper.mkdirs p = some upper')
    (hp : overlayView upper lower p = some .dir) : UpperSame lower upper upper' := by
  have hall : ∀ q, q <+: p → overlayView upper lower q = some .dir := fun q hq =>
    overlayView_above hc hq hp
  apply (UpperStep.mkdirs hc h fun q hq => .inl (hall q hq)).congr
  intro q
  split_ifs with hq
  · exact (hall q hq).symm
  · rfl

theorem UpperStep.setFile (hc : Compatible upper lower)
    (h : ∀ q, upper'.entry q = if q = p then some (.file g) else upper.entry q) (hp : lower.entry p ≠ some .dir) :
    UpperStep lower upper upper' (update (overlayView upper lower) p (some (.file g.array))) := by
  refine ⟨fun q => ?_, fun q f => ?_, fun q hq => ?_⟩
  · by_cases hq : q = p
    · subst hq
      rw [overlayView_upper ((h q).trans (if_pos rfl)), update_self]
      rfl
    · rw [overlayView_congr ((h q).trans (if_neg hq)), update_of_ne hq]
  · rw [h]
    by_cases hq : q = p
    · subst hq
      simp [hp]
    · rw [if_neg hq]
      exact hc q f
  · rw [h]
    split_ifs
    · exact some_ne_none _
    · exact hq

theorem entry_of_walk {c : FsTree} (h : t.walk p = some c) : t.entry p = some c.kind := by
  unfold entry
  rw [h, map_some]

theorem entry_of_walk_none (h : t.walk p = none) : t.entry p = none := by
  unfold entry
  rw [h, map_none]

theorem overlayEnsureUpperDir_same (hc : Compatible upper lower)
    (hp : overlayView upper lower p = some .dir) (h : overlayEnsureUpperDir upper p = some upper') :
    UpperSame lower upper upper' ∧ upper'.entry p = some .dir := by
  unfold overlayEnsureUpperDir at h
  cases hw : upper.walk p with
  | none =>
    rw [hw] at h
    refine ⟨.mkdirs hc h hp, ?_⟩
    rw [entry_mkdirs h, if_pos prefix_rfl]
  | some c =>
    rw [hw] at h
    cases c with
    | file f => cases h
    | dir cs =>
      obtain rfl := Option.some.inj h
      exact ⟨.refl hc, entry_of_walk hw⟩

theorem entry_alter_add_file (h : alter (add n (.file g)) upper p = some upper')
    (hnew : upper.entry (p ++ [n]) = none) (q : RelPath) :
    upper'.entry q = if q = p ++ [n] then some (.file g) else upper.entry q := by
  obtain ⟨-, hbelow, hrest⟩ := entry_alter_add h
  by_cases hq : p ++ [n] <+: q
  · obtain ⟨r, rfl⟩ := hq
    rw [append_assoc, singleton_append, hbelow]
    cases r with
    | nil => rw [if_pos rfl, entry_nil, kind]
    | cons m r =>
      rw [if_neg (by simp), entry_file]
      by_contra hne
      have := entry_of_append (p := p ++ [n]) (n := m) (q := r) (t := upper)
        (by simpa using fun h0 => hne h0.symm)
      rw [hnew] at this
      cases this
  · rw [hrest q hq, if_neg]
    rintro rfl
    exact hq prefix_rfl

theorem overlayCopyUp_same (hc : Compatible upper lower) (h : overlayCopyUp upper lower p = some upper') :
    UpperSame lower upper upper' ∧ upper'.entry p ≠ none := by
  unfold overlayCopyUp at h
  cases hu : upper.walk p with
  | some c =>
    rw [hu] at h
    obtain rfl := Option.some.inj h
    exact ⟨.refl hc, by simp [entry_of_walk hu]⟩
  | none =>
    have hupper := entry_of_walk_none hu
    cases hl : lower.walk p with
    | none =>
      rw [hu, hl] at h
      cases h
    | some c =>
      have hlower := entry_of_walk hl
      cases c with
      | dir cs =>
        rw [hu, hl] at h
        obtain ⟨hsame, hdir⟩ := overlayEnsureUpperDir_same hc ((overlayView_eq_dir hc).mpr (.inr hlower)) h
        exact ⟨hsame, by simp [hdir]⟩
      | file f =>
        rw [hu, hl] at h
        obtain ⟨u1, hmk, h⟩ := bind_eq_some_iff.mp h
        obtain ⟨name, hname, h⟩ := bind_eq_some_iff.mp h
        obtain ⟨g, hg, h⟩ := bind_eq_some_iff.mp h
        have hp : p.dropLast ++ [name] = p := dropLast_append_getLast? name hname
        have hview : overlayView upper lower p = some (.file f.array) := by
          rw [overlayView_lower hupper, hlower]
          rfl
        have hparent : overlayView upper lower p.dropLast = some .dir := by
          apply overlayView_of_append hc (n := name) (q := [])
          rw [hp, hview]
          exact some_ne_none _
        have hsame : UpperSame lower upper u1 := .mkdirs hc hmk hparent
        have hnew : u1.entry p = none := by
          rw [entry_mkdirs hmk, if_neg, hupper]
          intro hpre
          have := hpre.length_le
          rw [← hp] at this
          simp at this
        have hset := entry_alter_add_file h (hp.symm ▸ hnew)
        rw [hp] at hset
        refine ⟨hsame.trans ((UpperStep.setFile hsame.compatible hset ?_).congr fun q => ?_), ?_⟩
        · rw [hlower]
          simp [kind]
        · rw [copyData_array hg]
          by_cases hq : q = p
          · rw [hq, update_self, hview]
          · rw [update_of_ne hq, hsame.view_eq]
        · rw [hset, if_pos rfl]
          exact some_ne_none _

theorem entry_alter_writeNode {addr : List UInt8}
    (h : alter (Overlay.writeNode offset addr) upper p = some upper') :
    ∃ f g : StoredFile, upper.entry p = some (.file f) ∧
      g.array = (if addr = [] then f.array else f.array.write addr offset) ∧
      ∀ q, upper'.entry q = if q = p then some (.file g) else upper.entry q := by
  obtain ⟨c, c', hc, hc'⟩ := walk_of_alter h
  cases c with
  | dir cs => cases hc'
  | file f =>
    have hf : upper.entry p = some (.file f) := entry_of_walk hc
    rw [Overlay.writeNode] at hc'
    split_ifs at hc' with hwritten
    obtain rfl := Option.some.inj hc'
    refine ⟨f, _, hf, StoredFile.write_array hwritten, fun q => ?_⟩
    by_cases hq : p <+: q
    · obtain ⟨r, rfl⟩ := hq
      rw [entry_alter_append h, hc, bind_some, Overlay.writeNode, if_pos hwritten, bind_some]
      cases r with
      | nil => rw [if_pos (append_nil p), entry_nil, kind]
      | cons m r => rw [if_neg (by simp), entry_file, entry_below_file hf]
    · rw [entry_alter_elsewhere h hq, if_neg]
      rintro rfl
      exact hq prefix_rfl

theorem nodup_names_addWrapper (h : node.names.Nodup) (n : FileName) : (addWrapper node n).names.Nodup := by
  unfold addWrapper
  split_ifs with hn
  · exact h
  · exact nodup_cons.mpr ⟨hn, h⟩

theorem lookup_addWrapper (m n : FileName) : (addWrapper node n).child.lookup m =
      (node.child.lookup m).or (if m = n then some (.dir []) else none) := by
  unfold addWrapper
  split_ifs with hn hm hm
  · subst hm
    obtain ⟨c, hc⟩ := ne_none_iff_exists'.mp ((mem_fst_iff m node.child).mp hn)
    rw [hc, some_or]
  · rw [or_none]
  · subst hm
    rw [child, lookup_cons_eq, if_pos rfl]
    have hnone : node.child.lookup m = none := by
      by_contra hne
      exact hn ((mem_fst_iff m node.child).mpr hne)
    rw [hnone, none_or]
  · rw [child, lookup_cons_eq, if_neg hm, or_none]

theorem nodup_names_foldl (h : node.names.Nodup) (names : List FileName) :
    (names.foldl addWrapper node).names.Nodup := by
  induction names generalizing node with
  | nil => exact h
  | cons n names ih =>
    apply ih
    exact nodup_names_addWrapper h n

theorem lookup_foldl_addWrapper (names : List FileName) (node : Wrappers) (m : FileName) :
    (names.foldl addWrapper node).child.lookup m =
      (node.child.lookup m).or (if m ∈ names then some (.dir []) else none) := by
  induction names generalizing node with
  | nil => simp
  | cons n names ih =>
    rw [foldl_cons, ih, lookup_addWrapper, Option.or_assoc]
    congr 1
    by_cases hm : m = n
    · simp [hm]
    · simp [hm]

theorem mem_dirNames {p : RelPath} {n : FileName} : n ∈ dirNames (t.walk p) ↔ t.entry (p ++ [n]) ≠ none := by
  rw [entry_append]
  cases t.walk p with
  | none => simp [dirNames]
  | some c =>
    cases c with
    | file f => simp [dirNames, entry_file]
    | dir cs => exact mem_names (t := .dir cs)

theorem overlayStat_of_dir (h : overlayView upper lower p = some .dir) (node : Wrappers) :
    overlayStat upper lower p node = overlayRefreshDirChildren (upper.walk p) (lower.walk p) node := by
  have hdir := overlayMetaNode_isDir.mpr h
  unfold overlayStat
  cases hm : overlayMetaNode upper lower p with
  | none =>
    rw [hm] at hdir
    cases hdir
  | some t =>
    rw [hm] at hdir
    cases t with
    | file f => cases hdir
    | dir cs => rfl

theorem overlayStat_of_not_dir (h : overlayView upper lower p ≠ some .dir) (node : Wrappers) :
    overlayStat upper lower p node = node := by
  rw [ne_eq, ← overlayMetaNode_isDir] at h
  unfold overlayStat
  cases hm : overlayMetaNode upper lower p with
  | none => rfl
  | some t =>
    rw [hm] at h
    cases t with
    | file f => rfl
    | dir cs => exact absurd rfl h

theorem lookup_overlayStat (hc : Compatible upper lower) (p : RelPath) (node : Wrappers) (m : FileName) :
    ∃ missing : Bool, (missing = true ↔ overlayView upper lower (p ++ [m]) ≠ none) ∧
      (overlayStat upper lower p node).child.lookup m =
        (node.child.lookup m).or (if missing then some (.dir []) else none) := by
  by_cases hview : overlayView upper lower p = some .dir
  · refine ⟨decide (m ∈ dirNames (lower.walk p) ++ dirNames (upper.walk p)), ?_, ?_⟩
    · rw [decide_eq_true_iff, mem_append, mem_dirNames, mem_dirNames, or_comm, overlayView_ne_none]
    · rw [overlayStat_of_dir hview, overlayRefreshDirChildren, lookup_foldl_addWrapper]
      simp only [decide_eq_true_eq]
  · refine ⟨false, ?_, ?_⟩
    · simp only [Bool.false_eq_true, false_iff, not_not]
      by_contra hbelow
      exact hview (overlayView_of_append hc hbelow)
    · rw [overlayStat_of_not_dir hview]
      simp

theorem nodup_names_overlayStat (h : node.names.Nodup) (p : RelPath) :
    (overlayStat upper lower p node).names.Nodup := by
  unfold overlayStat
  split
  · exact nodup_names_foldl h _
  · exact h

/-- The wrappers from a node on are of what there is, each name once. -/
def WrappersSound (upper lower : FsTree) (p : RelPath) (node : Wrappers) : Prop :=
  ∀ q c, node.walk q = some c →
    c.names.Nodup ∧ ∀ n ∈ c.names, overlayView upper lower (p ++ q ++ [n]) ≠ none

def ListsAll (upper lower : FsTree) (p : RelPath) (node : Wrappers) : Prop :=
  ∀ n, overlayView upper lower (p ++ [n]) ≠ none → n ∈ node.names

def WrappersGrow (node node' : Wrappers) : Prop :=
  ∀ q c, node.walk q = some c → ∃ c', node'.walk q = some c' ∧ c.names ⊆ c'.names

theorem WrappersGrow.refl (node : Wrappers) : WrappersGrow node node := fun _ c hc => ⟨c, hc, List.Subset.refl _⟩

theorem WrappersGrow.trans {a b : Wrappers} (h : WrappersGrow a b) (h' : WrappersGrow b c) : WrappersGrow a c := by
  intro q w hw
  obtain ⟨w', hw', hsub⟩ := h q w hw
  obtain ⟨w'', hw'', hsub'⟩ := h' q w' hw'
  exact ⟨w'', hw'', fun n hn => hsub' (hsub hn)⟩

theorem sound_iff : WrappersSound upper lower p node ↔
    node.names.Nodup ∧ ∀ n c, node.child.lookup n = some c →
      overlayView upper lower (p ++ [n]) ≠ none ∧ WrappersSound upper lower (p ++ [n]) c := by
  constructor
  · intro h
    obtain ⟨hnodup, hnames⟩ := h [] node walk_nil
    refine ⟨hnodup, fun n c hc => ⟨?_, fun q w hw => ?_⟩⟩
    · simpa using hnames n ((mem_fst_iff n node.child).mpr (by simp [hc]))
    · have hwalk : node.walk (n :: q) = some w := by
        rw [walk_cons, hc]
        exact hw
      simpa using h (n :: q) w hwalk
  · rintro ⟨hnodup, hchild⟩ q w hw
    cases q with
    | nil =>
      obtain rfl := Option.some.inj (walk_nil.symm.trans hw)
      refine ⟨hnodup, fun n hn => ?_⟩
      obtain ⟨c, hc⟩ := ne_none_iff_exists'.mp ((mem_fst_iff n node.child).mp hn)
      simpa using (hchild n c hc).1
    | cons n q =>
      rw [walk_cons] at hw
      obtain ⟨c, hc, hw⟩ := bind_eq_some_iff.mp hw
      simpa using (hchild n c hc).2 q w hw

theorem WrappersGrow.of_children {node' : Wrappers}
    (h : ∀ n c, node.child.lookup n = some c → ∃ c', node'.child.lookup n = some c' ∧ WrappersGrow c c') :
    WrappersGrow node node' := by
  intro q w hw
  cases q with
  | nil =>
    obtain rfl := Option.some.inj (walk_nil.symm.trans hw)
    refine ⟨node', walk_nil, fun n hn => ?_⟩
    obtain ⟨c, hc⟩ := ne_none_iff_exists'.mp ((mem_fst_iff n node.child).mp hn)
    obtain ⟨c', hc', -⟩ := h n c hc
    exact (mem_fst_iff n node'.child).mpr (by simp [hc'])
  | cons n q =>
    rw [walk_cons] at hw
    obtain ⟨c, hc, hw⟩ := bind_eq_some_iff.mp hw
    obtain ⟨c', hc', hgrows⟩ := h n c hc
    rw [walk_cons, hc', bind_some]
    exact hgrows q w hw

theorem WrappersSound.mono (h : WrappersSound upper lower p node)
    (hv : ∀ q, overlayView upper lower q ≠ none → overlayView upper' lower q ≠ none) :
    WrappersSound upper' lower p node :=
  fun q c hc => ⟨(h q c hc).1, fun n hn => hv _ ((h q c hc).2 n hn)⟩

theorem sound_dir_nil (p : RelPath) : WrappersSound upper lower p (.dir []) := by
  rw [sound_iff]
  exact ⟨nodup_nil, fun n c hc => by cases hc⟩

theorem WrappersSound.overlayStat (hc : Compatible upper lower) (h : WrappersSound upper lower p node) :
    WrappersSound upper lower p (overlayStat upper lower p node) := by
  obtain ⟨hnodup, hchild⟩ := sound_iff.mp h
  refine sound_iff.mpr ⟨nodup_names_overlayStat hnodup p, fun n c hn => ?_⟩
  obtain ⟨missing, hmissing, hlookup⟩ := lookup_overlayStat hc p node n
  rw [hlookup] at hn
  cases hold : node.child.lookup n with
  | some c' =>
    rw [hold, some_or] at hn
    obtain rfl := Option.some.inj hn
    exact hchild n c' hold
  | none =>
    rw [hold, none_or] at hn
    split_ifs at hn with hview
    obtain rfl := Option.some.inj hn
    exact ⟨hmissing.mp hview, sound_dir_nil _⟩

theorem listed_overlayStat (hc : Compatible upper lower) (p : RelPath) (node : Wrappers) :
    ListsAll upper lower p (overlayStat upper lower p node) := by
  intro n hn
  obtain ⟨missing, hmissing, hlookup⟩ := lookup_overlayStat hc p node n
  rw [names, mem_fst_iff, hlookup, if_pos (hmissing.mpr hn)]
  cases node.child.lookup n <;> simp

theorem grows_overlayStat (hc : Compatible upper lower) (p : RelPath) (node : Wrappers) :
    WrappersGrow node (overlayStat upper lower p node) := by
  apply WrappersGrow.of_children
  intro n c hn
  obtain ⟨missing, -, hlookup⟩ := lookup_overlayStat hc p node n
  refine ⟨c, ?_, .refl c⟩
  rw [hlookup, hn, some_or]

theorem WrappersSound.setFirst (h : WrappersSound upper lower p node)
    (hc : WrappersSound upper lower (p ++ [n]) c) :
    WrappersSound upper lower p (.dir (setFirst n c node.child)) := by
  obtain ⟨hnodup, hchild⟩ := sound_iff.mp h
  refine sound_iff.mpr ⟨?_, fun m c' hm => ?_⟩
  · rw [names, child, map_fst_setFirst]
    exact hnodup
  · rw [child, lookup_setFirst] at hm
    split_ifs at hm with hmn
    · obtain ⟨old, hold, rfl⟩ := map_eq_some_iff.mp hm
      rw [hmn]
      exact ⟨(hchild n old hold).1, hc⟩
    · exact hchild m c' hm

theorem WrappersGrow.setFirst {old : Wrappers} (hold : node.child.lookup n = some old) (h : WrappersGrow old c) :
    WrappersGrow node (.dir (setFirst n c node.child)) := by
  apply WrappersGrow.of_children
  intro m c' hm
  rw [child, lookup_setFirst]
  by_cases hmn : m = n
  · subst hmn
    rw [if_pos rfl, hm]
    obtain rfl := Option.some.inj (hold.symm.trans hm)
    exact ⟨c, rfl, h⟩
  · rw [if_neg hmn]
    exact ⟨c', hm, .refl c'⟩

theorem WrappersSound.cons (h : WrappersSound upper lower p node) (hnew : n ∉ node.names)
    (hn : overlayView upper lower (p ++ [n]) ≠ none) (hc : WrappersSound upper lower (p ++ [n]) c) :
    WrappersSound upper lower p (.dir ((n, c) :: node.child)) := by
  obtain ⟨hnodup, hchild⟩ := sound_iff.mp h
  refine sound_iff.mpr ⟨nodup_cons.mpr ⟨hnew, hnodup⟩, fun m c' hm => ?_⟩
  rw [child, lookup_cons_eq] at hm
  split_ifs at hm with hmn
  · obtain rfl := some.inj hm
    rw [hmn]
    exact ⟨hn, hc⟩
  · exact hchild m c' hm

theorem WrappersGrow.cons (hnew : n ∉ node.names) (c : Wrappers) :
    WrappersGrow node (.dir ((n, c) :: node.child)) := by
  apply WrappersGrow.of_children
  intro m c' hm
  refine ⟨c', ?_, .refl c'⟩
  rw [child, lookup_cons_eq, if_neg, hm]
  rintro rfl
  exact hnew ((mem_fst_iff m node.child).mpr (by simp [hm]))

end CoolPotOS
