import CoolPotOS.Fs.OverlayView

namespace CoolPotOS

open NamedTree Bytes List Option

inductive CopyUpErrno
  | enoent | enotdir | enomem | eio | enospc
  deriving DecidableEq

/-- The call that does not succeed: `malloc` of a path, `vfs_mkdir`, `vfs_mkfile`, `vfs_open` of the new node,
or the read or the write of a round. Such a write takes only the first bytes. -/
inductive CopyUpFault
  | malloc | mkdir | mkfile | open
  | read (round : ℕ)
  | write (round written : ℕ)
  deriving DecidableEq

def CopyUpFault.taken (round got : ℕ) : CopyUpFault → ℕ
  | .write r written => if r = round then written else got
  | _ => got

/-- The loop of `overlay_copy_up`, with the file that it leaves. -/
def copyRounds (fault : CopyUpFault) (lower : StoredFile) :
    ℕ → ℕ → ℕ → StoredFile → StoredFile × Option CopyUpErrno
  | 0, _, _, upper => (upper, none)
  | fuel + 1, round, offset, upper =>
    if offset < lower.file.size then
      if fault = .read round then (upper, some .eio)
      else
        match tmpfsRead lower.file offset (min (lower.file.size - offset) 4096) with
        | none => (upper, some .eio)
        | some buffer =>
          if buffer = [] then (upper, none)
          else
            let r := upper.write (buffer.take (fault.taken round buffer.length)) offset
            if r.2 = buffer.length then copyRounds fault lower fuel (round + 1) (offset + buffer.length) r.1
            else (r.1, some .enospc)
    else (upper, none)

/-- `overlay_ensure_upper_dir` of a directory that only the lower tree has. -/
def copyUpDir (fault : CopyUpFault) (upper : FsTree) (relpath : RelPath) : FsTree × Option CopyUpErrno :=
  if fault = .malloc then (upper, some .enomem)
  else
    match upper.mkdirs relpath with
    | none => (upper, some .enotdir)
    | some upper => (upper, if fault = .open then some .enoent else none)

/-- The part of `overlay_copy_up` for a file. -/
def copyUpFile (fault : CopyUpFault) (lower : StoredFile) (upper : FsTree) (relpath : RelPath) :
    FsTree × Option CopyUpErrno :=
  if fault = .malloc then (upper, some .enomem)
  else
    match upper.mkdirs relpath.dropLast, relpath.getLast? with
    | some upper, some name =>
      if fault = .mkfile then (upper, some .enoent)
      else
        let r :=
          if fault = .open then (.empty, some .enoent) else copyRounds fault lower lower.file.size 0 0 .empty
        match alter (add name (.file r.1)) upper relpath.dropLast with
        | some upper => (upper, r.2)
        | none => (upper, some .enoent)
    | _, _ => (upper, some .enotdir)

/-- `overlay_copy_up`, with the upper tree that it leaves and its error. -/
def copyUpWith (fault : CopyUpFault) (upper lower : FsTree) (relpath : RelPath) : FsTree × Option CopyUpErrno :=
  match upper.walk relpath, lower.walk relpath with
  | some _, _ => (upper, none)
  | none, none => (upper, some .enoent)
  | none, some (.dir _) => copyUpDir fault upper relpath
  | none, some (.file f) => copyUpFile fault f upper relpath

/-- The operations of an open node that copy it up. -/
inductive CopyUpOp
  | write (offset : ℕ) (addr : List UInt8)
  | map
  | chmod

/-- What an operation returns: the bytes written or no error, `(size_t)-1`, or an error. -/
inductive CopyUpResult
  | done (bytes : ℕ)
  | failed
  | errno (error : CopyUpErrno)
  deriving DecidableEq

/-- What `overlay_write`, `overlay_map` and `overlay_chmod` return for an error of `overlay_copy_up`. -/
def CopyUpOp.refusal (error : CopyUpErrno) : CopyUpOp → CopyUpResult
  | .write .. => .failed
  | .map => .errno .eio
  | .chmod => .errno error

/-- The rest of the operation, on the node of the upper tree. -/
def CopyUpOp.perform (upper : FsTree) (path : RelPath) : CopyUpOp → FsTree × CopyUpResult
  | .write offset addr =>
    match alter (fun t => match t with
      | .file f => some (.file (f.write addr offset).1)
      | .dir _ => none) upper path, upper.walk path with
    | some upper', some (.file f) => (upper', .done (f.write addr offset).2)
    | _, _ => (upper, .failed)
  | .map | .chmod => (upper, .done 0)

/-- `vfs_write` and `vfs_map` do not go on with a directory. -/
def CopyUpOp.Starts (s : Overlay) (path : RelPath) : CopyUpOp → Prop
  | .write .. | .map => path ∈ s.opened ∧ ¬ s.isDirAt path
  | .chmod => path ∈ s.opened

instance decidableCopyUpStarts (s : Overlay) (path : RelPath) : ∀ op : CopyUpOp, Decidable (op.Starts s path)
  | .write .. | .map => inferInstanceAs (Decidable (_ ∧ _))
  | .chmod => inferInstanceAs (Decidable (_ ∈ _))

def Overlay.operate (fault : CopyUpFault) (s : Overlay) (path : RelPath) (op : CopyUpOp) :
    Overlay × CopyUpResult :=
  if op.Starts s path then
    let r := copyUpWith fault s.upper s.lower path
    match r.2 with
    | some error => ({ s with upper := r.1 }, op.refusal error)
    | none => ({ s with upper := (op.perform r.1 path).1 }, (op.perform r.1 path).2)
  else (s, .failed)

/-- The operation returns an error, and every path of the merged tree has what it had. -/
def CopyUpUnseen (fault : CopyUpFault) (s : Overlay) (path : RelPath) (op : CopyUpOp) : Prop :=
  (∀ n, (s.operate fault path op).2 ≠ .done n) ∧
    ∀ q, overlayView (s.operate fault path op).1.upper (s.operate fault path op).1.lower q =
      overlayView s.upper s.lower q

/-- A copy-up of the path comes to the call that does not succeed. -/
def CopyUpFault.Reached (fault : CopyUpFault) (upper lower : FsTree) (path : RelPath) : Prop :=
  upper.entry path = none ∧
    match lower.entry path with
    | none => False
    | some .dir =>
      match fault with
      | .malloc => True
      | .mkdir => upper.mkdirs path = none
      | .open => upper.mkdirs path ≠ none
      | _ => False
    | some (.file f) =>
      match fault with
      | .malloc => True
      | .mkdir => upper.mkdirs path.dropLast = none
      | .mkfile | .open => upper.mkdirs path.dropLast ≠ none
      | .read round => upper.mkdirs path.dropLast ≠ none ∧ round * 4096 < f.file.size
      | .write round written => upper.mkdirs path.dropLast ≠ none ∧ round * 4096 < f.file.size ∧
          written < min (f.file.size - round * 4096) 4096

/-- The call is made before the new file is there, or there is nothing to copy into it. -/
def CopyUpFault.Early (f : StoredFile) : CopyUpFault → Prop
  | .malloc | .mkdir | .mkfile => True
  | .open => f.file.size = 0
  | .read _ | .write .. => False

def CopyUpFault.Harmless (fault : CopyUpFault) (lower : FsTree) (path : RelPath) : Prop :=
  ∀ f, lower.entry path = some (.file f) → fault.Early f

variable {fault : CopyUpFault} {upper upper' lower : FsTree} {p q path : RelPath} {n : FileName}
  {f g : StoredFile} {offset : ℕ}

theorem StoredFile.write_cases (f : StoredFile) (addr : List UInt8) (offset : ℕ) :
    (f.write addr offset).2 = 0 ∧ (f.write addr offset).1.array = f.array ∨
      (f.write addr offset).2 = addr.length ∧
        (f.write addr offset).1.array.size = max f.array.size (offset + addr.length) := by
  change (tmpfsWrite f.file addr offset true).2 = 0 ∧
    (if (tmpfsWrite f.file addr offset true).2 = 0 then f.array else f.array.write addr offset) = f.array ∨
      (tmpfsWrite f.file addr offset true).2 = addr.length ∧
        (if (tmpfsWrite f.file addr offset true).2 = 0 then f.array else f.array.write addr offset).size = _
  rcases tmpfsWrite_cases f.holds addr offset true with h | ⟨file', h, hne, -⟩
  · left
    rw [h]
    exact ⟨rfl, if_pos rfl⟩
  · right
    rw [h]
    refine ⟨rfl, ?_⟩
    rw [if_neg hne]
    rfl

def CopyUpFault.Stops (f : StoredFile) (round : ℕ) : CopyUpFault → Prop
  | .read k => round ≤ k ∧ k * 4096 < f.file.size
  | .write k written => round ≤ k ∧ k * 4096 < f.file.size ∧ written < min (f.file.size - k * 4096) 4096
  | _ => False

theorem CopyUpFault.Stops.lt {round : ℕ} (h : fault.Stops f round) : round * 4096 < f.file.size := by
  cases fault <;> simp only [Stops] at h
  all_goals omega

theorem CopyUpFault.Stops.next {round : ℕ} (h : fault.Stops f round) (hread : fault ≠ .read round)
    (htaken : fault.taken round (min (f.file.size - round * 4096) 4096) =
      min (f.file.size - round * 4096) 4096) : fault.Stops f (round + 1) := by
  cases fault with
  | read k =>
    have hne : k ≠ round := fun hk => hread (by rw [hk])
    simp only [Stops] at h ⊢
    omega
  | write k written =>
    simp only [Stops] at h ⊢
    have hne : k ≠ round := by
      rintro rfl
      simp only [taken, if_true] at htaken
      omega
    omega
  | malloc | mkdir | mkfile | «open» => exact h

theorem copyRounds_stops {fuel round : ℕ} {g : StoredFile} (hstops : fault.Stops f round)
    (hsize : g.array.size = round * 4096) (hfuel : f.file.size ≤ fuel + round * 4096) :
    (copyRounds fault f fuel round (round * 4096) g).2 ≠ none ∧
      (copyRounds fault f fuel round (round * 4096) g).1.array.size < f.file.size := by
  induction fuel generalizing round g with
  | zero =>
    have := hstops.lt
    omega
  | succ fuel ih =>
    have hlt := hstops.lt
    unfold copyRounds
    rw [if_pos hlt, tmpfsRead_chunk f hlt]
    by_cases hread : fault = .read round
    · rw [if_pos hread]
      refine ⟨some_ne_none _, ?_⟩
      change g.array.size < _
      omega
    rw [if_neg hread]
    have hlen := length_slice f.array.bytes (round * 4096) (min (f.file.size - round * 4096) 4096)
    generalize slice f.array.bytes (round * 4096) (min (f.file.size - round * 4096) 4096) = buffer at hlen ⊢
    have hne : buffer ≠ [] := by
      rintro rfl
      rw [length_nil] at hlen
      omega
    dsimp only
    rw [if_neg hne]
    -- the write of the round, which takes the bytes that it is let take
    have hwrite := g.write_cases (buffer.take (fault.taken round buffer.length)) (round * 4096)
    rw [length_take] at hwrite
    generalize g.write (buffer.take (fault.taken round buffer.length)) (round * 4096) = r at hwrite ⊢
    have hpos : buffer.length ≠ 0 := by rwa [ne_eq, length_eq_zero_iff]
    by_cases hall : r.2 = buffer.length
    · rw [if_pos hall]
      have hgot : fault.taken round buffer.length = buffer.length := by
        have hle : fault.taken round buffer.length ≤ buffer.length := by
          rw [hlen]
          unfold CopyUpFault.taken
          cases fault with
          | write k written =>
            unfold CopyUpFault.Stops at hstops
            dsimp only
            split_ifs with hk
            · rw [hk] at hstops
              omega
            · exact le_rfl
          | _ => exact le_rfl
        omega
      rw [hlen] at hgot
      have hnext := hstops.next hread hgot
      have hnextlt := hnext.lt
      have hfull : buffer.length = 4096 := by omega
      rw [hfull, ← Nat.succ_mul]
      apply ih hnext
      · omega
      · omega
    · rw [if_neg hall]
      refine ⟨some_ne_none _, ?_⟩
      change r.1.array.size < _
      rcases hwrite with ⟨-, harray⟩ | ⟨hcount, harray⟩
      · rw [harray]
        omega
      · omega

theorem entry_of_mkdirs (h : upper.mkdirs p = some upper') (hq : q <+: p) :
    upper.entry q = none ∨ upper.entry q = some .dir := by
  induction p generalizing upper upper' q with
  | nil =>
    obtain rfl := prefix_nil.mp hq
    cases upper with
    | file d => cases h
    | dir cs => exact .inr entry_nil
  | cons n p ih =>
    cases upper with
    | file d => cases h
    | dir cs =>
      cases q with
      | nil => exact .inr entry_nil
      | cons m q =>
        obtain ⟨rfl, hrest⟩ := cons_prefix_cons.mp hq
        rw [entry_cons, child]
        unfold mkdirs at h
        cases hc : cs.lookup m with
        | none => exact .inl rfl
        | some c =>
          rw [hc] at h
          obtain ⟨c', hc', -⟩ := map_eq_some_iff.mp h
          exact ih hc' hrest

theorem exists_alter_add {c : FsTree} (h : upper.entry p = some .dir) :
    ∃ upper', alter (add n c) upper p = some upper' := by
  induction p generalizing upper with
  | nil =>
    cases upper with
    | file d => simp [kind] at h
    | dir cs => exact ⟨_, rfl⟩
  | cons m p ih =>
    cases upper with
    | file d => cases h
    | dir cs =>
      rw [entry_cons] at h
      obtain ⟨d, hd, h⟩ := bind_eq_some_iff.mp h
      obtain ⟨d', hd'⟩ := ih h
      exact ⟨_, bind_eq_some_iff.mpr ⟨d, hd, by rw [hd', map_some]⟩⟩

theorem overlayView_mkdirs (h : upper.mkdirs p = some upper') (hlower : lower.entry p = some .dir) (q : RelPath) :
    overlayView upper' lower q = overlayView upper lower q := by
  have hentry := entry_mkdirs h q
  by_cases hq : q <+: p
  · rw [if_pos hq] at hentry
    have hdir : lower.entry q = some .dir := by
      obtain ⟨r, rfl⟩ := hq
      cases r with
      | nil => simpa using hlower
      | cons n r =>
        apply entry_of_append
        rw [hlower]
        exact some_ne_none _
    rw [overlayView_upper hentry]
    rcases entry_of_mkdirs h hq with hnone | hold
    · rw [overlayView_lower hnone, hdir]
      rfl
    · rw [overlayView_upper hold]
  · rw [if_neg hq] at hentry
    exact overlayView_congr hentry

variable {r : StoredFile × Option CopyUpErrno}

theorem copyUpFile_made (hmk : upper.mkdirs p = some upper') (hmalloc : fault ≠ .malloc) (hmkfile : fault ≠ .mkfile)
    (hr : r = if fault = .open then (.empty, some .enoent) else copyRounds fault f f.file.size 0 0 .empty) :
    ∃ upper'', copyUpFile fault f upper (p ++ [n]) = (upper'', r.2) ∧
      alter (add n (.file r.1)) upper' p = some upper'' := by
  have hdir : upper'.entry p = some .dir := by
    rw [entry_mkdirs hmk, if_pos prefix_rfl]
  obtain ⟨upper'', hadd⟩ := exists_alter_add (n := n) (c := .file r.1) hdir
  refine ⟨upper'', ?_, hadd⟩
  unfold copyUpFile
  rw [if_neg hmalloc, dropLast_concat, getLast?_concat, hmk]
  dsimp only
  rw [if_neg hmkfile, ← hr, hadd]

theorem overlayView_made (hmk : upper.mkdirs p = some upper') (hnone : upper.entry (p ++ [n]) = none)
    (hlower : lower.entry (p ++ [n]) = some (.file f)) {upper'' : FsTree}
    (hadd : alter (add n (.file g)) upper' p = some upper'') :
    (∀ q, overlayView upper'' lower q = overlayView upper lower q) ↔ g.array = f.array := by
  have hdir : lower.entry p = some .dir := by
    apply entry_of_append
    rw [hlower]
    exact some_ne_none _
  have hnew : upper'.entry (p ++ [n]) = none := by
    rw [entry_mkdirs hmk, if_neg, hnone]
    intro hle
    have := hle.length_le
    simp at this
  have hentry := entry_alter_add_file hadd hnew
  have hold : overlayView upper lower (p ++ [n]) = some (.file f.array) := by
    rw [overlayView_lower hnone, hlower]
    rfl
  have hview : overlayView upper'' lower (p ++ [n]) = some (.file g.array) :=
    overlayView_upper ((hentry _).trans (if_pos rfl))
  constructor
  · intro h
    have hsame := h (p ++ [n])
    rw [hold, hview] at hsame
    exact Entry.file.inj (Option.some.inj hsame)
  · intro h q
    by_cases hq : q = p ++ [n]
    · rw [hq, hold, hview, h]
    · rw [overlayView_congr ((hentry q).trans (if_neg hq)), overlayView_mkdirs hmk hdir]

theorem copyUpFile_spec (hnone : upper.entry (p ++ [n]) = none)
    (hlower : lower.entry (p ++ [n]) = some (.file f)) (hreached : fault.Reached upper lower (p ++ [n])) :
    (copyUpFile fault f upper (p ++ [n])).2 ≠ none ∧
      ((∀ q, overlayView (copyUpFile fault f upper (p ++ [n])).1 lower q = overlayView upper lower q) ↔
        fault.Early f) := by
  have hcall := hreached.2
  rw [hlower] at hcall
  simp only [dropLast_concat] at hcall
  have hdir : lower.entry p = some .dir := by
    apply entry_of_append
    rw [hlower]
    exact some_ne_none _
  -- after a file has been made, the view depends on what is in it
  have hmade : fault ≠ .malloc → fault ≠ .mkfile → upper.mkdirs p ≠ none →
      ∀ r : StoredFile × Option CopyUpErrno,
      r = (if fault = .open then (.empty, some .enoent) else copyRounds fault f f.file.size 0 0 .empty) →
      (copyUpFile fault f upper (p ++ [n])).2 = r.2 ∧
        ((∀ q, overlayView (copyUpFile fault f upper (p ++ [n])).1 lower q = overlayView upper lower q) ↔
          r.1.array = f.array) := by
    intro hmalloc hmkfile hmk r hr
    obtain ⟨upper', hmk⟩ := ne_none_iff_exists'.mp hmk
    obtain ⟨upper'', hcopy, hadd⟩ := copyUpFile_made (n := n) hmk hmalloc hmkfile hr
    rw [hcopy]
    exact ⟨rfl, overlayView_made hmk hnone hlower hadd⟩
  have hstops : fault.Stops f 0 → upper.mkdirs p ≠ none → fault ≠ .malloc → fault ≠ .mkfile → fault ≠ .open →
      (copyUpFile fault f upper (p ++ [n])).2 ≠ none ∧
        ((∀ q, overlayView (copyUpFile fault f upper (p ++ [n])).1 lower q = overlayView upper lower q) ↔ False) := by
    intro hstops hmk hmalloc hmkfile hopen
    obtain ⟨herror, hview⟩ := hmade hmalloc hmkfile hmk _ (if_neg hopen).symm
    obtain ⟨hfails, hless⟩ := copyRounds_stops (g := .empty) hstops rfl (Nat.le_add_right f.file.size _)
    rw [Nat.zero_mul] at hfails hless
    rw [herror, hview]
    refine ⟨hfails, iff_of_false (fun h => ?_) id⟩
    rw [h, ← f.holds.size_eq] at hless
    exact lt_irrefl _ hless
  cases fault with
  | malloc => exact ⟨some_ne_none _, iff_of_true (fun _ => rfl) trivial⟩
  | mkdir =>
    unfold copyUpFile
    rw [if_neg CopyUpFault.noConfusion, dropLast_concat, hcall]
    exact ⟨some_ne_none _, iff_of_true (fun _ => rfl) trivial⟩
  | mkfile =>
    obtain ⟨upper', hmk⟩ := ne_none_iff_exists'.mp hcall
    unfold copyUpFile
    rw [if_neg CopyUpFault.noConfusion, dropLast_concat, getLast?_concat, hmk]
    exact ⟨some_ne_none _, iff_of_true (overlayView_mkdirs hmk hdir) trivial⟩
  | «open» =>
    obtain ⟨herror, hview⟩ := hmade CopyUpFault.noConfusion CopyUpFault.noConfusion hcall _ (if_pos rfl).symm
    rw [herror, hview]
    refine ⟨some_ne_none _, fun h => ?_, fun h => ?_⟩
    · change f.file.size = 0
      rw [f.holds.size_eq, ← h]
      rfl
    · have hstart : CopiedTo f .empty 0 := ⟨rfl, Nat.zero_le _, fun i hi => absurd hi (Nat.not_lt_zero i)⟩
      exact hstart.array_eq (Nat.le_of_eq h)
  | read round =>
    exact hstops ⟨Nat.zero_le _, hcall.2⟩ hcall.1 CopyUpFault.noConfusion CopyUpFault.noConfusion
      CopyUpFault.noConfusion
  | write round written =>
    exact hstops ⟨Nat.zero_le _, hcall.2⟩ hcall.1 CopyUpFault.noConfusion CopyUpFault.noConfusion
      CopyUpFault.noConfusion

theorem copyUpDir_spec (hlower : lower.entry path = some .dir) (hreached : fault.Reached upper lower path) :
    (copyUpDir fault upper path).2 ≠ none ∧
      ∀ q, overlayView (copyUpDir fault upper path).1 lower q = overlayView upper lower q := by
  have hcall := hreached.2
  rw [hlower] at hcall
  unfold copyUpDir
  cases fault with
  | malloc => exact ⟨some_ne_none _, fun _ => rfl⟩
  | mkdir =>
    rw [if_neg CopyUpFault.noConfusion, hcall]
    exact ⟨some_ne_none _, fun _ => rfl⟩
  | «open» =>
    obtain ⟨upper', hmk⟩ := ne_none_iff_exists'.mp hcall
    rw [if_neg CopyUpFault.noConfusion, hmk]
    exact ⟨some_ne_none _, overlayView_mkdirs hmk hlower⟩
  | mkfile | read _ | write _ _ => cases hcall

theorem copyUpWith_spec (hreached : fault.Reached upper lower path) :
    (copyUpWith fault upper lower path).2 ≠ none ∧
      ((∀ q, overlayView (copyUpWith fault upper lower path).1 lower q = overlayView upper lower q) ↔
        fault.Harmless lower path) := by
  have hnone := hreached.1
  have hwalk : upper.walk path = none := by simpa [entry] using hnone
  unfold copyUpWith CopyUpFault.Harmless
  rw [hwalk]
  cases hl : lower.walk path with
  | none =>
    have hcall := hreached.2
    rw [entry_of_walk_none hl] at hcall
    cases hcall
  | some c =>
    have hlower := entry_of_walk hl
    cases c with
    | dir cs =>
      obtain ⟨herror, hview⟩ := copyUpDir_spec hlower hreached
      refine ⟨herror, iff_of_true hview fun f hf => ?_⟩
      rw [hlower] at hf
      cases hf
    | file f =>
      have hpath : path ≠ [] := by
        rintro rfl
        simp at hnone
      obtain ⟨p, n, rfl⟩ := eq_nil_or_concat' path |>.resolve_left hpath
      have hall : (∀ f', lower.entry (p ++ [n]) = some (.file f') → fault.Early f') ↔ fault.Early f := by
        rw [hlower]
        simp [kind]
      rw [hall]
      exact copyUpFile_spec hnone hlower hreached

/-- When a copy-up comes to a call that does not succeed, the operation returns an error and nothing is to be
seen exactly if the new file is not yet there, or is empty as the file of the lower tree is. -/
theorem overlay_copyUp_fails_iff (s : Overlay) (path : RelPath) (op : CopyUpOp) (fault : CopyUpFault)
    (hstarts : op.Starts s path) (hreached : fault.Reached s.upper s.lower path) :
    CopyUpUnseen fault s path op ↔ fault.Harmless s.lower path := by
  obtain ⟨hfails, hview⟩ := copyUpWith_spec hreached
  obtain ⟨error, herror⟩ := ne_none_iff_exists'.mp hfails
  have hrun : s.operate fault path op =
      ({ s with upper := (copyUpWith fault s.upper s.lower path).1 }, op.refusal error) := by
    unfold Overlay.operate
    rw [if_pos hstarts]
    simp only [herror]
  have hrefused : ∀ n, op.refusal error ≠ .done n := by
    intro n
    cases op <;> exact CopyUpResult.noConfusion
  unfold CopyUpUnseen
  rw [hrun, ← hview]
  exact and_iff_right hrefused

def someCopiedPath : RelPath := [⟨['d'], (by decide : _ ∧ _)⟩, ⟨['f'], (by decide : _ ∧ _)⟩]

/-- A directory with a file of two bytes, in the lower tree. -/
def someCopied : Overlay :=
  ⟨.dir [], .dir [(⟨['d'], (by decide : _ ∧ _)⟩, .dir [(⟨['f'], (by decide : _ ∧ _)⟩, .file (StoredFile.empty.write [1, 2] 0).1)])],
    .dir [], [someCopiedPath]⟩

theorem overlay_copyUp_fails_iff_chmod :
    CopyUpUnseen .malloc someCopied someCopiedPath .chmod ↔
      CopyUpFault.Harmless .malloc someCopied.lower someCopiedPath :=
  overlay_copyUp_fails_iff someCopied someCopiedPath .chmod .malloc (by decide) ⟨rfl, trivial⟩

/-- The lower file cannot be read: the write returns `(size_t)-1`, and an empty file is in the place of the
two bytes. -/
theorem overlay_copyUp_seen :
    ¬ ∀ (s : Overlay) (path : RelPath) (op : CopyUpOp) (fault : CopyUpFault),
      op.Starts s path → fault.Reached s.upper s.lower path → CopyUpUnseen fault s path op := by
  intro h
  have hreached : CopyUpFault.Reached (.read 0) someCopied.upper someCopied.lower someCopiedPath :=
    ⟨rfl, some_ne_none _, by decide⟩
  have hview := (h someCopied someCopiedPath (.write 0 [7]) (.read 0) (by decide) hreached).2 someCopiedPath
  have hsize := congrArg (Option.map fun e => match e with
    | Entry.dir => 0
    | .file a => a.size) hview
  revert hsize
  decide

end CoolPotOS
