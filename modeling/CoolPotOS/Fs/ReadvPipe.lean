import CoolPotOS.Fs.Readv

namespace CoolPotOS

open Bytes List IoFd

def PipeInfo.contents (info : PipeInfo) : List UInt8 := slice info.buf 0 info.ptr

@[simp]
theorem PipeInfo.length_contents (info : PipeInfo) : info.contents.length = info.ptr := length_slice _ _ _

def used (lens : List ℕ) : ℕ := (lens.filter (· ≠ 0)).length

@[simp]
theorem used_nil : used [] = 0 := rfl

theorem used_cons (len : ℕ) (lens : List ℕ) :
    used (len :: lens) = if len = 0 then used lens else used lens + 1 := by
  unfold used
  by_cases hlen : len = 0
  · simp [hlen]
  · simp [hlen]

theorem used_le_length (lens : List ℕ) : used lens ≤ lens.length := length_filter_le _ _

variable {lens : List ℕ} {room : ℕ} {fd : IoFd} {data : List UInt8} {entries : List (List UInt8)}

theorem sum_eq_zero_of_used (h : used lens = 0) : lens.sum = 0 := by
  induction lens with
  | nil => rfl
  | cons len lens ih =>
    rw [used_cons] at h
    split_ifs at h with hlen
    rw [sum_cons, hlen, ih h]

theorem used_pos_of_sum (h : lens.sum ≠ 0) : 0 < used lens := by
  by_contra hzero
  exact h (sum_eq_zero_of_used (Nat.eq_zero_of_not_pos hzero))

/-- The bytes do not run out where an entry with a size begins. -/
def StopsInside : ℕ → List ℕ → Prop
  | _, [] => True
  | n, len :: lens => if n < len then n ≠ 0 else StopsInside (n - len) lens

instance StopsInside.decidable : ∀ n lens, Decidable (StopsInside n lens)
  | _, [] => .isTrue trivial
  | n, len :: lens =>
    have := StopsInside.decidable (n - len) lens
    inferInstanceAs (Decidable (if n < len then n ≠ 0 else StopsInside (n - len) lens))

theorem scatter_nil (lens : List ℕ) : scatter lens [] = untouched lens := by
  induction lens with
  | nil => rfl
  | cons len lens ih =>
    unfold scatter untouched
    rw [take_nil, drop_nil, ih]
    rfl

theorem untouched_cons {α : Type} (x : α) (l : List α) : untouched (x :: l) = [] :: untouched l :=
  rfl

theorem errWord_ne {n : ℕ} (h : 1 < n) (hn : n < 2 ^ 64) : errWord n ≠ errWord 1 := by
  unfold errWord
  omega

theorem wrap_add_mul (total k n : ℕ) : wrap (wrap (total + n) + k * n) = wrap (total + (k + 1) * n) := by
  unfold wrap
  rw [Nat.mod_add_mod, Nat.succ_mul, Nat.add_assoc, Nat.add_comm n]

theorem wrap_wrap_add (total n : ℕ) : wrap (wrap total + n) = wrap (total + n) := by
  unfold wrap
  rw [Nat.mod_add_mod]

section Read

variable {fd : IoFd} {p : PipeEnd}

theorem vfsRead_pipe (hnode : fd.node = .pipe p) (offset size : ℕ) :
    fd.vfsRead offset size = fd.pipefsRead p size := by
  unfold vfsRead
  rw [hnode]

theorem pipefsRead_some (fd : IoFd) {len : ℕ} (hw : p.write = false) (hlen : 0 < len)
    (hptr : 0 < p.info.ptr) (hle : p.info.ptr ≤ pipeBuff) :
    ∃ buf, fd.pipefsRead p len =
        (fd.setPipe p { p.info with buf := buf, ptr := p.info.ptr - min len p.info.ptr },
          .value (min len p.info.ptr) (p.info.contents.take len)) ∧
      slice buf 0 (p.info.ptr - min len p.info.ptr) = p.info.contents.drop len := by
  unfold IoFd.pipefsRead pipefsRead
  have hmin : min (min len pipeBuff) p.info.ptr = min len p.info.ptr := by omega
  have hsize : min len pipeBuff ≠ 0 := by
    unfold pipeBuff
    omega
  have htake : slice p.info.buf 0 (min len p.info.ptr) = p.info.contents.take len := by
    unfold PipeInfo.contents
    by_cases hlt : len ≤ p.info.ptr
    · rw [Nat.min_eq_left hlt, take_slice _ _ hlt]
    · rw [Nat.min_eq_right (by omega), take_of_length_le]
      rw [length_slice]
      omega
  simp only [if_neg hsize, hw, Bool.false_eq_true, if_false, if_pos hptr, hmin]
  refine ⟨overwrite p.info.buf 0
    (slice p.info.buf (min len p.info.ptr) (p.info.ptr - min len p.info.ptr)), ?_, ?_⟩
  · rw [htake, length_take, PipeInfo.length_contents]
  · have hself := slice_overwrite_self p.info.buf 0
      (slice p.info.buf (min len p.info.ptr) (p.info.ptr - min len p.info.ptr))
    rw [length_slice] at hself
    rw [hself]
    unfold PipeInfo.contents
    rw [drop_slice, Nat.zero_add]
    by_cases hlt : len ≤ p.info.ptr
    · rw [Nat.min_eq_left hlt]
    · rw [Nat.min_eq_right (by omega), Nat.sub_self, Nat.sub_eq_zero_of_le (by omega)]
      rfl

theorem pipefsRead_none (fd : IoFd) {len : ℕ} (hw : p.write = false) (hlen : 0 < len)
    (hptr : p.info.ptr = 0) : fd.pipefsRead p len = if p.info.writeFds = 0 then (fd, .value 0 [])
      else if p.nonblock then (fd, .value (errWord codeEwouldblock) [])
      else fd.wait (.value (errWord codeEintr) []) := by
  unfold IoFd.pipefsRead pipefsRead
  have hsize : min len pipeBuff ≠ 0 := by
    unfold pipeBuff
    omega
  simp only [if_neg hsize, hw, Bool.false_eq_true, if_false, hptr, gt_iff_lt, lt_self_iff_false]
  by_cases hwriters : p.info.writeFds = 0
  · simp only [if_pos hwriters]
  · by_cases hnb : p.nonblock
    · simp only [if_neg hwriters, if_pos hnb]
    · simp only [if_neg hwriters, if_neg hnb]

theorem readvLoop_zero (fd : IoFd) (h : lens.sum = 0) (total : ℕ) (stored : List (List UInt8)) :
    readvLoop lens fd total stored = (fd, .ret total (stored ++ untouched lens)) := by
  induction lens generalizing stored with
  | nil =>
    unfold readvLoop untouched
    rw [map_nil, append_nil]
  | cons len lens ih =>
    rw [sum_cons, Nat.add_eq_zero_iff] at h
    unfold readvLoop
    rw [if_pos h.1, ih h.2, untouched_cons, append_assoc]
    rfl

theorem readvLoop_pipe (hnode : fd.node = .pipe p) (hw : p.write = false) (hle : p.info.ptr ≤ pipeBuff)
    (hstop : p.info.writeFds = 0 ∨ StopsInside p.info.ptr lens) (total : ℕ) (htotal : total + lens.sum < 2 ^ 63)
    (stored : List (List UInt8)) :
    ∃ buf, readvLoop lens fd total stored =
        (fd.setPipe p { p.info with buf := buf, ptr := p.info.ptr - lens.sum },
          .ret (total + min lens.sum p.info.ptr) (stored ++ scatter lens p.info.contents)) ∧
      slice buf 0 (p.info.ptr - lens.sum) = p.info.contents.drop lens.sum := by
  have hself : ∀ fd : IoFd, ∀ p, fd.node = .pipe p → fd.setPipe p p.info = fd := by
    intro fd p hnode
    cases fd
    cases hnode
    rfl
  induction lens generalizing fd p total stored with
  | nil =>
    refine ⟨p.info.buf, ?_, ?_⟩
    · unfold readvLoop scatter
      rw [append_nil, sum_nil, Nat.zero_min, Nat.sub_zero, Nat.add_zero]
      congr 1
      exact (hself fd p hnode).symm
    · rfl
  | cons len lens ih =>
    rw [sum_cons] at htotal
    unfold readvLoop
    by_cases hlen : len = 0
    · have hstop' : p.info.writeFds = 0 ∨ StopsInside p.info.ptr lens := by
        apply hstop.imp_right
        intro h
        unfold StopsInside at h
        rw [hlen, if_neg (Nat.not_lt_zero _), Nat.sub_zero] at h
        exact h
      rw [if_pos hlen]
      subst hlen
      obtain ⟨buf, hloop, hbuf⟩ := ih hnode hw hle hstop' total (by omega) (stored ++ [[]])
      refine ⟨buf, ?_, ?_⟩
      · rw [hloop, sum_cons, Nat.zero_add, append_assoc]
        rfl
      · rw [sum_cons, Nat.zero_add]
        exact hbuf
    rw [if_neg hlen, vfsRead_pipe hnode]
    have hpos := Nat.pos_of_ne_zero hlen
    by_cases hptr : p.info.ptr = 0
    · -- nobody writes any more
      have hwriters : p.info.writeFds = 0 := by
        obtain h | h := hstop
        · exact h
        · unfold StopsInside at h
          rw [if_pos (by omega)] at h
          exact absurd hptr h
      rw [pipefsRead_none fd hw hpos hptr, if_pos hwriters]
      have hne : (0 : ℕ) ≠ errWord 1 := by
        unfold errWord
        omega
      dsimp only
      have hnil : p.info.contents = [] := by
        unfold PipeInfo.contents
        rw [hptr]
        rfl
      refine ⟨p.info.buf, ?_, ?_⟩
      · rw [if_neg hne, if_pos hpos, hptr, Nat.min_zero, Nat.zero_sub, Nat.add_zero,
          wrap_of_lt (by omega), hnil, scatter_nil, untouched_cons, ← hptr]
        congr 1
        exact (hself fd p hnode).symm
      · rw [hptr, Nat.zero_sub, hnil, drop_nil]
        rfl
    obtain ⟨buf, hread, hbuf⟩ := pipefsRead_some fd hw hpos (Nat.pos_of_ne_zero hptr) hle
    have hne : min len p.info.ptr ≠ errWord 1 := by
      unfold errWord
      omega
    rw [hread]
    dsimp only
    rw [if_neg hne]
    by_cases hshort : p.info.ptr < len
    · -- the pipe is emptied inside of this entry
      have hmin : min len p.info.ptr = p.info.ptr := Nat.min_eq_right hshort.le
      rw [hmin] at hbuf ⊢
      have hdrop : ∀ n, len ≤ n → p.info.contents.drop n = [] := by
        intro n hn
        apply drop_eq_nil_of_le
        rw [PipeInfo.length_contents]
        omega
      refine ⟨buf, ?_, ?_⟩
      · rw [if_pos hshort, sum_cons, Nat.sub_self, Nat.sub_eq_zero_of_le (by omega),
          Nat.min_eq_right (by omega), wrap_of_lt (by omega)]
        unfold scatter
        rw [hdrop len le_rfl, scatter_nil]
      · rw [sum_cons, Nat.sub_eq_zero_of_le (by omega), hdrop _ (by omega)]
        rfl
    · have hmin : min len p.info.ptr = len := Nat.min_eq_left (not_lt.mp hshort)
      rw [hmin] at hbuf ⊢
      rw [if_neg (lt_irrefl len), wrap_of_lt (by omega)]
      have hcontents : ({ p.info with buf := buf, ptr := p.info.ptr - len } : PipeInfo).contents =
          p.info.contents.drop len := hbuf
      have hstop' : p.info.writeFds = 0 ∨ StopsInside (p.info.ptr - len) lens := by
        apply hstop.imp_right
        intro h
        unfold StopsInside at h
        rw [if_neg hshort] at h
        exact h
      have hnode' : (fd.setPipe p { p.info with buf := buf, ptr := p.info.ptr - len }).node =
          .pipe { p with info := { p.info with buf := buf, ptr := p.info.ptr - len } } := rfl
      obtain ⟨buf', hloop, hbuf'⟩ := ih hnode' hw ((Nat.sub_le _ _).trans hle) hstop' (total + len)
        (by omega) (stored ++ [p.info.contents.take len])
      refine ⟨buf', ?_, ?_⟩
      · rw [hloop, hcontents]
        simp only [sum_cons, Nat.sub_sub]
        have hmin' : total + len + min lens.sum (p.info.ptr - len) =
            total + min (len + lens.sum) p.info.ptr := by omega
        rw [hmin', append_assoc]
        rfl
      · rw [sum_cons, ← Nat.sub_sub, ← drop_drop]
        rw [hcontents] at hbuf'
        exact hbuf'

theorem readvLoop_wouldblock (hnode : fd.node = .pipe p) (hw : p.write = false) (hptr : p.info.ptr = 0)
    (hwriters : p.info.writeFds ≠ 0) (hnb : p.nonblock = true) (hsum : lens.sum < 2 ^ 63) (total : ℕ)
    (htotal : total < 2 ^ 64) (stored : List (List UInt8)) :
    readvLoop lens fd total stored = (fd, .ret (wrap (total + used lens * errWord codeEwouldblock))
        (stored ++ untouched lens)) := by
  induction lens generalizing total stored with
  | nil =>
    unfold readvLoop
    rw [used_nil, Nat.zero_mul, Nat.add_zero, wrap_of_lt htotal]
    simp [untouched]
  | cons len lens ih =>
    rw [sum_cons] at hsum
    unfold readvLoop
    by_cases hlen : len = 0
    · rw [if_pos hlen, ih (by omega) total htotal, used_cons, if_pos hlen, untouched_cons, append_assoc]
      rfl
    have hshort : ¬ errWord codeEwouldblock < len := by
      unfold errWord codeEwouldblock
      omega
    rw [if_neg hlen, vfsRead_pipe hnode, pipefsRead_none fd hw (Nat.pos_of_ne_zero hlen) hptr,
      if_neg hwriters, if_pos hnb]
    dsimp only
    rw [if_neg (errWord_ne (by decide) (by decide)), if_neg hshort,
      ih (by omega) _ (wrap_lt _), used_cons, if_neg hlen, untouched_cons, append_assoc]
    rw [wrap_add_mul]
    rfl

/-- Every entry waits on an empty pipe, after the waits of the entries before it have been ended by
signals. -/
theorem readvLoop_asleep (hnode : fd.node = .pipe p) (hw : p.write = false) (hptr : p.info.ptr = 0)
    (hwriters : p.info.writeFds ≠ 0) (hnb : p.nonblock = false) (hsignals : fd.signals < used lens)
    (hsum : lens.sum < 2 ^ 63) (total : ℕ) (stored : List (List UInt8)) :
    (readvLoop lens fd total stored).2 = .asleep := by
  induction lens generalizing fd total stored with
  | nil =>
    rw [used_nil] at hsignals
    exact absurd hsignals (Nat.not_lt_zero _)
  | cons len lens ih =>
    rw [sum_cons] at hsum
    rw [used_cons] at hsignals
    unfold readvLoop
    by_cases hlen : len = 0
    · rw [if_pos hlen] at hsignals ⊢
      exact ih hnode hsignals (by omega) total _
    rw [if_neg hlen] at hsignals
    rw [if_neg hlen, vfsRead_pipe hnode, pipefsRead_none fd hw (Nat.pos_of_ne_zero hlen) hptr,
      if_neg hwriters, hnb, if_neg Bool.false_ne_true]
    unfold wait
    cases hs : fd.signals with
    | zero => rfl
    | succ signals =>
      have hshort : ¬ errWord codeEintr < len := by
        unfold errWord codeEintr
        omega
      dsimp only
      rw [if_neg (errWord_ne (by decide) (by decide)), if_neg hshort]
      apply ih
      · exact hnode
      · dsimp only
        omega
      · omega

theorem readvLoop_runs_out (hnode : fd.node = .pipe p) (hw : p.write = false) (hle : p.info.ptr ≤ pipeBuff)
    (hwriters : p.info.writeFds ≠ 0) (hstop : ¬ StopsInside p.info.ptr lens) (hsignals : fd.signals = 0)
    (total : ℕ) (hsum : total + lens.sum < 2 ^ 63) (stored : List (List UInt8)) :
    (readvLoop lens fd total stored).2 = .asleep ∨ ∃ k stored', 0 < k ∧ k ≤ lens.length ∧
        (readvLoop lens fd total stored).2 =
          .ret (wrap (total + p.info.ptr + k * errWord codeEwouldblock)) stored' := by
  induction lens generalizing fd p total stored with
  | nil => exact absurd trivial hstop
  | cons len lens ih =>
    rw [sum_cons] at hsum
    unfold StopsInside at hstop
    by_cases hshort : p.info.ptr < len
    · -- the pipe is empty here
      rw [if_pos hshort, not_not] at hstop
      cases hnb : p.nonblock with
      | false =>
        left
        apply readvLoop_asleep hnode hw hstop hwriters hnb
        · rw [used_cons, if_neg (by omega), hsignals]
          omega
        · rw [sum_cons]
          omega
      | true =>
        right
        refine ⟨used (len :: lens), stored ++ untouched (len :: lens), ?_, used_le_length _, ?_⟩
        · rw [used_cons, if_neg (by omega)]
          omega
        · rw [readvLoop_wouldblock hnode hw hstop hwriters hnb (by rw [sum_cons]; omega) total
            (by omega), hstop, Nat.add_zero]
    · rw [if_neg hshort] at hstop
      unfold readvLoop
      by_cases hlen : len = 0
      · rw [if_pos hlen]
        rw [hlen, Nat.sub_zero] at hstop
        obtain hsleep | ⟨k, stored', hk, hkl, heq⟩ :=
          ih hnode hw hle hwriters hstop hsignals total (by omega) (stored ++ [[]])
        · exact .inl hsleep
        · exact .inr ⟨k, stored', hk, hkl.trans (Nat.le_succ _), heq⟩
      have hptr : 0 < p.info.ptr := by omega
      obtain ⟨buf, hread, -⟩ := pipefsRead_some fd hw (Nat.pos_of_ne_zero hlen) hptr hle
      have hmin : min len p.info.ptr = len := Nat.min_eq_left (not_lt.mp hshort)
      have hne : len ≠ errWord 1 := by
        unfold errWord
        omega
      rw [if_neg hlen, vfsRead_pipe hnode, hread, hmin]
      dsimp only
      rw [if_neg hne, if_neg (lt_irrefl len), wrap_of_lt (by omega)]
      have hnode' : (fd.setPipe p { p.info with buf := buf, ptr := p.info.ptr - len }).node =
          .pipe { p with info := { p.info with buf := buf, ptr := p.info.ptr - len } } := rfl
      obtain hsleep | ⟨k, stored', hk, hkl, heq⟩ := ih hnode' hw ((Nat.sub_le _ _).trans hle)
        hwriters hstop hsignals (total + len) (by omega) (stored ++ [p.info.contents.take len])
      · exact .inl hsleep
      · refine .inr ⟨k, stored', hk, hkl.trans (Nat.le_succ _), ?_⟩
        rw [heq]
        have htotal : total + len + (p.info.ptr - len) = total + p.info.ptr := by omega
        rw [htotal]

end Read

/-- How many of `len` bytes a pipe takes that has room for `room`. -/
def accepts (room len : ℕ) : ℕ :=
  if len ≤ room then len else if len ≤ pipeAtomicMax then 0 else room

/-- The first entry that the room is too small for is one that may be split, and is split. -/
def FirstShort : ℕ → List ℕ → Prop
  | _, [] => True
  | room, len :: lens =>
    if len ≤ room then FirstShort (room - len) lens else pipeAtomicMax < len ∧ 0 < room

instance FirstShort.decidable : ∀ room lens, Decidable (FirstShort room lens)
  | _, [] => .isTrue trivial
  | room, len :: lens =>
    have := FirstShort.decidable (room - len) lens
    inferInstanceAs (Decidable (if len ≤ room then FirstShort (room - len) lens
      else pipeAtomicMax < len ∧ 0 < room))

theorem accepts_le_room (room len : ℕ) : accepts room len ≤ room := by
  unfold accepts
  split_ifs <;> omega

theorem accepts_le (room len : ℕ) : accepts room len ≤ len := by
  unfold accepts
  split_ifs <;> omega

theorem FirstShort.accepts_sum (h : FirstShort room lens) : accepts room lens.sum = min room lens.sum := by
  have hlong : room < lens.sum → pipeAtomicMax < lens.sum := by
    induction lens generalizing room with
    | nil => exact fun hlt => absurd hlt (Nat.not_lt_zero _)
    | cons len lens ih =>
      unfold FirstShort at h
      rw [sum_cons]
      intro hlt
      by_cases hfits : len ≤ room
      · rw [if_pos hfits] at h
        have := ih h (by omega)
        omega
      · rw [if_neg hfits] at h
        omega
  unfold accepts
  by_cases hfits : lens.sum ≤ room
  · rw [if_pos hfits, Nat.min_eq_right hfits]
  · rw [if_neg hfits, if_neg (not_le.mpr (hlong (not_le.mp hfits))), Nat.min_eq_left (by omega)]

theorem FirstShort.room_pos (h : FirstShort room lens) (hsum : lens.sum ≠ 0) : 0 < room := by
  induction lens with
  | nil => exact absurd rfl hsum
  | cons len lens ih =>
    unfold FirstShort at h
    rw [sum_cons] at hsum
    by_cases hfits : len ≤ room
    · rw [if_pos hfits] at h
      by_cases hlen : len = 0
      · rw [hlen, Nat.sub_zero] at h
        exact ih h (by omega)
      · omega
    · rw [if_neg hfits] at h
      exact h.2

def PipeInfo.push (info : PipeInfo) (bytes : List UInt8) : PipeInfo :=
  { info with buf := overwrite info.buf info.ptr bytes, ptr := info.ptr + bytes.length }

@[simp]
theorem PipeInfo.push_nil (info : PipeInfo) : info.push [] = info := by
  unfold PipeInfo.push
  rw [overwrite_nil]
  rfl

theorem PipeInfo.push_push (info : PipeInfo) (bytes bytes' : List UInt8) :
    (info.push bytes).push bytes' = info.push (bytes ++ bytes') := by
  unfold PipeInfo.push
  dsimp only
  rw [overwrite_append, length_append, Nat.add_assoc]

def IoFd.push (fd : IoFd) (p : PipeEnd) (bytes : List UInt8) : IoFd :=
  fd.setPipe p (p.info.push bytes)

theorem IoFd.setPipe_self {p : PipeEnd} (hnode : fd.node = .pipe p) : fd.setPipe p p.info = fd := by
  cases fd
  cases hnode
  rfl

theorem IoFd.push_push (fd : IoFd) (p : PipeEnd) (bytes bytes' : List UInt8) :
    (fd.push p bytes).push { p with info := p.info.push bytes } bytes' =
      fd.push p (bytes ++ bytes') := by
  unfold push setPipe
  dsimp only
  rw [PipeInfo.push_push]

section Write

variable {fd : IoFd} {p : PipeEnd} {M : Memory}

theorem pipeWriteLoop_nil (atomic : Bool) (fuel : ℕ) (fd : IoFd) (info : PipeInfo) (written : ℕ) :
    pipeWriteLoop p atomic fuel fd info [] written = (fd, pipeWritten written) := by
  cases fuel <;> rfl

theorem pipeWriteLoop_moved {atomic : Bool} {info : PipeInfo} (hread : info.readFds ≠ 0)
    (hroom : 0 < pipeBuff - info.ptr) (hfits : ¬ atomic ∨ data.length ≤ pipeBuff - info.ptr) (hdata : data ≠ [])
    {fuel : ℕ} (hfuel : 0 < fuel) (fd : IoFd) (written : ℕ) :
    pipeWriteLoop p atomic fuel fd info data written = pipeWriteLoop p atomic (fuel - 1)
        (fd.setPipe p (info.push (data.take (pipeBuff - info.ptr))))
        (info.push (data.take (pipeBuff - info.ptr))) (data.drop (pipeBuff - info.ptr))
        (written + min (pipeBuff - info.ptr) data.length) := by
  have hlen := length_pos_of_ne_nil hdata
  have htake : (if atomic then data.length else min data.length (pipeBuff - info.ptr)) =
      min data.length (pipeBuff - info.ptr) := by
    split_ifs with hatomic
    · obtain hno | hle := hfits
      · exact absurd hatomic hno
      · exact (Nat.min_eq_left hle).symm
    · rfl
  generalize hn : pipeBuff - info.ptr = room at *
  have hbytes : data.take (min data.length room) = data.take room := by
    rw [Nat.min_comm, ← take_take, take_length]
  have hmoved : pipeWriteInner info data atomic (!p.nonblock) =
      (info.push (data.take room), .moved (data.take room)) := by
    unfold pipeWriteInner PipeInfo.push
    rw [if_neg hread]
    dsimp only
    rw [hn, if_pos ⟨hroom, hfits⟩, htake, hbytes, length_take, Nat.min_comm]
  obtain ⟨fuel, rfl⟩ := Nat.exists_eq_succ_of_ne_zero hfuel.ne'
  rw [pipeWriteLoop, if_neg hdata, hmoved]
  dsimp only
  have hne : data.take room ≠ [] := by
    apply ne_nil_of_length_pos
    rw [length_take]
    omega
  rw [if_neg hne, length_take, Nat.succ_sub_one]
  by_cases hle : room ≤ data.length
  · rw [Nat.min_eq_left hle]
  · rw [Nat.min_eq_right (by omega), drop_length, drop_of_length_le (by omega)]

theorem pipeWriteLoop_stuck {atomic : Bool} {info : PipeInfo} (hread : info.readFds ≠ 0)
    (hroom : ¬ (0 < pipeBuff - info.ptr ∧ (¬ atomic ∨ data.length ≤ pipeBuff - info.ptr))) (hdata : data ≠ [])
    {fuel : ℕ} (hfuel : 0 < fuel) (fd : IoFd) (written : ℕ) :
    pipeWriteLoop p atomic fuel fd info data written =
      if p.nonblock then (fd, pipeWritten written) else fd.wait (pipeWritten written) := by
  obtain ⟨fuel, rfl⟩ := Nat.exists_eq_succ_of_ne_zero hfuel.ne'
  rw [pipeWriteLoop, if_neg hdata]
  unfold pipeWriteInner
  rw [if_neg hread]
  dsimp only
  rw [if_neg hroom]
  cases p.nonblock <;> rfl

theorem pipefsWrite_eq (hnode : fd.node = .pipe p) (hw : p.write = true) (hread : p.info.readFds ≠ 0)
    (hdata : data ≠ []) (hroom : pipeBuff - p.info.ptr = room) : fd.pipefsWrite p data =
      if data.length ≤ room ∨ p.nonblock then
        (fd.push p (data.take (accepts room data.length)), pipeWritten (accepts room data.length))
      else
        (fd.push p (data.take (accepts room data.length))).wait (pipeWritten (accepts room data.length)) := by
  have hlen := length_pos_of_ne_nil hdata
  unfold pipefsWrite
  rw [if_pos hw]
  have hnone : fd.push p [] = fd := by
    unfold push
    rw [PipeInfo.push_nil, setPipe_self hnode]
  unfold accepts
  by_cases hfits : data.length ≤ room
  · have hdrop : data.drop room = [] := drop_of_length_le hfits
    rw [if_pos (.inl hfits), if_pos hfits, take_length,
      pipeWriteLoop_moved hread (by omega) (.inr (by omega)) hdata hlen, hroom, hdrop,
      pipeWriteLoop_nil, take_of_length_le hfits, Nat.min_eq_right hfits, Nat.zero_add]
    rfl
  rw [if_neg hfits]
  have hcond : (data.length ≤ room ∨ p.nonblock = true) = (p.nonblock = true) := by
    rw [eq_iff_iff, or_iff_right hfits]
  simp only [hcond]
  by_cases hatomic : data.length ≤ pipeAtomicMax
  · -- none of the bytes
    rw [if_pos hatomic, take_zero, hnone, decide_eq_true hatomic]
    apply pipeWriteLoop_stuck hread _ hdata hlen
    rw [hroom]
    rintro ⟨-, hno | hle⟩
    · exact hno rfl
    · exact hfits hle
  rw [if_neg hatomic, decide_eq_false hatomic]
  by_cases hzero : room = 0
  · rw [hzero, take_zero, hnone]
    apply pipeWriteLoop_stuck hread _ hdata hlen
    omega
  · -- as many bytes as there is room for, and then the pipe is full
    have hrest : data.drop room ≠ [] := by
      apply ne_nil_of_length_pos
      rw [length_drop]
      omega
    rw [pipeWriteLoop_moved hread (by omega) (.inl Bool.false_ne_true) hdata hlen, hroom,
      Nat.min_eq_left (by omega), Nat.zero_add]
    apply pipeWriteLoop_stuck (by exact hread) _ hrest (by omega)
    unfold PipeInfo.push
    dsimp only
    rw [length_take]
    omega

theorem pipefsWrite_nobody (hw : p.write = true) (hread : p.info.readFds = 0) (fd : IoFd) (hdata : data ≠ []) :
    fd.pipefsWrite p data = (fd, pipeWritten 0) := by
  obtain ⟨fuel, hfuel⟩ := Nat.exists_eq_succ_of_ne_zero (length_pos_of_ne_nil hdata).ne'
  unfold pipefsWrite
  rw [if_pos hw, hfuel, pipeWriteLoop, if_neg hdata]
  unfold pipeWriteInner
  rw [if_pos hread]

theorem pipefsWrite_node (hnode : fd.node = .pipe p) (data : List UInt8) :
    ∃ p', (fd.pipefsWrite p data).1.node = .pipe p' := by
  have hwait : ∀ (fd : IoFd) answer, (fd.wait answer).1.node = fd.node := by
    intro fd answer
    unfold wait
    cases fd.signals <;> rfl
  have hloop : ∀ fuel (fd : IoFd) info data written atomic, (∃ p', fd.node = .pipe p') →
      ∃ p', (pipeWriteLoop p atomic fuel fd info data written).1.node = .pipe p' := by
    intro fuel
    induction fuel with
    | zero => exact fun fd info data written atomic h => h
    | succ fuel ih =>
      intro fd info data written atomic h
      unfold pipeWriteLoop
      by_cases hdata : data = []
      · rw [if_pos hdata]
        exact h
      rw [if_neg hdata]
      rcases pipeWriteInner info data atomic (!p.nonblock) with ⟨info', bytes | - | -⟩
      · dsimp only
        split_ifs
        · exact h
        · exact ih _ _ _ _ _ ⟨_, rfl⟩
      · exact h
      · dsimp only
        rw [hwait]
        exact h
  unfold pipefsWrite
  split_ifs
  · exact hloop _ _ _ _ _ _ ⟨p, hnode⟩
  · exact ⟨p, hnode⟩

theorem vfsWrite_pipe (hnode : fd.node = .pipe p) (offset : ℕ) (data : List UInt8) :
    fd.vfsWrite M offset data = fd.pipefsWrite p data := by
  unfold vfsWrite
  rw [hnode]

def afterWait (fd : IoFd) (waits : Prop) [Decidable waits] (v : ℕ) : IoFd × IoOut :=
  if waits then
    match fd.signals with
    | 0 => (fd, .asleep)
    | signals + 1 => ({ fd with signals := signals }, .ret v [])
  else (fd, .ret v [])

theorem advance_pipe (hnode : fd.node = .pipe p) (ret : ℕ) : fd.advance ret = fd := by
  unfold advance
  rw [hnode]

theorem writevLoop_pipe (hnode : fd.node = .pipe p) (hw : p.write = true) (hread : p.info.readFds ≠ 0)
    (hroom : pipeBuff - p.info.ptr = room) (hfirst : FirstShort room (entries.map length)) (total : ℕ)
    (htotal : total + entries.flatten.length < 2 ^ 63) :
    writevLoop M entries fd total = afterWait (fd.push p (entries.flatten.take room))
        (room < entries.flatten.length ∧ p.nonblock = false) (total + min room entries.flatten.length) := by
  induction entries generalizing fd p room total with
  | nil =>
    unfold writevLoop afterWait push
    rw [flatten_nil, take_nil, PipeInfo.push_nil, setPipe_self hnode,
      length_nil, if_neg (fun h => absurd h.1 (Nat.not_lt_zero _)), Nat.min_zero, Nat.add_zero]
  | cons entry entries ih =>
    rw [map_cons] at hfirst
    rw [flatten_cons, length_append] at htotal ⊢
    unfold FirstShort at hfirst
    unfold writevLoop
    by_cases hempty : entry.length = 0
    · rw [if_pos hempty]
      rw [hempty, if_pos (Nat.zero_le _), Nat.sub_zero] at hfirst
      obtain rfl := length_eq_zero_iff.mp hempty
      rw [nil_append, length_nil, Nat.zero_add]
      exact ih hnode hw hread hroom hfirst total (by omega)
    have hne : entry ≠ [] := fun h => hempty (length_eq_zero_iff.mpr h)
    rw [if_neg hempty, hnode]
    dsimp only
    rw [vfsWrite_pipe hnode, pipefsWrite_eq hnode hw hread hne hroom]
    unfold accepts
    by_cases hfits : entry.length ≤ room
    · rw [if_pos hfits] at hfirst
      rw [if_pos (.inl hfits), if_pos hfits, take_length]
      have hne' : entry.length ≠ errWord 1 := by
        unfold errWord
        omega
      have hnode' : (fd.push p entry).node = .pipe { p with info := p.info.push entry } := rfl
      have hroom' : pipeBuff - (p.info.push entry).ptr = room - entry.length := by
        unfold PipeInfo.push
        dsimp only
        omega
      unfold pipeWritten
      rw [if_pos hempty]
      dsimp only
      rw [if_neg hne', if_neg (lt_irrefl _), advance_pipe hnode', wrap_of_lt (by omega),
        ih hnode' hw hread hroom' hfirst _ (by omega), push_push, take_append,
        take_of_length_le hfits]
      have hmin : total + entry.length + min (room - entry.length) entries.flatten.length =
          total + min room (entry.length + entries.flatten.length) := by omega
      have hlt : (room - entry.length < entries.flatten.length) =
          (room < entry.length + entries.flatten.length) := by
        rw [eq_iff_iff]
        omega
      simp only [hmin, hlt]
    · -- the pipe is filled up
      rw [if_neg hfits] at hfirst
      rw [if_neg hfits, if_neg (not_le.mpr hfirst.1), take_append_of_le_length (by omega)]
      have hne' : room ≠ errWord 1 := by
        unfold errWord
        omega
      have hnode' : (fd.push p (entry.take room)).node =
          .pipe { p with info := p.info.push (entry.take room) } := rfl
      have hlt : room < entry.length + entries.flatten.length := by omega
      rw [Nat.min_eq_left hlt.le]
      unfold pipeWritten afterWait wait
      rw [if_pos (Nat.pos_iff_ne_zero.mp hfirst.2)]
      cases hnb : p.nonblock with
      | true =>
        rw [if_pos (.inr rfl), if_neg (fun h => absurd h.2 Bool.true_eq_false.mp)]
        dsimp only
        rw [if_neg hne', if_pos (not_le.mp hfits), advance_pipe hnode', wrap_of_lt (by omega)]
      | false =>
        rw [if_neg (fun h => h.elim hfits Bool.false_ne_true), if_pos ⟨hlt, rfl⟩]
        cases hs : (fd.push p (entry.take room)).signals with
        | zero => rfl
        | succ signals =>
          dsimp only
          rw [if_neg hne', if_pos (not_le.mp hfits), wrap_of_lt (by omega)]
          rfl

theorem IoFd.wait_cases (fd : IoFd) (answer : Answer) : (fd.wait answer).2 = .asleep ∨
      ∃ signals, fd.wait answer = ({ fd with signals := signals }, answer) := by
  unfold wait
  cases fd.signals with
  | zero => exact .inl rfl
  | succ signals => exact .inr ⟨signals, rfl⟩

theorem pipefsWrite_cases (hnode : fd.node = .pipe p) (hw : p.write = true) (hdata : data ≠ [])
    (hroom : pipeBuff - p.info.ptr = room) :
    (fd.pipefsWrite p data).2 = .asleep ∨
    (fd.pipefsWrite p data = (fd.push p data, .value data.length []) ∧ data.length ≤ room) ∨
    (∃ signals, fd.pipefsWrite p data =
      ({ fd with signals := signals }, .value (errWord codeEwouldblock) [])) ∨
    ∃ signals, fd.pipefsWrite p data =
        ({ fd.push p (data.take room) with signals := signals }, .value room []) ∧
      0 < room ∧ room < data.length ∧ pipeAtomicMax < data.length := by
  have hlen := length_pos_of_ne_nil hdata
  by_cases hread : p.info.readFds = 0
  · rw [pipefsWrite_nobody hw hread fd hdata]
    exact .inr (.inr (.inl ⟨fd.signals, rfl⟩))
  rw [pipefsWrite_eq hnode hw hread hdata hroom]
  by_cases hfits : data.length ≤ room
  · right
    left
    unfold accepts pipeWritten
    rw [if_pos (.inl hfits), if_pos hfits, take_length, if_pos hlen.ne']
    exact ⟨rfl, hfits⟩
  have hend : ∀ (fd : IoFd) answer,
      (if data.length ≤ room ∨ p.nonblock then (fd, answer) else fd.wait answer).2 = .asleep ∨
      ∃ signals, (if data.length ≤ room ∨ p.nonblock then (fd, answer) else fd.wait answer) =
        ({ fd with signals := signals }, answer) := by
    intro fd answer
    by_cases hnb : data.length ≤ room ∨ p.nonblock = true
    · rw [if_pos hnb]
      exact .inr ⟨fd.signals, rfl⟩
    · rw [if_neg hnb]
      exact fd.wait_cases answer
  by_cases hsplit : pipeAtomicMax < data.length ∧ 0 < room
  · have haccepts : accepts room data.length = room := by
      unfold accepts
      rw [if_neg hfits, if_neg (not_le.mpr hsplit.1)]
    have hwritten : pipeWritten room = .value room [] := by
      unfold pipeWritten
      rw [if_pos hsplit.2.ne']
    rw [haccepts, hwritten]
    obtain hsleep | ⟨signals, heq⟩ := hend (fd.push p (data.take room)) (.value room [])
    · exact .inl hsleep
    · exact .inr (.inr (.inr ⟨signals, heq, hsplit.2, not_le.mp hfits, hsplit.1⟩))
  · have haccepts : accepts room data.length = 0 := by
      unfold accepts
      rw [if_neg hfits]
      split_ifs with hatomic
      · rfl
      · omega
    have hnone : fd.push p (data.take 0) = fd := by
      unfold push
      rw [take_zero, PipeInfo.push_nil, setPipe_self hnode]
    rw [haccepts, hnone]
    obtain hsleep | ⟨signals, heq⟩ := hend fd (pipeWritten 0)
    · exact .inl hsleep
    · exact .inr (.inr (.inl ⟨signals, heq⟩))

/-- What the loop comes to in any case: `f` entries failed with `-EWOULDBLOCK`, which is counted as if
they had been written. -/
theorem writevLoop_pipe_counts (hnode : fd.node = .pipe p) (hw : p.write = true)
    (hroom : pipeBuff - p.info.ptr = room) (hsum : entries.flatten.length < 2 ^ 63) (total : ℕ)
    (htotal : total < 2 ^ 64) : (writevLoop M entries fd total).2 = .asleep ∨
      ∃ t f p', (writevLoop M entries fd total).1.node = .pipe p' ∧
        p'.info.ptr = p.info.ptr + t ∧ t ≤ room ∧ f ≤ used (entries.map length) ∧
        (t = 0 → f = used (entries.map length)) ∧ (¬ FirstShort room (entries.map length) → 0 < f) ∧
        (writevLoop M entries fd total).2 = .ret (wrap (total + t + f * errWord codeEwouldblock)) [] := by
  induction entries generalizing fd p room total with
  | nil =>
    refine .inr ⟨0, 0, p, hnode, rfl, Nat.zero_le _, le_rfl, fun _ => rfl, fun h => absurd trivial h, ?_⟩
    unfold writevLoop
    rw [Nat.zero_mul, Nat.add_zero, wrap_of_lt (by exact htotal)]
  | cons entry entries ih =>
    rw [flatten_cons, length_append] at hsum
    rw [map_cons, used_cons]
    unfold FirstShort writevLoop
    by_cases hempty : entry.length = 0
    · rw [if_pos hempty, if_pos hempty, hempty, if_pos (Nat.zero_le _), Nat.sub_zero]
      exact ih hnode hw hroom (by omega) total htotal
    have hne : entry ≠ [] := fun h => hempty (length_eq_zero_iff.mpr h)
    rw [if_neg hempty, if_neg hempty, hnode]
    dsimp only
    rw [vfsWrite_pipe hnode]
    have hE := errWord_ne (n := codeEwouldblock) (by decide) (by decide)
    obtain hsleep | ⟨heq, hfits⟩ | ⟨signals, heq⟩ | ⟨signals, heq, hpos, hlt, hsplit⟩ :=
      pipefsWrite_cases hnode hw hne hroom
    · left
      generalize fd.pipefsWrite p entry = r at hsleep ⊢
      obtain ⟨fd', answer⟩ := r
      cases hsleep
      rfl
    · -- the entry is written
      have hne' : entry.length ≠ errWord 1 := by
        unfold errWord
        omega
      have hnode' : (fd.push p entry).node = .pipe { p with info := p.info.push entry } := rfl
      have hroom' : pipeBuff - (p.info.push entry).ptr = room - entry.length := by
        unfold PipeInfo.push
        dsimp only
        omega
      rw [heq, if_pos hfits]
      dsimp only
      rw [if_neg hne', if_neg (lt_irrefl _), advance_pipe hnode']
      obtain hsleep | ⟨t, f, p', hp', hptr, ht, hf, hall, hfail, hret⟩ :=
        ih hnode' hw hroom' (by omega) (wrap (total + entry.length)) (wrap_lt _)
      · exact .inl hsleep
      · have hptr : p'.info.ptr = p.info.ptr + entry.length + t := hptr
        refine .inr ⟨entry.length + t, f, p', hp', by omega, by omega, by omega, by omega, hfail, ?_⟩
        rw [hret, Nat.add_assoc, wrap_wrap_add, Nat.add_assoc total, Nat.add_assoc total, Nat.add_assoc]
    · -- the failure is counted
      have hshort : ¬ errWord codeEwouldblock < entry.length := by
        unfold errWord codeEwouldblock
        omega
      rw [heq]
      dsimp only
      have hnode' : { fd with signals := signals }.node = .pipe p := hnode
      rw [if_neg hE, if_neg hshort, advance_pipe hnode']
      obtain hsleep | ⟨t, f, p', hp', hptr, ht, hf, hall, hfail, hret⟩ :=
        ih hnode' hw hroom (by omega) (wrap (total + errWord codeEwouldblock)) (wrap_lt _)
      · exact .inl hsleep
      · refine .inr ⟨t, f + 1, p', hp', hptr, ht, by omega, by omega, fun _ => Nat.succ_pos f, ?_⟩
        have hcount : total + errWord codeEwouldblock + (t + f * errWord codeEwouldblock) =
            total + t + (f + 1) * errWord codeEwouldblock := by
          rw [Nat.succ_mul]
          omega
        rw [hret, Nat.add_assoc, wrap_wrap_add, hcount]
    · -- the pipe is filled up
      have hne' : room ≠ errWord 1 := by
        unfold errWord
        omega
      rw [heq, if_neg (not_le.mpr hlt)]
      dsimp only
      rw [if_neg hne', if_pos hlt]
      refine .inr ⟨room, 0, { p with info := p.info.push (entry.take room) }, ?_, ?_, le_rfl,
        Nat.zero_le _, fun h => absurd h hpos.ne', fun h => absurd ⟨hsplit, hpos⟩ h, ?_⟩
      · exact congrArg node (advance_pipe rfl room)
      · unfold PipeInfo.push
        dsimp only
        rw [length_take, Nat.min_eq_left hlt.le]
      · rw [Nat.zero_mul, Nat.add_zero]

end Write

def IoOut.scatter (lens : List ℕ) : IoOut → IoOut
  | .ret v stored => .ret v (CoolPotOS.scatter lens stored.flatten)
  | out => out

def IoOut.after (stored : List (List UInt8)) : IoOut → IoOut
  | .ret v stored' => .ret v (stored ++ stored')
  | out => out

def Answer.Fits (size : ℕ) : Answer → Prop
  | .value v bytes => v < 2 ^ 64 ∧ bytes.length ≤ size
  | _ => True

def IoOut.blind : IoOut → IoOut
  | .ret v _ => .ret v []
  | out => out

theorem readvLoop_single (hused : used lens = 1) (hfits : (fd.vfsRead 0 lens.sum).2.Fits lens.sum)
    (stored : List (List UInt8)) : readvLoop lens fd 0 stored = ((plainOut (fd.vfsRead 0 lens.sum)).1,
        ((plainOut (fd.vfsRead 0 lens.sum)).2.scatter lens).after stored) := by
  induction lens generalizing stored with
  | nil => cases hused
  | cons len lens ih =>
    rw [used_cons] at hused
    rw [sum_cons] at hfits ⊢
    unfold readvLoop
    by_cases hlen : len = 0
    · subst hlen
      rw [if_pos rfl] at hused ⊢
      rw [Nat.zero_add] at hfits ⊢
      rw [ih hused hfits]
      generalize plainOut (fd.vfsRead 0 lens.sum) = r
      obtain ⟨fd', out⟩ := r
      cases out with
      | ret v stored' =>
        unfold IoOut.scatter IoOut.after
        simp [CoolPotOS.scatter]
      | asleep => rfl
      | overrun => rfl
    rw [if_neg hlen] at hused ⊢
    have hzero := sum_eq_zero_of_used (Nat.succ_injective hused)
    rw [hzero, Nat.add_zero] at hfits ⊢
    generalize fd.vfsRead 0 len = r at hfits ⊢
    obtain ⟨fd', answer⟩ := r
    cases answer with
    | asleep => rfl
    | overrun => rfl
    | value v bytes =>
      obtain ⟨hv, hbytes⟩ := hfits
      have hscatter : CoolPotOS.scatter (len :: lens) bytes = bytes :: untouched lens := by
        unfold CoolPotOS.scatter
        rw [take_of_length_le hbytes, drop_eq_nil_of_le hbytes, scatter_nil]
      unfold plainOut IoOut.scatter IoOut.after eioOf
      simp only [flatten_cons, flatten_nil, append_nil, hscatter]
      by_cases hminus : v = errWord 1
      · rw [if_pos hminus, if_pos hminus]
        rfl
      rw [if_neg hminus, if_neg hminus, Nat.zero_add, wrap_of_lt hv]
      by_cases hshort : v < len
      · rw [if_pos hshort]
      · rw [if_neg hshort, readvLoop_zero _ hzero, append_assoc]
        rfl

theorem writevLoop_zero {M : Memory} (fd : IoFd) (h : entries.flatten.length = 0) (total : ℕ) :
    writevLoop M entries fd total = (fd, .ret total []) := by
  induction entries with
  | nil => rfl
  | cons entry entries ih =>
    rw [flatten_cons, length_append, Nat.add_eq_zero_iff] at h
    unfold writevLoop
    rw [if_pos h.1, ih h.2]

theorem writevLoop_single {M : Memory} (hused : used (entries.map length) = 1)
    (hnode : ∀ n, fd.node ≠ .regular n)
    (hadvance : ∀ ret, (fd.vfsWrite M 0 entries.flatten).1.advance ret = (fd.vfsWrite M 0 entries.flatten).1)
    (hfits : (fd.vfsWrite M 0 entries.flatten).2.Fits 0) :
    writevLoop M entries fd 0 = ((plainOut (fd.vfsWrite M 0 entries.flatten)).1,
        (plainOut (fd.vfsWrite M 0 entries.flatten)).2.blind) := by
  induction entries with
  | nil => cases hused
  | cons entry entries ih =>
    rw [map_cons, used_cons] at hused
    rw [flatten_cons] at hadvance hfits ⊢
    unfold writevLoop
    by_cases hempty : entry.length = 0
    · rw [if_pos hempty] at hused ⊢
      rw [length_eq_zero_iff.mp hempty, nil_append] at hadvance hfits ⊢
      exact ih hused hadvance hfits
    rw [if_neg hempty] at hused ⊢
    have hzero : entries.flatten.length = 0 := by
      rw [length_flatten]
      exact sum_eq_zero_of_used (Nat.succ_injective hused)
    rw [length_eq_zero_iff.mp hzero, append_nil] at hadvance hfits ⊢
    have hoffset : ∀ offset, fd.vfsWrite M offset entry = fd.vfsWrite M 0 entry := by
      intro offset
      unfold vfsWrite
      cases h : fd.node with
      | regular n => exact absurd h (hnode n)
      | pipe p => rfl
    dsimp only
    rw [hoffset]
    generalize fd.vfsWrite M 0 entry = r at hadvance hfits ⊢
    obtain ⟨fd', answer⟩ := r
    cases answer with
    | asleep => rfl
    | overrun => rfl
    | value v bytes =>
      have hadvance : ∀ ret, fd'.advance ret = fd' := hadvance
      unfold plainOut IoOut.blind eioOf
      dsimp only
      by_cases hminus : v = errWord 1
      · rw [if_pos hminus, if_pos hminus]
        rfl
      rw [if_neg hminus, if_neg hminus, Nat.zero_add, wrap_of_lt hfits.1, hadvance,
        writevLoop_zero _ hzero, ite_self]

end CoolPotOS
