import Mathlib

namespace CoolPotOS

open Function

inductive CopyError
  | einval | ebadf | eio | efault | enomem
  deriving DecidableEq

/-- The bytes of a file from its size on are zeros. -/
structure CopyFile where
  bytes : ℕ → UInt8
  size : ℕ

/-- The answer of a file system. The error 0 is `-1`. -/
inductive IoResult
  | error (code : ℕ)
  | count (n : ℕ)
  deriving DecidableEq

/-- `vfs_read`. Its count is at most what is asked for and what the file has. -/
def ioRead (file : CopyFile) (buffer : ℕ → UInt8) (offset size : ℕ) : IoResult → ℕ × (ℕ → UInt8)
  | .error code => (2 ^ 64 - 1 - code, buffer)
  | .count n =>
    let n := min n (min size (file.size - offset))
    (n, fun i => if i < n then file.bytes (offset + i) else buffer i)

/-- A file in which `n` bytes have been written. -/
def CopyFile.write (file : CopyFile) (bytes : ℕ → UInt8) (offset n : ℕ) : CopyFile :=
  if n = 0 then file
  else
    { bytes := fun i => if offset ≤ i ∧ i < offset + n then bytes (i - offset) else file.bytes i
      size := max file.size (offset + n) }

/-- The bytes that a file takes of `size`. It ends before `2 ^ 64`. -/
def taken (offset size : ℕ) : IoResult → ℕ
  | .error _ => 0
  | .count n => min n (min size (2 ^ 64 - 1 - offset))

def ioWrite (file : CopyFile) (buffer : ℕ → UInt8) (offset size : ℕ) (answer : IoResult) : ℕ × CopyFile :=
  (match answer with
    | .error code => 2 ^ 64 - 1 - code
    | .count _ => taken offset size answer,
    file.write buffer offset (taken offset size answer))

/-- The files, the offsets of the descriptors and the values behind the pointers of the call. What
the file systems answer to `vfs_read` and `vfs_write` is an argument of the model: an error, which
is a large unsigned number, or a count that may be short. -/
structure CopyState where
  files : ℕ → CopyFile
  offsets : ℕ → ℕ
  offIn : Option ℕ
  offOut : Option ℕ

def sendfileBufSize : ℕ := 1024

/-- The variables of the loop of `sendfile`. `delivered` is not in the source: it counts the bytes that the destination
took. -/
structure SendLoop where
  files : ℕ → CopyFile
  outOffset : ℕ
  buffer : ℕ → UInt8
  currentOffset : ℕ
  totalSent : ℕ
  remaining : ℕ
  delivered : ℕ

/-- How a round of the loop ends: it goes on, or it ends, in `EIO` or not. -/
inductive SendRound
  | more (s : SendLoop)
  | done (s : SendLoop) (eio : Bool)

def bytesToRead (s : SendLoop) : ℕ := if s.remaining < sendfileBufSize then s.remaining else sendfileBufSize

/-- A round of the loop of `sendfile` with the answers to its read and its write. -/
def sendfileRound (src dst : ℕ) (answer : IoResult × IoResult) (s : SendLoop) : SendRound :=
  let read := ioRead (s.files src) s.buffer s.currentOffset (bytesToRead s) answer.1
  let s := { s with buffer := read.2 }
  if read.1 = 0 then .done s (decide (read.1 = 2 ^ 64 - 1 ∧ s.totalSent = 0))
  else
    let write := ioWrite (s.files dst) s.buffer s.outOffset read.1 answer.2
    let s := { s with
      files := Function.update s.files dst write.2
      delivered := s.delivered + taken s.outOffset read.1 answer.2 }
    if write.1 = 2 ^ 64 - 1 then .done s (decide (s.totalSent = 0))
    else
      let bytesRead := if write.1 < read.1 then write.1 else read.1
      .more { s with
        currentOffset := (s.currentOffset + bytesRead) % 2 ^ 64
        outOffset := (s.outOffset + bytesRead) % 2 ^ 64
        totalSent := (s.totalSent + bytesRead) % 2 ^ 64
        remaining := (s.remaining + (2 ^ 64 - bytesRead)) % 2 ^ 64 }

/-- The loop with the answers to its rounds. It gives nothing when they do not suffice. -/
def sendfileLoop (src dst : ℕ) : List (IoResult × IoResult) → SendLoop → Option (SendLoop × Bool)
  | [], s => if s.remaining = 0 then some (s, false) else none
  | answer :: answers, s =>
    if s.remaining = 0 then some (s, false)
    else
      match sendfileRound src dst answer s with
      | .more s => sendfileLoop src dst answers s
      | .done s eio => some (s, eio)

/-- The state after a call, what it returns, and the bytes that the destination took. -/
structure CopyOutcome where
  state : CopyState
  ret : Except CopyError ℕ
  delivered : ℕ

def CopyState.sendStart (s : CopyState) (junk : ℕ → UInt8) (inFd outFd count : ℕ) : SendLoop where
  files := s.files
  outOffset := s.offsets outFd
  buffer := junk
  currentOffset := s.offIn.getD (s.offsets inFd)
  totalSent := 0
  remaining := count
  delivered := 0

/-- `sendfile`. A descriptor that is not open is `none`, and `node` gives the nodes of the others. -/
def sendfile (alloc : Bool) (node : ℕ → ℕ) (junk : ℕ → UInt8) (answers : List (IoResult × IoResult)) (s : CopyState)
    (outFd inFd : Option ℕ) (count : ℕ) : Option CopyOutcome :=
  match outFd, inFd with
  | some outFd, some inFd =>
    if ¬ alloc then some ⟨s, .error .enomem, 0⟩
    else
      (sendfileLoop (node inFd) (node outFd) answers (s.sendStart junk inFd outFd count)).map fun r =>
        let offsets := Function.update s.offsets outFd r.1.outOffset
        if r.2 then ⟨{ s with files := r.1.files, offsets := offsets }, .error .eio, r.1.delivered⟩
        else
          match s.offIn with
          | some _ =>
            ⟨{ s with files := r.1.files, offsets := offsets, offIn := some r.1.currentOffset }, .ok r.1.totalSent,
              r.1.delivered⟩
          | none =>
            ⟨{ s with files := r.1.files, offsets := Function.update offsets inFd r.1.currentOffset },
              .ok r.1.totalSent, r.1.delivered⟩
  | _, _ => some ⟨s, .error .ebadf, 0⟩

/-- The write of `copy_file_range` and what follows it. -/
def copyWrite (node : ℕ → ℕ) (writeAnswer : IoResult) (s : CopyState) (buffer : ℕ → UInt8) (fdOut length : ℕ) :
    CopyOutcome :=
  let dstOffset := s.offOut.getD (s.offsets fdOut)
  let write := ioWrite (s.files (node fdOut)) buffer dstOffset length writeAnswer
  let s := { s with files := Function.update s.files (node fdOut) write.2 }
  if write.1 = 2 ^ 64 - 1 then ⟨s, .error .efault, taken dstOffset length writeAnswer⟩
  else
    ⟨{ s with offsets := Function.update s.offsets fdOut ((s.offsets fdOut + write.1) % 2 ^ 64) }, .ok write.1,
      taken dstOffset length writeAnswer⟩

/-- `copy_file_range`, with the answers to its read and its write. -/
def copyFileRange (alloc : Bool) (node : ℕ → ℕ) (junk : ℕ → UInt8) (readAnswer writeAnswer : IoResult) (s : CopyState)
    (fdIn fdOut : Option ℕ) (len flags : ℕ) : CopyOutcome :=
  if flags ≠ 0 then ⟨s, .error .einval, 0⟩
  else
    match fdIn, fdOut with
    | some fdIn, some fdOut =>
      let srcFile := s.files (node fdIn)
      let dstFile := s.files (node fdOut)
      if s.offsets fdOut ≥ dstFile.size ∧ dstFile.size > 0 then ⟨s, .ok 0, 0⟩
      else
        let length := if srcFile.size > len then len else srcFile.size
        let read := ioRead srcFile junk (s.offIn.getD (s.offsets fdIn)) length readAnswer
        if ¬ alloc ∨ read.1 = 2 ^ 64 - 1 then ⟨s, .error .efault, 0⟩
        else copyWrite node writeAnswer s read.2 fdOut length
    | _, _ => ⟨s, .error .ebadf, 0⟩

/-- The files with the first `n` bytes of a part of `src` in `dst`. -/
def copied (files : ℕ → CopyFile) (src srcOffset dst dstOffset n : ℕ) : ℕ → CopyFile :=
  Function.update files dst ((files dst).write (fun i => (files src).bytes (srcOffset + i)) dstOffset n)

/-- What a copy between two descriptors may do: it fails and changes nothing, or it returns the number of bytes that the
destination took, which are those of the source at its offset, and moves the offsets in use. -/
def Conserves (node : ℕ → ℕ) (s : CopyState) (fdIn fdOut : Option ℕ) (o : CopyOutcome) : Prop :=
  match o.ret with
  | .error _ => o.state = s ∧ o.delivered = 0
  | .ok n => ∃ inFd outFd, fdIn = some inFd ∧ fdOut = some outFd ∧ o.delivered = n ∧
      n ≤ (s.files (node inFd)).size - s.offIn.getD (s.offsets inFd) ∧
      o.state.files = copied s.files (node inFd) (s.offIn.getD (s.offsets inFd)) (node outFd)
        (s.offOut.getD (s.offsets outFd)) n ∧
      (∀ fd, o.state.offsets fd =
        if (fd = inFd ∧ s.offIn = none) ∨ (fd = outFd ∧ s.offOut = none) then s.offsets fd + n else s.offsets fd) ∧
      o.state.offIn = s.offIn.map (· + n) ∧ o.state.offOut = s.offOut.map (· + n)

structure CopyState.Words (s : CopyState) : Prop where
  size_lt : ∀ n, (s.files n).size < 2 ^ 64
  offset_lt : ∀ fd, s.offsets fd < 2 ^ 64
  offIn_lt : ∀ offset, s.offIn = some offset → offset < 2 ^ 64
  offOut_lt : ∀ offset, s.offOut = some offset → offset < 2 ^ 64

/-- The write gives a count or `-1`; or it gives 0, as an error beyond the numbers of 64 bits would. -/
def PlainWrite (writeAnswer : IoResult) : Prop :=
  ∀ code, writeAnswer = .error code → code = 0 ∨ 2 ^ 64 - 1 ≤ code

/-- A round of a call that copies from `srcOff` in `src`, a file of `size` bytes, to `dstOff` in `dst`. The read gives
a count and the write a count or `-1`, and the read does not meet what the call has written to the same file before
or appended to it. Or nothing is written after a read that fails. -/
def RoundClean (src dst srcOff dstOff size : ℕ) (s : SendLoop) : IoResult × IoResult → Prop
  | (.count n, writeAnswer) =>
    let k := min n (min (bytesToRead s) ((s.files src).size - s.currentOffset))
    k = 0 ∨ PlainWrite writeAnswer ∧ (src = dst → s.totalSent = 0 ∨ dstOff ≤ srcOff ∨
      srcOff + s.totalSent + k ≤ dstOff ∧ srcOff + s.totalSent + k ≤ size)
  | (.error code, writeAnswer) =>
    2 ^ 64 - 1 ≤ code ∨ PlainWrite writeAnswer ∧ taken s.outOffset (2 ^ 64 - 1 - code) writeAnswer = 0

/-- Every round that the loop comes to is clean. -/
def SendClean (src dst srcOff dstOff size : ℕ) : List (IoResult × IoResult) → SendLoop → Prop
  | [], _ => True
  | answer :: answers, s => s.remaining ≠ 0 → RoundClean src dst srcOff dstOff size s answer ∧
      ∀ s', sendfileRound src dst answer s = .more s' → SendClean src dst srcOff dstOff size answers s'

theorem CopyFile.write_zero (file : CopyFile) (bytes : ℕ → UInt8) (offset : ℕ) : file.write bytes offset 0 = file :=
  if_pos rfl

theorem CopyFile.write_bytes (file : CopyFile) (bytes : ℕ → UInt8) (offset n i : ℕ) :
    (file.write bytes offset n).bytes i =
      if offset ≤ i ∧ i < offset + n then bytes (i - offset) else file.bytes i := by
  by_cases hn : n = 0
  · rw [hn, write_zero, if_neg (by omega)]
  · unfold CopyFile.write
    rw [if_neg hn]

theorem CopyFile.write_size (file : CopyFile) (bytes : ℕ → UInt8) (offset n : ℕ) :
    (file.write bytes offset n).size = if n = 0 then file.size else max file.size (offset + n) := by
  unfold CopyFile.write
  split_ifs with hn
  · rfl
  · rfl

theorem CopyFile.ext {f g : CopyFile} (hbytes : ∀ i, f.bytes i = g.bytes i) (hsize : f.size = g.size) : f = g := by
  obtain ⟨fb, fs⟩ := f
  obtain ⟨gb, gs⟩ := g
  rw [CopyFile.mk.injEq]
  exact ⟨funext hbytes, hsize⟩

variable {b b' : ℕ → UInt8} {offset n : ℕ} {s : SendLoop} {writeAnswer : IoResult}
  {answers : List (IoResult × IoResult)}

theorem CopyFile.write_write {file : CopyFile} {t w : ℕ} (h : ∀ j < w, b' j = b (t + j)) :
    (file.write b offset t).write b' (offset + t) w = file.write b offset (t + w) := by
  apply CopyFile.ext
  · intro i
    rw [write_bytes, write_bytes, write_bytes]
    by_cases hi : offset + t ≤ i ∧ i < offset + t + w
    · rw [if_pos hi, if_pos (by omega), h _ (by omega)]
      congr 1
      omega
    · rw [if_neg hi]
      by_cases hi' : offset ≤ i ∧ i < offset + t
      · rw [if_pos hi', if_pos (by omega)]
      · rw [if_neg hi', if_neg (by omega)]
  · rw [write_size, write_size, write_size]
    split_ifs
    · rfl
    all_goals omega

theorem taken_le (offset size : ℕ) (answer : IoResult) : taken offset size answer ≤ size := by
  cases answer with
  | error code => exact Nat.zero_le _
  | count n => exact (min_le_right _ _).trans (min_le_left _ _)

theorem taken_fits (h : offset < 2 ^ 64) (size : ℕ) (answer : IoResult) :
    offset + taken offset size answer < 2 ^ 64 := by
  cases answer with
  | error code => exact h
  | count n =>
    change offset + min n (min size (2 ^ 64 - 1 - offset)) < 2 ^ 64
    omega

theorem ioWrite_count (file : CopyFile) (buffer : ℕ → UInt8) (offset size n : ℕ) :
    ioWrite file buffer offset size (.count n) =
      (taken offset size (.count n), file.write buffer offset (taken offset size (.count n))) := rfl

section Send

variable {files : ℕ → CopyFile} {src dst srcOff dstOff count : ℕ}

/-- What the loop keeps: so far `totalSent` bytes have been copied. -/
structure SendKeeps (files : ℕ → CopyFile) (src dst srcOff dstOff count : ℕ) (s : SendLoop) : Prop where
  files_eq : s.files = copied files src srcOff dst dstOff s.totalSent
  current_eq : s.currentOffset = srcOff + s.totalSent
  out_eq : s.outOffset = dstOff + s.totalSent
  remaining_eq : s.remaining + s.totalSent = count
  delivered_eq : s.delivered = s.totalSent
  fits : s.totalSent ≤ (files src).size - srcOff
  out_lt : dstOff + s.totalSent < 2 ^ 64

theorem SendKeeps.source (h : SendKeeps files src dst srcOff dstOff count s) {k : ℕ}
    (hapart : src = dst → s.totalSent = 0 ∨ dstOff ≤ srcOff ∨
      srcOff + s.totalSent + k ≤ dstOff ∧ srcOff + s.totalSent + k ≤ (files src).size)
    (hpos : 0 < k) (hsize : k ≤ (s.files src).size - s.currentOffset) :
    s.totalSent + k ≤ (files src).size - srcOff ∧
      ∀ j < k, (s.files src).bytes (s.currentOffset + j) = (files src).bytes (srcOff + (s.totalSent + j)) := by
  have hfits := h.fits
  rw [h.files_eq, h.current_eq] at hsize
  rw [h.files_eq, h.current_eq]
  unfold copied at hsize ⊢
  by_cases hsame : src = dst
  · have hapart := hapart hsame
    subst hsame
    rw [update_self, CopyFile.write_size] at hsize
    refine ⟨?_, fun j hj => ?_⟩
    · split_ifs at hsize
      · omega
      · omega
    · rw [update_self, CopyFile.write_bytes, if_neg (by omega), Nat.add_assoc]
  · rw [update_of_ne hsame] at hsize ⊢
    refine ⟨by omega, fun j _ => ?_⟩
    rw [Nat.add_assoc]

/-- The state after a round that writes `w` bytes. -/
def SendLoop.sent (s : SendLoop) (dst : ℕ) (buffer : ℕ → UInt8) (w : ℕ) : SendLoop where
  files := update s.files dst ((s.files dst).write buffer s.outOffset w)
  outOffset := (s.outOffset + w) % 2 ^ 64
  buffer := buffer
  currentOffset := (s.currentOffset + w) % 2 ^ 64
  totalSent := (s.totalSent + w) % 2 ^ 64
  remaining := (s.remaining + (2 ^ 64 - w)) % 2 ^ 64
  delivered := s.delivered + w

section Round

variable {readAnswer : IoResult} {buffer : ℕ → UInt8} {r : ℕ}
  (hread : ioRead (s.files src) s.buffer s.currentOffset (bytesToRead s) readAnswer = (r, buffer))
include hread

theorem sendfileRound_nothing (hr : r = 0) :
    sendfileRound src dst (readAnswer, writeAnswer) s = .done { s with buffer := buffer } false := by
  unfold sendfileRound
  rw [hread]
  dsimp only
  rw [if_pos hr, hr]
  rfl

theorem sendfileRound_error (hr : r ≠ 0) {code : ℕ} (hplain : PlainWrite (.error code)) :
    sendfileRound src dst (readAnswer, .error code) s =
        .done { s with buffer := buffer } (decide (s.totalSent = 0)) ∨
      2 ^ 64 - 1 ≤ code ∧ sendfileRound src dst (readAnswer, .error code) s = .more (s.sent dst buffer 0) := by
  have hidle : update s.files dst ((s.files dst).write buffer s.outOffset 0) = s.files := by
    rw [CopyFile.write_zero, update_eq_self]
  unfold sendfileRound
  rw [hread]
  dsimp only [ioWrite, taken]
  rw [if_neg hr, hidle]
  rcases hplain code rfl with rfl | hlarge
  · rw [if_pos (Nat.sub_zero _)]
    exact .inl rfl
  · have hzero : 2 ^ 64 - 1 - code = 0 := Nat.sub_eq_zero_of_le hlarge
    rw [hzero, if_neg (by norm_num), if_pos (Nat.pos_of_ne_zero hr)]
    refine .inr ⟨hlarge, ?_⟩
    unfold SendLoop.sent
    rw [hidle]

theorem sendfileRound_count (hr : r ≠ 0) {m : ℕ} (hlt : taken s.outOffset r (.count m) < 2 ^ 64 - 1) :
    sendfileRound src dst (readAnswer, .count m) s =
      .more (s.sent dst buffer (taken s.outOffset r (.count m))) := by
  have hle := taken_le s.outOffset r (.count m)
  have hsame : (if taken s.outOffset r (.count m) < r then taken s.outOffset r (.count m) else r) =
      taken s.outOffset r (.count m) := by
    split_ifs
    · rfl
    · omega
  unfold sendfileRound
  rw [hread]
  dsimp only
  rw [if_neg hr, ioWrite_count]
  dsimp only
  rw [if_neg (by omega), hsame]
  rfl

end Round

theorem SendKeeps.step (h : SendKeeps files src dst srcOff dstOff count s) (hcount : count < 2 ^ 64)
    (hsrc : srcOff < 2 ^ 64) (hsize : (files src).size < 2 ^ 64) {buffer : ℕ → UInt8} {w : ℕ}
    (hw : w ≤ s.remaining) (hfits : s.totalSent + w ≤ (files src).size - srcOff)
    (hout : s.outOffset + w < 2 ^ 64)
    (hbuffer : ∀ j < w, buffer j = (files src).bytes (srcOff + (s.totalSent + j))) :
    SendKeeps files src dst srcOff dstOff count (s.sent dst buffer w) := by
  have hrem := h.remaining_eq
  have hcur := h.current_eq
  have hto := h.out_eq
  have htotal : (s.totalSent + w) % 2 ^ 64 = s.totalSent + w := Nat.mod_eq_of_lt (by omega)
  unfold SendLoop.sent
  constructor
  · dsimp only
    rw [htotal, h.files_eq, copied, update_self, update_idem, h.out_eq, CopyFile.write_write hbuffer]
    rfl
  · dsimp only
    rw [htotal, hcur, Nat.mod_eq_of_lt (by omega), Nat.add_assoc]
  · dsimp only
    rw [htotal, hto, Nat.mod_eq_of_lt (by omega), Nat.add_assoc]
  · dsimp only
    rw [htotal]
    omega
  · dsimp only
    rw [htotal, h.delivered_eq]
  · dsimp only
    rwa [htotal]
  · dsimp only
    rw [htotal]
    omega

theorem SendKeeps.of_buffer (h : SendKeeps files src dst srcOff dstOff count s) (buffer : ℕ → UInt8) :
    SendKeeps files src dst srcOff dstOff count { s with buffer := buffer } :=
  ⟨h.files_eq, h.current_eq, h.out_eq, h.remaining_eq, h.delivered_eq, h.fits, h.out_lt⟩

/-- A clean round ends the loop without a change, or sends `w` bytes of the source. -/
theorem SendKeeps.round (h : SendKeeps files src dst srcOff dstOff count s) {answer : IoResult × IoResult}
    (hclean : RoundClean src dst srcOff dstOff (files src).size s answer) :
    (∃ buffer eio, sendfileRound src dst answer s = .done { s with buffer := buffer } eio ∧
        (eio = true → s.totalSent = 0)) ∨
      ∃ buffer w, w ≤ s.remaining ∧ s.totalSent + w ≤ (files src).size - srcOff ∧ s.outOffset + w < 2 ^ 64 ∧
        (∀ j < w, buffer j = (files src).bytes (srcOff + (s.totalSent + j))) ∧
        (w = 0 → answer.2 = .count 0 ∨ (∃ code, answer.2 = .error code ∧ 2 ^ 64 - 1 ≤ code) ∨
          s.outOffset + 1 = 2 ^ 64) ∧
        sendfileRound src dst answer s = .more (s.sent dst buffer w) := by
  have hout : s.outOffset < 2 ^ 64 := by
    rw [h.out_eq]
    exact h.out_lt
  have hnothing : ∀ P : ℕ → Prop, ∀ j < 0, P j := fun P j hj => absurd hj (Nat.not_lt_zero j)
  have hwant : bytesToRead s ≤ s.remaining ∧ bytesToRead s ≤ 1024 := by
    unfold bytesToRead sendfileBufSize
    split_ifs
    · omega
    · omega
  obtain ⟨readAnswer, writeAnswer⟩ := answer
  -- a write that fails after a read of `r` bytes
  have hfail : ∀ r buffer code, r ≠ 0 → ioRead (s.files src) s.buffer s.currentOffset (bytesToRead s) readAnswer =
      (r, buffer) → PlainWrite (.error code) →
      (∃ eio, sendfileRound src dst (readAnswer, .error code) s = .done { s with buffer := buffer } eio ∧
        (eio = true → s.totalSent = 0)) ∨
      2 ^ 64 - 1 ≤ code ∧ sendfileRound src dst (readAnswer, .error code) s = .more (s.sent dst buffer 0) :=
    fun r buffer code hr hread hplain =>
      (sendfileRound_error hread hr hplain).imp_left fun hdone => ⟨_, hdone, of_decide_eq_true⟩
  cases readAnswer with
  | error code =>
    have hread : ioRead (s.files src) s.buffer s.currentOffset (bytesToRead s) (.error code) =
        (2 ^ 64 - 1 - code, s.buffer) := rfl
    by_cases hzero : 2 ^ 64 - 1 - code = 0
    · exact .inl ⟨_, _, sendfileRound_nothing hread hzero, fun h => absurd h Bool.false_ne_true⟩
    obtain ⟨hplain, htaken⟩ := Or.resolve_left hclean (by omega)
    cases writeAnswer with
    | error code' =>
      rcases hfail _ _ code' hzero hread hplain with ⟨eio, hdone⟩ | ⟨hlarge, hmore⟩
      · exact .inl ⟨_, eio, hdone⟩
      · exact .inr ⟨_, 0, Nat.zero_le _, h.fits, hout, hnothing _, fun _ => .inr (.inl ⟨code', rfl, hlarge⟩), hmore⟩
    | count n =>
      have hcount : n = 0 ∨ s.outOffset + 1 = 2 ^ 64 := by
        have : min n (min (2 ^ 64 - 1 - code) (2 ^ 64 - 1 - s.outOffset)) = 0 := htaken
        omega
      have hmore : sendfileRound src dst (.error code, .count n) s =
          .more (s.sent dst s.buffer (taken s.outOffset (2 ^ 64 - 1 - code) (.count n))) :=
        sendfileRound_count hread hzero (by rw [htaken]; norm_num)
      rw [htaken] at hmore
      refine .inr ⟨s.buffer, 0, Nat.zero_le _, h.fits, hout, hnothing _, fun _ => ?_, hmore⟩
      exact hcount.imp (fun hn => by rw [hn]) .inr
  | count n =>
    set k := min n (min (bytesToRead s) ((s.files src).size - s.currentOffset)) with hk
    have hk_want : k ≤ bytesToRead s := (min_le_right _ _).trans (min_le_left _ _)
    have hk_size : k ≤ (s.files src).size - s.currentOffset := (min_le_right _ _).trans (min_le_right _ _)
    have hread : ioRead (s.files src) s.buffer s.currentOffset (bytesToRead s) (.count n) =
        (k, fun i => if i < k then (s.files src).bytes (s.currentOffset + i) else s.buffer i) := rfl
    by_cases hzero : k = 0
    · exact .inl ⟨_, _, sendfileRound_nothing hread hzero, fun h => absurd h Bool.false_ne_true⟩
    obtain ⟨hplain, hapart⟩ := Or.resolve_left hclean hzero
    obtain ⟨hsource, hbytes⟩ := h.source hapart (Nat.pos_of_ne_zero hzero) hk_size
    cases writeAnswer with
    | error code' =>
      rcases hfail _ _ code' hzero hread hplain with ⟨eio, hdone⟩ | ⟨hlarge, hmore⟩
      · exact .inl ⟨_, eio, hdone⟩
      · exact .inr ⟨_, 0, Nat.zero_le _, h.fits, hout, hnothing _, fun _ => .inr (.inl ⟨code', rfl, hlarge⟩), hmore⟩
    | count m =>
      have hw_le : taken s.outOffset k (.count m) ≤ k := taken_le _ _ _
      have hzero_iff : taken s.outOffset k (.count m) = 0 → m = 0 ∨ s.outOffset + 1 = 2 ^ 64 := by
        intro h
        have : min m (min k (2 ^ 64 - 1 - s.outOffset)) = 0 := h
        omega
      refine .inr ⟨_, _, by omega, by omega, taken_fits hout _ _, fun j hj => ?_, fun h => ?_,
        sendfileRound_count hread hzero (by omega)⟩
      · rw [if_pos (by omega), hbytes j (by omega)]
      · exact (hzero_iff h).imp (fun hm => by rw [hm]) .inr

theorem sendfileLoop_keeps (hcount : count < 2 ^ 64) (hsrc : srcOff < 2 ^ 64)
    (hsize : (files src).size < 2 ^ 64) (hclean : SendClean src dst srcOff dstOff (files src).size answers s)
    {s' : SendLoop} {eio : Bool} (h : SendKeeps files src dst srcOff dstOff count s)
    (hcall : sendfileLoop src dst answers s = some (s', eio)) :
    SendKeeps files src dst srcOff dstOff count s' ∧ (eio = true → s'.totalSent = 0) := by
  induction answers generalizing s with
  | nil =>
    unfold sendfileLoop at hcall
    split_ifs at hcall
    cases hcall
    exact ⟨h, fun h => absurd h Bool.false_ne_true⟩
  | cons answer answers ih =>
    unfold sendfileLoop at hcall
    by_cases hrem : s.remaining = 0
    · rw [if_pos hrem] at hcall
      cases hcall
      exact ⟨h, fun h => absurd h Bool.false_ne_true⟩
    rw [if_neg hrem] at hcall
    obtain ⟨hround, hrest⟩ := hclean hrem
    rcases h.round hround with ⟨buffer, eio', heq, heio⟩ | ⟨buffer, w, hw, hfits, hout, hbytes, -, heq⟩
    · rw [heq] at hcall
      cases hcall
      exact ⟨h.of_buffer buffer, heio⟩
    · rw [heq] at hcall
      exact ih (hrest _ heq) (h.step hcount hsrc hsize hw hfits hout hbytes) hcall

/-- The write takes something if there is room. -/
def Delivers (answer : IoResult × IoResult) : Prop :=
  answer.2 ≠ .count 0 ∧ ∀ code, answer.2 = .error code → code < 2 ^ 64 - 1

theorem sendfileLoop_returns (hcount : count < 2 ^ 64) (hsrc : srcOff < 2 ^ 64)
    (hsize : (files src).size < 2 ^ 64) (hclean : SendClean src dst srcOff dstOff (files src).size answers s)
    (hdelivers : ∀ a ∈ answers, Delivers a) (hlen : s.remaining ≤ answers.length) (hfits : dstOff + count < 2 ^ 64)
    (h : SendKeeps files src dst srcOff dstOff count s) : (sendfileLoop src dst answers s).isSome := by
  induction answers generalizing s with
  | nil =>
    unfold sendfileLoop
    rw [if_pos (Nat.le_zero.mp hlen)]
    rfl
  | cons answer answers ih =>
    obtain ⟨hdelivers, hothers⟩ := List.forall_mem_cons.mp hdelivers
    unfold sendfileLoop
    by_cases hrem : s.remaining = 0
    · rw [if_pos hrem]
      rfl
    rw [if_neg hrem]
    obtain ⟨hround, hrest⟩ := hclean hrem
    rcases h.round hround with ⟨buffer, eio, heq, -⟩ | ⟨buffer, w, hw, hsource, hout, hbytes, hzero, heq⟩
    · rw [heq]
      rfl
    · have hsum := h.remaining_eq
      have hto := h.out_eq
      have hpos : w ≠ 0 := by
        intro hw0
        rcases hzero hw0 with hnone | ⟨code, hcode, hlarge⟩ | hend
        · exact hdelivers.1 hnone
        · exact absurd (hdelivers.2 code hcode) (not_lt.mpr hlarge)
        · omega
      rw [heq]
      refine ih (hrest _ heq) hothers ?_ (h.step hcount hsrc hsize hw hsource hout hbytes)
      rw [List.length_cons] at hlen
      unfold SendLoop.sent
      dsimp only
      omega

end Send

theorem copied_zero (files : ℕ → CopyFile) (src srcOff dst dstOff : ℕ) : copied files src srcOff dst dstOff 0 = files := by
  unfold copied
  rw [CopyFile.write_zero, update_eq_self]

section Calls

variable {alloc : Bool} {node : ℕ → ℕ} {s : CopyState}

theorem CopyState.Words.offIn_getD (hs : s.Words) (fd : ℕ) : s.offIn.getD (s.offsets fd) < 2 ^ 64 := by
  cases h : s.offIn with
  | none => exact hs.offset_lt fd
  | some offset => exact hs.offIn_lt offset h

theorem CopyState.Words.sendKeeps_start (hs : s.Words) (node : ℕ → ℕ) (junk : ℕ → UInt8) (i j count : ℕ) :
    SendKeeps s.files (node i) (node j) (s.offIn.getD (s.offsets i)) (s.offsets j) count (s.sendStart junk i j count) :=
  ⟨(copied_zero _ _ _ _ _).symm, rfl, rfl, Nat.add_zero _, rfl, Nat.zero_le _, hs.offset_lt j⟩

/-- The rounds of the call are clean, where its descriptors are open. -/
def CallClean (node : ℕ → ℕ) (s : CopyState) (junk : ℕ → UInt8) (answers : List (IoResult × IoResult))
    (inFd outFd : Option ℕ) (count : ℕ) : Prop :=
  ∀ i j, inFd = some i → outFd = some j → SendClean (node i) (node j) (s.offIn.getD (s.offsets i)) (s.offsets j)
    (s.files (node i)).size answers (s.sendStart junk i j count)

theorem sendfile_conserves {junk : ℕ → UInt8} {outFd inFd : Option ℕ} {count : ℕ} {o : CopyOutcome}
    (hs : s.Words) (hnone : s.offOut = none) (hcount : count < 2 ^ 64)
    (hclean : CallClean node s junk answers inFd outFd count)
    (hcall : sendfile alloc node junk answers s outFd inFd count = some o) : Conserves node s inFd outFd o := by
  unfold sendfile at hcall
  cases outFd with
  | none =>
    cases hcall
    exact ⟨rfl, rfl⟩
  | some out =>
    cases inFd with
    | none =>
      cases hcall
      exact ⟨rfl, rfl⟩
    | some inn =>
      dsimp only at hcall
      by_cases halloc : ¬ alloc
      · rw [if_pos halloc] at hcall
        cases hcall
        exact ⟨rfl, rfl⟩
      rw [if_neg halloc] at hcall
      obtain ⟨⟨s', eio⟩, hloop, ho⟩ := Option.map_eq_some_iff.mp hcall
      obtain ⟨hkeeps, heio⟩ := sendfileLoop_keeps hcount (hs.offIn_getD inn) (hs.size_lt _) (hclean inn out rfl rfl)
        (hs.sendKeeps_start node junk inn out count) hloop
      have hadvance : ∀ fd, update s.offsets out s'.outOffset fd =
          if fd = out then s.offsets fd + s'.totalSent else s.offsets fd := by
        intro fd
        rw [update_apply, hkeeps.out_eq]
        split_ifs with h
        · rw [h]
        · rfl
      cases eio with
      | true =>
        have hzero := heio rfl
        have hoffsets : update s.offsets out s'.outOffset = s.offsets := by
          rw [hkeeps.out_eq, hzero, Nat.add_zero, update_eq_self]
        have hfiles : s'.files = s.files := by rw [hkeeps.files_eq, hzero, copied_zero]
        have hdelivered : s'.delivered = 0 := hkeeps.delivered_eq.trans hzero
        dsimp only at ho
        rw [if_pos rfl, hoffsets, hfiles, hdelivered] at ho
        rw [← ho]
        exact ⟨rfl, rfl⟩
      | false =>
        dsimp only at ho
        rw [if_neg Bool.false_ne_true] at ho
        have hcur := hkeeps.current_eq
        have hfits := hkeeps.fits
        have hfiles := hkeeps.files_eq
        unfold Conserves
        cases hptr : s.offIn with
        | some p =>
          rw [hptr] at ho hcur hfits hfiles
          dsimp only at ho
          rw [← ho]
          refine ⟨inn, out, rfl, rfl, hkeeps.delivered_eq, hfits, ?_, fun fd => ?_, ?_, ?_⟩
          · rw [hnone]
            exact hfiles
          · dsimp only
            rw [hadvance, hnone]
            simp
          · exact congrArg some hcur
          · rw [hnone]
            rfl
        | none =>
          rw [hptr] at ho hcur hfits hfiles
          dsimp only at ho
          rw [← ho]
          refine ⟨inn, out, rfl, rfl, hkeeps.delivered_eq, hfits, ?_, fun fd => ?_, rfl, ?_⟩
          · rw [hnone]
            exact hfiles
          · dsimp only
            rw [update_apply, hadvance, hnone, hcur]
            by_cases hfd : fd = inn
            · rw [if_pos hfd, if_pos (.inl ⟨hfd, rfl⟩), hfd]
              rfl
            · rw [if_neg hfd]
              simp [hfd]
          · rw [hnone]
            rfl

theorem sendfile_returns {junk : ℕ → UInt8} {outFd inFd : Option ℕ} {count : ℕ} (hs : s.Words)
    (hcount : count < 2 ^ 64) (hclean : CallClean node s junk answers inFd outFd count)
    (hdelivers : ∀ a ∈ answers, Delivers a) (hlen : count ≤ answers.length)
    (hfits : ∀ fd, outFd = some fd → s.offsets fd + count < 2 ^ 64) :
    (sendfile alloc node junk answers s outFd inFd count).isSome := by
  unfold sendfile
  cases outFd with
  | none => rfl
  | some out =>
    cases inFd with
    | none => rfl
    | some inn =>
      dsimp only
      by_cases halloc : ¬ alloc
      · rw [if_pos halloc]
        rfl
      · rw [if_neg halloc, Option.isSome_map]
        exact sendfileLoop_returns hcount (hs.offIn_getD inn) (hs.size_lt _) (hclean inn out rfl rfl) hdelivers hlen
          (hfits out rfl) (hs.sendKeeps_start node junk inn out count)

def given (size offset length : ℕ) : IoResult → ℕ
  | .error _ => 0
  | .count n => min n (min length (size - offset))

/-- `copy_file_range` stops before it writes, or the write takes nothing and reports nothing but `-1`, or the bytes are
written over themselves: there is one descriptor and no pointer, and what is written has been read. -/
def CopyHarmless (alloc : Bool) (node : ℕ → ℕ) (readAnswer writeAnswer : IoResult) (s : CopyState)
    (fdIn fdOut : Option ℕ) (len flags : ℕ) : Prop :=
  ∀ i j, flags = 0 → fdIn = some i → fdOut = some j →
    ¬ (s.offsets j ≥ (s.files (node j)).size ∧ (s.files (node j)).size > 0) → alloc →
    let length := min len (s.files (node i)).size
    let srcOffset := s.offIn.getD (s.offsets i)
    let n := taken (s.offOut.getD (s.offsets j)) length writeAnswer
    readAnswer ≠ .error 0 ∧ given (s.files (node i)).size srcOffset length readAnswer ≠ 2 ^ 64 - 1 →
      (n = 0 ∧ ∀ code, writeAnswer = .error code → code = 0 ∨ 2 ^ 64 - 1 ≤ code) ∨
        (0 < n ∧ i = j ∧ s.offIn = none ∧ s.offOut = none ∧ n ≤ given (s.files (node i)).size srcOffset length readAnswer)

theorem conserves_nothing {o : CopyOutcome} (i j : ℕ) (hret : o.ret = .ok 0) (hstate : o.state = s)
    (hdelivered : o.delivered = 0) : Conserves node s (some i) (some j) o := by
  unfold Conserves
  rw [hret, hstate, hdelivered]
  refine ⟨i, j, rfl, rfl, rfl, Nat.zero_le _, (copied_zero _ _ _ _ _).symm, fun fd => ?_, ?_, ?_⟩
  · rw [Nat.add_zero, ite_self]
  · cases s.offIn with
    | none => rfl
    | some _ => rfl
  · cases s.offOut with
    | none => rfl
    | some _ => rfl

theorem copyWrite_error (buffer : ℕ → UInt8) (code j length : ℕ) :
    copyWrite node (.error code) s buffer j length =
      if 2 ^ 64 - 1 - code = 2 ^ 64 - 1 then ⟨s, .error .efault, 0⟩
      else ⟨{ s with offsets := update s.offsets j ((s.offsets j + (2 ^ 64 - 1 - code)) % 2 ^ 64) },
        .ok (2 ^ 64 - 1 - code), 0⟩ := by
  unfold copyWrite ioWrite
  dsimp only [taken]
  rw [CopyFile.write_zero, update_eq_self]

theorem copyWrite_count (buffer : ℕ → UInt8) (m j length : ℕ)
    (hn : taken (s.offOut.getD (s.offsets j)) length (.count m) = n) (hne : n ≠ 2 ^ 64 - 1) :
    copyWrite node (.count m) s buffer j length = ⟨{ s with
          files := update s.files (node j)
            ((s.files (node j)).write buffer (s.offOut.getD (s.offsets j)) n)
          offsets := update s.offsets j ((s.offsets j + n) % 2 ^ 64) }, .ok n, n⟩ := by
  unfold copyWrite
  dsimp only
  rw [ioWrite_count, hn]
  dsimp only
  rw [if_neg hne]

theorem CopyFile.write_congr (file : CopyFile) (h : ∀ k < n, b k = b' k) :
    file.write b offset n = file.write b' offset n := by
  apply CopyFile.ext
  · intro i
    rw [write_bytes, write_bytes]
    split_ifs with hi
    · exact h _ (by omega)
    · rfl
  · rw [write_size, write_size]

theorem CopyFile.write_inj {file : CopyFile} (h : file.write b offset n = file.write b' offset n) {k : ℕ}
    (hk : k < n) : b k = b' k := by
  have hbytes := congrArg (fun f => CopyFile.bytes f (offset + k)) h
  rw [write_bytes, write_bytes, if_pos (by omega), if_pos (by omega), Nat.add_sub_cancel_left] at hbytes
  exact hbytes

theorem copyWrite_conserves_iff {i j length g : ℕ} (hs : s.Words)
    (hg : g ≤ (s.files (node i)).size - s.offIn.getD (s.offsets i)) (hmax : g ≠ 2 ^ 64 - 1)
    {buffer : (ℕ → UInt8) → ℕ → UInt8}
    (hbuffer : ∀ junk k, buffer junk k = if k < g then (s.files (node i)).bytes (s.offIn.getD (s.offsets i) + k) else junk k) :
    (∀ junk, Conserves node s (some i) (some j) (copyWrite node writeAnswer s (buffer junk) j length)) ↔
      let n := taken (s.offOut.getD (s.offsets j)) length writeAnswer
      (n = 0 ∧ ∀ code, writeAnswer = .error code → code = 0 ∨ 2 ^ 64 - 1 ≤ code) ∨
        (0 < n ∧ i = j ∧ s.offIn = none ∧ s.offOut = none ∧ n ≤ g) := by
  have hlt := hs.size_lt (node i)
  cases writeAnswer with
  | error code =>
    constructor
    · intro h
      refine .inl ⟨rfl, fun code' hcode => ?_⟩
      cases hcode
      by_contra hcon
      push Not at hcon
      have hcall := h fun _ => 0
      rw [copyWrite_error, if_neg (by omega)] at hcall
      obtain ⟨_, _, -, -, hdelivered, -⟩ := hcall
      dsimp only at hdelivered
      omega
    · rintro (⟨-, hcode⟩ | ⟨hpos, -⟩) junk
      · rw [copyWrite_error]
        rcases hcode code rfl with rfl | hlarge
        · rw [if_pos (Nat.sub_zero _)]
          exact ⟨rfl, rfl⟩
        · have hzero : 2 ^ 64 - 1 - code = 0 := Nat.sub_eq_zero_of_le hlarge
          rw [hzero, if_neg (by norm_num), Nat.add_zero, Nat.mod_eq_of_lt (hs.offset_lt j), update_eq_self]
          exact conserves_nothing i j rfl rfl rfl
      · exact absurd hpos (Nat.lt_irrefl 0)
  | count m =>
    dsimp only
    generalize hn : taken (s.offOut.getD (s.offsets j)) length (.count m) = n
    by_cases hfull : n = 2 ^ 64 - 1
    · constructor
      · intro h
        have hcall := h fun _ => 0
        unfold copyWrite at hcall
        dsimp only at hcall
        rw [ioWrite_count, hn, hfull] at hcall
        dsimp only at hcall
        rw [if_pos rfl] at hcall
        have hdelivered : 2 ^ 64 - 1 = 0 := hcall.2
        omega
      · rintro (⟨hzero, -⟩ | ⟨-, -, -, -, hle⟩)
        · omega
        · omega
    have hcopy : ∀ junk, copyWrite node (.count m) s (buffer junk) j length = _ := fun junk =>
      copyWrite_count (buffer junk) m j length hn hfull
    constructor
    · intro h
      by_cases hzero : n = 0
      · exact .inl ⟨hzero, fun code hcode => nomatch hcode⟩
      have hcall := h fun k => (s.files (node i)).bytes (s.offIn.getD (s.offsets i) + k) + 1
      rw [hcopy] at hcall
      obtain ⟨_, _, hi, hj, -, -, hfiles, hoffsets, hin, hout⟩ := hcall
      cases hi
      cases hj
      dsimp only at hfiles hoffsets hin hout
      have hin' : s.offIn = none := by
        cases hptr : s.offIn with
        | none => rfl
        | some p =>
          rw [hptr] at hin
          have : p = p + n := Option.some.inj hin
          omega
      have hout' : s.offOut = none := by
        cases hptr : s.offOut with
        | none => rfl
        | some p =>
          rw [hptr] at hout
          have : p = p + n := Option.some.inj hout
          omega
      have hsame : i = j := by
        by_contra hne
        have := hoffsets i
        rw [update_of_ne hne, if_pos (.inl ⟨rfl, hin'⟩)] at this
        omega
      refine .inr ⟨Nat.pos_of_ne_zero hzero, hsame, hin', hout', ?_⟩
      by_contra hgt
      have hwrite := congrFun hfiles (node j)
      unfold copied at hwrite
      rw [update_self, update_self] at hwrite
      have hbyte := CopyFile.write_inj hwrite (not_le.mp hgt)
      rw [hbuffer, if_neg (Nat.lt_irrefl g)] at hbyte
      simp at hbyte
    · rintro (⟨hzero, -⟩ | ⟨-, rfl, hin, hout, hle⟩) junk
      · rw [hcopy, hzero, CopyFile.write_zero, update_eq_self, Nat.add_zero, Nat.mod_eq_of_lt (hs.offset_lt j),
          update_eq_self]
        exact conserves_nothing i j rfl rfl rfl
      · have hfits := taken_fits (hs.offset_lt i) length (.count m)
        rw [hout, Option.getD_none] at hn
        rw [hn] at hfits
        rw [hcopy, Nat.mod_eq_of_lt hfits]
        refine ⟨i, i, rfl, rfl, rfl, hle.trans hg, ?_, fun fd => ?_, ?_, ?_⟩
        · dsimp only
          unfold copied
          rw [CopyFile.write_congr _ fun k hk => (hbuffer junk k).trans (if_pos (hk.trans_le hle))]
        · dsimp only
          rw [update_apply]
          simp only [hin, hout, and_true, or_self]
          split_ifs with hfd
          · rw [hfd]
          · rfl
        · dsimp only
          rw [hin]
          rfl
        · dsimp only
          rw [hout]
          rfl

theorem ioRead_buffer (file : CopyFile) (junk : ℕ → UInt8) (offset length : ℕ) (answer : IoResult) (k : ℕ) :
    (ioRead file junk offset length answer).2 k =
      if k < given file.size offset length answer then file.bytes (offset + k) else junk k := by
  cases answer with
  | error code => exact (if_neg (Nat.not_lt_zero k)).symm
  | count n => rfl

theorem ioRead_fails_iff (file : CopyFile) (junk : ℕ → UInt8) (offset length : ℕ) (answer : IoResult) :
    (ioRead file junk offset length answer).1 = 2 ^ 64 - 1 ↔
      answer = .error 0 ∨ given file.size offset length answer = 2 ^ 64 - 1 := by
  cases answer with
  | error code =>
    have hcode : (2 ^ 64 - 1 - code = 2 ^ 64 - 1) ↔ code = 0 := by omega
    change 2 ^ 64 - 1 - code = 2 ^ 64 - 1 ↔ IoResult.error code = .error 0 ∨ 0 = 2 ^ 64 - 1
    rw [hcode, IoResult.error.injEq]
    omega
  | count n =>
    constructor
    · exact .inr
    · rintro (h | h)
      · cases h
      · exact h

theorem given_le (size offset length : ℕ) (answer : IoResult) : given size offset length answer ≤ size - offset := by
  cases answer with
  | error code => exact Nat.zero_le _
  | count n => exact (min_le_right _ _).trans (min_le_right _ _)

theorem copyFileRange_conserves_iff {readAnswer : IoResult} {fdIn fdOut : Option ℕ} {len flags : ℕ}
    (hs : s.Words) :
    (∀ junk, Conserves node s fdIn fdOut (copyFileRange alloc node junk readAnswer writeAnswer s fdIn fdOut len flags)) ↔
      CopyHarmless alloc node readAnswer writeAnswer s fdIn fdOut len flags := by
  unfold copyFileRange
  by_cases hflags : flags ≠ 0
  · simp only [if_pos hflags]
    exact iff_of_true (fun _ => ⟨rfl, rfl⟩) fun _ _ h => absurd h hflags
  simp only [if_neg hflags]
  cases fdIn with
  | none => exact iff_of_true (fun _ => ⟨rfl, rfl⟩) fun _ _ _ h => nomatch h
  | some i =>
    cases fdOut with
    | none => exact iff_of_true (fun _ => ⟨rfl, rfl⟩) fun _ _ _ _ h => nomatch h
    | some j =>
      dsimp only
      by_cases hearly : s.offsets j ≥ (s.files (node j)).size ∧ (s.files (node j)).size > 0
      · simp only [if_pos hearly]
        refine iff_of_true (fun _ => conserves_nothing i j rfl rfl rfl) fun i' j' _ hi hj hnot => ?_
        cases hj
        exact absurd hearly hnot
      simp only [if_neg hearly]
      have hlength : (if (s.files (node i)).size > len then len else (s.files (node i)).size) =
          min len (s.files (node i)).size := by
        split_ifs
        · omega
        · omega
      simp only [hlength, ioRead_fails_iff]
      set g := given (s.files (node i)).size (s.offIn.getD (s.offsets i)) (min len (s.files (node i)).size) readAnswer
        with hg
      by_cases hstop : ¬ alloc ∨ readAnswer = .error 0 ∨ g = 2 ^ 64 - 1
      · simp only [if_pos hstop]
        refine iff_of_true (fun _ => ⟨rfl, rfl⟩) fun i' j' _ hi hj _ halloc => ?_
        cases hi
        cases hj
        intro _ _ _ hread
        exact absurd hstop (not_or.mpr ⟨not_not.mpr halloc, not_or.mpr hread⟩)
      · simp only [if_neg hstop]
        push Not at hstop
        obtain ⟨halloc, hread, hgiven⟩ := hstop
        rw [copyWrite_conserves_iff hs (given_le _ _ _ _) hgiven fun junk k => ioRead_buffer _ _ _ _ _ k]
        constructor
        · rintro h i' j' _ hi hj _ _
          cases hi
          cases hj
          exact fun _ => h
        · intro h
          exact h i j (not_not.mp hflags) rfl rfl hearly halloc ⟨hread, hgiven⟩

end Calls

/-- Both calls conserve data: `sendfile` as long as its rounds are clean, `copy_file_range` exactly when it is
harmless. -/
theorem copies_conserve (node : ℕ → ℕ) (s : CopyState) (hs : s.Words) :
    (∀ alloc junk answers outFd inFd count, s.offOut = none → count < 2 ^ 64 →
      CallClean node s junk answers inFd outFd count →
      (∀ o, sendfile alloc node junk answers s outFd inFd count = some o → Conserves node s inFd outFd o) ∧
        ((∀ a ∈ answers, Delivers a) → count ≤ answers.length →
          (∀ fd, outFd = some fd → s.offsets fd + count < 2 ^ 64) →
          (sendfile alloc node junk answers s outFd inFd count).isSome)) ∧
      ∀ alloc readAnswer writeAnswer fdIn fdOut len flags,
        (∀ junk, Conserves node s fdIn fdOut
          (copyFileRange alloc node junk readAnswer writeAnswer s fdIn fdOut len flags)) ↔
        CopyHarmless alloc node readAnswer writeAnswer s fdIn fdOut len flags := by
  refine ⟨fun alloc junk answers outFd inFd count hnone hcount hclean => ⟨fun o hcall => ?_, ?_⟩, ?_⟩
  · exact sendfile_conserves hs hnone hcount hclean hcall
  · exact sendfile_returns hs hcount hclean
  · intro alloc readAnswer writeAnswer fdIn fdOut len flags
    exact copyFileRange_conserves_iff hs

/-- A file of five bytes, open at 0 and, in descriptor 2, at its third byte, and an empty file. -/
def fiveBytes : CopyState where
  files n := if n = 0 then ⟨fun i => if i < 5 then 65 else 0, 5⟩ else ⟨fun _ => 0, 0⟩
  offsets fd := if fd = 2 then 2 else 0
  offIn := none
  offOut := none

def fiveBytesNode (fd : ℕ) : ℕ := if fd = 1 then 1 else 0

theorem words_fiveBytes : fiveBytes.Words where
  size_lt n := by
    unfold fiveBytes
    dsimp only
    split_ifs
    · norm_num
    · norm_num
  offset_lt fd := by
    unfold fiveBytes
    dsimp only
    split_ifs
    · norm_num
    · norm_num
  offIn_lt _ h := nomatch h
  offOut_lt _ h := nomatch h

theorem copies_conserve_fiveBytes :
    (∃ o, sendfile true fiveBytesNode (fun _ => 0) [(.count 9, .count 9)] fiveBytes (some 2) (some 0) 4 = some o ∧
        o.delivered = 4 ∧ Conserves fiveBytesNode fiveBytes (some 0) (some 2) o) ∧
      ∀ junk, Conserves fiveBytesNode fiveBytes (some 0) (some 1)
        (copyFileRange true fiveBytesNode junk (.count 3) (.error 0) fiveBytes (some 0) (some 1) 3 0) := by
  obtain ⟨hsend, hcopy⟩ := copies_conserve fiveBytesNode fiveBytes words_fiveBytes
  constructor
  · obtain ⟨o, ho, hdelivered⟩ : ∃ o, sendfile true fiveBytesNode (fun _ => 0) [(.count 9, .count 9)] fiveBytes (some 2)
      (some 0) 4 = some o ∧ o.delivered = 4 := ⟨_, rfl, rfl⟩
    refine ⟨o, ho, hdelivered, (hsend true (fun _ => 0) _ (some 2) (some 0) 4 rfl (by norm_num) ?_).1 o ho⟩
    -- the first round meets nothing of what the call has written
    intro i j hi hj
    cases hi
    cases hj
    refine fun _ => ⟨.inr ⟨fun code h => ?_, fun _ => .inl rfl⟩, fun s' _ => trivial⟩
    cases h
  · refine (hcopy true (.count 3) (.error 0) (some 0) (some 1) 3 0).mpr ?_
    intro i j _ _ _ _ _ _ _ _ _
    exact .inl ⟨rfl, fun code h => .inl (IoResult.error.inj h).symm⟩

/-- `sendfile` counts bytes that a full device has not taken, and `copy_file_range` does not move the offset of its
source. -/
theorem copies_lose :
    ¬ (∀ o, sendfile true id (fun _ => 0) [(.count 5, .error 27)] fiveBytes (some 1) (some 0) 5 = some o →
        Conserves id fiveBytes (some 0) (some 1) o) ∧
      ¬ ∀ junk, Conserves id fiveBytes (some 0) (some 1)
        (copyFileRange true id junk (.count 3) (.count 3) fiveBytes (some 0) (some 1) 3 0) := by
  constructor
  · intro h
    obtain ⟨o, ho, hret, hdelivered⟩ : ∃ o, sendfile true id (fun _ => 0) [(.count 5, .error 27)] fiveBytes (some 1) (some 0)
      5 = some o ∧ o.ret = .ok 5 ∧ o.delivered = 0 := ⟨_, rfl, rfl, rfl⟩
    have hcall := h o ho
    unfold Conserves at hcall
    rw [hret] at hcall
    obtain ⟨_, _, -, -, hn, -⟩ := hcall
    rw [hdelivered] at hn
    cases hn
  · intro h
    have hharm := (copyFileRange_conserves_iff words_fiveBytes).mp h 0 1 rfl rfl rfl (by decide) rfl
      ⟨by decide, by decide⟩
    rcases hharm with ⟨hzero, -⟩ | ⟨-, hsame, -⟩
    · revert hzero
      decide
    · cases hsame

end CoolPotOS
