import CoolPotOS.Machine
import CoolPotOS.Lib.Bytes

namespace CoolPotOS

open Bytes

/-- The part of `tmpfs_file_t` that holds the contents. Whether `alloc_frames` finds a run of frames
is an argument of the model. -/
structure TmpfsFile where
  data : ℕ → UInt8
  size : ℕ
  pageNum : ℕ
  capacity : ℕ

def TmpfsFile.empty : TmpfsFile := ⟨fun _ => 0, 0, 0, 0⟩

def tmpfsSizeToPages (size : ℕ) : Option ℕ :=
  if size = 0 then some 0
  else if size > 2 ^ 64 - 1 - (pageSize - 1) then none
  else some ((size + pageSize - 1) / pageSize)

/-- The loop of `tmpfs_ensure_capacity` that doubles the number of pages. A word can be doubled 64
times. -/
def tmpfsGrowPages (needPages : ℕ) : ℕ → ℕ → ℕ
  | 0, newPages => newPages
  | fuel + 1, newPages =>
    if newPages < needPages then
      if newPages > (2 ^ 64 - 1) / 2 then needPages
      else tmpfsGrowPages needPages fuel (newPages * 2)
    else newPages

def tmpfsEnsureCapacity (file : TmpfsFile) (stop : ℕ) (alloc : Bool) : Option TmpfsFile :=
  if stop ≤ file.capacity then some file
  else
    match tmpfsSizeToPages stop with
    | none => none
    | some needPages =>
      if needPages = 0 then none
      else
        let newPages := tmpfsGrowPages needPages 64 (if file.pageNum ≠ 0 then file.pageNum else 1)
        if newPages > (2 ^ 64 - 1) / pageSize then none
        else if alloc then
          some
            { data := overwrite (fun _ => 0) 0 (slice file.data 0 file.size)
              size := file.size
              pageNum := newPages
              capacity := newPages * pageSize }
        else none

/-- `tmpfs_read`: the bytes that it copies, or `none` when it copies from beyond the frames of the
file. -/
def tmpfsRead (file : TmpfsFile) (offset size : ℕ) : Option (List UInt8) :=
  if offset ≥ file.size then some []
  else
    let actual := if wrap (offset + size) > file.size then file.size - offset else size
    if offset + actual ≤ file.capacity then some (slice file.data offset actual) else none

/-- `tmpfs_write` of the bytes of a buffer, with the number of bytes that it returns. -/
def tmpfsWrite (file : TmpfsFile) (addr : List UInt8) (offset : ℕ) (alloc : Bool) : TmpfsFile × ℕ :=
  if addr.length = 0 then (file, 0)
  else if offset + addr.length ≥ 2 ^ 64 then (file, 0)
  else
    match tmpfsEnsureCapacity file (offset + addr.length) alloc with
    | none => (file, 0)
    | some file =>
      let data :=
        if offset > file.size then overwrite file.data file.size (.replicate (offset - file.size) 0)
        else file.data
      ({ file with
          data := overwrite data offset addr
          size := if offset + addr.length > file.size then offset + addr.length else file.size },
        addr.length)

/-- A byte array of which all but a finite part is zero. -/
structure SparseFile where
  bytes : ℕ → UInt8
  size : ℕ

def SparseFile.empty : SparseFile := ⟨fun _ => 0, 0⟩

def SparseFile.read (file : SparseFile) (offset size : ℕ) : List UInt8 :=
  slice file.bytes offset (min (offset + size) file.size - offset)

def SparseFile.write (file : SparseFile) (addr : List UInt8) (offset : ℕ) : SparseFile :=
  ⟨overwrite file.bytes offset addr, max file.size (offset + addr.length)⟩

/-- The file holds the array up to its size, and there is nothing behind it. -/
structure TmpfsFile.Holds (file : TmpfsFile) (array : SparseFile) : Prop where
  size_eq : file.size = array.size
  data_eq : ∀ i < file.size, file.data i = array.bytes i
  zero : ∀ i, file.size ≤ i → array.bytes i = 0
  size_le : file.size ≤ file.capacity
  capacity_lt : file.capacity < 2 ^ 64

theorem holds_empty : TmpfsFile.empty.Holds SparseFile.empty :=
  ⟨rfl, fun _ _ => rfl, fun _ _ => rfl, le_rfl, by norm_num [TmpfsFile.empty]⟩

theorem le_tmpfsGrowPages (needPages : ℕ) (hneed : needPages < 2 ^ 64) {fuel newPages : ℕ}
    (hfuel : 2 ^ 64 ≤ newPages * 2 ^ fuel) : needPages ≤ tmpfsGrowPages needPages fuel newPages := by
  induction fuel generalizing newPages with
  | zero =>
    unfold tmpfsGrowPages
    rw [pow_zero, mul_one] at hfuel
    omega
  | succ fuel ih =>
    unfold tmpfsGrowPages
    split
    · split
      · exact le_rfl
      · apply ih
        rw [mul_assoc, ← pow_succ']
        exact hfuel
    · omega

variable {file : TmpfsFile} {array : SparseFile}

theorem TmpfsFile.Holds.ensureCapacity {file' : TmpfsFile} (h : file.Holds array) {stop : ℕ} {alloc : Bool}
    (hroom : tmpfsEnsureCapacity file stop alloc = some file') :
    file'.Holds array ∧ stop ≤ file'.capacity := by
  unfold tmpfsEnsureCapacity at hroom
  by_cases hend : stop ≤ file.capacity
  · rw [if_pos hend] at hroom
    cases hroom
    exact ⟨h, hend⟩
  rw [if_neg hend] at hroom
  cases hpages : tmpfsSizeToPages stop with
  | none =>
    rw [hpages] at hroom
    cases hroom
  | some needPages =>
    rw [hpages] at hroom
    simp only at hroom
    have hpos : 1 ≤ if file.pageNum ≠ 0 then file.pageNum else 1 := by
      split_ifs <;> omega
    have hgrow := fun h64 => le_tmpfsGrowPages needPages h64 (Nat.le_mul_of_pos_left (2 ^ 64) hpos)
    generalize tmpfsGrowPages needPages 64 (if file.pageNum ≠ 0 then file.pageNum else 1) =
      newPages at hroom hgrow
    split_ifs at hroom with hneed hlarge
    cases hroom
    -- `need_pages` pages hold the bytes up to `end`
    have hneed_eq : stop ≤ needPages * pageSize ∧ needPages < 2 ^ 64 := by
      unfold tmpfsSizeToPages pageSize at hpages
      split_ifs at hpages with hzero hmax
      · exact absurd (Option.some.inj hpages).symm hneed
      · have := Option.some.inj hpages
        unfold pageSize
        omega
    have hcap : stop ≤ newPages * pageSize := hneed_eq.1.trans (Nat.mul_le_mul_right _ (hgrow hneed_eq.2))
    refine ⟨⟨h.size_eq, fun i hi => ?_, h.zero, ?_, ?_⟩, hcap⟩
    · change overwrite (fun _ => 0) 0 (slice file.data 0 file.size) i = array.bytes i
      rw [overwrite_slice, if_pos ⟨Nat.zero_le i, by simpa using hi⟩, Nat.zero_add, Nat.sub_zero]
      exact h.data_eq i hi
    · exact h.size_le.trans ((not_le.mp hend).le.trans hcap)
    · change newPages * pageSize < 2 ^ 64
      unfold pageSize at hlarge ⊢
      omega

theorem tmpfsWrite_cases (h : file.Holds array) (addr : List UInt8) (offset : ℕ) (alloc : Bool) :
    tmpfsWrite file addr offset alloc = (file, 0) ∨
    ∃ file', tmpfsWrite file addr offset alloc = (file', addr.length) ∧ addr.length ≠ 0 ∧
      file'.Holds (array.write addr offset) := by
  unfold tmpfsWrite
  by_cases hempty : addr.length = 0
  · left
    rw [if_pos hempty]
  rw [if_neg hempty]
  by_cases hwrap : offset + addr.length ≥ 2 ^ 64
  · left
    rw [if_pos hwrap]
  rw [if_neg hwrap]
  cases hroom : tmpfsEnsureCapacity file (offset + addr.length) alloc with
  | none => exact .inl rfl
  | some grown =>
    right
    obtain ⟨hgrown, hcap⟩ := h.ensureCapacity hroom
    have hsize := hgrown.size_eq
    refine ⟨_, rfl, hempty, ?_, fun i hi => ?_, fun i hi => ?_, ?_, hgrown.capacity_lt⟩
    · change (if offset + addr.length > grown.size then _ else _) = max array.size _
      rw [← hsize]
      split_ifs <;> omega
    · change overwrite (if offset > grown.size then
        overwrite grown.data grown.size (.replicate (offset - grown.size) 0) else grown.data)
        offset addr i = overwrite array.bytes offset addr i
      have hi : i < if offset + addr.length > grown.size then offset + addr.length
        else grown.size := hi
      -- behind the old end the gap is filled with zeros, as the array has them
      have hgap : (if offset > grown.size then overwrite grown.data grown.size
          (.replicate (offset - grown.size) 0) else grown.data) i = array.bytes i ∨
          offset ≤ i ∧ i < offset + addr.length := by
        by_cases hin : offset ≤ i ∧ i < offset + addr.length
        · exact .inr hin
        left
        by_cases hold : i < grown.size
        · rw [← hgrown.data_eq i hold]
          split_ifs
          · exact overwrite_of_lt _ _ hold
          · rfl
        · have hlt : i < offset := by
            split_ifs at hi <;> omega
          rw [if_pos (by omega), hgrown.zero i (not_lt.mp hold)]
          obtain ⟨k, rfl⟩ := Nat.exists_eq_add_of_le (not_lt.mp hold)
          rw [overwrite_add _ _ (by simp; omega), List.getElem_replicate]
      rcases hgap with hgap | ⟨hle, hlt⟩
      · unfold overwrite at hgap ⊢
        rw [hgap]
      · obtain ⟨k, rfl⟩ := Nat.exists_eq_add_of_le hle
        rw [overwrite_add _ _ (by omega), overwrite_add _ _ (by omega)]
    · have hi : (if offset + addr.length > grown.size then offset + addr.length
        else grown.size) ≤ i := hi
      change overwrite array.bytes offset addr i = 0
      rw [overwrite_of_le _ (by split_ifs at hi <;> omega)]
      exact hgrown.zero i (by split_ifs at hi <;> omega)
    · change (if offset + addr.length > grown.size then _ else _) ≤ grown.capacity
      have := hgrown.size_le
      split_ifs <;> omega

theorem tmpfsRead_iff (h : file.Holds array) {offset : ℕ} (size : ℕ) (hsize : size < 2 ^ 64) :
    tmpfsRead file offset size = some (array.read offset size) ↔
      ¬ (offset < file.size ∧ 2 ^ 64 ≤ offset + size) := by
  have hle := h.size_le
  have hlt := h.capacity_lt
  unfold tmpfsRead SparseFile.read
  rw [← h.size_eq]
  by_cases hpast : offset ≥ file.size
  · rw [if_pos hpast, show min (offset + size) file.size - offset = 0 by omega, slice_zero]
    simp [not_lt.mpr hpast]
  rw [if_neg hpast]
  by_cases hwrap : 2 ^ 64 ≤ offset + size
  · have hword : wrap (offset + size) = offset + size - 2 ^ 64 := by
      unfold wrap
      omega
    have hactual : (if wrap (offset + size) > file.size then file.size - offset else size) = size := by
      rw [hword]
      exact if_neg (by omega)
    simp only [hactual]
    rw [if_neg (by omega)]
    refine ⟨fun hnone => ?_, fun hok => absurd ⟨not_le.mp hpast, hwrap⟩ hok⟩
    cases hnone
  · rw [wrap_of_lt (not_le.mp hwrap)]
    have hactual : (if offset + size > file.size then file.size - offset else size) =
        min (offset + size) file.size - offset := by
      split_ifs <;> omega
    simp only [hactual]
    rw [if_pos (by omega)]
    refine ⟨fun _ hbad => hwrap hbad.2, fun _ => ?_⟩
    congr 1
    exact slice_congr fun i hi => h.data_eq _ (by omega)

inductive TmpfsOp
  | read (offset size : ℕ)
  | write (offset : ℕ) (addr : List UInt8) (alloc : Bool)

def TmpfsOp.run (x : TmpfsFile × SparseFile) : TmpfsOp → TmpfsFile × SparseFile
  | .read _ _ => x
  | .write offset addr alloc =>
    let (file, written) := tmpfsWrite x.1 addr offset alloc
    (file, if written = 0 then x.2 else x.2.write addr offset)

theorem TmpfsFile.Holds.run {x : TmpfsFile × SparseFile} (h : x.1.Holds x.2) (op : TmpfsOp) :
    (op.run x).1.Holds (op.run x).2 := by
  cases op with
  | read offset size => exact h
  | write offset addr alloc =>
    unfold TmpfsOp.run
    rcases tmpfsWrite_cases h addr offset alloc with hfail | ⟨file', hdone, hne, hholds⟩
    · simpa only [hfail, if_true] using h
    · simpa only [hdone, if_neg hne] using hholds

theorem holds_runs (ops : List TmpfsOp) : (ops.foldl TmpfsOp.run (TmpfsFile.empty, SparseFile.empty)).1.Holds
      (ops.foldl TmpfsOp.run (TmpfsFile.empty, SparseFile.empty)).2 := by
  induction ops using List.reverseRecOn with
  | nil => exact holds_empty
  | append_singleton ops op ih =>
    rw [List.foldl_concat]
    exact ih.run op

/-- After every history of reads and writes, a read returns the bytes of the array that the accepted
writes make, exactly when its range does not pass the end of the address space from within the file;
and a write that is refused changes nothing. -/
theorem tmpfs_sparse_array (ops : List TmpfsOp) (file : TmpfsFile) (array : SparseFile)
    (hrun : ops.foldl TmpfsOp.run (TmpfsFile.empty, SparseFile.empty) = (file, array)) :
    file.size = array.size ∧
    (∀ offset size, offset < 2 ^ 64 → size < 2 ^ 64 →
      (tmpfsRead file offset size = some (array.read offset size) ↔
        ¬ (offset < file.size ∧ 2 ^ 64 ≤ offset + size))) ∧
    ∀ addr offset alloc, tmpfsWrite file addr offset alloc = (file, 0) ∨
      ∃ file', tmpfsWrite file addr offset alloc = (file', addr.length) ∧ addr.length ≠ 0 ∧
        file'.Holds (array.write addr offset) := by
  have h := holds_runs ops
  rw [hrun] at h
  exact ⟨h.size_eq, fun offset size _ hsize => tmpfsRead_iff h size hsize,
    fun addr offset alloc => tmpfsWrite_cases h addr offset alloc⟩

theorem tmpfs_sparse_array_gap :
    tmpfsRead ([TmpfsOp.write 2 [7, 8] true].foldl TmpfsOp.run
      (TmpfsFile.empty, SparseFile.empty)).1 1 9 = some [0, 7, 8] := by
  refine (((tmpfs_sparse_array [.write 2 [7, 8] true] _ _ rfl).2.1 1 9 (by norm_num)
    (by norm_num)).mpr ?_).trans ?_
  · norm_num
  · decide

/-- A file of 4 bytes is read at offset 1 with a size of `2^64 - 1`: the sum wraps around to 0, so
the read is not cut at the end of the file. -/
theorem tmpfsRead_wraps :
    ∃ file array, [TmpfsOp.write 0 [1, 2, 3, 4] true].foldl TmpfsOp.run
        (TmpfsFile.empty, SparseFile.empty) = (file, array) ∧
      array.read 1 (2 ^ 64 - 1) = [2, 3, 4] ∧ tmpfsRead file 1 (2 ^ 64 - 1) = none := by
  refine ⟨_, _, rfl, ?_, ?_⟩
  · decide
  · decide

end CoolPotOS
