import CoolPotOS.Mem.MemSys
import CoolPotOS.Lib.Bytes
import CoolPotOS.Lib.Runs

namespace CoolPotOS

open Bytes

/-- The part of `blk_device_t` that describes transfers. Its callbacks transfer the sectors that
they are asked for, and its bytes are one array. -/
structure BlkDevice where
  blockSize : ℕ
  maxSize : ℕ
  blockSize_pos : 0 < blockSize

def BlkDevice.maxSec (device : BlkDevice) : ℕ :=
  if device.maxSize ≥ device.blockSize then device.maxSize / device.blockSize else 1

/-- `ops.read`: the bytes of `n` sectors. -/
def BlkDevice.readSectors (device : BlkDevice) (disk : ℕ → UInt8) (n sector : ℕ) : List UInt8 :=
  slice disk (sector * device.blockSize) (n * device.blockSize)

/-- `ops.write` of `n` sectors from a buffer. -/
def BlkDevice.writeSectors (device : BlkDevice) (disk : ℕ → UInt8) (buf : ℕ → UInt8) (src n sector : ℕ) :
    ℕ → UInt8 :=
  overwrite disk (sector * device.blockSize) (slice buf src (n * device.blockSize))

def blkBufferIsUserspace (buf len : ℕ) : Bool :=
  buf ≠ 0 ∧ ¬ checkUserOverflow buf len

def blkIsDmaBuf (ptr : ℕ) : Bool := ptr % pageSize = 0

/-- Whether `blk_copy_to_buffer` and `blk_copy_from_buffer` succeed; in the kernel they do. -/
def blkCopyOk (len : ℕ) (isUserspace : Bool) (outcomes : List Bool) : Bool × List Bool :=
  if len = 0 then (true, outcomes)
  else if isUserspace then malloc outcomes
  else (true, outcomes)

/-- The variables of `blk_device_read` that change, with the memory it writes to. -/
structure BlkRead where
  mem : ℕ → UInt8
  dst : ℕ
  sector : ℕ
  remaining : ℕ
  total : ℕ

/-- Bytes have been stored at `dst`, they come from the next `n` sectors. -/
def BlkRead.store (s : BlkRead) (bytes : List UInt8) (n : ℕ) : BlkRead where
  mem := overwrite s.mem s.dst bytes
  dst := s.dst + bytes.length
  sector := s.sector + n
  remaining := s.remaining - bytes.length
  total := s.total + bytes.length

/-- The loops of `blk_device_read` without a bounce buffer. -/
def blkReadDirect (device : BlkDevice) (disk : ℕ → UInt8) : ℕ → ℕ → BlkRead → BlkRead
  | 0, _, s => s
  | fuel + 1, secsLeft, s =>
    if secsLeft > 0 then
      let n := min secsLeft device.maxSec
      blkReadDirect device disk fuel (secsLeft - n) (s.store (device.readSectors disk n s.sector) n)
    else s

/-- The loop of `blk_device_read` with a bounce buffer of `bn` sectors. -/
def blkReadBounce (device : BlkDevice) (disk : ℕ → UInt8) (isUserspace : Bool) (bn : ℕ) :
    ℕ → ℕ → (ℕ → UInt8) → BlkRead → List Bool → Option (BlkRead × List Bool)
  | 0, _, _, s, outcomes => some (s, outcomes)
  | fuel + 1, midSecs, bounce, s, outcomes =>
    if midSecs > 0 then
      let n := min midSecs bn
      let bounce := overwrite bounce 0 (device.readSectors disk n s.sector)
      match blkCopyOk (n * device.blockSize) isUserspace outcomes with
      | (false, _) => none
      | (true, outcomes) =>
        blkReadBounce device disk isUserspace bn fuel (midSecs - n) bounce
          (s.store (slice bounce 0 (n * device.blockSize)) n) outcomes
    else some (s, outcomes)

/-- Reads one sector into a bounce buffer and copies `len` bytes of it. -/
def blkReadPart (device : BlkDevice) (disk : ℕ → UInt8) (isUserspace : Bool) (off len : ℕ) (s : BlkRead)
    (outcomes : List Bool) : Option (BlkRead × List Bool) :=
  match malloc outcomes with
  | (false, _) => none
  | (true, outcomes) =>
    let bounce := overwrite (fun _ => 0) 0 (device.readSectors disk 1 s.sector)
    match blkCopyOk len isUserspace outcomes with
    | (false, _) => none
    | (true, outcomes) => some (s.store (slice bounce off len) 1, outcomes)

def blkReadMiddle (device : BlkDevice) (disk : ℕ → UInt8) (isUserspace : Bool) (s : BlkRead)
    (outcomes : List Bool) : Option (BlkRead × List Bool) :=
  let midSecs := s.remaining / device.blockSize
  if midSecs > 0 ∧ ¬ isUserspace ∧ blkIsDmaBuf s.dst then
    some (blkReadDirect device disk midSecs midSecs s, outcomes)
  else if midSecs > 0 then
    match malloc outcomes with
    | (false, _) => none
    | (true, outcomes) =>
      blkReadBounce device disk isUserspace (min midSecs device.maxSec) midSecs midSecs (fun _ => 0) s
        outcomes
  else some (s, outcomes)

/-- The part of the first sector, when the range does not start with a sector. -/
def blkReadHead (device : BlkDevice) (disk : ℕ → UInt8) (isUserspace : Bool) (blockOff : ℕ)
    (s : BlkRead) (outcomes : List Bool) : Option (BlkRead × List Bool) :=
  if blockOff ≠ 0 then
    blkReadPart device disk isUserspace blockOff (min (device.blockSize - blockOff) s.remaining) s
      outcomes
  else some (s, outcomes)

def blkReadTail (device : BlkDevice) (disk : ℕ → UInt8) (isUserspace : Bool) (s : BlkRead)
    (outcomes : List Bool) : Option (BlkRead × List Bool) :=
  if s.remaining > 0 then blkReadPart device disk isUserspace 0 s.remaining s outcomes
  else some (s, outcomes)

/-- The path of `blk_device_read` with an unaligned head or tail. -/
def blkReadPieces (device : BlkDevice) (disk : ℕ → UInt8) (isUserspace : Bool) (blockOff : ℕ)
    (s : BlkRead) (outcomes : List Bool) : Option (BlkRead × List Bool) := do
  let (s, outcomes) ← blkReadHead device disk isUserspace blockOff s outcomes
  let (s, outcomes) ← blkReadMiddle device disk isUserspace s outcomes
  blkReadTail device disk isUserspace s outcomes

/-- `blk_device_read`: the memory afterwards and the number of bytes, or `none` for an error. -/
def blkDeviceRead (device : BlkDevice) (disk mem : ℕ → UInt8) (buffer offset length : ℕ)
    (outcomes : List Bool) : Option ((ℕ → UInt8) × ℕ) :=
  let blockOff := offset % device.blockSize
  let isUserspace := blkBufferIsUserspace buffer length
  let s : BlkRead := ⟨mem, buffer, offset / device.blockSize, length, 0⟩
  if ¬ isUserspace ∧ blockOff = 0 ∧ length % device.blockSize = 0 ∧ blkIsDmaBuf buffer then
    let secsLeft := length / device.blockSize
    let s := blkReadDirect device disk secsLeft secsLeft s
    some (s.mem, s.total)
  else
    (blkReadPieces device disk isUserspace blockOff s outcomes).map fun x => (x.1.mem, x.1.total)

/-- The variables of `blk_device_write` that change, with the device. -/
structure BlkWrite where
  disk : ℕ → UInt8
  src : ℕ
  sector : ℕ
  remaining : ℕ
  total : ℕ

/-- `bytes` bytes at `src` are on the device now, in the next `n` sectors. -/
def BlkWrite.advance (s : BlkWrite) (disk : ℕ → UInt8) (bytes n : ℕ) : BlkWrite where
  disk := disk
  src := s.src + bytes
  sector := s.sector + n
  remaining := s.remaining - bytes
  total := s.total + bytes

/-- The loops of `blk_device_write` without a bounce buffer. -/
def blkWriteDirect (device : BlkDevice) (mem : ℕ → UInt8) : ℕ → ℕ → BlkWrite → BlkWrite
  | 0, _, s => s
  | fuel + 1, secsLeft, s =>
    if secsLeft > 0 then
      let n := min secsLeft device.maxSec
      blkWriteDirect device mem fuel (secsLeft - n)
        (s.advance (device.writeSectors s.disk mem s.src n s.sector) (n * device.blockSize) n)
    else s

/-- The loop of `blk_device_write` with a bounce buffer of `bn` sectors. -/
def blkWriteBounce (device : BlkDevice) (mem : ℕ → UInt8) (isUserspace : Bool) (bn : ℕ) :
    ℕ → ℕ → (ℕ → UInt8) → BlkWrite → List Bool → Option (BlkWrite × List Bool)
  | 0, _, _, s, outcomes => some (s, outcomes)
  | fuel + 1, midSecs, bounce, s, outcomes =>
    if midSecs > 0 then
      let n := min midSecs bn
      match blkCopyOk (n * device.blockSize) isUserspace outcomes with
      | (false, _) => none
      | (true, outcomes) =>
        let bounce := overwrite bounce 0 (slice mem s.src (n * device.blockSize))
        blkWriteBounce device mem isUserspace bn fuel (midSecs - n) bounce
          (s.advance (device.writeSectors s.disk bounce 0 n s.sector) (n * device.blockSize) n) outcomes
    else some (s, outcomes)

/-- Reads one sector into a bounce buffer, changes `len` bytes of it, and writes it back. -/
def blkWritePart (device : BlkDevice) (mem : ℕ → UInt8) (isUserspace : Bool) (off len : ℕ)
    (s : BlkWrite) (outcomes : List Bool) : Option (BlkWrite × List Bool) :=
  match malloc outcomes with
  | (false, _) => none
  | (true, outcomes) =>
    let bounce := overwrite (fun _ => 0) 0 (device.readSectors s.disk 1 s.sector)
    match blkCopyOk len isUserspace outcomes with
    | (false, _) => none
    | (true, outcomes) =>
      let bounce := overwrite bounce off (slice mem s.src len)
      some (s.advance (device.writeSectors s.disk bounce 0 1 s.sector) len 1, outcomes)

def blkWriteMiddle (device : BlkDevice) (mem : ℕ → UInt8) (isUserspace : Bool) (s : BlkWrite)
    (outcomes : List Bool) : Option (BlkWrite × List Bool) :=
  let midSecs := s.remaining / device.blockSize
  if midSecs > 0 ∧ ¬ isUserspace ∧ blkIsDmaBuf s.src then
    some (blkWriteDirect device mem midSecs midSecs s, outcomes)
  else if midSecs > 0 then
    match malloc outcomes with
    | (false, _) => none
    | (true, outcomes) =>
      blkWriteBounce device mem isUserspace (min midSecs device.maxSec) midSecs midSecs (fun _ => 0) s
        outcomes
  else some (s, outcomes)

/-- The part of the first sector, when the range does not start with a sector. -/
def blkWriteHead (device : BlkDevice) (mem : ℕ → UInt8) (isUserspace : Bool) (blockOff : ℕ)
    (s : BlkWrite) (outcomes : List Bool) : Option (BlkWrite × List Bool) :=
  if blockOff ≠ 0 then
    blkWritePart device mem isUserspace blockOff (min (device.blockSize - blockOff) s.remaining) s
      outcomes
  else some (s, outcomes)

def blkWriteTail (device : BlkDevice) (mem : ℕ → UInt8) (isUserspace : Bool) (s : BlkWrite)
    (outcomes : List Bool) : Option (BlkWrite × List Bool) :=
  if s.remaining > 0 then blkWritePart device mem isUserspace 0 s.remaining s outcomes
  else some (s, outcomes)

/-- The path of `blk_device_write` with an unaligned head or tail. -/
def blkWritePieces (device : BlkDevice) (mem : ℕ → UInt8) (isUserspace : Bool) (blockOff : ℕ)
    (s : BlkWrite) (outcomes : List Bool) : Option (BlkWrite × List Bool) := do
  let (s, outcomes) ← blkWriteHead device mem isUserspace blockOff s outcomes
  let (s, outcomes) ← blkWriteMiddle device mem isUserspace s outcomes
  blkWriteTail device mem isUserspace s outcomes

/-- `blk_device_write`: the device afterwards and the number of bytes, or `none` for an error. -/
def blkDeviceWrite (device : BlkDevice) (disk mem : ℕ → UInt8) (buffer offset length : ℕ)
    (outcomes : List Bool) : Option ((ℕ → UInt8) × ℕ) :=
  let blockOff := offset % device.blockSize
  let isUserspace := blkBufferIsUserspace buffer length
  let s : BlkWrite := ⟨disk, buffer, offset / device.blockSize, length, 0⟩
  if ¬ isUserspace ∧ blockOff = 0 ∧ length % device.blockSize = 0 ∧ blkIsDmaBuf buffer then
    let secsLeft := length / device.blockSize
    let s := blkWriteDirect device mem secsLeft secsLeft s
    some (s.disk, s.total)
  else
    (blkWritePieces device mem isUserspace blockOff s outcomes).map fun x => (x.1.disk, x.1.total)

section Outcomes

variable {σ τ : Type} {outcomes : List Bool}

/-- A computation ends well, or it ends with an error and one of the outcomes was bad. -/
def Ends (outcomes : List Bool) (result : Option (σ × List Bool)) (P : σ → Prop) : Prop :=
  (result = none ∧ false ∈ outcomes) ∨
    ∃ s rest, result = some (s, rest) ∧ rest ⊆ outcomes ∧ P s

theorem Ends.pure {P : σ → Prop} {s : σ} (h : P s) : Ends outcomes (some (s, outcomes)) P :=
  .inr ⟨s, outcomes, rfl, List.Subset.refl _, h⟩

theorem Ends.subset {result : Option (σ × List Bool)} {P : σ → Prop} {rest : List Bool}
    (h : Ends rest result P) (hsub : rest ⊆ outcomes) : Ends outcomes result P := by
  rcases h with ⟨hnone, hbad⟩ | ⟨s, rest', hsome, hrest, hs⟩
  · exact .inl ⟨hnone, hsub hbad⟩
  · exact .inr ⟨s, rest', hsome, List.Subset.trans hrest hsub, hs⟩

theorem Ends.mono {result : Option (σ × List Bool)} {P Q : σ → Prop} (h : Ends outcomes result P)
    (hpq : ∀ s, P s → Q s) : Ends outcomes result Q := by
  rcases h with hbad | ⟨s, rest, hsome, hrest, hs⟩
  · exact .inl hbad
  · exact .inr ⟨s, rest, hsome, hrest, hpq s hs⟩

theorem Ends.bind {result : Option (σ × List Bool)} {P : σ → Prop} {Q : τ → Prop}
    {f : σ × List Bool → Option (τ × List Bool)} (h : Ends outcomes result P)
    (hf : ∀ s rest, P s → Ends rest (f (s, rest)) Q) : Ends outcomes (result.bind f) Q := by
  rcases h with ⟨rfl, hbad⟩ | ⟨s, rest, rfl, hrest, hs⟩
  · exact .inl ⟨rfl, hbad⟩
  · exact (hf s rest hs).subset hrest

theorem Ends.malloc {P : σ → Prop} {next : List Bool → Option (σ × List Bool)}
    (h : ∀ rest, Ends rest (next rest) P) :
    Ends outcomes (match CoolPotOS.malloc outcomes with
      | (false, _) => none
      | (true, rest) => next rest) P := by
  cases outcomes with
  | nil => exact h []
  | cons ok rest =>
    cases ok with
    | false => exact .inl ⟨rfl, List.mem_cons_self⟩
    | true => exact (h rest).subset (List.subset_cons_self true rest)

theorem Ends.copy {P : σ → Prop} {next : List Bool → Option (σ × List Bool)} (len : ℕ)
    (isUserspace : Bool) (h : ∀ rest, Ends rest (next rest) P) :
    Ends outcomes (match blkCopyOk len isUserspace outcomes with
      | (false, _) => none
      | (true, rest) => next rest) P := by
  unfold blkCopyOk
  split_ifs
  · exact h outcomes
  · exact Ends.malloc h
  · exact h outcomes

theorem Ends.sectors {P : σ → Prop} {k : ℕ} {c : Prop} [Decidable c] {direct s : σ}
    {bounce : List Bool → Option (σ × List Bool)} (hdirect : 0 < k → P direct)
    (hbounce : 0 < k → ∀ rest, Ends rest (bounce rest) P) (hnone : k = 0 → P s) :
    Ends outcomes (if k > 0 ∧ c then some (direct, outcomes)
      else if k > 0 then
        match CoolPotOS.malloc outcomes with
        | (false, _) => none
        | (true, rest) => bounce rest
      else some (s, outcomes)) P := by
  split_ifs with hc hpos
  · exact .pure (hdirect hc.1)
  · exact .malloc (hbounce hpos)
  · exact .pure (hnone (Nat.eq_zero_of_not_pos hpos))

theorem Ends.result {P : σ → Prop} {c : Prop} {d : Decidable c} {direct : σ} {pieces : Option (σ × List Bool)}
    {o : σ → τ} {r : τ} (hdirect : c → P direct) (hpieces : Ends outcomes pieces P) (hout : ∀ s, P s → o s = r) :
    ((if c then some (o direct) else pieces.map fun x => o x.1) = none ∧ false ∈ outcomes) ∨
      (if c then some (o direct) else pieces.map fun x => o x.1) = some r := by
  split_ifs with hc
  · exact .inr (congrArg some (hout direct (hdirect hc)))
  · rcases hpieces with ⟨rfl, hbad⟩ | ⟨s, rest, rfl, -, hs⟩
    · exact .inl ⟨rfl, hbad⟩
    · exact .inr (congrArg some (hout s hs))

end Outcomes

theorem BlkDevice.maxSec_pos (device : BlkDevice) : 0 < device.maxSec := by
  unfold BlkDevice.maxSec
  split_ifs with h
  · exact Nat.div_pos h device.blockSize_pos
  · exact Nat.one_pos

/-- The first `total` bytes have been read. -/
structure BlkRead.Done (disk mem : ℕ → UInt8) (buffer offset length : ℕ) (s : BlkRead) : Prop where
  dst : s.dst = buffer + s.total
  remaining : s.total + s.remaining = length
  mem : s.mem = overwrite mem buffer (slice disk offset s.total)

/-- The first `total` bytes have been read, and `sector` starts with the next one. -/
structure BlkRead.At (device : BlkDevice) (disk mem : ℕ → UInt8) (buffer offset length : ℕ)
    (s : BlkRead) : Prop extends s.Done disk mem buffer offset length where
  sector : 0 < s.remaining → s.sector * device.blockSize = offset + s.total

section Read

variable {device : BlkDevice} {disk mem : ℕ → UInt8} {buffer offset length : ℕ} {s : BlkRead}

theorem BlkRead.Done.store (h : s.Done disk mem buffer offset length) {k n : ℕ} (hk : k ≤ s.remaining)
    (hn : k < s.remaining → (s.sector + n) * device.blockSize = offset + s.total + k) :
    (s.store (slice disk (offset + s.total) k) n).At device disk mem buffer offset length := by
  have hrem := h.remaining
  refine ⟨⟨?_, ?_, ?_⟩, ?_⟩
  · simp only [BlkRead.store, length_slice, h.dst]
    omega
  · simp only [BlkRead.store, length_slice]
    omega
  · have hlast := overwrite_append mem buffer (slice disk offset s.total) (slice disk (offset + s.total) k)
    rw [length_slice, ← slice_add] at hlast
    simp only [BlkRead.store, length_slice, h.dst, h.mem]
    exact hlast
  · simp only [BlkRead.store, length_slice]
    intro hpos
    rw [hn (by omega)]
    omega

theorem BlkRead.At.storeSectors (h : s.At device disk mem buffer offset length) {n : ℕ} (hpos : 0 < n)
    (hn : n * device.blockSize ≤ s.remaining) :
    (s.store (device.readSectors disk n s.sector) n).At device disk mem buffer offset length := by
  have hrem : 0 < s.remaining := lt_of_lt_of_le (Nat.mul_pos hpos device.blockSize_pos) hn
  have hsector := h.sector hrem
  unfold BlkDevice.readSectors
  rw [hsector]
  apply h.toDone.store hn
  intro _
  rw [Nat.add_mul, hsector]

theorem blkReadDirect_spec (fuel secsLeft : ℕ) (h : s.At device disk mem buffer offset length)
    (hfuel : secsLeft ≤ fuel) (hsecs : secsLeft * device.blockSize ≤ s.remaining) :
    (blkReadDirect device disk fuel secsLeft s).At device disk mem buffer offset length ∧
      (blkReadDirect device disk fuel secsLeft s).remaining = s.remaining - secsLeft * device.blockSize := by
  induction fuel generalizing secsLeft s with
  | zero =>
    obtain rfl : secsLeft = 0 := by omega
    exact ⟨h, by simp [blkReadDirect]⟩
  | succ fuel ih =>
    unfold blkReadDirect
    by_cases hpos : secsLeft > 0
    · rw [if_pos hpos]
      have hmin : 0 < min secsLeft device.maxSec := lt_min hpos device.maxSec_pos
      generalize hn : min secsLeft device.maxSec = n at hmin ⊢
      have hle : n ≤ secsLeft := hn ▸ Nat.min_le_left _ _
      obtain ⟨rest, rfl⟩ := Nat.exists_eq_add_of_le hle
      rw [Nat.add_mul] at hsecs
      have hstored := h.storeSectors hmin (by omega)
      have hrem : (s.store (device.readSectors disk n s.sector) n).remaining =
          s.remaining - n * device.blockSize := by
        simp [BlkRead.store, BlkDevice.readSectors]
      simp only [Nat.add_sub_cancel_left]
      obtain ⟨hat, hleft⟩ := ih rest hstored (by omega) (by omega)
      refine ⟨hat, ?_⟩
      rw [hleft, hrem, Nat.add_mul]
      omega
    · rw [if_neg hpos]
      obtain rfl : secsLeft = 0 := by omega
      exact ⟨h, by simp⟩

theorem blkReadBounce_spec (isUserspace : Bool) {bn : ℕ} (hbn : 0 < bn) (fuel midSecs : ℕ)
    (bounce : ℕ → UInt8) (outcomes : List Bool) (h : s.At device disk mem buffer offset length)
    (hfuel : midSecs ≤ fuel) (hsecs : midSecs * device.blockSize ≤ s.remaining) :
    Ends outcomes (blkReadBounce device disk isUserspace bn fuel midSecs bounce s outcomes)
      fun s' => s'.At device disk mem buffer offset length ∧
        s'.remaining = s.remaining - midSecs * device.blockSize := by
  induction fuel generalizing midSecs s bounce outcomes with
  | zero =>
    obtain rfl : midSecs = 0 := by omega
    exact .pure ⟨h, by simp⟩
  | succ fuel ih =>
    unfold blkReadBounce
    by_cases hpos : midSecs > 0
    · rw [if_pos hpos]
      have hmin : 0 < min midSecs bn := lt_min hpos hbn
      generalize hn : min midSecs bn = n at hmin ⊢
      have hle : n ≤ midSecs := hn ▸ Nat.min_le_left _ _
      obtain ⟨rest, rfl⟩ := Nat.exists_eq_add_of_le hle
      rw [Nat.add_mul] at hsecs
      have hlen : (device.readSectors disk n s.sector).length = n * device.blockSize := length_slice ..
      have hcopy : slice (overwrite bounce 0 (device.readSectors disk n s.sector)) 0
          (n * device.blockSize) = device.readSectors disk n s.sector := by
        have hself := slice_overwrite_self bounce 0 (device.readSectors disk n s.sector)
        rwa [hlen] at hself
      have hrem : (s.store (device.readSectors disk n s.sector) n).remaining =
          s.remaining - n * device.blockSize := by
        simp [BlkRead.store, hlen]
      refine Ends.copy _ _ fun outcomes' => ?_
      rw [hcopy, Nat.add_sub_cancel_left]
      have hrest := ih rest (overwrite bounce 0 (device.readSectors disk n s.sector)) outcomes'
        (h.storeSectors hmin (by omega)) (by omega) (by omega)
      rw [hrem] at hrest
      rwa [Nat.add_mul, ← Nat.sub_sub]
    · rw [if_neg hpos]
      obtain rfl : midSecs = 0 := by omega
      exact .pure ⟨h, by simp⟩

theorem blkReadMiddle_spec (isUserspace : Bool) (outcomes : List Bool)
    (h : s.At device disk mem buffer offset length) :
    Ends outcomes (blkReadMiddle device disk isUserspace s outcomes)
      fun s' => s'.At device disk mem buffer offset length ∧ s'.remaining < device.blockSize := by
  have hsecs : s.remaining / device.blockSize * device.blockSize ≤ s.remaining := Nat.div_mul_le_self _ _
  have hrest : s.remaining - s.remaining / device.blockSize * device.blockSize < device.blockSize := by
    rw [← Nat.mod_eq_sub_div_mul]
    exact Nat.mod_lt _ device.blockSize_pos
  refine Ends.sectors (fun _ => ?_) (fun hpos rest => ?_) fun hzero => ⟨h, ?_⟩
  · obtain ⟨hat, hrem⟩ := blkReadDirect_spec _ _ h le_rfl hsecs
    exact ⟨hat, hrem ▸ hrest⟩
  · exact (blkReadBounce_spec isUserspace (lt_min hpos device.maxSec_pos) _ _ (fun _ => 0) rest h le_rfl
      hsecs).mono fun s' hs' => ⟨hs'.1, hs'.2 ▸ hrest⟩
  · rwa [hzero, Nat.zero_mul, Nat.sub_zero] at hrest

theorem blkReadPart_spec (isUserspace : Bool) {off len : ℕ} (outcomes : List Bool)
    (h : s.Done disk mem buffer offset length)
    (hsector : s.sector * device.blockSize + off = offset + s.total)
    (hfits : off + len ≤ device.blockSize) (hlen : len ≤ s.remaining)
    (hend : len < s.remaining → off + len = device.blockSize) :
    Ends outcomes (blkReadPart device disk isUserspace off len s outcomes)
      fun s' => s'.At device disk mem buffer offset length ∧ s'.remaining = s.remaining - len := by
  unfold blkReadPart
  refine Ends.malloc fun outcomes' => Ends.copy _ _ fun outcomes'' => ?_
  have hbytes : slice (overwrite (fun _ => 0) 0 (device.readSectors disk 1 s.sector)) off len =
      slice disk (offset + s.total) len := by
    apply slice_congr
    intro i hi
    unfold BlkDevice.readSectors
    rw [overwrite_slice, if_pos (by omega), Nat.sub_zero, ← hsector, Nat.add_assoc]
  simp only [hbytes]
  refine .pure ⟨h.store hlen fun hlt => ?_, by simp [BlkRead.store]⟩
  rw [Nat.add_mul, Nat.one_mul, ← hsector, ← hend hlt]
  omega

theorem blkReadPieces_spec (isUserspace : Bool) (outcomes : List Bool) :
    Ends outcomes (blkReadPieces device disk isUserspace (offset % device.blockSize)
        ⟨mem, buffer, offset / device.blockSize, length, 0⟩ outcomes)
      fun s' => s'.At device disk mem buffer offset length ∧ s'.remaining = 0 := by
  have hdiv := Nat.div_add_mod' offset device.blockSize
  have hmod := Nat.mod_lt offset device.blockSize_pos
  unfold blkReadPieces
  -- an offset inside a sector leaves the first sector to the head
  have hhead : Ends outcomes (blkReadHead device disk isUserspace (offset % device.blockSize)
        ⟨mem, buffer, offset / device.blockSize, length, 0⟩ outcomes)
      fun s' => s'.At device disk mem buffer offset length := by
    unfold blkReadHead
    by_cases hoff : offset % device.blockSize ≠ 0
    · rw [if_pos hoff]
      refine (blkReadPart_spec isUserspace outcomes ⟨rfl, by simp, by simp⟩ ?_ ?_ ?_ ?_).mono
        fun s' hs' => hs'.1
      · simp only
        omega
      · omega
      · exact Nat.min_le_right _ _
      · simp only
        omega
    · rw [if_neg hoff]
      exact .pure ⟨⟨rfl, by simp, by simp⟩, fun _ => by simp only; omega⟩
  refine hhead.bind fun s rest hs => ?_
  refine Ends.bind (blkReadMiddle_spec isUserspace rest hs) ?_
  rintro s' rest' ⟨hs', hlt⟩
  simp only [blkReadTail]
  by_cases hpos : s'.remaining > 0
  · have hsector := hs'.sector hpos
    have hpart := blkReadPart_spec isUserspace rest' hs'.toDone hsector
      (show 0 + s'.remaining ≤ device.blockSize by omega) le_rfl (by omega)
    simp only [if_pos hpos]
    rwa [Nat.sub_self] at hpart
  · simp only [if_neg hpos]
    exact .pure ⟨hs', by omega⟩

end Read

theorem blkDeviceRead_spec (device : BlkDevice) (disk mem : ℕ → UInt8) (buffer offset length : ℕ)
    (outcomes : List Bool) :
    (blkDeviceRead device disk mem buffer offset length outcomes = none ∧ false ∈ outcomes) ∨
      blkDeviceRead device disk mem buffer offset length outcomes =
        some (overwrite mem buffer (slice disk offset length), length) := by
  have hdiv := Nat.div_add_mod' offset device.blockSize
  refine Ends.result (P := fun s : BlkRead => s.At device disk mem buffer offset length ∧ s.remaining = 0)
    (o := fun s => (s.mem, s.total)) (fun hdirect => ?_)
    (blkReadPieces_spec (blkBufferIsUserspace buffer length) outcomes) fun s hs => ?_
  · have hsecs : length / device.blockSize * device.blockSize = length :=
      Nat.div_mul_cancel (Nat.dvd_of_mod_eq_zero hdirect.2.2.1)
    have hinit : BlkRead.At device disk mem buffer offset length ⟨mem, buffer, offset / device.blockSize, length, 0⟩ :=
      ⟨⟨rfl, by simp, by simp⟩, fun _ => by simp only; omega⟩
    obtain ⟨hat, hrem⟩ := blkReadDirect_spec _ _ hinit le_rfl hsecs.le
    exact ⟨hat, by rw [hrem, hsecs, Nat.sub_self]⟩
  · have htotal : s.total = length := by
      have := hs.1.remaining
      omega
    rw [hs.1.mem, htotal]

/-- The first `total` bytes have been written. -/
structure BlkWrite.Done (disk mem : ℕ → UInt8) (buffer offset length : ℕ) (s : BlkWrite) : Prop where
  src : s.src = buffer + s.total
  remaining : s.total + s.remaining = length
  disk : s.disk = overwrite disk offset (slice mem buffer s.total)

/-- The first `total` bytes have been written, and `sector` starts with the next one. -/
structure BlkWrite.At (device : BlkDevice) (disk mem : ℕ → UInt8) (buffer offset length : ℕ)
    (s : BlkWrite) : Prop extends s.Done disk mem buffer offset length where
  sector : 0 < s.remaining → s.sector * device.blockSize = offset + s.total

section Write

variable {device : BlkDevice} {disk mem : ℕ → UInt8} {buffer offset length : ℕ} {s : BlkWrite}

theorem BlkWrite.Done.advance (h : s.Done disk mem buffer offset length) {k n : ℕ} (hk : k ≤ s.remaining)
    (hn : k < s.remaining → (s.sector + n) * device.blockSize = offset + s.total + k) :
    (s.advance (overwrite s.disk (offset + s.total) (slice mem s.src k)) k n).At device disk mem buffer
      offset length := by
  have hrem := h.remaining
  refine ⟨⟨?_, ?_, ?_⟩, ?_⟩
  · simp only [BlkWrite.advance, h.src]
    omega
  · simp only [BlkWrite.advance]
    omega
  · have hlast := overwrite_append disk offset (slice mem buffer s.total) (slice mem (buffer + s.total) k)
    rw [length_slice, ← slice_add] at hlast
    simp only [BlkWrite.advance, h.src, h.disk]
    exact hlast
  · simp only [BlkWrite.advance]
    intro hpos
    rw [hn (by omega)]
    omega

theorem BlkWrite.At.advanceSectors (h : s.At device disk mem buffer offset length) {n : ℕ}
    (hpos : 0 < n) (hn : n * device.blockSize ≤ s.remaining) {buf : ℕ → UInt8} {src : ℕ}
    (hbuf : slice buf src (n * device.blockSize) = slice mem s.src (n * device.blockSize)) :
    (s.advance (device.writeSectors s.disk buf src n s.sector) (n * device.blockSize) n).At device disk
      mem buffer offset length := by
  have hrem : 0 < s.remaining := lt_of_lt_of_le (Nat.mul_pos hpos device.blockSize_pos) hn
  have hsector := h.sector hrem
  unfold BlkDevice.writeSectors
  rw [hsector, hbuf]
  apply h.toDone.advance hn
  intro _
  rw [Nat.add_mul, hsector]

theorem blkWriteDirect_spec (fuel secsLeft : ℕ) (h : s.At device disk mem buffer offset length)
    (hfuel : secsLeft ≤ fuel) (hsecs : secsLeft * device.blockSize ≤ s.remaining) :
    (blkWriteDirect device mem fuel secsLeft s).At device disk mem buffer offset length ∧
      (blkWriteDirect device mem fuel secsLeft s).remaining = s.remaining - secsLeft * device.blockSize := by
  induction fuel generalizing secsLeft s with
  | zero =>
    obtain rfl : secsLeft = 0 := by omega
    exact ⟨h, by simp [blkWriteDirect]⟩
  | succ fuel ih =>
    unfold blkWriteDirect
    by_cases hpos : secsLeft > 0
    · rw [if_pos hpos]
      have hmin : 0 < min secsLeft device.maxSec := lt_min hpos device.maxSec_pos
      generalize hn : min secsLeft device.maxSec = n at hmin ⊢
      have hle : n ≤ secsLeft := hn ▸ Nat.min_le_left _ _
      obtain ⟨rest, rfl⟩ := Nat.exists_eq_add_of_le hle
      rw [Nat.add_mul] at hsecs
      simp only [Nat.add_sub_cancel_left]
      obtain ⟨hat, hleft⟩ := ih rest (h.advanceSectors hmin (by omega) rfl) (by omega)
        (by simp only [BlkWrite.advance]; omega)
      refine ⟨hat, ?_⟩
      rw [hleft, Nat.add_mul]
      simp only [BlkWrite.advance]
      omega
    · rw [if_neg hpos]
      obtain rfl : secsLeft = 0 := by omega
      exact ⟨h, by simp⟩

theorem blkWriteBounce_spec (isUserspace : Bool) {bn : ℕ} (hbn : 0 < bn) (fuel midSecs : ℕ)
    (bounce : ℕ → UInt8) (outcomes : List Bool) (h : s.At device disk mem buffer offset length)
    (hfuel : midSecs ≤ fuel) (hsecs : midSecs * device.blockSize ≤ s.remaining) :
    Ends outcomes (blkWriteBounce device mem isUserspace bn fuel midSecs bounce s outcomes)
      fun s' => s'.At device disk mem buffer offset length ∧
        s'.remaining = s.remaining - midSecs * device.blockSize := by
  induction fuel generalizing midSecs s bounce outcomes with
  | zero =>
    obtain rfl : midSecs = 0 := by omega
    exact .pure ⟨h, by simp⟩
  | succ fuel ih =>
    unfold blkWriteBounce
    by_cases hpos : midSecs > 0
    · rw [if_pos hpos]
      have hmin : 0 < min midSecs bn := lt_min hpos hbn
      generalize hn : min midSecs bn = n at hmin ⊢
      have hle : n ≤ midSecs := hn ▸ Nat.min_le_left _ _
      obtain ⟨rest, rfl⟩ := Nat.exists_eq_add_of_le hle
      rw [Nat.add_mul] at hsecs
      have hcopy : slice (overwrite bounce 0 (slice mem s.src (n * device.blockSize))) 0
          (n * device.blockSize) = slice mem s.src (n * device.blockSize) := by
        have hself := slice_overwrite_self bounce 0 (slice mem s.src (n * device.blockSize))
        rwa [length_slice] at hself
      refine Ends.copy _ _ fun outcomes' => ?_
      rw [Nat.add_sub_cancel_left]
      have hrest := ih rest (overwrite bounce 0 (slice mem s.src (n * device.blockSize))) outcomes'
        (h.advanceSectors hmin (by omega) hcopy) (by omega)
        (by simp only [BlkWrite.advance]; omega)
      rwa [Nat.add_mul, ← Nat.sub_sub]
    · rw [if_neg hpos]
      obtain rfl : midSecs = 0 := by omega
      exact .pure ⟨h, by simp⟩

theorem blkWriteMiddle_spec (isUserspace : Bool) (outcomes : List Bool)
    (h : s.At device disk mem buffer offset length) :
    Ends outcomes (blkWriteMiddle device mem isUserspace s outcomes)
      fun s' => s'.At device disk mem buffer offset length ∧ s'.remaining < device.blockSize := by
  have hsecs : s.remaining / device.blockSize * device.blockSize ≤ s.remaining := Nat.div_mul_le_self _ _
  have hrest : s.remaining - s.remaining / device.blockSize * device.blockSize < device.blockSize := by
    rw [← Nat.mod_eq_sub_div_mul]
    exact Nat.mod_lt _ device.blockSize_pos
  refine Ends.sectors (fun _ => ?_) (fun hpos rest => ?_) fun hzero => ⟨h, ?_⟩
  · obtain ⟨hat, hrem⟩ := blkWriteDirect_spec _ _ h le_rfl hsecs
    exact ⟨hat, hrem ▸ hrest⟩
  · exact (blkWriteBounce_spec isUserspace (lt_min hpos device.maxSec_pos) _ _ (fun _ => 0) rest h le_rfl
      hsecs).mono fun s' hs' => ⟨hs'.1, hs'.2 ▸ hrest⟩
  · rwa [hzero, Nat.zero_mul, Nat.sub_zero] at hrest

theorem blkWritePart_spec (isUserspace : Bool) {off len : ℕ} (outcomes : List Bool)
    (h : s.Done disk mem buffer offset length)
    (hsector : s.sector * device.blockSize + off = offset + s.total)
    (hfits : off + len ≤ device.blockSize) (hlen : len ≤ s.remaining)
    (hend : len < s.remaining → off + len = device.blockSize) :
    Ends outcomes (blkWritePart device mem isUserspace off len s outcomes)
      fun s' => s'.At device disk mem buffer offset length ∧ s'.remaining = s.remaining - len := by
  unfold blkWritePart
  refine Ends.malloc fun outcomes' => Ends.copy _ _ fun outcomes'' => ?_
  have hdisk : device.writeSectors s.disk (overwrite (overwrite (fun _ => 0) 0
      (device.readSectors s.disk 1 s.sector)) off (slice mem s.src len)) 0 1 s.sector =
      overwrite s.disk (offset + s.total) (slice mem s.src len) := by
    unfold BlkDevice.writeSectors BlkDevice.readSectors
    rw [Nat.one_mul, overwrite_modified_copy s.disk _ _ _ (by simpa using hfits), hsector]
  simp only [hdisk]
  refine .pure ⟨h.advance hlen fun hlt => ?_, rfl⟩
  rw [Nat.add_mul, Nat.one_mul, ← hsector, ← hend hlt]
  omega

theorem blkWritePieces_spec (isUserspace : Bool) (outcomes : List Bool) :
    Ends outcomes (blkWritePieces device mem isUserspace (offset % device.blockSize)
        ⟨disk, buffer, offset / device.blockSize, length, 0⟩ outcomes)
      fun s' => s'.At device disk mem buffer offset length ∧ s'.remaining = 0 := by
  have hdiv := Nat.div_add_mod' offset device.blockSize
  have hmod := Nat.mod_lt offset device.blockSize_pos
  unfold blkWritePieces
  have hhead : Ends outcomes (blkWriteHead device mem isUserspace (offset % device.blockSize)
        ⟨disk, buffer, offset / device.blockSize, length, 0⟩ outcomes)
      fun s' => s'.At device disk mem buffer offset length := by
    unfold blkWriteHead
    by_cases hoff : offset % device.blockSize ≠ 0
    · rw [if_pos hoff]
      refine (blkWritePart_spec isUserspace outcomes ⟨rfl, by simp, by simp⟩ ?_ ?_ ?_ ?_).mono
        fun s' hs' => hs'.1
      · simp only
        omega
      · omega
      · exact Nat.min_le_right _ _
      · simp only
        omega
    · rw [if_neg hoff]
      exact .pure ⟨⟨rfl, by simp, by simp⟩, fun _ => by simp only; omega⟩
  refine hhead.bind fun s rest hs => ?_
  refine Ends.bind (blkWriteMiddle_spec isUserspace rest hs) ?_
  rintro s' rest' ⟨hs', hlt⟩
  simp only [blkWriteTail]
  by_cases hpos : s'.remaining > 0
  · have hsector := hs'.sector hpos
    have hpart := blkWritePart_spec isUserspace rest' hs'.toDone hsector
      (show 0 + s'.remaining ≤ device.blockSize by omega) le_rfl (by omega)
    simp only [if_pos hpos]
    rwa [Nat.sub_self] at hpart
  · simp only [if_neg hpos]
    exact .pure ⟨hs', by omega⟩

end Write

/-- `blk_device_write` replaces the bytes of the range and no others, unless an allocation or a copy
fails. -/
theorem blkDeviceWrite_spec (device : BlkDevice) (disk mem : ℕ → UInt8) (buffer offset length : ℕ)
    (outcomes : List Bool) :
    (blkDeviceWrite device disk mem buffer offset length outcomes = none ∧ false ∈ outcomes) ∨
      blkDeviceWrite device disk mem buffer offset length outcomes =
        some (overwrite disk offset (slice mem buffer length), length) := by
  have hdiv := Nat.div_add_mod' offset device.blockSize
  refine Ends.result (P := fun s : BlkWrite => s.At device disk mem buffer offset length ∧ s.remaining = 0)
    (o := fun s => (s.disk, s.total)) (fun hdirect => ?_)
    (blkWritePieces_spec (blkBufferIsUserspace buffer length) outcomes) fun s hs => ?_
  · have hsecs : length / device.blockSize * device.blockSize = length :=
      Nat.div_mul_cancel (Nat.dvd_of_mod_eq_zero hdirect.2.2.1)
    have hinit : BlkWrite.At device disk mem buffer offset length ⟨disk, buffer, offset / device.blockSize, length, 0⟩ :=
      ⟨⟨rfl, by simp, by simp⟩, fun _ => by simp only; omega⟩
    obtain ⟨hat, hrem⟩ := blkWriteDirect_spec _ _ hinit le_rfl hsecs.le
    exact ⟨hat, by rw [hrem, hsecs, Nat.sub_self]⟩
  · have htotal : s.total = length := by
      have := hs.1.remaining
      omega
    rw [hs.1.disk, htotal]

/-- For every device and every range, a read stores the bytes of the range and nothing else, and a
write replaces them and nothing else. The result does not depend on the buffer, so the path through
bounce buffers and the direct one agree. Only a failed allocation or copy ends a call early. -/
theorem blkDevice_byte_exact (device : BlkDevice) (disk mem : ℕ → UInt8) (buffer offset length : ℕ)
    (outcomes : List Bool) :
    ((blkDeviceRead device disk mem buffer offset length outcomes = none ∧ false ∈ outcomes) ∨
      ∃ mem', blkDeviceRead device disk mem buffer offset length outcomes = some (mem', length) ∧
        slice mem' buffer length = slice disk offset length ∧
        ∀ i, i < buffer ∨ buffer + length ≤ i → mem' i = mem i) ∧
    ((blkDeviceWrite device disk mem buffer offset length outcomes = none ∧ false ∈ outcomes) ∨
      ∃ disk', blkDeviceWrite device disk mem buffer offset length outcomes = some (disk', length) ∧
        slice disk' offset length = slice mem buffer length ∧
        ∀ i, i < offset ∨ offset + length ≤ i → disk' i = disk i) := by
  have hself : ∀ (old src : ℕ → UInt8) (start start' : ℕ),
      slice (overwrite old start (slice src start' length)) start length = slice src start' length := by
    intro old src start start'
    have h := slice_overwrite_self old start (slice src start' length)
    rwa [length_slice] at h
  have hframe : ∀ (old src : ℕ → UInt8) (start start' i : ℕ), i < start ∨ start + length ≤ i →
      overwrite old start (slice src start' length) i = old i := by
    intro old src start start' i hi
    rw [overwrite_slice, if_neg (by omega)]
  constructor
  · rcases blkDeviceRead_spec device disk mem buffer offset length outcomes with hbad | hok
    · exact .inl hbad
    · exact .inr ⟨_, hok, hself mem disk buffer offset, hframe mem disk buffer offset⟩
  · rcases blkDeviceWrite_spec device disk mem buffer offset length outcomes with hbad | hok
    · exact .inl hbad
    · exact .inr ⟨_, hok, hself disk mem offset buffer, hframe disk mem offset buffer⟩

/-- The arguments of a write, and the outcomes of its allocations and copies. -/
structure BlkWriting where
  mem : ℕ → UInt8
  buffer : ℕ
  offset : ℕ
  length : ℕ
  outcomes : List Bool

def BlkWriting.step (device : BlkDevice) (disk : ℕ → UInt8) (w : BlkWriting) : Option (ℕ → UInt8) :=
  (blkDeviceWrite device disk w.mem w.buffer w.offset w.length w.outcomes).map Prod.fst

/-- What a write leaves at the place `i`. -/
def BlkWriting.leaves (i : ℕ) (byte : UInt8) (w : BlkWriting) : UInt8 :=
  if w.offset ≤ i ∧ i < w.offset + w.length then w.mem (w.buffer + (i - w.offset)) else byte

theorem blkDevice_reads_last {device : BlkDevice} {disk disk' : ℕ → UInt8} {writes : List BlkWriting}
    (hrun : Runs.run (BlkWriting.step device) writes disk = some disk') (mem : ℕ → UInt8)
    (buffer offset length : ℕ) (outcomes : List Bool) :
    (blkDeviceRead device disk' mem buffer offset length outcomes = none ∧ false ∈ outcomes) ∨
      blkDeviceRead device disk' mem buffer offset length outcomes = some (overwrite mem buffer
        (slice (fun i => writes.foldl (BlkWriting.leaves i) (disk i)) offset length), length) := by
  have hdisk : disk' = fun i => writes.foldl (BlkWriting.leaves i) (disk i) := by
    induction writes generalizing disk with
    | nil => exact (Option.some.inj hrun).symm
    | cons w writes ih =>
      obtain ⟨disk1, hstep, hrun⟩ := Option.bind_eq_some_iff.mp hrun
      obtain ⟨r, hr, rfl⟩ := Option.map_eq_some_iff.mp hstep
      rw [ih hrun]
      rcases blkDeviceWrite_spec device disk w.mem w.buffer w.offset w.length w.outcomes with ⟨hnone, -⟩ | hok
      · cases hnone.symm.trans hr
      · cases hok.symm.trans hr
        funext i
        exact congrArg (writes.foldl (BlkWriting.leaves i)) (overwrite_slice ..)
  rw [← hdisk]
  exact blkDeviceRead_spec device disk' mem buffer offset length outcomes

def oneWrite : List BlkWriting := [⟨fun i => i.toUInt8, 4096, 3, 2, []⟩]

theorem blkDevice_reads_last_oneWrite : ∃ disk',
    Runs.run (BlkWriting.step ⟨4, 8, by decide⟩) oneWrite (fun _ => 0) = some disk' ∧
      (blkDeviceRead ⟨4, 8, by decide⟩ disk' (fun _ => 9) 8192 2 4 []).map (fun r => slice r.1 8192 4) =
        some [0, 0, 1, 0] := by
  obtain ⟨disk', hrun⟩ : ∃ disk', Runs.run (BlkWriting.step ⟨4, 8, by decide⟩) oneWrite (fun _ => 0) = some disk' :=
    ⟨_, rfl⟩
  refine ⟨disk', hrun, ?_⟩
  obtain ⟨-, hbad⟩ | hread := blkDevice_reads_last hrun (fun _ => 9) 8192 2 4 []
  · cases hbad
  · rw [hread]
    rfl

end CoolPotOS
