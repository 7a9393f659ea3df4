import CoolPotOS.Driver.BlkCalls

namespace CoolPotOS

open Bytes List

/-- The unsigned integer in `n` bytes of a buffer. -/
def fieldAt (bytes : List UInt8) (off n : ℕ) : ℕ :=
  Nat.ofDigits 256 (((bytes.drop off).take n).map UInt8.toNat)

/-- An entry of a partition table, with the fields that give its sectors. -/
inductive DiskEntry
  | gpt (startingLba endingLba : ℕ)
  | mbr (startLba sectorsLimit : ℕ)
  deriving DecidableEq

/-- The part of `partition_t` that a transfer reads. -/
structure Partition where
  startingLba : ℕ
  endingLba : ℕ
  sectorSize : ℕ
  deriving DecidableEq

/-- What is recorded for an entry. The two fields of the MBR are added in 32 bits. -/
def DiskEntry.partition (blockSize : ℕ) : DiskEntry → Partition
  | .gpt startingLba endingLba => ⟨startingLba, endingLba, blockSize⟩
  | .mbr startLba sectorsLimit => ⟨startLba, (startLba + sectorsLimit - 1) % 2 ^ 32, blockSize⟩

def gptSignature : List UInt8 := [0x45, 0x46, 0x49, 0x20, 0x50, 0x41, 0x52, 0x54]

def gptDpteSize : ℕ := 128

def isPartitionUsed (entry : List UInt8) : Bool :=
  if fieldAt entry 32 8 = 0 ∨ fieldAt entry 40 8 = 0 then false
  else ((entry.drop 16).take 16).any (· ≠ 0)

/-- The entries of a GPT, with `none` for those not in use. -/
def gptEntries (dptes : List UInt8) (num size : ℕ) : List (Option DiskEntry) :=
  (List.range num).map fun j =>
    let entry := dptes.drop (j * size)
    if isPartitionUsed entry then some (.gpt (fieldAt entry 32 8) (fieldAt entry 40 8)) else none

def mbrEntries (mbr : List UInt8) : List (Option DiskEntry) :=
  (List.range 4).map fun j =>
    let entry := mbr.drop (446 + 16 * j)
    if fieldAt entry 8 4 = 0 ∨ fieldAt entry 12 4 = 0 then none
    else some (.mbr (fieldAt entry 8 4) (fieldAt entry 12 4))

/-- The loop over the entries: each takes one of the free slots, and becomes a device when there is memory
for it. -/
def registerEntries : List (Option DiskEntry) → ℕ → List Bool → List DiskEntry
  | [], _, _ => []
  | none :: entries, slots, outcomes => registerEntries entries slots outcomes
  | some entry :: entries, slots, outcomes =>
    if slots = 0 then []
    else
      match malloc outcomes with
      | (true, outcomes) => entry :: registerEntries entries (slots - 1) outcomes
      | (false, outcomes) => registerEntries entries slots outcomes

/-- What the parser gets from its surroundings: the addresses of its three buffers, the outcomes of its
reads, the number of free slots, and the outcomes of the allocations of devices. -/
structure ParseEnv where
  mbrBuf : Option ℕ
  gptBuf : Option ℕ
  dptesBuf : Option ℕ
  readMbr : List Bool
  readGpt : List Bool
  readDptes : List Bool
  slots : ℕ
  parts : List Bool

section Parse

variable (disk : BlkDevice) (image : ℕ → UInt8) (env : ParseEnv)

/-- `blk_device_read` into a new buffer, and what is in the buffer then. -/
def readInto (buf : Option ℕ) (offset length : ℕ) (outcomes : List Bool) : Option (List UInt8) := do
  let buf ← buf
  let (mem, _) ← blkDeviceRead disk image (fun _ => 0) buf offset length outcomes
  return slice mem buf length

def parseGptPartitions (gpt : List UInt8) : List DiskEntry :=
  if gpt.take 8 ≠ gptSignature ∨ fieldAt gpt 80 4 = 0 ∨ fieldAt gpt 72 8 = 0 ∨
      fieldAt gpt 84 4 < gptDpteSize ∨ fieldAt gpt 84 4 > 512 then []
  else
    let num := fieldAt gpt 80 4
    let size := fieldAt gpt 84 4
    match readInto disk image env.dptesBuf (wrap (fieldAt gpt 72 8 * disk.blockSize)) (num * size)
        env.readDptes with
    | none => []
    | some dptes => registerEntries (gptEntries dptes num size) env.slots env.parts

/-- `parse_gpt_from_protective_mbr` and `try_gpt_at_lba1`. The second one tests the signature once more,
before it parses. -/
def parseGptAt (lba : ℕ) : List DiskEntry :=
  match readInto disk image env.gptBuf (wrap (lba * disk.blockSize)) disk.blockSize env.readGpt with
  | none => []
  | some gpt => parseGptPartitions disk image env gpt

/-- `parser_block_device`: the entries that become devices. -/
def parserBlockDevice : List DiskEntry :=
  match readInto disk image env.mbrBuf 0 disk.blockSize env.readMbr with
  | none => []
  | some mbr =>
    if mbr[0x1FE]? = some 0x55 ∧ mbr[0x1FF]? = some 0xAA then
      if mbr[0x1BE + 4]? = some 0xEE then parseGptAt disk image env (fieldAt mbr (0x1BE + 8) 4)
      else registerEntries (mbrEntries mbr) env.slots env.parts
    else parseGptAt disk image env 1

end Parse

/-- `partition_read` and `partition_write`: the callbacks of the disk for the callbacks of the
partition. -/
def Partition.diskCall (p : Partition) (c : BlkCall) : BlkCall :=
  { c with lba := wrap (p.startingLba + c.lba) }

/-- The device of a partition. Its `max_size` is never set. -/
def partitionDevice (disk : BlkDevice) (maxSize : ℕ) : BlkDevice where
  blockSize := disk.blockSize
  maxSize := maxSize
  blockSize_pos := disk.blockSize_pos

def Partition.size (p : Partition) : ℕ := (p.endingLba + 1 - p.startingLba) * p.sectorSize

/-- The number of bytes that `blk_device_read` and `blk_device_write` return, for any contents of the
sectors. -/
def transferred (device : BlkDevice) (write : Bool) (contents mem : ℕ → UInt8)
    (buffer offset length : ℕ) (outcomes : List Bool) : Option ℕ :=
  if write then (blkDeviceWrite device contents mem buffer offset length outcomes).map Prod.snd
  else (blkDeviceRead device contents mem buffer offset length outcomes).map Prod.snd

/-- What a partition of a disk of `sectors` sectors promises for a transfer: its own sectors are on the
disk, no other sector is accessed, and a range past the end is cut or refused. -/
structure Isolated (p : Partition) (device : BlkDevice) (sectors : ℕ) (write : Bool)
    (buffer offset length : ℕ) : Prop where
  ordered : p.startingLba ≤ p.endingLba
  onDisk : p.endingLba < sectors
  inside : ∀ outcomes, ∀ c ∈ (blkDeviceCalls device write buffer offset length outcomes).1,
    p.startingLba ≤ (p.diskCall c).lba ∧ (p.diskCall c).lba + (p.diskCall c).n ≤ p.endingLba + 1
  cut : p.size < offset + length → 0 < length → ∀ (contents mem : ℕ → UInt8) outcomes,
    ∀ total ∈ transferred device write contents mem buffer offset length outcomes, total < length

theorem fieldAt_lt (bytes : List UInt8) (off n : ℕ) : fieldAt bytes off n < 256 ^ n := by
  unfold fieldAt
  have hlen : (((bytes.drop off).take n).map UInt8.toNat).length ≤ n := by
    rw [length_map, length_take]
    exact min_le_left _ _
  have hlt := Nat.ofDigits_lt_base_pow_length (b := 256)
    (l := ((bytes.drop off).take n).map UInt8.toNat) (by norm_num) fun d hd => by
      obtain ⟨byte, -, rfl⟩ := mem_map.mp hd
      exact byte.toNat_lt
  exact hlt.trans_le (Nat.pow_le_pow_right (by norm_num) hlen)

/-- The fields of an entry in use: they have the width of the table, and those that the parser tests are
not zero. -/
def DiskEntry.InUse : DiskEntry → Prop
  | .gpt startingLba endingLba => 0 < startingLba ∧ startingLba < 2 ^ 64 ∧ endingLba < 2 ^ 64
  | .mbr startLba sectorsLimit =>
    0 < startLba ∧ startLba < 2 ^ 32 ∧ 0 < sectorsLimit ∧ sectorsLimit < 2 ^ 32

theorem mem_of_mem_registerEntries {entries : List (Option DiskEntry)} {slots : ℕ}
    {outcomes : List Bool} {entry : DiskEntry} (h : entry ∈ registerEntries entries slots outcomes) :
    some entry ∈ entries := by
  induction entries generalizing slots outcomes with
  | nil => cases h
  | cons first entries ih =>
    cases first with
    | none => exact mem_cons_of_mem _ (ih h)
    | some first =>
      unfold registerEntries at h
      by_cases hslots : slots = 0
      · rw [if_pos hslots] at h
        cases h
      · rw [if_neg hslots] at h
        generalize malloc outcomes = result at h
        obtain ⟨ok, rest⟩ := result
        cases ok with
        | false => exact mem_cons_of_mem _ (ih h)
        | true =>
          obtain rfl | h := mem_cons.mp h
          · exact mem_cons_self
          · exact mem_cons_of_mem _ (ih h)

theorem inUse_of_mem_gptEntries {dptes : List UInt8} {num size : ℕ} {entry : DiskEntry}
    (h : some entry ∈ gptEntries dptes num size) : entry.InUse := by
  obtain ⟨j, -, hj⟩ := mem_map.mp h
  dsimp only at hj
  split_ifs at hj with hused
  cases hj
  unfold isPartitionUsed at hused
  split_ifs at hused with hzero
  rw [not_or] at hzero
  exact ⟨Nat.pos_of_ne_zero hzero.1, fieldAt_lt _ 32 8, fieldAt_lt _ 40 8⟩

theorem inUse_of_mem_mbrEntries {mbr : List UInt8} {entry : DiskEntry}
    (h : some entry ∈ mbrEntries mbr) : entry.InUse := by
  obtain ⟨j, -, hj⟩ := mem_map.mp h
  dsimp only at hj
  split_ifs at hj with hzero
  cases hj
  rw [not_or] at hzero
  exact ⟨Nat.pos_of_ne_zero hzero.1, fieldAt_lt _ 8 4, Nat.pos_of_ne_zero hzero.2, fieldAt_lt _ 12 4⟩

section InUse

variable {disk : BlkDevice} {image : ℕ → UInt8} {env : ParseEnv} {entry : DiskEntry}

theorem inUse_of_mem_parseGptAt {lba : ℕ} (h : entry ∈ parseGptAt disk image env lba) : entry.InUse := by
  unfold parseGptAt at h
  generalize readInto disk image env.gptBuf (wrap (lba * disk.blockSize)) disk.blockSize env.readGpt =
    result at h
  cases result with
  | none => cases h
  | some gpt =>
    dsimp only at h
    unfold parseGptPartitions at h
    split_ifs at h with hbad
    · cases h
    · dsimp only at h
      generalize readInto disk image env.dptesBuf _ _ _ = result at h
      cases result with
      | none => cases h
      | some dptes => exact inUse_of_mem_gptEntries (mem_of_mem_registerEntries h)

theorem inUse_of_parsed (h : entry ∈ parserBlockDevice disk image env) : entry.InUse := by
  unfold parserBlockDevice at h
  generalize readInto disk image env.mbrBuf 0 disk.blockSize env.readMbr = result at h
  cases result with
  | none => cases h
  | some mbr =>
    dsimp only at h
    split_ifs at h
    · exact inUse_of_mem_parseGptAt h
    · exact inUse_of_mem_mbrEntries (mem_of_mem_registerEntries h)
    · exact inUse_of_mem_parseGptAt h

end InUse

/-- The entry describes sectors of the disk, in order, and the sum of an MBR entry has 32 bits. -/
def DiskEntry.Fits (sectors : ℕ) : DiskEntry → Prop
  | .gpt startingLba endingLba => startingLba ≤ endingLba ∧ endingLba < sectors
  | .mbr startLba sectorsLimit => startLba + sectorsLimit ≤ 2 ^ 32 ∧ startLba + sectorsLimit ≤ sectors

theorem DiskEntry.fits_iff {entry : DiskEntry} (h : entry.InUse) (blockSize sectors : ℕ) :
    entry.Fits sectors ↔ (entry.partition blockSize).startingLba ≤ (entry.partition blockSize).endingLba ∧
      (entry.partition blockSize).endingLba < sectors := by
  cases entry with
  | gpt startingLba endingLba => exact Iff.rfl
  | mbr startLba sectorsLimit =>
    have hstart : (DiskEntry.partition blockSize (.mbr startLba sectorsLimit)).startingLba = startLba := rfl
    have hend : (DiskEntry.partition blockSize (.mbr startLba sectorsLimit)).endingLba =
      (startLba + sectorsLimit - 1) % 2 ^ 32 := rfl
    obtain ⟨h1, h2, h3, h4⟩ := h
    rw [hstart, hend]
    unfold DiskEntry.Fits
    constructor
    · rintro ⟨hword, hdisk⟩
      rw [Nat.mod_eq_of_lt (by omega)]
      omega
    · rintro ⟨hle, hlt⟩
      by_cases hword : startLba + sectorsLimit ≤ 2 ^ 32
      · rw [Nat.mod_eq_of_lt (by omega)] at hlt
        omega
      · -- the sum wraps around, and is below the first sector
        rw [Nat.mod_eq_sub_mod (by omega), Nat.mod_eq_of_lt (by omega)] at hle
        omega

section Sectors

variable {device : BlkDevice} {offset length k : ℕ}

theorem sectorEnd_le_iff : device.sectorEnd offset length ≤ k ↔ offset + length ≤ k * device.blockSize := by
  have hbs := device.blockSize_pos
  unfold BlkDevice.sectorEnd
  rw [← Nat.lt_succ_iff, Nat.div_lt_iff_lt_mul hbs, Nat.succ_mul]
  omega

theorem sectorEnd_le_start_iff : device.sectorEnd offset length ≤ offset / device.blockSize ↔
    length = 0 ∧ device.blockSize ∣ offset := by
  have hdiv := Nat.div_add_mod' offset device.blockSize
  rw [sectorEnd_le_iff, Nat.dvd_iff_mod_eq_zero]
  omega

end Sectors

/-- A transfer through a partition is isolated exactly when the entry of the table describes sectors of
the disk, and the range lies in the partition or is empty and aligned. -/
theorem partition_isolated_iff (disk : BlkDevice) (hsector : 512 ≤ disk.blockSize) (image : ℕ → UInt8)
    (env : ParseEnv) {entry : DiskEntry} (hentry : entry ∈ parserBlockDevice disk image env)
    (sectors maxSize : ℕ) (write : Bool) (buffer : ℕ) {offset length : ℕ} (hoffset : offset < 2 ^ 64)
    (hlength : length < 2 ^ 64) :
    Isolated (entry.partition disk.blockSize) (partitionDevice disk maxSize) sectors write buffer offset
        length ↔
      entry.Fits sectors ∧ (offset + length ≤ (entry.partition disk.blockSize).size ∨
        (length = 0 ∧ disk.blockSize ∣ offset)) := by
  have huse := inUse_of_parsed hentry
  rw [entry.fits_iff huse disk.blockSize sectors]
  have hsize : (entry.partition disk.blockSize).sectorSize = disk.blockSize := by
    cases entry <;> rfl
  have hend : (entry.partition disk.blockSize).endingLba < 2 ^ 64 := by
    cases entry with
    | gpt startingLba endingLba => exact huse.2.2
    | mbr startLba sectorsLimit =>
      exact (Nat.mod_lt _ (by norm_num)).trans (by norm_num : 2 ^ 32 < 2 ^ 64)
  generalize entry.partition disk.blockSize = p at hend hsize ⊢
  unfold Partition.size
  rw [hsize]
  have hblock : (partitionDevice disk maxSize).blockSize = disk.blockSize := rfl
  have hasks := fun outcomes =>
    blkDeviceCalls_asks (partitionDevice disk maxSize) write buffer offset length outcomes
  constructor
  · intro h
    refine ⟨⟨h.ordered, h.onDisk⟩, ?_⟩
    by_cases hempty : (partitionDevice disk maxSize).sectorEnd offset length ≤
        offset / (partitionDevice disk maxSize).blockSize
    · exact .inr (sectorEnd_le_start_iff.mp hempty)
    · left
      -- with all allocations and copies the last sector of the range is asked for
      obtain ⟨c, hc, hlo, hhi⟩ := (hasks []).within.meets List.not_mem_nil
        ((partitionDevice disk maxSize).sectorEnd offset length - 1)
        (Nat.le_sub_one_of_lt (not_le.mp hempty)) (Nat.sub_one_lt_of_lt (not_le.mp hempty))
      obtain ⟨hstart, hstop⟩ := h.inside [] c hc
      have hlba : c.lba < 2 ^ 64 := by
        have hfar : (partitionDevice disk maxSize).sectorEnd offset length ≤ 2 ^ 63 := by
          rw [sectorEnd_le_iff, hblock]
          exact (show offset + length ≤ 2 ^ 63 * 512 by omega).trans (Nat.mul_le_mul_left _ hsector)
        omega
      have hdisk : (p.diskCall c).lba = wrap (p.startingLba + c.lba) := rfl
      have hn : (p.diskCall c).n = c.n := rfl
      rw [hdisk] at hstart hstop
      rw [hn] at hstop
      have hnowrap : p.startingLba + c.lba < 2 ^ 64 := by
        by_contra hwrap
        have hordered := h.ordered
        unfold wrap at hstart
        omega
      rw [wrap_of_lt hnowrap] at hstop
      have hle : (partitionDevice disk maxSize).sectorEnd offset length ≤
          p.endingLba + 1 - p.startingLba := by omega
      exact sectorEnd_le_iff.mp hle
  · rintro ⟨⟨hordered, hdisk⟩, hrange⟩
    refine ⟨hordered, hdisk, fun outcomes c hc => ?_, fun hpast hpos contents mem outcomes total htotal => ?_⟩
    · have hpos := (hasks outcomes).within.pos c hc
      obtain ⟨hlo, hhi⟩ := (hasks outcomes).within.inside c hc
      obtain hfits | hempty := hrange
      · have hle : (partitionDevice disk maxSize).sectorEnd offset length ≤
            p.endingLba + 1 - p.startingLba := sectorEnd_le_iff.mpr hfits
        have hlba : (p.diskCall c).lba = p.startingLba + c.lba := wrap_of_lt (by omega)
        have hn : (p.diskCall c).n = c.n := rfl
        rw [hlba, hn]
        omega
      · have hle := sectorEnd_le_start_iff.mpr (show length = 0 ∧
          (partitionDevice disk maxSize).blockSize ∣ offset from hempty)
        omega
    · unfold Partition.size at hpast
      rw [hsize] at hpast
      omega

/-- The bytes of a disk of 512-byte sectors whose MBR has one partition, of the sectors 1 and 2. -/
def smallImage : ℕ → UInt8
  | 0x1FE => 0x55
  | 0x1FF => 0xAA
  | 454 => 1
  | 458 => 2
  | _ => 0

def smallDisk : BlkDevice := ⟨512, 4096, by norm_num⟩

def smallEnv : ParseEnv :=
  ⟨some 0xffff800000000000, some 0xffff800000001000, some 0xffff800000002000, [], [], [], 128, []⟩

theorem mem_smallImage : DiskEntry.mbr 1 2 ∈ parserBlockDevice smallDisk smallImage smallEnv := by
  have hparse : parserBlockDevice smallDisk smallImage smallEnv = [.mbr 1 2] := by decide +kernel
  rw [hparse]
  exact mem_singleton_self _

theorem partition_isolated_second :
    Isolated ((DiskEntry.mbr 1 2).partition smallDisk.blockSize) (partitionDevice smallDisk 0) 3 false
      0xffff800000003000 512 512 :=
  (partition_isolated_iff smallDisk (by decide) smallImage smallEnv mem_smallImage 3 0 false
    0xffff800000003000 (by norm_num) (by norm_num)).mpr ⟨⟨by norm_num, by norm_num⟩, .inl (by decide)⟩

/-- A read behind the end of the partition is answered from the next sector of the disk. -/
theorem partition_reads_next :
    ¬ ∀ (disk : BlkDevice), 512 ≤ disk.blockSize → ∀ (image : ℕ → UInt8) (env : ParseEnv) (sectors : ℕ),
      ∀ entry ∈ parserBlockDevice disk image env, ∀ (maxSize : ℕ) (write : Bool)
        (buffer offset length : ℕ), offset < 2 ^ 64 → length < 2 ^ 64 →
        Isolated (entry.partition disk.blockSize) (partitionDevice disk maxSize) sectors write buffer
          offset length := by
  intro hall
  have h := hall smallDisk (by decide) smallImage smallEnv 8 _ mem_smallImage 0 false 0xffff800000003000
    1024 512 (by norm_num) (by norm_num)
  have hcall : ⟨false, 1, 2⟩ ∈ (blkDeviceCalls (partitionDevice smallDisk 0) false 0xffff800000003000 1024
      512 []).1 := by decide
  exact absurd (h.inside [] _ hcall).2 (by decide)

end CoolPotOS
