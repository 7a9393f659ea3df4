import CoolPotOS.Machine

namespace CoolPotOS

open List

def asciiBytes (s : String) : List (BitVec 8) := s.toList.map fun c => BitVec.ofNat 8 c.toNat

/-- The archive: `data_d` and `size_d`. The loop never compares an offset with the size: the model
stops where the code would read behind the end. -/
structure CpioImage where
  data : List (BitVec 8)
  length_lt : data.length < 2 ^ 63

/-- `memcpy` out of the archive; `none` stands for a read behind its end. -/
def readAt (image : CpioImage) (offset n : ℕ) : Option (List (BitVec 8)) :=
  if n = 0 ∨ offset + n ≤ image.data.length then some ((image.data.drop offset).take n) else none

def isDigit (c : BitVec 8) : Bool := 48 ≤ c.toNat ∧ c.toNat ≤ 57

/-- What `read_num` adds for a character. -/
def cpioDigit (c : BitVec 8) : ℤ := if isDigit c then c.toInt - 48 else c.toInt - 65 + 10

def readNum (str : List (BitVec 8)) : ℕ :=
  ((str.take 8).foldl (fun val c => val * 16 + BitVec.ofInt 64 (cpioDigit c)) (0 : BitVec 64)).toNat

def cpioHeaderSize : ℕ := 110

/-- `c_mode`, `c_filesize` and `c_namesize`: fields of eight characters of a header. -/
def cMode (hdr : List (BitVec 8)) : List (BitVec 8) := (hdr.drop 14).take 8

def cFilesize (hdr : List (BitVec 8)) : List (BitVec 8) := (hdr.drop 54).take 8

def cNamesize (hdr : List (BitVec 8)) : List (BitVec 8) := (hdr.drop 94).take 8

def align4 (offset : ℕ) : ℕ := wrap (offset + 3) / 4 * 4

/-- The string at the front of an array; `none` stands for a read behind the array. -/
def cString (bytes : List (BitVec 8)) : Option (List (BitVec 8)) :=
  if 0 ∈ bytes then some (bytes.takeWhile (· ≠ 0)) else none

/-- What a turn of the loop has read: the name, with a slash before it, and the mode and the contents
of an entry for which something is created. -/
structure CpioVisit where
  offset : ℕ
  filename : List (BitVec 8)
  entry : Option (ℕ × List (BitVec 8))
  deriving DecidableEq

def trailerName : List (BitVec 8) := asciiBytes "/TRAILER!!!"

/-- The name of the root directory, for which nothing is created. -/
def dotName : List (BitVec 8) := asciiBytes "/."

/-- A turn of the loop: what it has read and where the next one starts. -/
def cpioTurn (image : CpioImage) (offset : ℕ) : Option (CpioVisit × ℕ) :=
  (readAt image offset cpioHeaderSize).bind fun hdr =>
    let start := wrap (offset + cpioHeaderSize)
    let namesize := readNum (cNamesize hdr)
    (readAt image start namesize).bind fun name =>
      let dataStart := align4 (start + namesize)
      let filesize := readNum (cFilesize hdr)
      (readAt image dataStart filesize).bind fun filedata =>
        (cString (47 :: name)).map fun filename =>
          (⟨offset, filename,
            if filename = trailerName ∨ filename = dotName then none
            else some (readNum (cMode hdr), filedata)⟩, align4 (dataStart + filesize))

/-- How `cpio_init` ends: at the trailer, with a format it does not know, when an entry could not be
created, or with a read outside. -/
inductive CpioEnd
  | trailer
  | unsupported
  | refused
  | outside
  deriving DecidableEq

/-- The loop of `cpio_init`. `status` says whether the entry that was read last is created, which may
depend on all the entries before it; `none` stands for a loop that goes on. -/
def cpioLoop (status : List CpioVisit → Bool) (image : CpioImage) :
    ℕ → ℕ → List CpioVisit → Option (List CpioVisit × CpioEnd)
  | 0, _, _ => none
  | fuel + 1, offset, visits =>
    match cpioTurn image offset with
    | none => some (visits, .outside)
    | some (visit, next) =>
      let visits := visits ++ [visit]
      if visit.filename = trailerName then some (visits, .trailer)
      else if visit.filename = dotName ∨ status visits then cpioLoop status image fuel next visits
      else some (visits, .refused)

/-- `strncmp` of the archive with a magic number, of which these characters are left; `none` stands
for a read behind the end. -/
def magicMatches : List (BitVec 8) → List (BitVec 8) → Option Bool
  | _, [] => some true
  | [], _ :: _ => none
  | d :: data, c :: magic => if d = c then magicMatches data magic else some false

/-- Whether `get_compression_type` says `COMPRESSION_NONE`. The other formats begin with other bytes,
and are refused. -/
def isCpio (image : CpioImage) : Option Bool :=
  if image.data.length < 4 then some false
  else
    (magicMatches image.data (asciiBytes "070701")).bind fun newc =>
      if newc then some true else magicMatches image.data (asciiBytes "070707")

/-- `cpio_init` once the module is found and the root mounted. -/
def cpioInit (status : List CpioVisit → Bool) (fuel : ℕ) (image : CpioImage) :
    Option (List CpioVisit × CpioEnd) :=
  match isCpio image with
  | none => some ([], .outside)
  | some false => some ([], .unsupported)
  | some true => cpioLoop status image fuel 0 []

/-- The value of a hexadecimal digit, in upper or lower case. -/
def hexValue (c : BitVec 8) : ℕ :=
  if c.toNat ≤ 57 then c.toNat - 48 else if c.toNat ≤ 70 then c.toNat - 55 else c.toNat - 87

/-- `0` to `9`, `A` to `F` or `a` to `f`. -/
def IsHexDigit (c : BitVec 8) : Prop :=
  48 ≤ c.toNat ∧ c.toNat ≤ 57 ∨ 65 ≤ c.toNat ∧ c.toNat ≤ 70 ∨ 97 ≤ c.toNat ∧ c.toNat ≤ 102

def UpperCase (str : List (BitVec 8)) : Prop := ∀ c ∈ str, c.toNat < 97

def hexNum (str : List (BitVec 8)) : ℕ := str.foldl (fun val c => val * 16 + hexValue c) 0

def IsField (str : List (BitVec 8)) : Prop := str.length = 8 ∧ ∀ c ∈ str, IsHexDigit c

/-- What `read_num` makes of a digit: 32 too much in lower case. -/
def readValue (c : BitVec 8) : ℕ := hexValue c + if c.toNat < 97 then 0 else 32

variable {c : BitVec 8} {str : List (BitVec 8)}

theorem cpioDigit_hex (h : IsHexDigit c) : cpioDigit c = (readValue c : ℤ) := by
  have htoInt : c.toInt = c.toNat := by
    apply BitVec.toInt_eq_toNat_of_lt
    unfold IsHexDigit at h
    omega
  have hdigit : isDigit c = true ↔ c.toNat ≤ 57 := by
    unfold isDigit IsHexDigit at *
    rw [decide_eq_true_eq]
    omega
  unfold cpioDigit readValue hexValue
  simp only [hdigit, htoInt]
  unfold IsHexDigit at h
  split_ifs <;> omega

theorem hexValue_le (c : BitVec 8) : hexValue c ≤ readValue c := Nat.le_add_right _ _

theorem readValue_upper (h : c.toNat < 97) : readValue c = hexValue c := by
  unfold readValue
  rw [if_pos h, Nat.add_zero]

theorem readValue_lower (h : ¬c.toNat < 97) : readValue c = hexValue c + 32 := by
  unfold readValue
  rw [if_neg h]

theorem readValue_le (h : IsHexDigit c) : readValue c ≤ 47 := by
  unfold readValue hexValue IsHexDigit at *
  split_ifs <;> omega

theorem foldl_readValue_le (h : ∀ c ∈ str, IsHexDigit c) (val : ℕ) :
    str.foldl (fun val c => val * 16 + readValue c) val + 4 ≤ (val + 4) * 16 ^ str.length := by
  induction str generalizing val with
  | nil => simp
  | cons c str ih =>
    obtain ⟨hc, h⟩ := forall_mem_cons.mp h
    have hle := readValue_le hc
    calc str.foldl (fun val c => val * 16 + readValue c) (val * 16 + readValue c) + 4
        ≤ (val * 16 + readValue c + 4) * 16 ^ str.length := ih h _
      _ ≤ (val + 4) * 16 * 16 ^ str.length := Nat.mul_le_mul_right _ (by omega)
      _ = (val + 4) * 16 ^ (c :: str).length := by rw [length_cons, pow_succ]; ring

theorem readNum_eq (h : IsField str) : readNum str = str.foldl (fun val c => val * 16 + readValue c) 0 := by
  have hcast : ∀ (l : List (BitVec 8)) (val : ℕ), (∀ c ∈ l, IsHexDigit c) →
      l.foldl (fun val c => val * 16 + BitVec.ofInt 64 (cpioDigit c)) (BitVec.ofNat 64 val) =
        BitVec.ofNat 64 (l.foldl (fun val c => val * 16 + readValue c) val) := by
    intro l
    induction l with
    | nil => exact fun val _ => rfl
    | cons c l ih =>
      intro val hl
      obtain ⟨hc, hl⟩ := forall_mem_cons.mp hl
      rw [foldl_cons, foldl_cons, ← ih _ hl]
      congr 1
      rw [cpioDigit_hex hc, BitVec.ofInt_natCast, BitVec.ofNat_add (val * 16), BitVec.ofNat_mul]
      rfl
  have hbound := foldl_readValue_le h.2 0
  rw [h.1] at hbound
  have hrun := hcast str 0 h.2
  unfold readNum
  rw [take_of_length_le h.1.le]
  refine (congrArg BitVec.toNat hrun).trans ?_
  rw [BitVec.toNat_ofNat, Nat.mod_eq_of_lt (by omega)]

theorem foldl_hexValue_lower {val val' : ℕ} (h : val + 32 ≤ val' ∨ val ≤ val' ∧ ¬UpperCase str) :
    str.foldl (fun val c => val * 16 + hexValue c) val + 32 ≤
      str.foldl (fun val c => val * 16 + readValue c) val' := by
  induction str generalizing val val' with
  | nil =>
    rcases h with h | ⟨-, hlower⟩
    · exact h
    · exact absurd (fun c hc => absurd hc not_mem_nil) hlower
  | cons c str ih =>
    have hle := hexValue_le c
    apply ih
    dsimp only
    rcases h with h | ⟨h, hlower⟩
    · left
      omega
    · by_cases hc : c.toNat < 97
      · refine .inr ⟨by omega, fun hupper => ?_⟩
        exact hlower (forall_mem_cons.mpr ⟨hc, hupper⟩)
      · left
        rw [readValue_lower hc]
        omega

theorem readNum_upper (h : IsField str) (hupper : UpperCase str) : readNum str = hexNum str := by
  rw [readNum_eq h]
  unfold hexNum
  apply foldl_ext
  intro val c hc
  rw [readValue_upper (hupper c hc)]

theorem readNum_lower (h : IsField str) (hlower : ¬UpperCase str) : hexNum str + 32 ≤ readNum str := by
  rw [readNum_eq h]
  exact foldl_hexValue_lower (.inr ⟨le_rfl, hlower⟩)

theorem readNum_eq_iff (h : IsField str) : readNum str = hexNum str ↔ UpperCase str := by
  constructor
  · intro heq
    by_contra hlower
    have := readNum_lower h hlower
    omega
  · exact readNum_upper h

theorem hexNum_le_readNum (h : IsField str) : hexNum str ≤ readNum str := by
  by_cases hupper : UpperCase str
  · exact (readNum_upper h hupper).ge
  · have := readNum_lower h hupper
    omega

end CoolPotOS
