import CoolPotOS.Lib.RunScan
import CoolPotOS.Mem.BitmapRange

namespace CoolPotOS

open RunScan

def cNot (byte : BitVec 8) : BitVec 8 := if byte = 0 then 1 else 0

/-- The loop over the bits of a byte, of which `n` are left: the begin of a run that is long enough,
or `count` and `start_index` after the byte. -/
def findBits (byteIdx length : ℕ) (value : Bool) (byte : BitVec 8) :
    ℕ → ℕ → ℕ → ℕ → ℕ ⊕ ℕ × ℕ
  | 0, _, count, startIndex => .inr (count, startIndex)
  | n + 1, bit, count, startIndex =>
    if byte.getLsbD bit = value then
      let startIndex := if count = 0 then byteIdx * 8 + bit else startIndex
      if count + 1 = length then .inl startIndex
      else findBits byteIdx length value byte n (bit + 1) (count + 1) startIndex
    else findBits byteIdx length value byte n (bit + 1) 0 startIndex

/-- The loop over the bytes, of which `n` are left. The second comparison is with `!byte_match`. -/
def findBytes (bitmap : Bitmap) (length : ℕ) (value : Bool) : ℕ → ℕ → ℕ → ℕ → Option ℕ
  | 0, _, _, _ => none
  | n + 1, byteIdx, count, startIndex =>
    let byteMatch : BitVec 8 := if value then 255 else 0
    let byte := bitmap.buffer byteIdx
    if byte = cNot byteMatch then findBytes bitmap length value n (byteIdx + 1) 0 startIndex
    else if byte = byteMatch then
      if length < 8 then some (byteIdx * 8)
      else
        let startIndex := if count = 0 then byteIdx * 8 else startIndex
        if count + 8 ≥ length then some startIndex
        else findBytes bitmap length value n (byteIdx + 1) (count + 8) startIndex
    else
      match findBits byteIdx length value byte 8 0 count startIndex with
      | .inl index => some index
      | .inr (count, startIndex) =>
        findBytes bitmap length value n (byteIdx + 1) count startIndex

/-- `bitmap_find_range_from`; `none` is `(size_t)-1`. -/
def bitmapFindRangeFrom (bitmap : Bitmap) (length : ℕ) (value : Bool) (startFrom : ℕ) : Option ℕ :=
  findBytes bitmap length value (bitmap.length / 8 - startFrom / 8) (startFrom / 8) 0 0

/-- `length` bits with the value, from a bit at or after the first bit of the byte of
`startFrom`. -/
def IsRange (bitmap : Bitmap) (length : ℕ) (value : Bool) (startFrom i : ℕ) : Prop :=
  startFrom / 8 * 8 ≤ i ∧ i + length ≤ bitmap.length ∧ RunAt (fun j => bitmap.bit j = value) length i

/-- The result is the begin of a range, and is `none` only when there is no range. -/
def FindsRange (bitmap : Bitmap) (length : ℕ) (value : Bool) (startFrom : ℕ)
    (result : Option ℕ) : Prop :=
  (result = none ↔ ∀ i, ¬IsRange bitmap length value startFrom i) ∧
    ∀ i, result = some i → IsRange bitmap length value startFrom i

/-- The bits that the search counts: when it looks for clear bits it passes over a byte with the
value 1, as if all its bits were set. -/
def Counted (bitmap : Bitmap) (value : Bool) (j : ℕ) : Prop :=
  bitmap.bit j = value ∧ (value = false → bitmap.buffer (j / 8) ≠ 1)

variable {b : Bitmap} {length byteIdx n a s count startIndex : ℕ} {value : Bool}

/-- `count` and `start_index` describe the run from `s` to `pos`. -/
def Counts (s pos count startIndex : ℕ) : Prop := s + count = pos ∧ (count ≠ 0 → startIndex = s)

theorem Counts.index {pos : ℕ} (h : Counts s pos count startIndex) :
    (if count = 0 then pos else startIndex) = s := by
  split
  · rename_i h0
    have := h.1
    omega
  · rename_i h0
    exact h.2 h0

theorem bit_of_byte {bit : ℕ} (h : bit < 8) : b.bit (byteIdx * 8 + bit) = (b.buffer byteIdx).getLsbD bit := by
  unfold Bitmap.bit
  rw [show (byteIdx * 8 + bit) / 8 = byteIdx by omega, show (byteIdx * 8 + bit) % 8 = bit by omega]

theorem counted_iff {bit : ℕ} (h : bit < 8) (hbyte : value = false → b.buffer byteIdx ≠ 1) :
    Counted b value (byteIdx * 8 + bit) ↔ (b.buffer byteIdx).getLsbD bit = value := by
  unfold Counted
  rw [bit_of_byte h, show (byteIdx * 8 + bit) / 8 = byteIdx by omega]
  exact and_iff_left hbyte

theorem findBits_spec (hbyte : value = false → b.buffer byteIdx ≠ 1) (bit : ℕ) (hn : bit + n = 8)
    (hscan : Scanned (Counted b value) length a s (byteIdx * 8 + bit))
    (hcount : Counts s (byteIdx * 8 + bit) count startIndex) :
    match findBits byteIdx length value (b.buffer byteIdx) n bit count startIndex with
    | .inl i => a ≤ i ∧ i + length ≤ (byteIdx + 1) * 8 ∧ RunAt (Counted b value) length i
    | .inr (count, startIndex) => ∃ s, Scanned (Counted b value) length a s ((byteIdx + 1) * 8) ∧
        Counts s ((byteIdx + 1) * 8) count startIndex := by
  induction n generalizing bit s count startIndex with
  | zero =>
    rw [show byteIdx * 8 + bit = (byteIdx + 1) * 8 by omega] at hscan hcount
    exact ⟨s, hscan, hcount⟩
  | succ n ih =>
    have hiff : Counted b value (byteIdx * 8 + bit) ↔ (b.buffer byteIdx).getLsbD bit = value :=
      counted_iff (by omega) hbyte
    have hnext : byteIdx * 8 + (bit + 1) = byteIdx * 8 + bit + 1 := by omega
    unfold findBits
    by_cases hbit : (b.buffer byteIdx).getLsbD bit = value
    · have hp : ∀ j, byteIdx * 8 + bit ≤ j → j < byteIdx * 8 + bit + 1 → Counted b value j := by
        intro j hle hlt
        rw [show j = byteIdx * 8 + bit by omega]
        exact hiff.mpr hbit
      have hs := hcount.1
      rw [if_pos hbit, hcount.index]
      dsimp only
      by_cases hlong : count + 1 = length
      · rw [if_pos hlong]
        obtain ⟨ha, hrun⟩ := hscan.found (q := byteIdx * 8 + bit + 1) (by omega) hp
        exact ⟨ha, by omega, hrun⟩
      · rw [if_neg hlong]
        apply ih (bit + 1) (by omega)
        · rw [hnext]
          have hshort := hscan.short
          exact hscan.extend (by omega) (by omega) hp
        · rw [hnext]
          exact ⟨by omega, fun _ => rfl⟩
    · rw [if_neg hbit]
      apply ih (bit + 1) (by omega)
      · rw [hnext]
        apply hscan.restart (by omega)
        intro j hle hlt
        rw [show j = byteIdx * 8 + bit by omega]
        exact fun h => hbit (hiff.mp h)
      · rw [hnext]
        exact ⟨by omega, fun h => absurd rfl h⟩

theorem not_counted_of_skip
    (h : b.buffer byteIdx = cNot (if value then 255 else 0)) {j : ℕ} (hj : byteIdx * 8 ≤ j)
    (hlt : j < (byteIdx + 1) * 8) : ¬Counted b value j := by
  rintro ⟨hbit, hbyte⟩
  unfold Bitmap.bit at hbit
  rw [show j / 8 = byteIdx by omega] at hbit hbyte
  cases value with
  | true =>
    rw [h] at hbit
    simp [cNot] at hbit
  | false =>
    apply hbyte rfl
    rw [h]
    rfl

theorem counted_of_match (h : b.buffer byteIdx = if value then 255 else 0) {j : ℕ}
    (hj : byteIdx * 8 ≤ j) (hlt : j < (byteIdx + 1) * 8) : Counted b value j := by
  have hword : j / 8 = byteIdx := by omega
  unfold Counted Bitmap.bit
  rw [hword, h]
  cases value with
  | true => exact ⟨getLsbD_ones (j % 8) (by omega), by simp⟩
  | false => exact ⟨by simp, by simp⟩

theorem findBytes_spec (hlength : 0 < length) (ha : a ≤ byteIdx * 8)
    (hscan : Scanned (Counted b value) length a s (byteIdx * 8))
    (hcount : Counts s (byteIdx * 8) count startIndex) :
    match findBytes b length value n byteIdx count startIndex with
    | some i => a ≤ i ∧ i + length ≤ (byteIdx + n) * 8 ∧ RunAt (Counted b value) length i
    | none => ∀ i, a ≤ i → i + length ≤ (byteIdx + n) * 8 → ¬RunAt (Counted b value) length i := by
  induction n generalizing byteIdx s count startIndex with
  | zero => exact fun i hi hend => hscan.none hi hend
  | succ n ih =>
    rw [show byteIdx + (n + 1) = byteIdx + 1 + n by omega]
    unfold findBytes
    dsimp only
    by_cases hskip : b.buffer byteIdx = cNot (if value then 255 else 0)
    · rw [if_pos hskip]
      apply ih (s := (byteIdx + 1) * 8) (by omega)
      · exact hscan.restart (by omega) fun j => not_counted_of_skip hskip
      · exact ⟨by omega, fun h => absurd rfl h⟩
    rw [if_neg hskip]
    by_cases hmatch : b.buffer byteIdx = if value then 255 else 0
    · have hp : ∀ j, byteIdx * 8 ≤ j → j < (byteIdx + 1) * 8 → Counted b value j :=
        fun j => counted_of_match hmatch
      have hs := hcount.1
      rw [if_pos hmatch]
      by_cases hsmall : length < 8
      · rw [if_pos hsmall]
        exact ⟨ha, by omega, fun j hle hlt => hp j hle (by omega)⟩
      rw [if_neg hsmall, hcount.index]
      by_cases hlong : count + 8 ≥ length
      · rw [if_pos hlong]
        obtain ⟨has, hrun⟩ := hscan.found (q := (byteIdx + 1) * 8) (by omega) hp
        exact ⟨has, by omega, hrun⟩
      · rw [if_neg hlong]
        apply ih (s := s) (by omega)
        · exact hscan.extend (by omega) (by omega) hp
        · exact ⟨by omega, fun _ => rfl⟩
    · rw [if_neg hmatch]
      have hbyte : value = false → b.buffer byteIdx ≠ 1 := by
        rintro rfl h
        exact hskip h
      have hbits := findBits_spec (n := 8) hbyte 0 rfl hscan hcount
      revert hbits
      generalize findBits byteIdx length value (b.buffer byteIdx) 8 0 count startIndex = r
      cases r with
      | inl i =>
        rintro ⟨hai, hend, hrun⟩
        exact ⟨hai, by omega, hrun⟩
      | inr r =>
        obtain ⟨count', startIndex'⟩ := r
        rintro ⟨s', hscan', hcount'⟩
        exact ih (by omega) hscan' hcount'

/-- A range none of whose bits is in a byte that the search passes over. -/
def ClearOfOnes (bitmap : Bitmap) (length i : ℕ) : Prop :=
  RunAt (fun j => bitmap.buffer (j / 8) ≠ 1) length i

theorem runAt_counted {i : ℕ} : RunAt (Counted b value) length i ↔
    RunAt (fun j => b.bit j = value) length i ∧ (value = false → ClearOfOnes b length i) := by
  constructor
  · intro h
    exact ⟨fun j hle hlt => (h j hle hlt).1, fun hv j hle hlt => (h j hle hlt).2 hv⟩
  · rintro ⟨hbits, hones⟩ j hle hlt
    exact ⟨hbits j hle hlt, fun hv => hones hv j hle hlt⟩

theorem bitmapFindRangeFrom_spec (h8 : 8 ∣ b.length) (hlength : 0 < length) (startFrom : ℕ) :
    match bitmapFindRangeFrom b length value startFrom with
    | some i => IsRange b length value startFrom i ∧ (value = false → ClearOfOnes b length i)
    | none => ∀ i, IsRange b length value startFrom i → ¬(value = false → ClearOfOnes b length i) := by
  have hscan : Scanned (Counted b value) length (startFrom / 8 * 8) (startFrom / 8 * 8)
      (startFrom / 8 * 8) := Scanned.start hlength
  have hcount : Counts (startFrom / 8 * 8) (startFrom / 8 * 8) 0 0 := ⟨rfl, fun h => absurd rfl h⟩
  have hspec := findBytes_spec (n := b.length / 8 - startFrom / 8) hlength le_rfl hscan hcount
  unfold bitmapFindRangeFrom
  revert hspec
  generalize findBytes b length value (b.length / 8 - startFrom / 8) (startFrom / 8) 0 0 = r
  cases r with
  | some i =>
    rintro ⟨ha, hend, hrun⟩
    obtain ⟨hbits, hones⟩ := runAt_counted.mp hrun
    refine ⟨⟨ha, ?_, hbits⟩, hones⟩
    omega
  | none =>
    rintro h i ⟨ha, hend, hbits⟩ hones
    exact h i ha (by omega) (runAt_counted.mpr ⟨hbits, hones⟩)

/-- The search for set bits is sound and complete. The search for clear bits is if and only if, when
there is a range, there is one without a bit in a byte with the value 1. -/
theorem bitmapFindRangeFrom_iff (buffer : ℕ → BitVec 8) (size length startFrom : ℕ) (value : Bool)
    (h : 1 ≤ length) :
    FindsRange ⟨buffer, size * 8⟩ length value startFrom
        (bitmapFindRangeFrom ⟨buffer, size * 8⟩ length value startFrom) ↔
      (value = false → (∃ i, IsRange ⟨buffer, size * 8⟩ length value startFrom i) →
        ∃ i, IsRange ⟨buffer, size * 8⟩ length value startFrom i ∧
          ClearOfOnes ⟨buffer, size * 8⟩ length i) := by
  have hspec := @bitmapFindRangeFrom_spec ⟨buffer, size * 8⟩ length value
    ⟨size, Nat.mul_comm size 8⟩ h startFrom
  revert hspec
  generalize bitmapFindRangeFrom ⟨buffer, size * 8⟩ length value startFrom = r
  cases r with
  | some i =>
    rintro ⟨hrange, hones⟩
    refine iff_of_true ⟨⟨by simp, fun hno => absurd hrange (hno i)⟩, ?_⟩ ?_
    · rintro j hj
      rwa [← Option.some.inj hj]
    · exact fun hv _ => ⟨i, hrange, hones hv⟩
  | none =>
    intro hmissed
    constructor
    · rintro ⟨hnone, -⟩ hv ⟨i, hi⟩
      exact absurd hi (hnone.mp rfl i)
    · intro hcond
      refine ⟨iff_of_true rfl fun i hi => ?_, by simp⟩
      by_cases hv : value = false
      · obtain ⟨j, hj, hones⟩ := hcond hv ⟨i, hi⟩
        exact hmissed j hj fun _ => hones
      · exact hmissed i hi fun h => absurd h hv

theorem bitmapFindRangeFrom_set :
    (true = false → (∃ i, IsRange ⟨fun _ => 6, 1 * 8⟩ 2 true 0 i) →
        ∃ i, IsRange ⟨fun _ => 6, 1 * 8⟩ 2 true 0 i ∧ ClearOfOnes ⟨fun _ => 6, 1 * 8⟩ 2 i) ∧
      FindsRange ⟨fun _ => 6, 1 * 8⟩ 2 true 0 (bitmapFindRangeFrom ⟨fun _ => 6, 1 * 8⟩ 2 true 0) :=
  ⟨by simp, (bitmapFindRangeFrom_iff (fun _ => 6) 1 2 0 true (by norm_num)).mpr (by simp)⟩

/-- One byte with the value 1 has seven clear bits, and the search finds none of them. -/
theorem bitmapFindRangeFrom_incomplete :
    ¬FindsRange ⟨fun _ => 1, 8⟩ 7 false 0 (bitmapFindRangeFrom ⟨fun _ => 1, 8⟩ 7 false 0) := by
  rintro ⟨hnone, -⟩
  refine hnone.mp rfl 1 ⟨by norm_num, by norm_num, fun j hle hlt => ?_⟩
  interval_cases j <;> rfl

end CoolPotOS
