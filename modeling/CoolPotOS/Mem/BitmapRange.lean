import CoolPotOS.Mem.Bitmap

namespace CoolPotOS

/-- A bit of the memory from the first byte of the buffer on. -/
def Bitmap.bit (bitmap : Bitmap) (index : ℕ) : Bool :=
  (bitmap.buffer (index / 8)).getLsbD (index % 8)

/-- An access to one byte of the buffer, which has eight bits for each byte. -/
def Bitmap.touch (bitmap : Bitmap) (word : ℕ) (f : Bitmap → Bitmap) : Option Bitmap :=
  if word < bitmap.length / 8 then some (f bitmap) else none

def bitmapSetIn (index : ℕ) (value : Bool) (bitmap : Bitmap) : Option Bitmap :=
  if index / 8 > bitmap.length then some bitmap
  else bitmap.touch (index / 8) fun bitmap => bitmapSet bitmap index value

/-- One whole byte of the middle part of `bitmap_set_range`. -/
def bitmapFillIn (word : ℕ) (value : Bool) (bitmap : Bitmap) : Option Bitmap :=
  bitmap.touch word fun bitmap => bitmapFill bitmap word value

/-- `bitmap_set_range`. Nothing wraps: `start` is below the length when it is rounded up. -/
def bitmapSetRangeIn (bitmap : Bitmap) (start stop : ℕ) (value : Bool) : Option Bitmap :=
  if start ≥ stop ∨ start ≥ bitmap.length then some bitmap
  else
    let startWord := (start + 7) / 8
    let endWord := stop / 8
    let bitmap := forRange start (min (startWord * 8) stop) (fun i b => b.bind (bitmapSetIn i value))
      (some bitmap)
    if startWord > endWord then bitmap
    else
      let bitmap := forRange startWord endWord (fun i b => b.bind (bitmapFillIn i value)) bitmap
      forRange (max (endWord * 8) start) stop (fun i b => b.bind (bitmapSetIn i value)) bitmap

/-- The bits of `[start, min stop length)` have the value, all other bits, also those behind the
buffer, are as they were, and no byte outside the buffer was touched. -/
def RangeExact (bitmap : Bitmap) (start stop : ℕ) (value : Bool) (result : Option Bitmap) : Prop :=
  ∃ bitmap', result = some bitmap' ∧ bitmap'.length = bitmap.length ∧
    ∀ j, bitmap'.bit j =
      if start ≤ j ∧ j < min stop bitmap.length then value else bitmap.bit j

variable {i w : ℕ} {b : Bitmap}

section Loops

variable {f : ℕ → Bitmap → Bitmap} {g : ℕ → Bitmap → Option Bitmap} {b : Bitmap} {a c : ℕ}

theorem loop_inside (hab : a ≤ c) (hlen : ∀ i b, (f i b).length = b.length)
    (hg : ∀ i b', a ≤ i → i < c → b'.length = b.length → g i b' = some (f i b')) :
    forRange a c (fun i b => b.bind (g i)) (some b) = some (forRange a c f b) := by
  have hkeeps := forRange_invariant f (fun _ b' => b'.length = b.length) b hab rfl
    fun i b' _ _ h => (hlen i b').trans h
  induction c, hab using Nat.le_induction with
  | base => rw [forRange_of_le _ le_rfl, forRange_of_le _ le_rfl]
  | succ c hac ih =>
    have hprefix := forRange_invariant f (fun _ b' => b'.length = b.length) b hac rfl
      fun i b' _ _ h => (hlen i b').trans h
    rw [forRange_succ _ hac, forRange_succ _ hac,
      ih (fun i b' hai hic => hg i b' hai (hic.trans (Nat.lt_succ_self c))) hprefix,
      Option.bind_some]
    exact hg c _ hac (Nat.lt_succ_self c) hprefix

theorem loop_outside (hg : ∀ i b b', g i b = some b' → b'.length = b.length) (hai : a ≤ i) (hic : i < c)
    (hi : ∀ b', b'.length = b.length → g i b' = none) :
    forRange a c (fun i b => b.bind (g i)) (some b) = none := by
  have hrun := forRange_invariant (fun i b => b.bind (g i))
    (fun n s => (i < n → s = none) ∧ ∀ b', s = some b' → b'.length = b.length)
    (some b) (hai.trans hic.le) ?_ ?_
  · exact hrun.1 hic
  · constructor
    · intro h
      omega
    · intro b' h
      rw [Option.some.inj h]
  · rintro n s - - ⟨hnone, hsome⟩
    cases s with
    | none => exact ⟨fun _ => rfl, fun b' h => by simp at h⟩
    | some b1 =>
      have hlen := hsome b1 rfl
      constructor
      · intro hin
        by_cases h : i = n
        · rw [← h]
          exact hi b1 hlen
        · exact absurd (hnone (by omega)) (by simp)
      · intro b' h
        exact (hg n b1 b' h).trans hlen

theorem loop_none : forRange a c (fun i b => Option.bind b (g i)) none = none := by
  rcases Nat.lt_or_ge c a with h | h
  · exact forRange_of_le _ h.le _
  · refine forRange_invariant _ (fun _ s => s = none) none h rfl ?_
    rintro n s - - rfl
    rfl

end Loops

theorem length_touch {b' : Bitmap} {word : ℕ} {f : Bitmap → Bitmap} (hf : (f b).length = b.length)
    (h : b.touch word f = some b') : b'.length = b.length := by
  unfold Bitmap.touch at h
  split at h
  · rw [← Option.some.inj h, hf]
  · simp at h

theorem length_bitmapSetIn {v : Bool} (i : ℕ) (b b' : Bitmap) (h : bitmapSetIn i v b = some b') :
    b'.length = b.length := by
  unfold bitmapSetIn at h
  split at h
  · rw [← Option.some.inj h]
  · exact length_touch (bitmapSet_length b i v) h

theorem length_bitmapFillIn {v : Bool} (i : ℕ) (b b' : Bitmap) (h : bitmapFillIn i v b = some b') :
    b'.length = b.length := length_touch rfl h

theorem bitmapSetIn_inside (v : Bool) (h : i < b.length / 8 * 8) :
    bitmapSetIn i v b = some (bitmapSet b i v) := by
  unfold bitmapSetIn Bitmap.touch
  rw [if_neg (by omega), if_pos (by omega)]

theorem bitmapFillIn_inside (v : Bool) (h : w < b.length / 8) :
    bitmapFillIn w v b = some (bitmapFill b w v) := if_pos h

theorem bitmapSetIn_outside (v : Bool) (h : b.length ≤ i) (hi : i / 8 ≤ b.length) : bitmapSetIn i v b = none := by
  unfold bitmapSetIn Bitmap.touch
  rw [if_neg (by omega), if_neg (by omega)]

theorem bitmapFillIn_outside (v : Bool) (h : b.length / 8 ≤ w) : bitmapFillIn w v b = none := if_neg h.not_gt

theorem bit_eq_bitmapGet {j : ℕ} (h : j / 8 ≤ b.length) : b.bit j = bitmapGet b j := (if_neg h.not_gt).symm

variable {b : Bitmap} {start stop : ℕ} {v : Bool}

theorem bitmapSetRangeIn_inside (h8 : 8 ∣ b.length) (hs : stop ≤ b.length) :
    bitmapSetRangeIn b start stop v = some (bitmapSetRange b start stop v) := by
  unfold bitmapSetRangeIn bitmapSetRange
  split
  · rfl
  · rename_i h0
    have hhead := loop_inside (b := b) (f := fun i b => bitmapSet b i v)
      (g := fun i => bitmapSetIn i v) (a := start) (c := min ((start + 7) / 8 * 8) stop) (by omega)
      (fun i b => bitmapSet_length b i v) fun i b' _ _ hb => bitmapSetIn_inside v (by omega)
    dsimp only
    rw [hhead]
    have hl1 := (bitmapSet_loop b start (min ((start + 7) / 8 * 8) stop) v (by omega)).1
    revert hl1
    generalize forRange start (min ((start + 7) / 8 * 8) stop) (fun i b => bitmapSet b i v) b = b1
    intro hl1
    split
    · rfl
    · have hmiddle := loop_inside (b := b1) (f := fun i b => bitmapFill b i v)
        (g := fun i => bitmapFillIn i v) (a := (start + 7) / 8) (c := stop / 8) (by omega)
        (fun i b => rfl) fun i b' _ _ hb => bitmapFillIn_inside v (by omega)
      rw [hmiddle]
      have hl2 := (bitmapFill_loop b1 ((start + 7) / 8) (stop / 8) v (by omega)).1
      exact loop_inside (by omega) (fun i b => bitmapSet_length b i v)
        fun i b' _ _ hb => bitmapSetIn_inside v (by omega)

theorem bitmapSetRangeIn_outside (h8 : 8 ∣ b.length) (hstart : start < b.length)
    (hs : b.length < stop) : bitmapSetRangeIn b start stop v = none := by
  unfold bitmapSetRangeIn
  rw [if_neg (by omega)]
  have hhead := loop_inside (b := b) (f := fun i b => bitmapSet b i v)
    (g := fun i => bitmapSetIn i v) (a := start) (c := min ((start + 7) / 8 * 8) stop) (by omega)
    (fun i b => bitmapSet_length b i v) fun i b' _ _ hb => bitmapSetIn_inside v (by omega)
  dsimp only
  rw [hhead, if_neg (by omega)]
  have hl1 := (bitmapSet_loop b start (min ((start + 7) / 8 * 8) stop) v (by omega)).1
  revert hl1
  generalize forRange start (min ((start + 7) / 8 * 8) stop) (fun i b => bitmapSet b i v) b = b1
  intro hl1
  by_cases hword : b.length / 8 < stop / 8
  · -- a whole byte lies behind the buffer
    rw [loop_outside (fun i => length_bitmapFillIn i) (i := b.length / 8) (by omega) hword
      fun b' hb => bitmapFillIn_outside v (by omega)]
    exact loop_none
  · -- the range ends in the byte after the buffer
    have hmiddle := loop_inside (b := b1) (f := fun i b => bitmapFill b i v)
      (g := fun i => bitmapFillIn i v) (a := (start + 7) / 8) (c := stop / 8) (by omega)
      (fun i b => rfl) fun i b' _ _ hb => bitmapFillIn_inside v (by omega)
    rw [hmiddle]
    have hl2 := (bitmapFill_loop b1 ((start + 7) / 8) (stop / 8) v (by omega)).1
    exact loop_outside (fun i => length_bitmapSetIn i) (i := b.length) (by omega) hs
      fun b' hb => bitmapSetIn_outside v (by omega) (by omega)

theorem forRange_buffer {f : ℕ → Bitmap → Bitmap} {a c : ℕ} (b : Bitmap)
    (hf : ∀ i b', i < c → (f i b').buffer w = b'.buffer w) : (forRange a c f b).buffer w = b.buffer w := by
  rcases Nat.lt_or_ge c a with h | h
  · rw [forRange_of_le _ h.le]
  · exact forRange_invariant f (fun _ b' => b'.buffer w = b.buffer w) b h rfl
      fun i b' _ hic hb => (hf i b' hic).trans hb

theorem buffer_bitmapSet (v : Bool) (h : i / 8 ≠ w) : (bitmapSet b i v).buffer w = b.buffer w := by
  unfold bitmapSet
  split
  · rfl
  · exact Function.update_of_ne h.symm _ _

theorem buffer_bitmapFill (v : Bool) (h : i ≠ w) :
    (bitmapFill b i v).buffer w = b.buffer w := Function.update_of_ne h.symm _ _

theorem buffer_bitmapSetRange (v : Bool) (hw : stop ≤ w * 8) :
    (bitmapSetRange b start stop v).buffer w = b.buffer w := by
  have hset : ∀ i b', i < stop → (bitmapSet b' i v).buffer w = b'.buffer w := by
    intro i b' hi
    exact buffer_bitmapSet v (by omega)
  unfold bitmapSetRange
  split
  · rfl
  · dsimp only
    have hhead := forRange_buffer (f := fun i b => bitmapSet b i v) (a := start)
      (c := min ((start + 7) / 8 * 8) stop) b fun i b' hi => hset i b' (by omega)
    split
    · exact hhead
    · rw [forRange_buffer _ hset, forRange_buffer _ fun i b' hi => buffer_bitmapFill v (by omega)]
      exact hhead

theorem rangeExact_inside (h8 : 8 ∣ b.length) (hs : stop ≤ b.length) :
    RangeExact b start stop v (bitmapSetRangeIn b start stop v) := by
  refine ⟨_, bitmapSetRangeIn_inside h8 hs, bitmapSetRange_length b start stop v hs, fun j => ?_⟩
  rw [min_eq_left hs]
  by_cases hj : j / 8 ≤ b.length
  · have hlen : j / 8 ≤ (bitmapSetRange b start stop v).length := by
      rwa [bitmapSetRange_length b start stop v hs]
    rw [bit_eq_bitmapGet hj, bit_eq_bitmapGet hlen, bitmapSetRange_get b start stop j v hs]
  · have hframe : (bitmapSetRange b start stop v).buffer (j / 8) = b.buffer (j / 8) := by
      apply buffer_bitmapSetRange
      omega
    rw [if_neg (by omega)]
    unfold Bitmap.bit
    rw [hframe]

theorem rangeExact_iff (h8 : 8 ∣ b.length) : RangeExact b start stop v (bitmapSetRangeIn b start stop v) ↔
      stop ≤ start ∨ b.length ≤ start ∨ stop ≤ b.length := by
  constructor
  · rintro ⟨bitmap', h, -, -⟩
    by_contra hcond
    rw [bitmapSetRangeIn_outside h8 (by omega) (by omega)] at h
    simp at h
  · intro hcond
    by_cases hs : stop ≤ b.length
    · exact rangeExact_inside h8 hs
    · refine ⟨b, if_pos (by omega), rfl, fun j => ?_⟩
      rw [if_neg (by omega)]

/-- The bitmaps of `bitmap_init`: a buffer of `size` bytes. `bitmap_set_range` is exact and stays
in the buffer if and only if the range is empty, begins behind the buffer or ends in it. -/
theorem bitmapSetRange_exact_iff (buffer : ℕ → BitVec 8) (size start stop : ℕ) (value : Bool) :
    RangeExact ⟨buffer, size * 8⟩ start stop value
        (bitmapSetRangeIn ⟨buffer, size * 8⟩ start stop value) ↔
      stop ≤ start ∨ size * 8 ≤ start ∨ stop ≤ size * 8 :=
  rangeExact_iff ⟨size, Nat.mul_comm size 8⟩

/-- A buffer of one byte, and a range of two. -/
theorem bitmapSetRange_not_exact :
    ¬ RangeExact ⟨fun _ => 0, 8⟩ 0 16 true (bitmapSetRangeIn ⟨fun _ => 0, 8⟩ 0 16 true) := by
  rintro ⟨bitmap', h, -, -⟩
  rw [bitmapSetRangeIn_outside (b := ⟨fun _ => 0, 8⟩) (by norm_num) (by norm_num)
    (by norm_num)] at h
  simp at h

end CoolPotOS
