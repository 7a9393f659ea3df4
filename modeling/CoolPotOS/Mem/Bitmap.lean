import CoolPotOS.Machine

namespace CoolPotOS

/-- `Bitmap`. The buffer is read as the memory from its first byte on; `length`
counts bits. -/
structure Bitmap where
  buffer : ℕ → BitVec 8
  length : ℕ

def bitmapInit (buffer : ℕ → BitVec 8) (size : ℕ) : Bitmap where
  buffer i := if i < size then 0 else buffer i
  length := size * 8

def bitmapGet (bitmap : Bitmap) (index : ℕ) : Bool :=
  if index / 8 > bitmap.length then false
  else (bitmap.buffer (index / 8)).getLsbD (index % 8)

def bitmapSet (bitmap : Bitmap) (index : ℕ) (value : Bool) : Bitmap :=
  if index / 8 > bitmap.length then bitmap
  else
    let byte := bitmap.buffer (index / 8)
    let mask := 1#8 <<< (index % 8)
    { bitmap with
      buffer := Function.update bitmap.buffer (index / 8)
        (if value then byte ||| mask else byte &&& ~~~mask) }

/-- One whole byte of the middle part of `bitmap_set_range`. -/
def bitmapFill (bitmap : Bitmap) (word : ℕ) (value : Bool) : Bitmap :=
  { bitmap with buffer := Function.update bitmap.buffer word (if value then 255#8 else 0#8) }

def bitmapSetRange (bitmap : Bitmap) (start stop : ℕ) (value : Bool) : Bitmap :=
  if start ≥ stop ∨ start ≥ bitmap.length then bitmap
  else
    let startWord := (start + 7) / 8
    let endWord := stop / 8
    let bitmap := forRange start (min (startWord * 8) stop) (fun i b => bitmapSet b i value) bitmap
    if startWord > endWord then bitmap
    else
      let bitmap := forRange startWord endWord (fun i b => bitmapFill b i value) bitmap
      forRange (max (endWord * 8) start) stop (fun i b => bitmapSet b i value) bitmap

theorem bitmapInit_get (buffer : ℕ → BitVec 8) (size i : ℕ) (hi : i < size * 8) :
    bitmapGet (bitmapInit buffer size) i = false := by
  have hw : i / 8 < size := by omega
  simp [bitmapGet, bitmapInit, hw]

@[simp] theorem bitmapSet_length (b : Bitmap) (i : ℕ) (v : Bool) : (bitmapSet b i v).length = b.length := by
  unfold bitmapSet
  split <;> rfl

theorem getLsbD_one_shiftLeft (k j : ℕ) (hk : k < 8) (hj : j < 8) :
    (1#8 <<< k).getLsbD j = decide (j = k) := by
  interval_cases k <;> interval_cases j <;> rfl

theorem bitmapSet_get (b : Bitmap) (i j : ℕ) (v : Bool) (hi : i / 8 ≤ b.length) :
    bitmapGet (bitmapSet b i v) j = if j = i then v else bitmapGet b j := by
  have hlen := bitmapSet_length b i v
  by_cases hj : j / 8 > b.length
  · have hne : j ≠ i := by rintro rfl; omega
    simp [bitmapGet, hj, hne]
  simp only [bitmapGet, hlen, if_neg hj]
  by_cases hw : j / 8 = i / 8
  · have hbit : (j = i) ↔ j % 8 = i % 8 := by omega
    have hm := getLsbD_one_shiftLeft (i % 8) (j % 8) (by omega) (by omega)
    simp only [bitmapSet, if_neg (not_lt.mpr hi), hw, Function.update_self]
    cases v <;> simp only [Bool.false_eq_true, ↓reduceIte, BitVec.getLsbD_or, BitVec.getLsbD_and,
      BitVec.getLsbD_not, hm, hbit] <;> split_ifs with h <;>
      simp [h, Nat.mod_lt j (by norm_num : 0 < 8)]
  · have hne : j ≠ i := by rintro rfl; exact hw rfl
    simp [bitmapSet, not_lt.mpr hi, Function.update_of_ne hw, hne]

theorem getLsbD_ones (j : ℕ) (hj : j < 8) : (255#8).getLsbD j = true := by
  interval_cases j <;> rfl

theorem bitmapFill_get (b : Bitmap) (w j : ℕ) (v : Bool) (hw : w ≤ b.length) :
    bitmapGet (bitmapFill b w v) j = if j / 8 = w then v else bitmapGet b j := by
  by_cases hj : j / 8 = w
  · have h8 := getLsbD_ones (j % 8) (by omega)
    subst hj
    simp only [bitmapGet, bitmapFill, if_neg (not_lt.mpr hw), Function.update_self, ↓reduceIte]
    cases v <;> simp [h8]
  · simp [bitmapGet, bitmapFill, hj]

theorem bitmapSet_loop (b : Bitmap) (a c : ℕ) (v : Bool) (hc : c ≤ b.length + 1) :
    (forRange a c (fun i b => bitmapSet b i v) b).length = b.length ∧
    ∀ j, bitmapGet (forRange a c (fun i b => bitmapSet b i v) b) j =
      if a ≤ j ∧ j < c then v else bitmapGet b j := by
  rcases Nat.lt_or_ge c a with h | h
  · rw [forRange_of_le _ h.le]
    exact ⟨rfl, fun j => by rw [if_neg (by omega)]⟩
  refine forRange_invariant _ (fun n (b' : Bitmap) => b'.length = b.length ∧
    ∀ j, bitmapGet b' j = if a ≤ j ∧ j < n then v else bitmapGet b j) b h
    ⟨rfl, fun j => by rw [if_neg (by omega)]⟩ ?_
  rintro i b' hai hic ⟨hl, hg⟩
  refine ⟨by rw [bitmapSet_length, hl], fun j => ?_⟩
  rw [bitmapSet_get b' i j v (by omega), hg]
  split_ifs <;> first | rfl | omega

theorem bitmapFill_loop (b : Bitmap) (a c : ℕ) (v : Bool) (hc : c ≤ b.length + 1) :
    (forRange a c (fun i b => bitmapFill b i v) b).length = b.length ∧
    ∀ j, bitmapGet (forRange a c (fun i b => bitmapFill b i v) b) j =
      if a ≤ j / 8 ∧ j / 8 < c then v else bitmapGet b j := by
  rcases Nat.lt_or_ge c a with h | h
  · rw [forRange_of_le _ h.le]
    exact ⟨rfl, fun j => by rw [if_neg (by omega)]⟩
  refine forRange_invariant _ (fun n (b' : Bitmap) => b'.length = b.length ∧
    ∀ j, bitmapGet b' j = if a ≤ j / 8 ∧ j / 8 < n then v else bitmapGet b j) b h
    ⟨rfl, fun j => by rw [if_neg (by omega)]⟩ ?_
  rintro i b' hai hic ⟨hl, hg⟩
  refine ⟨hl, fun j => ?_⟩
  rw [bitmapFill_get b' i j v (by omega), hg]
  split_ifs <;> first | rfl | omega

/-- `bitmap_set_range` writes exactly the bits of its range, however the range
lies with respect to byte boundaries. -/
theorem bitmapSetRange_spec (b : Bitmap) (start stop : ℕ) (v : Bool) (hs : stop ≤ b.length) :
    (bitmapSetRange b start stop v).length = b.length ∧ ∀ j, bitmapGet (bitmapSetRange b start stop v) j =
      if start ≤ j ∧ j < stop then v else bitmapGet b j := by
  unfold bitmapSetRange
  split_ifs with h0
  · exact ⟨rfl, fun j => by rw [if_neg (by omega)]⟩
  obtain ⟨hl1, hg1⟩ := bitmapSet_loop b start (min ((start + 7) / 8 * 8) stop) v (by omega)
  dsimp only
  split_ifs with h1
  · refine ⟨hl1, fun j => ?_⟩
    rw [hg1, show min ((start + 7) / 8 * 8) stop = stop by omega]
  set b1 := forRange start (min ((start + 7) / 8 * 8) stop) (fun i b => bitmapSet b i v) b
  obtain ⟨hl2, hg2⟩ := bitmapFill_loop b1 ((start + 7) / 8) (stop / 8) v (by omega)
  set b2 := forRange ((start + 7) / 8) (stop / 8) (fun i b => bitmapFill b i v) b1
  obtain ⟨hl3, hg3⟩ := bitmapSet_loop b2 (max (stop / 8 * 8) start) stop v (by omega)
  refine ⟨by rw [hl3, hl2, hl1], fun j => ?_⟩
  rw [hg3, hg2, hg1]
  split_ifs <;> first | rfl | omega

theorem bitmapSetRange_length (b : Bitmap) (start stop : ℕ) (v : Bool) (hs : stop ≤ b.length) :
    (bitmapSetRange b start stop v).length = b.length := (bitmapSetRange_spec b start stop v hs).1

theorem bitmapSetRange_get (b : Bitmap) (start stop j : ℕ) (v : Bool) (hs : stop ≤ b.length) :
    bitmapGet (bitmapSetRange b start stop v) j =
      if start ≤ j ∧ j < stop then v else bitmapGet b j := (bitmapSetRange_spec b start stop v hs).2 j

end CoolPotOS
