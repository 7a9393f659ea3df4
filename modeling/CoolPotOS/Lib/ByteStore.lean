import Mathlib

namespace ByteStore

open List

variable {w : ℕ}

def load (m : BitVec w → BitVec 8) (a : BitVec w) (n : ℕ) : List (BitVec 8) :=
  (List.range n).map fun i => m (a + BitVec.ofNat w i)

def store (m : BitVec w → BitVec 8) (a : BitVec w) (bytes : List (BitVec 8)) :
    BitVec w → BitVec 8 :=
  fun x => bytes[(x - a).toNat]?.getD (m x)

section Store

variable {m m' : BitVec w → BitVec 8} {a x : BitVec w} {bytes : List (BitVec 8)} {n : ℕ}

theorem store_of_le (h : bytes.length ≤ (x - a).toNat) : store m a bytes x = m x := by
  unfold store
  rw [List.getElem?_eq_none h]
  rfl

theorem load_congr (h : ∀ x, (x - a).toNat < n → m' x = m x) (hn : n ≤ 2 ^ w) : load m' a n = load m a n := by
  apply map_congr_left
  intro i hi
  apply h
  have hlt : i < 2 ^ w := (mem_range.mp hi).trans_le hn
  rw [add_sub_cancel_left, BitVec.toNat_ofNat, Nat.mod_eq_of_lt hlt]
  exact mem_range.mp hi

theorem load_store (h : bytes.length ≤ 2 ^ w) : load (store m a bytes) a bytes.length = bytes := by
  apply ext_getElem
  · simp [load]
  · intro i hi hi'
    have hlt : i < 2 ^ w := hi'.trans_le h
    simp only [load, store, getElem_map, getElem_range]
    rw [add_sub_cancel_left, BitVec.toNat_ofNat, Nat.mod_eq_of_lt hlt, List.getElem?_eq_getElem hi']
    rfl

end Store

def encode {k : ℕ} (v : BitVec (8 * k)) : List (BitVec 8) :=
  (List.range k).map fun i => BitVec.ofNat 8 (v.toNat / 256 ^ i)

/-- Reads a word of `k` bytes from the front. -/
def takeWord (k : ℕ) (l : List (BitVec 8)) : BitVec (8 * k) × List (BitVec 8) :=
  (BitVec.ofNat _ (Nat.ofDigits 256 ((l.take k).map BitVec.toNat)), l.drop k)

/-- Reads `n` single bytes from the front. -/
def takeBytes (n : ℕ) (l : List (BitVec 8)) : (Fin n → BitVec 8) × List (BitVec 8) :=
  (fun i => l[i.val]?.getD 0, l.drop n)

theorem length_encode {k : ℕ} (v : BitVec (8 * k)) : (encode v).length = k := by
  simp [encode]

theorem ofDigits_bytes (k n : ℕ) :
    Nat.ofDigits 256 ((range k).map fun i => n / 256 ^ i % 256) = n % 256 ^ k := by
  induction k generalizing n with
  | zero => simp [Nat.mod_one]
  | succ k ih =>
    have htail : ∀ i, n / 256 ^ (i + 1) % 256 = n / 256 / 256 ^ i % 256 := by
      intro i
      rw [Nat.div_div_eq_div_mul, ← Nat.pow_succ']
    rw [range_succ_eq_map, map_cons, map_map, Nat.ofDigits_cons]
    simp only [Function.comp_def, htail, ih, pow_zero, Nat.div_one]
    rw [Nat.pow_succ', Nat.mod_mul]

theorem takeWord_encode {k : ℕ} (v : BitVec (8 * k)) (l : List (BitVec 8)) :
    takeWord k (encode v ++ l) = (v, l) := by
  have hlen := length_encode v
  have hval : Nat.ofDigits 256 ((encode v).map BitVec.toNat) = v.toNat := by
    rw [encode, map_map]
    change Nat.ofDigits 256 ((range k).map fun i => v.toNat / 256 ^ i % 2 ^ 8) = _
    rw [show (2 : ℕ) ^ 8 = 256 from rfl, ofDigits_bytes, show (256 : ℕ) = 2 ^ 8 from rfl,
      ← pow_mul, Nat.mod_eq_of_lt v.isLt]
  unfold takeWord
  rw [take_left' hlen, drop_left' hlen, hval, BitVec.ofNat_toNat, BitVec.setWidth_eq]

theorem takeBytes_ofFn {n : ℕ} (f : Fin n → BitVec 8) (l : List (BitVec 8)) :
    takeBytes n (ofFn f ++ l) = (f, l) := by
  have hlen : (ofFn f).length = n := length_ofFn
  unfold takeBytes
  rw [drop_left' hlen]
  congr 1
  funext i
  rw [List.getElem?_append_left (by rw [hlen]; exact i.isLt), List.getElem?_ofFn]
  simp

end ByteStore
