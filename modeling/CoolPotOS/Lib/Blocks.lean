import Mathlib

namespace Blocks

open List

/-- A block of memory and what it is used for. -/
structure Block (κ : Type*) where
  addr : ℕ
  size : ℕ
  use : κ
deriving DecidableEq

variable {κ : Type*} {gap a e : ℕ} {b c : Block κ} {l l1 l2 : List (Block κ)}

def Fill (gap : ℕ) : ℕ → List (Block κ) → ℕ → Prop
  | a, [], e => a = e
  | a, b :: l, e => b.addr = a ∧ Fill gap (a + b.size + gap) l e

theorem fill_append : Fill gap a (l1 ++ l2) e ↔ ∃ m, Fill gap a l1 m ∧ Fill gap m l2 e := by
  induction l1 generalizing a with
  | nil => exact ⟨fun h => ⟨a, rfl, h⟩, fun ⟨m, hm, h⟩ => hm ▸ h⟩
  | cons b l1 ih =>
    constructor
    · rintro ⟨haddr, hrest⟩
      obtain ⟨m, hl, hr⟩ := ih.mp hrest
      exact ⟨m, ⟨haddr, hl⟩, hr⟩
    · rintro ⟨m, ⟨haddr, hl⟩, hr⟩
      exact ⟨haddr, ih.mpr ⟨m, hl, hr⟩⟩

theorem fill_middle :
    Fill gap a (l1 ++ b :: l2) e ↔ Fill gap a l1 b.addr ∧ Fill gap (b.addr + b.size + gap) l2 e := by
  rw [fill_append]
  constructor
  · rintro ⟨m, hl, haddr, hr⟩
    rw [haddr]
    exact ⟨hl, hr⟩
  · rintro ⟨hl, hr⟩
    exact ⟨b.addr, hl, rfl, hr⟩

theorem fill_singleton : Fill gap a [b] e ↔ b.addr = a ∧ a + b.size + gap = e := Iff.rfl

theorem Fill.le (h : Fill gap a l e) : a ≤ e := by
  induction l generalizing a with
  | nil => exact h.le
  | cons b l ih =>
    have := ih h.2
    omega

theorem Fill.mem (h : Fill gap a l e) (hb : b ∈ l) : a ≤ b.addr ∧ b.addr + b.size + gap ≤ e := by
  obtain ⟨l1, l2, rfl⟩ := append_of_mem hb
  rw [fill_middle] at h
  exact ⟨h.1.le, h.2.le⟩

theorem Fill.apart (h : Fill gap a l e) (hb : b ∈ l) (hc : c ∈ l) :
    b = c ∨ b.addr + b.size + gap ≤ c.addr ∨ c.addr + c.size + gap ≤ b.addr := by
  obtain ⟨l1, l2, rfl⟩ := append_of_mem hb
  rw [fill_middle] at h
  rw [mem_append, mem_cons] at hc
  rcases hc with hc | rfl | hc
  · exact .inr (.inr (h.1.mem hc).2)
  · exact .inl rfl
  · exact .inr (.inl (h.2.mem hc).1)

theorem Fill.eq_of_addr (h : Fill gap a l e) (hgap : 0 < gap) (hb : b ∈ l) (hc : c ∈ l)
    (haddr : b.addr = c.addr) : b = c := by
  rcases h.apart hb hc with heq | hlt | hlt
  · exact heq
  · omega
  · omega

theorem Fill.nodup (h : Fill gap a l e) (hgap : 0 < gap) : (l.map Block.addr).Nodup := by
  induction l generalizing a with
  | nil => exact nodup_nil
  | cons b l ih =>
    rw [map_cons, nodup_cons]
    refine ⟨fun hb => ?_, ih h.2⟩
    obtain ⟨c, hc, haddr⟩ := mem_map.mp hb
    have hlow := (h.2.mem hc).1
    have haddr' := h.1
    omega

theorem Fill.length_le (h : Fill gap a l e) : a + l.length * gap ≤ e := by
  induction l generalizing a with
  | nil =>
    rw [length_nil, Nat.zero_mul]
    exact h.le
  | cons b l ih =>
    have hrest := ih h.2
    rw [length_cons, Nat.succ_mul]
    omega

theorem Fill.sum_size_le (h : Fill gap a l e) : a + (l.map Block.size).sum ≤ e := by
  induction l generalizing a with
  | nil => exact h.le
  | cons b l ih =>
    have hrest := ih h.2
    rw [map_cons, sum_cons]
    omega

theorem Fill.end_unique {e' : ℕ} (h : Fill gap a l e) (h' : Fill gap a l e') : e = e' := by
  induction l generalizing a with
  | nil => exact h.symm.trans h'
  | cons b l ih => exact ih h.2 h'.2

theorem Fill.last_unique {k : List (Block κ)} (h : Fill gap a (k ++ [b]) e) (hgap : 0 < gap)
    (heq : k ++ [b] = l1 ++ b :: l2) : k = l1 ∧ l2 = [] := by
  rcases eq_nil_or_concat l2 with rfl | ⟨l, c, rfl⟩
  · exact ⟨append_cancel_right heq, rfl⟩
  · exfalso
    rw [concat_eq_append, ← cons_append, ← append_assoc] at heq
    obtain ⟨hk, -⟩ := append_inj' heq rfl
    have hnodup := h.nodup hgap
    rw [map_append, nodup_append] at hnodup
    refine hnodup.2.2 b.addr ?_ b.addr (mem_singleton_self _) rfl
    rw [hk]
    exact mem_map_of_mem (mem_append_right l1 mem_cons_self)

theorem Fill.addr_dvd {d : ℕ} (h : Fill gap a l e) (ha : d ∣ a) (hgap : d ∣ gap)
    (hsize : ∀ b ∈ l, d ∣ b.size) (hb : b ∈ l) : d ∣ b.addr := by
  induction l generalizing a with
  | nil => cases hb
  | cons c l ih =>
    rcases mem_cons.mp hb with rfl | hb
    · rw [h.1]
      exact ha
    · have hc := hsize c mem_cons_self
      exact ih h.2 ((ha.add hc).add hgap) (fun b hb => hsize b (mem_cons_of_mem c hb)) hb

theorem Fill.next (h : Fill gap a (l1 ++ b :: l2) e) : l2 = [] ∧ b.addr + b.size + gap = e ∨
      ∃ c l3, l2 = c :: l3 ∧ c.addr = b.addr + b.size + gap := by
  rw [fill_middle] at h
  cases l2 with
  | nil => exact .inl ⟨rfl, h.2⟩
  | cons c l3 => exact .inr ⟨c, l3, rfl, h.2.1⟩

theorem Fill.previous (h : Fill gap a (l1 ++ b :: l2) e) :
    l1 = [] ∧ b.addr = a ∨ ∃ l0 c, l1 = l0 ++ [c] ∧ b.addr = c.addr + c.size + gap := by
  rw [fill_middle] at h
  rcases eq_nil_or_concat l1 with rfl | ⟨l0, c, rfl⟩
  · exact .inl ⟨rfl, h.1.symm⟩
  · rw [concat_eq_append] at h ⊢
    have hlast := (fill_middle.mp h.1).2
    exact .inr ⟨l0, c, rfl, hlast.symm⟩

end Blocks
