import CoolPotOS.Mem.VmaList

namespace CoolPotOS

open LinkedList List

structure AreasOk (vs : List Vma) : Prop where
  sorted : vs.Pairwise fun a b => a.vmEnd ≤ b.vmStart
  nonempty : ∀ v ∈ vs, v.vmStart < v.vmEnd
  word : ∀ v ∈ vs, v.vmEnd < 2 ^ 64

def Vma.size (v : Vma) : ℕ := v.vmEnd - v.vmStart

def total (vs : List Vma) : ℕ := (vs.map Vma.size).sum

@[simp] theorem total_nil : total [] = 0 := rfl

@[simp] theorem total_cons (v : Vma) (vs : List Vma) : total (v :: vs) = v.size + total vs := rfl

@[simp] theorem total_append (vs ws : List Vma) : total (vs ++ ws) = total vs + total ws := by
  simp [total]

theorem wrapSub_of_le {a b : ℕ} (h : b ≤ a) (ha : a < 2 ^ 64) : wrapSub a b = a - b := by
  unfold wrapSub
  omega

theorem Vma.meets_eq_false {start stop : ℕ} {v : Vma} :
    v.meets start stop = false ↔ stop ≤ v.vmStart ∨ start ≥ v.vmEnd := by
  simp only [Vma.meets, Bool.not_eq_false', decide_eq_true_eq]

/-- The parts of an area: each inside it and not empty, in order. -/
structure PartsOf (v : Vma) (out : List Vma) : Prop where
  sorted : out.Pairwise fun a b => a.vmEnd ≤ b.vmStart
  inside : ∀ w ∈ out, v.vmStart ≤ w.vmStart ∧ w.vmStart < w.vmEnd ∧ w.vmEnd ≤ v.vmEnd

section Edit

variable {l1 l2 : List Vma} {v w : Vma}

theorem partsOf_nil : PartsOf v [] := ⟨List.Pairwise.nil, by simp⟩

theorem partsOf_singleton (h1 : v.vmStart ≤ w.vmStart) (h2 : w.vmStart < w.vmEnd)
    (h3 : w.vmEnd ≤ v.vmEnd) : PartsOf v [w] := ⟨pairwise_singleton _ _, by simp [h1, h2, h3]⟩

theorem partsOf_pair {w1 w2 : Vma} (h₁ : PartsOf v [w1]) (h₂ : PartsOf v [w2])
    (h : w1.vmEnd ≤ w2.vmStart) : PartsOf v [w1, w2] where
  sorted := by simpa using h
  inside := by
    intro w hw
    rcases mem_cons.mp hw with rfl | hw
    · exact h₁.inside w mem_cons_self
    · exact h₂.inside w hw

theorem areasOk_append : AreasOk (l1 ++ l2) ↔
    AreasOk l1 ∧ AreasOk l2 ∧ ∀ a ∈ l1, ∀ b ∈ l2, a.vmEnd ≤ b.vmStart := by
  constructor
  · intro h
    obtain ⟨h1, h2, h3⟩ := pairwise_append.mp h.sorted
    exact ⟨⟨h1, fun a ha => h.nonempty a (mem_append_left _ ha),
      fun a ha => h.word a (mem_append_left _ ha)⟩,
      ⟨h2, fun a ha => h.nonempty a (mem_append_right _ ha),
      fun a ha => h.word a (mem_append_right _ ha)⟩, h3⟩
  · rintro ⟨h₁, h₂, h⟩
    refine ⟨pairwise_append.mpr ⟨h₁.sorted, h₂.sorted, h⟩, fun a ha => ?_, fun a ha => ?_⟩
    · exact (mem_append.mp ha).elim (h₁.nonempty a) (h₂.nonempty a)
    · exact (mem_append.mp ha).elim (h₁.word a) (h₂.word a)

theorem areasOk_cons : AreasOk (v :: l2) ↔
    v.vmStart < v.vmEnd ∧ v.vmEnd < 2 ^ 64 ∧ AreasOk l2 ∧ ∀ b ∈ l2, v.vmEnd ≤ b.vmStart := by
  constructor
  · intro h
    obtain ⟨h1, h2⟩ := pairwise_cons.mp h.sorted
    exact ⟨h.nonempty v mem_cons_self, h.word v mem_cons_self,
      ⟨h2, fun a ha => h.nonempty a (mem_cons_of_mem v ha),
        fun a ha => h.word a (mem_cons_of_mem v ha)⟩, h1⟩
  · rintro ⟨h1, h2, h3, h4⟩
    refine ⟨pairwise_cons.mpr ⟨h4, h3.sorted⟩, fun a ha => ?_, fun a ha => ?_⟩
    · rcases mem_cons.mp ha with rfl | ha
      · exact h1
      · exact h3.nonempty a ha
    · rcases mem_cons.mp ha with rfl | ha
      · exact h2
      · exact h3.word a ha

/-- Sorted and disjoint areas, of which some may be empty. -/
structure InOrder (vs : List Vma) : Prop where
  sorted : vs.Pairwise fun a b => a.vmEnd ≤ b.vmStart
  le : ∀ v ∈ vs, v.vmStart ≤ v.vmEnd
  word : ∀ v ∈ vs, v.vmEnd < 2 ^ 64

theorem AreasOk.inOrder {vs : List Vma} (h : AreasOk vs) : InOrder vs :=
  ⟨h.sorted, fun v hv => (h.nonempty v hv).le, h.word⟩

theorem inOrder_cons {vs : List Vma} : InOrder (v :: vs) ↔
    v.vmStart ≤ v.vmEnd ∧ v.vmEnd < 2 ^ 64 ∧ InOrder vs ∧ ∀ w ∈ vs, v.vmEnd ≤ w.vmStart := by
  constructor
  · intro h
    have hsorted := pairwise_cons.mp h.sorted
    exact ⟨h.le v mem_cons_self, h.word v mem_cons_self,
      ⟨hsorted.2, fun w hw => h.le w (mem_cons_of_mem v hw),
        fun w hw => h.word w (mem_cons_of_mem v hw)⟩, hsorted.1⟩
  · rintro ⟨hle, hword, h, hv⟩
    refine ⟨pairwise_cons.mpr ⟨hv, h.sorted⟩, fun w hw => ?_, fun w hw => ?_⟩
    · obtain rfl | hw := mem_cons.mp hw
      · exact hle
      · exact h.le w hw
    · obtain rfl | hw := mem_cons.mp hw
      · exact hword
      · exact h.word w hw

theorem AreasOk.end_le_of_start_lt {vs : List Vma} (h : AreasOk vs) (hv : v ∈ vs) (hw : w ∈ vs)
    (hlt : w.vmStart < v.vmStart) : w.vmEnd ≤ v.vmStart := by
  induction vs with
  | nil => cases hv
  | cons a vs ih =>
    obtain ⟨h1, -, h3, h4⟩ := areasOk_cons.mp h
    rcases mem_cons.mp hv with rfl | hv' <;> rcases mem_cons.mp hw with rfl | hw'
    · exact absurd hlt (lt_irrefl _)
    · have := h4 w hw'
      omega
    · exact h4 v hv'
    · exact ih h3 hv' hw'

theorem AreasOk.start_add_total_lt (h : AreasOk (v :: l2)) : v.vmStart + total (v :: l2) < 2 ^ 64 := by
  induction l2 generalizing v with
  | nil =>
    obtain ⟨h1, h2, -, -⟩ := areasOk_cons.mp h
    simp only [total_cons, total_nil, Vma.size]
    omega
  | cons w l2 ih =>
    obtain ⟨h1, h2, h3, h4⟩ := areasOk_cons.mp h
    have hw := ih h3
    have hle := h4 w mem_cons_self
    rw [total_cons]
    unfold Vma.size
    omega

theorem AreasOk.total_lt {vs : List Vma} (h : AreasOk vs) : total vs < 2 ^ 64 := by
  cases vs with
  | nil => simp
  | cons v vs =>
    have := h.start_add_total_lt
    omega

theorem AreasOk.replace {out : List Vma} (h : AreasOk (l1 ++ v :: l2)) (hp : PartsOf v out) :
    AreasOk (l1 ++ out ++ l2) := by
  obtain ⟨h₁, h₂, h12⟩ := areasOk_append.mp h
  obtain ⟨hv1, hv2, h₂, hv3⟩ := areasOk_cons.mp h₂
  have hout : AreasOk out := by
    refine ⟨hp.sorted, fun w hw => (hp.inside w hw).2.1, fun w hw => ?_⟩
    exact lt_of_le_of_lt (hp.inside w hw).2.2 hv2
  have hleft : AreasOk (l1 ++ out) := by
    refine areasOk_append.mpr ⟨h₁, hout, fun a ha b hb => ?_⟩
    exact (h12 a ha v mem_cons_self).trans (hp.inside b hb).1
  refine areasOk_append.mpr ⟨hleft, h₂, fun a ha b hb => ?_⟩
  rcases mem_append.mp ha with ha | ha
  · exact h12 a ha b (mem_cons_of_mem v hb)
  · exact (hp.inside a ha).2.2.trans (hv3 b hb)

end Edit

section Insert

variable {x : ℕ × Vma} {ps : List (ℕ × Vma)}

theorem map_insertArea : (insertArea x ps).map Prod.snd =
    (ps.takeWhile (startsBefore x.2.vmStart)).map Prod.snd ++
      x.2 :: (ps.dropWhile (startsBefore x.2.vmStart)).map Prod.snd := by
  simp [insertArea]

theorem map_take_append_drop (addr : ℕ) (ps : List (ℕ × Vma)) :
    (ps.takeWhile (startsBefore addr)).map Prod.snd ++
      (ps.dropWhile (startsBefore addr)).map Prod.snd = ps.map Prod.snd := by
  rw [← map_append, takeWhile_append_dropWhile]

theorem total_insertArea : total ((insertArea x ps).map Prod.snd) = total (ps.map Prod.snd) + x.2.size := by
  rw [map_insertArea, ← map_take_append_drop x.2.vmStart ps, total_append, total_append, total_cons]
  omega

theorem start_le_of_mem_dropWhile (h : AreasOk (ps.map Prod.snd)) {addr : ℕ} {v : Vma}
    (hv : v ∈ (ps.dropWhile (startsBefore addr)).map Prod.snd) : addr ≤ v.vmStart := by
  have hnot := head?_dropWhile_not (startsBefore addr) ps
  rw [← map_take_append_drop addr ps] at h
  have hdrop := (areasOk_append.mp h).2.1
  cases hd : ps.dropWhile (startsBefore addr) with
  | nil =>
    rw [hd] at hv
    cases hv
  | cons y ys =>
    rw [hd] at hv hnot hdrop
    have hy : addr ≤ y.2.vmStart := by simpa [startsBefore] using hnot
    rw [map_cons] at hv hdrop
    obtain ⟨h1, -, -, h4⟩ := areasOk_cons.mp hdrop
    rcases mem_cons.mp hv with rfl | hv
    · exact hy
    · exact hy.trans (h1.le.trans (h4 v hv))

theorem AreasOk.insertArea (h : AreasOk (ps.map Prod.snd)) (h1 : x.2.vmStart < x.2.vmEnd)
    (h2 : x.2.vmEnd < 2 ^ 64) (hmeet : ∀ v ∈ ps.map Prod.snd, v.meets x.2.vmStart x.2.vmEnd = false) :
    AreasOk ((insertArea x ps).map Prod.snd) := by
  have hdrop : ∀ v ∈ (ps.dropWhile (startsBefore x.2.vmStart)).map Prod.snd,
      x.2.vmStart ≤ v.vmStart := fun v hv => start_le_of_mem_dropWhile h hv
  rw [map_insertArea]
  rw [← map_take_append_drop x.2.vmStart ps] at h hmeet
  obtain ⟨h₁, h₂, h12⟩ := areasOk_append.mp h
  have hbefore : ∀ a ∈ (ps.takeWhile (startsBefore x.2.vmStart)).map Prod.snd,
      a.vmEnd ≤ x.2.vmStart := by
    intro a ha
    obtain ⟨y, hy, rfl⟩ := mem_map.mp ha
    have hlt : y.2.vmStart < x.2.vmStart := by simpa [startsBefore] using mem_takeWhile_imp hy
    have := Vma.meets_eq_false.mp (hmeet y.2 (mem_append_left _ ha))
    omega
  have hafter : ∀ b ∈ (ps.dropWhile (startsBefore x.2.vmStart)).map Prod.snd,
      x.2.vmEnd ≤ b.vmStart := by
    intro b hb
    have hle := hdrop b hb
    have hne := h₂.nonempty b hb
    have := Vma.meets_eq_false.mp (hmeet b (mem_append_right _ hb))
    omega
  refine areasOk_append.mpr ⟨h₁, areasOk_cons.mpr ⟨h1, h2, h₂, hafter⟩, fun a ha b hb => ?_⟩
  rcases mem_cons.mp hb with rfl | hb
  · exact hbefore a ha
  · exact h12 a ha b hb

end Insert

end CoolPotOS
