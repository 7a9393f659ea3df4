import Mathlib

namespace Radix

open List Option

variable {E : Type*}

def set (mem : ℕ → ℕ → E) (t i : ℕ) (e : E) : ℕ → ℕ → E :=
  Function.update mem t (Function.update (mem t) i e)

@[simp] theorem set_self (mem : ℕ → ℕ → E) (t i : ℕ) (e : E) : set mem t i e t i = e := by
  simp [set]

theorem set_of_ne (mem : ℕ → ℕ → E) {t i t' i' : ℕ} (e : E) (h : ¬(t' = t ∧ i' = i)) :
    set mem t i e t' i' = mem t' i' := by
  unfold set
  by_cases ht : t' = t
  · subst ht
    rw [Function.update_self, Function.update_of_ne fun hi => h ⟨rfl, hi⟩]
  · rw [Function.update_of_ne ht]

def fill (mem : ℕ → ℕ → E) (f : ℕ) (e : E) : ℕ → ℕ → E := Function.update mem f fun _ => e

@[simp] theorem fill_self (mem : ℕ → ℕ → E) (f i : ℕ) (e : E) : fill mem f e f i = e := by
  simp [fill]

theorem fill_of_ne (mem : ℕ → ℕ → E) {f t : ℕ} (e : E) (h : t ≠ f) (i : ℕ) : fill mem f e t i = mem t i := by
  rw [fill, Function.update_of_ne h]

variable (next : E → Option ℕ)

def follow (mem : ℕ → ℕ → E) : ℕ → List ℕ → Option ℕ
  | t, [] => some t
  | t, i :: p => (next (mem t i)).bind fun t' => follow mem t' p

def entry (mem : ℕ → ℕ → E) (root : ℕ) (p : List ℕ) (i : ℕ) : Option E :=
  (follow next mem root p).map fun t => mem t i

/-- No two paths of at most `depth` indices end in the same table. -/
structure Separated (mem : ℕ → ℕ → E) (root depth : ℕ) : Prop where
  inj : ∀ p q t, p.length ≤ depth → q.length ≤ depth → follow next mem root p = some t →
    follow next mem root q = some t → p = q

/-- No path of at most `depth` indices ends in the table `f`. -/
def Unreached (mem : ℕ → ℕ → E) (root depth f : ℕ) : Prop :=
  ∀ p, p.length ≤ depth → follow next mem root p ≠ some f

section Follow

variable {next} {mem mem' : ℕ → ℕ → E} {root depth t i f : ℕ} {p q : List ℕ} {e e₀ : E}

theorem follow_append (t : ℕ) (p q : List ℕ) : follow next mem t (p ++ q) =
    (follow next mem t p).bind fun t' => follow next mem t' q := by
  induction p generalizing t with
  | nil => rfl
  | cons i p ih =>
    simp only [cons_append, follow, bind_assoc]
    congr 1
    funext t'
    exact ih t'

theorem follow_concat (t : ℕ) (p : List ℕ) (i : ℕ) : follow next mem t (p ++ [i]) =
    (follow next mem t p).bind fun t' => next (mem t' i) := by
  rw [follow_append]
  congr 1
  funext t'
  simp [follow]

theorem follow_congr (h : ∀ q i, q ++ [i] <+: p → ∀ t', follow next mem t q = some t' →
    next (mem' t' i) = next (mem t' i)) : follow next mem' t p = follow next mem t p := by
  induction p generalizing t with
  | nil => rfl
  | cons i p ih =>
    have hi : next (mem' t i) = next (mem t i) := h [] i (by simp) t rfl
    simp only [follow, hi]
    cases hn : next (mem t i) with
    | none => rfl
    | some t1 =>
      apply ih
      intro q j hq t' ht'
      apply h (i :: q) j (by simpa using hq)
      rw [follow, hn]
      exact ht'

theorem follow_set_of_next (root : ℕ) (hn : next e = next (mem t i)) (q : List ℕ) :
    follow next (set mem t i e) root q = follow next mem root q := by
  apply follow_congr
  intro q j _ t' _
  by_cases h : t' = t ∧ j = i
  · rw [h.1, h.2, set_self, hn]
  · rw [set_of_ne mem e h]

theorem follow_set (hs : Separated next mem root depth) (hp : p.length ≤ depth)
    (ht : follow next mem root p = some t) (hq : q.length ≤ depth) (hnot : ¬p ++ [i] <+: q) :
    follow next (set mem t i e) root q = follow next mem root q := by
  apply follow_congr
  intro q' j hq' t' ht'
  by_cases h : t' = t ∧ j = i
  · have hlen : q'.length ≤ depth := by
      have := hq'.length_le
      rw [length_append] at this
      omega
    have hpq : q' = p := hs.inj q' p t' hlen hp ht' (h.1 ▸ ht)
    rw [hpq, h.2] at hq'
    exact absurd hq' hnot
  · rw [set_of_ne mem e h]

theorem follow_set_leaf (hs : Separated next mem root depth) (hp : p.length = depth)
    (ht : follow next mem root p = some t) (hq : q.length ≤ depth) :
    follow next (set mem t i e) root q = follow next mem root q := by
  apply follow_set hs hp.le ht hq
  intro hpre
  have := hpre.length_le
  rw [length_append, length_singleton] at this
  omega

theorem Separated.of_follow (hs : Separated next mem root depth)
    (h : ∀ q, q.length ≤ depth → follow next mem' root q = follow next mem root q) :
    Separated next mem' root depth := by
  constructor
  intro p q t hp hq h1 h2
  rw [h p hp] at h1
  rw [h q hq] at h2
  exact hs.inj p q t hp hq h1 h2

theorem Unreached.of_follow (hf : Unreached next mem root depth f)
    (h : ∀ q, q.length ≤ depth → follow next mem' root q = follow next mem root q) :
    Unreached next mem' root depth f := by
  intro q hq
  rw [h q hq]
  exact hf q hq

theorem entry_set (hs : Separated next mem root depth) (hp : p.length ≤ depth)
    (ht : follow next mem root p = some t)
    (hfollow : ∀ q, q.length ≤ depth → follow next (set mem t i e) root q = follow next mem root q)
    (hq : q.length ≤ depth) (j : ℕ) : entry next (set mem t i e) root q j =
      if q = p ∧ j = i then some e else entry next mem root q j := by
  unfold entry
  rw [hfollow q hq]
  split_ifs with h
  · rw [h.1, ht, h.2, map_some, set_self]
  · cases hq' : follow next mem root q with
    | none => rfl
    | some t' =>
      have hne : ¬(t' = t ∧ j = i) := by
        rintro ⟨rfl, rfl⟩
        exact h ⟨hs.inj q p t' hq hp hq' ht, rfl⟩
      rw [map_some, map_some, set_of_ne mem e hne]

end Follow

def link (mem : ℕ → ℕ → E) (t i : ℕ) (e : E) (f : ℕ) (e₀ : E) : ℕ → ℕ → E :=
  fill (set mem t i e) f e₀

section Link

variable {next} {mem : ℕ → ℕ → E} {root depth t i f : ℕ} {p q : List ℕ} {e e₀ : E}

theorem follow_link (hs : Separated next mem root depth) (hp : p.length < depth)
    (ht : follow next mem root p = some t) (hold : next (mem t i) = none) (hnew : next e = some f)
    (hnil : next e₀ = none) (hf : Unreached next mem root depth f) (hq : q.length ≤ depth) :
    follow next (link mem t i e f e₀) root q = if q = p ++ [i] then some f else follow next mem root q := by
  have htf : t ≠ f := by
    rintro rfl
    exact hf p hp.le ht
  -- the entries of the tables that were reachable before
  have hentry : ∀ t' j, t' ≠ f → ¬(t' = t ∧ j = i) → link mem t i e f e₀ t' j = mem t' j := by
    intro t' j h1 h2
    rw [link, fill_of_ne _ e₀ h1, set_of_ne mem e h2]
  have hti : link mem t i e f e₀ t i = e := by rw [link, fill_of_ne _ e₀ htf, set_self]
  have hout : ∀ q, q.length ≤ depth → ¬p ++ [i] <+: q →
      follow next (link mem t i e f e₀) root q = follow next mem root q := by
    intro q hq hnot
    apply follow_congr
    intro q' j hq' t' ht'
    have hlen := hq'.length_le
    rw [length_append, length_singleton] at hlen
    rw [hentry t' j]
    · rintro rfl
      exact hf q' (by omega) ht'
    · rintro ⟨rfl, rfl⟩
      have hpq : q' = p := hs.inj q' p t' (by omega) hp.le ht' ht
      rw [hpq] at hq'
      exact hnot hq'
  have hpath : follow next (link mem t i e f e₀) root (p ++ [i]) = some f := by
    have hpout : ¬p ++ [i] <+: p := by
      intro h
      have := h.length_le
      rw [length_append, length_singleton] at this
      omega
    rw [follow_concat, hout p hp.le hpout, ht, bind_some, hti, hnew]
  split_ifs with heq
  · rw [heq, hpath]
  by_cases hpre : p ++ [i] <+: q
  · -- below the new table nothing is reachable, now as before
    obtain ⟨r, rfl⟩ := hpre
    cases r with
    | nil => exact absurd (append_nil _) heq
    | cons j r =>
      have hold' : follow next mem root (p ++ [i]) = none := by
        rw [follow_concat, ht, bind_some, hold]
      have hfill : link mem t i e f e₀ f j = e₀ := by rw [link, fill_self]
      rw [follow_append, hpath, bind_some, follow, hfill, hnil, follow_append, hold']
      rfl
  · exact hout q hq hpre

theorem Separated.link (hs : Separated next mem root depth) (hp : p.length < depth)
    (ht : follow next mem root p = some t) (hold : next (mem t i) = none) (hnew : next e = some f)
    (hnil : next e₀ = none) (hf : Unreached next mem root depth f) :
    Separated next (link mem t i e f e₀) root depth := by
  constructor
  intro q q' t' hq hq' h1 h2
  rw [follow_link hs hp ht hold hnew hnil hf hq] at h1
  rw [follow_link hs hp ht hold hnew hnil hf hq'] at h2
  split_ifs at h1 h2 with he he' he'
  · rw [he, he']
  · rw [← Option.some.inj h1] at h2
    exact absurd h2 (hf q' hq')
  · rw [← Option.some.inj h2] at h1
    exact absurd h1 (hf q hq)
  · exact hs.inj q q' t' hq hq' h1 h2

theorem Unreached.link {f' : ℕ} (hs : Separated next mem root depth) (hp : p.length < depth)
    (ht : follow next mem root p = some t) (hold : next (mem t i) = none) (hnew : next e = some f)
    (hnil : next e₀ = none) (hf : Unreached next mem root depth f)
    (hf' : Unreached next mem root depth f') (hne : f' ≠ f) :
    Unreached next (link mem t i e f e₀) root depth f' := by
  intro q hq
  rw [follow_link hs hp ht hold hnew hnil hf hq]
  split_ifs with he
  · exact fun h => hne (Option.some.inj h).symm
  · exact hf' q hq

theorem entry_link (hs : Separated next mem root depth) (hp : p.length < depth)
    (ht : follow next mem root p = some t) (hold : next (mem t i) = none) (hnew : next e = some f)
    (hnil : next e₀ = none) (hf : Unreached next mem root depth f) (hq : q.length ≤ depth) (j : ℕ) :
    entry next (link mem t i e f e₀) root q j = if q = p ++ [i] then some e₀ else if q = p ∧ j = i then some e
        else entry next mem root q j := by
  unfold entry
  rw [follow_link hs hp ht hold hnew hnil hf hq]
  split_ifs with h1 h2
  · rw [map_some, Radix.link, fill_self]
  · have htf : t ≠ f := by
      rintro rfl
      exact hf p hp.le ht
    rw [h2.1, ht, h2.2, map_some, Radix.link, fill_of_ne _ e₀ htf, set_self]
  · cases hq' : follow next mem root q with
    | none => rfl
    | some t' =>
      have hne : ¬(t' = t ∧ j = i) := by
        rintro ⟨rfl, rfl⟩
        exact h2 ⟨hs.inj q p t' hq hp.le hq' ht, rfl⟩
      have htf : t' ≠ f := by
        rintro rfl
        exact hf q hq hq'
      rw [map_some, map_some, Radix.link, fill_of_ne _ e₀ htf, set_of_ne mem e hne]

end Link

end Radix
