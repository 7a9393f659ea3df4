import Mathlib

inductive NamedTree (N D : Type*)
  | file (data : D)
  | dir (child : List (N × NamedTree N D))

namespace NamedTree

open List Option

inductive Entry (D : Type*)
  | dir
  | file (data : D)
  deriving DecidableEq

def Entry.map {D E : Type*} (f : D → E) : Entry D → Entry E
  | dir => dir
  | file data => file (f data)

variable {N D : Type*}

def child : NamedTree N D → List (N × NamedTree N D)
  | file _ => []
  | dir child => child

def kind : NamedTree N D → Entry D
  | file data => .file data
  | dir _ => .dir

def isDir : NamedTree N D → Bool
  | file _ => false
  | dir _ => true

def names (t : NamedTree N D) : List N := t.child.map Prod.fst

variable [DecidableEq N]

def walk : NamedTree N D → List N → Option (NamedTree N D)
  | t, [] => some t
  | t, n :: p => (t.child.lookup n).bind fun c => walk c p

def entry (t : NamedTree N D) (p : List N) : Option (Entry D) := (t.walk p).map kind

def setFirst {T : Type*} (n : N) (t : T) : List (N × T) → List (N × T)
  | [] => []
  | c :: cs => if n = c.1 then (n, t) :: cs else c :: setFirst n t cs

def alter (f : NamedTree N D → Option (NamedTree N D)) : NamedTree N D → List N → Option (NamedTree N D)
  | t, [] => f t
  | file _, _ :: _ => none
  | dir cs, n :: p => (cs.lookup n).bind fun c => (alter f c p).map fun c' => dir (setFirst n c' cs)

def add (n : N) (c : NamedTree N D) : NamedTree N D → Option (NamedTree N D)
  | file _ => none
  | dir cs => some (dir ((n, c) :: cs))

def mkdirs : NamedTree N D → List N → Option (NamedTree N D)
  | file _, _ => none
  | dir cs, [] => some (dir cs)
  | dir cs, n :: p =>
    match cs.lookup n with
    | none => (mkdirs (dir []) p).map fun c => dir ((n, c) :: cs)
    | some c => (mkdirs c p).map fun c' => dir (setFirst n c' cs)

section children

variable {T : Type*}

theorem lookup_cons_eq (n m : N) (t : T) (cs : List (N × T)) :
    ((n, t) :: cs).lookup m = if m = n then some t else cs.lookup m := by
  rw [lookup_cons]
  by_cases h : m = n
  · simp [h]
  · rw [if_neg h, beq_eq_false_iff_ne.mpr h]

theorem lookup_setFirst (n m : N) (t : T) (cs : List (N × T)) :
    (setFirst n t cs).lookup m = if m = n then (cs.lookup n).map fun _ => t else cs.lookup m := by
  induction cs with
  | nil => simp [setFirst]
  | cons c cs ih =>
    unfold setFirst
    by_cases hn : n = c.1
    · rw [if_pos hn, lookup_cons_eq, lookup_cons_eq, lookup_cons_eq, ← hn, if_pos rfl]
      split_ifs <;> rfl
    · rw [if_neg hn, lookup_cons_eq, lookup_cons_eq, lookup_cons_eq, ih, if_neg hn]
      by_cases hm : m = n
      · subst hm
        rw [if_neg hn, if_pos rfl, if_pos rfl]
      · rw [if_neg hm, if_neg hm]

theorem map_fst_setFirst (n : N) (t : T) (cs : List (N × T)) :
    (setFirst n t cs).map Prod.fst = cs.map Prod.fst := by
  induction cs with
  | nil => rfl
  | cons c cs ih =>
    unfold setFirst
    by_cases h : n = c.1
    · simp [h]
    · simp [h, ih]

theorem mem_fst_iff (n : N) (cs : List (N × T)) : n ∈ cs.map Prod.fst ↔ cs.lookup n ≠ none := by
  induction cs with
  | nil => simp
  | cons c cs ih =>
    rw [map_cons, mem_cons, ih, lookup_cons_eq]
    by_cases h : n = c.1 <;> simp [h]

end children

variable {t t' : NamedTree N D} {p q : List N}

@[simp]
theorem walk_nil : t.walk [] = some t := by
  cases t <;> rfl

theorem walk_cons (n : N) : t.walk (n :: p) = (t.child.lookup n).bind fun c => c.walk p := by
  cases t <;> rfl

theorem walk_append (p q : List N) : t.walk (p ++ q) = (t.walk p).bind fun c => c.walk q := by
  induction p generalizing t with
  | nil => simp
  | cons n p ih =>
    rw [cons_append, walk_cons, walk_cons, bind_assoc]
    congr 1
    funext c
    exact ih

@[simp]
theorem entry_nil : t.entry [] = some t.kind := by
  simp [entry]

theorem entry_cons (n : N) : t.entry (n :: p) = (t.child.lookup n).bind fun c => c.entry p := by
  unfold entry
  rw [walk_cons, Option.map_bind]
  rfl

theorem entry_append (p q : List N) : t.entry (p ++ q) = (t.walk p).bind fun c => c.entry q := by
  unfold entry
  rw [walk_append, Option.map_bind]
  rfl

theorem entry_file (d : D) (n : N) (p : List N) : (file d : NamedTree N D).entry (n :: p) = none := rfl

theorem entry_ne_none : t.entry p ≠ none ↔ t.walk p ≠ none := by
  simp [entry]

theorem mem_names {n : N} : n ∈ t.names ↔ t.entry [n] ≠ none := by
  rw [entry_cons, names, mem_fst_iff]
  cases t.child.lookup n <;> simp

theorem mem_names_of_walk {c : NamedTree N D} (h : t.walk p = some c) {n : N} :
    n ∈ c.names ↔ t.entry (p ++ [n]) ≠ none := by
  rw [entry_append, h, bind_some, mem_names]

theorem entry_of_append {n : N} (h : t.entry (p ++ n :: q) ≠ none) : t.entry p = some .dir := by
  rw [entry_append] at h
  unfold entry
  cases hw : t.walk p with
  | none => simp [hw] at h
  | some c =>
    cases c with
    | file d => simp [hw, entry_file] at h
    | dir cs => rfl

theorem entry_below_file {d : D} (h : t.entry p = some (.file d)) (n : N) (q : List N) :
    t.entry (p ++ n :: q) = none := by
  by_contra hne
  simp [entry_of_append hne] at h

variable {f : NamedTree N D → Option (NamedTree N D)}

theorem walk_alter_append (h : alter f t p = some t') (q : List N) :
    t'.walk (p ++ q) = ((t.walk p).bind f).bind fun c => c.walk q := by
  induction p generalizing t t' with
  | nil =>
    unfold alter at h
    simp [h]
  | cons n p ih =>
    cases t with
    | file d => cases h
    | dir cs =>
      obtain ⟨c, hc, h⟩ := bind_eq_some_iff.mp h
      obtain ⟨c', hc', rfl⟩ := map_eq_some_iff.mp h
      rw [cons_append, walk_cons, walk_cons, child, child, lookup_setFirst, if_pos rfl, hc]
      exact ih hc'

theorem entry_alter_append (h : alter f t p = some t') (q : List N) :
    t'.entry (p ++ q) = ((t.walk p).bind f).bind fun c => c.entry q := by
  unfold entry
  rw [walk_alter_append h, Option.map_bind]
  rfl

def shape (t : NamedTree N D) : Entry D × List N := (t.kind, t.names)

theorem shape_alter_elsewhere (h : alter f t p = some t') (hpq : ¬ p <+: q) :
    (t'.walk q).map shape = (t.walk q).map shape := by
  induction p generalizing t t' q with
  | nil => exact absurd nil_prefix hpq
  | cons n p ih =>
    cases t with
    | file d => cases h
    | dir cs =>
      obtain ⟨c, hc, h⟩ := bind_eq_some_iff.mp h
      obtain ⟨c', hc', rfl⟩ := map_eq_some_iff.mp h
      cases q with
      | nil =>
        rw [walk_nil, walk_nil, map_some, map_some]
        unfold shape names
        rw [child, map_fst_setFirst]
        rfl
      | cons m q =>
        rw [walk_cons, walk_cons, child, child, lookup_setFirst]
        by_cases hm : m = n
        · subst hm
          rw [if_pos rfl, hc, map_some, bind_some, bind_some]
          apply ih hc'
          intro hp
          exact hpq (cons_prefix_cons.mpr ⟨rfl, hp⟩)
        · rw [if_neg hm]

theorem entry_alter_elsewhere (h : alter f t p = some t') (hpq : ¬ p <+: q) : t'.entry q = t.entry q := by
  have := congrArg (Option.map Prod.fst) (shape_alter_elsewhere h hpq)
  rwa [Option.map_map, Option.map_map] at this

theorem walk_of_alter (h : alter f t p = some t') : ∃ c c', t.walk p = some c ∧ f c = some c' := by
  induction p generalizing t t' with
  | nil => exact ⟨t, t', walk_nil, h⟩
  | cons n p ih =>
    cases t with
    | file d => cases h
    | dir cs =>
      obtain ⟨c, hc, h⟩ := bind_eq_some_iff.mp h
      obtain ⟨c', hc', rfl⟩ := map_eq_some_iff.mp h
      rw [walk_cons, show (dir cs).child.lookup n = some c from hc]
      exact ih hc'

theorem entry_alter_add {n : N} {c : NamedTree N D} (h : alter (add n c) t p = some t') :
    t.entry p = some .dir ∧ (∀ q, t'.entry (p ++ n :: q) = c.entry q) ∧
      ∀ q, ¬ p ++ [n] <+: q → t'.entry q = t.entry q := by
  obtain ⟨s, s', hs, hs'⟩ := walk_of_alter h
  cases s with
  | file d => cases hs'
  | dir cs =>
    have hdir : t.entry p = some .dir := by
      unfold entry
      rw [hs]
      rfl
    have hentry : ∀ r, t'.entry (p ++ r) = (dir ((n, c) :: cs)).entry r := fun r => by
      rw [entry_alter_append h, hs, bind_some, hs', bind_some]
      rw [Option.some.inj hs']
    refine ⟨hdir, fun q => ?_, fun q hq => ?_⟩
    · rw [hentry, entry_cons, child, lookup_cons_eq, if_pos rfl, bind_some]
    · by_cases hp : p <+: q
      · obtain ⟨r, rfl⟩ := hp
        rw [hentry]
        cases r with
        | nil =>
          rw [append_nil, hdir]
          rfl
        | cons m r =>
          have hm : m ≠ n := by
            rintro rfl
            exact hq ⟨r, by simp⟩
          rw [entry_cons, child, lookup_cons_eq, if_neg hm, entry_append, hs, bind_some, entry_cons, child]
      · exact entry_alter_elsewhere h hp

theorem entry_mkdirs (h : mkdirs t p = some t') (q : List N) :
    t'.entry q = if q <+: p then some .dir else t.entry q := by
  induction p generalizing t t' q with
  | nil =>
    cases t with
    | file d => cases h
    | dir cs =>
      cases h
      cases q with
      | nil => rfl
      | cons m q => rw [if_neg (by simp)]
  | cons n p ih =>
    cases t with
    | file d => cases h
    | dir cs =>
      unfold mkdirs at h
      cases hc : cs.lookup n with
      | none =>
        simp only [hc] at h
        obtain ⟨c', hc', rfl⟩ := map_eq_some_iff.mp h
        cases q with
        | nil => simp [kind]
        | cons m q =>
          rw [entry_cons, entry_cons, child, child, lookup_cons_eq]
          simp only [cons_prefix_cons]
          by_cases hm : m = n
          · subst hm
            rw [if_pos rfl, bind_some, ih hc', hc]
            cases q with
            | nil => simp
            | cons k q => simp [entry_cons, child]
          · simp [hm]
      | some c =>
        simp only [hc] at h
        obtain ⟨c', hc', rfl⟩ := map_eq_some_iff.mp h
        cases q with
        | nil => simp [kind]
        | cons m q =>
          rw [entry_cons, entry_cons, child, child, lookup_setFirst]
          simp only [cons_prefix_cons]
          by_cases hm : m = n
          · subst hm
            rw [if_pos rfl, hc, map_some, bind_some, bind_some, ih hc']
            simp
          · simp [hm]

end NamedTree
