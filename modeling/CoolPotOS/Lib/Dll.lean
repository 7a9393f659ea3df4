import Mathlib

namespace LinkedList

open Function List Prod

/-- A cell: its payload and the links to its neighbours. -/
structure Node (α : Type*) where
  data : α
  next : Option ℕ
  prev : Option ℕ

/-- The allocated cells and the head of the list. -/
structure Dll (α : Type*) where
  cells : ℕ → Option (Node α)
  head : Option ℕ

variable {α : Type*}

/-- Writes to the cell at `p`; `none` when there is no such cell. -/
def Dll.modify (d : Dll α) (p : ℕ) (f : Node α → Node α) : Option (Dll α) :=
  (d.cells p).map fun node => { d with cells := Function.update d.cells p (some (f node)) }

/-- `prev->next = n`, or the head when there is no previous cell. -/
def Dll.setNext (d : Dll α) (prev n : Option ℕ) : Option (Dll α) :=
  match prev with
  | none => some { d with head := n }
  | some q => d.modify q fun node => { node with next := n }

def Dll.setPrev (d : Dll α) (next n : Option ℕ) : Option (Dll α) :=
  match next with
  | none => some d
  | some q => d.modify q fun node => { node with prev := n }

/-- Takes the cell at `p` out of its list. -/
def Dll.unlink (d : Dll α) (p : ℕ) : Option (Dll α) := do
  let node ← d.cells p
  let d ← d.setNext node.prev node.next
  d.setPrev node.next node.prev

/-- Puts the cell at `p` between `prev` and `next`. -/
def Dll.link (d : Dll α) (p : ℕ) (prev next : Option ℕ) : Option (Dll α) := do
  let d ← d.modify p fun node => { node with next := next, prev := prev }
  let d ← d.setNext prev (some p)
  d.setPrev next (some p)

def Dll.setData (d : Dll α) (p : ℕ) (a : α) : Option (Dll α) :=
  d.modify p fun node => { node with data := a }

def Dll.alloc (d : Dll α) (p : ℕ) (a : α) : Dll α :=
  { d with cells := Function.update d.cells p (some ⟨a, none, none⟩) }

def Dll.free (d : Dll α) (p : ℕ) : Dll α := { d with cells := Function.update d.cells p none }

/-- The address of the first cell, or `tail`. -/
def headPtr (l : List (ℕ × α)) (tail : Option ℕ) : Option ℕ :=
  match l with
  | [] => tail
  | x :: _ => some x.1

/-- The address of the last cell, or `prev`. -/
def lastPtr (prev : Option ℕ) : List (ℕ × α) → Option ℕ
  | [] => prev
  | x :: l => lastPtr (some x.1) l

/-- The cells of `l` follow one another between `prev` and `tail`. -/
def Seg (c : ℕ → Option (Node α)) : Option ℕ → List (ℕ × α) → Option ℕ → Prop
  | _, [], _ => True
  | prev, x :: l, tail => c x.1 = some ⟨x.2, headPtr l tail, prev⟩ ∧ Seg c (some x.1) l tail

@[simp] theorem headPtr_nil (tail : Option ℕ) : headPtr ([] : List (ℕ × α)) tail = tail := rfl

@[simp] theorem headPtr_cons (x : ℕ × α) (l : List (ℕ × α)) (tail : Option ℕ) :
    headPtr (x :: l) tail = some x.1 := rfl

theorem headPtr_append (l1 l2 : List (ℕ × α)) (tail : Option ℕ) :
    headPtr (l1 ++ l2) tail = headPtr l1 (headPtr l2 tail) := by
  cases l1 <;> rfl

theorem lastPtr_append (prev : Option ℕ) (l1 l2 : List (ℕ × α)) :
    lastPtr prev (l1 ++ l2) = lastPtr (lastPtr prev l1) l2 := by
  induction l1 generalizing prev with
  | nil => rfl
  | cons x l1 ih => exact ih (some x.1)

theorem seg_append {c : ℕ → Option (Node α)} {prev tail : Option ℕ} {l1 l2 : List (ℕ × α)} :
    Seg c prev (l1 ++ l2) tail ↔ Seg c prev l1 (headPtr l2 tail) ∧ Seg c (lastPtr prev l1) l2 tail := by
  induction l1 generalizing prev with
  | nil => simp [Seg, lastPtr]
  | cons x l1 ih =>
    simp only [cons_append, Seg, lastPtr, headPtr_append, ih]
    exact and_assoc.symm

variable {l : List (ℕ × α)} {d : Dll α} {node : Node α}

theorem Seg.congr {c c' : ℕ → Option (Node α)} {prev tail : Option ℕ} (h : Seg c prev l tail)
    (hc : ∀ x ∈ l, c' x.1 = c x.1) : Seg c' prev l tail := by
  induction l generalizing prev with
  | nil => trivial
  | cons x l ih =>
    refine ⟨(hc x mem_cons_self).trans h.1, ih h.2 fun y hy => hc y (mem_cons_of_mem x hy)⟩

/-- The links of the whole list and its head agree. -/
structure Linked (d : Dll α) (l : List (ℕ × α)) : Prop where
  head : d.head = headPtr l none
  seg : Seg d.cells none l none
  nodup : (l.map Prod.fst).Nodup

theorem modify_eq_some {p : ℕ} (h : d.cells p = some node) (f : Node α → Node α) :
    d.modify p f = some { d with cells := update d.cells p (some (f node)) } := by
  rw [Dll.modify, h]
  rfl

theorem setNext_last {t : Option ℕ} (t' : Option ℕ) (hh : d.head = headPtr l t) (hs : Seg d.cells none l t)
    (hn : (l.map fst).Nodup) : ∃ d', d.setNext (lastPtr none l) t' = some d' ∧ d'.head = headPtr l t' ∧
      Seg d'.cells none l t' ∧ ∀ q, q ∉ l.map fst → d'.cells q = d.cells q := by
  rcases l.eq_nil_or_concat with rfl | ⟨l, x, rfl⟩
  · exact ⟨{ d with head := t' }, rfl, rfl, trivial, fun _ _ => rfl⟩
  rw [concat_eq_append] at *
  obtain ⟨hs1, hx, -⟩ := seg_append.mp hs
  simp only [map_append, map_cons, map_nil] at hn ⊢
  have hnot : x.1 ∉ l.map fst := by
    have := (nodup_append.mp hn).2.2
    exact fun h => this _ h _ (mem_singleton_self _) rfl
  have hmod : d.setNext (lastPtr none (l ++ [x])) t' =
      some { d with cells := update d.cells x.1 (some ⟨x.2, t', lastPtr none l⟩) } := by
    rw [lastPtr_append]
    exact modify_eq_some hx _
  refine ⟨_, hmod, ?_, ?_, fun q hq => ?_⟩
  · show d.head = _
    rw [hh, headPtr_append, headPtr_append]
    rfl
  · refine seg_append.mpr ⟨hs1.congr fun y hy => ?_, ?_, trivial⟩
    · have hne : y.1 ≠ x.1 := fun h => hnot (h ▸ mem_map_of_mem hy)
      exact update_of_ne hne _ _
    · exact update_self _ _ _
  · exact update_of_ne (fun h => hq (by simp [h])) _ _

theorem setPrev_first {p : Option ℕ} (p' : Option ℕ) (hs : Seg d.cells p l none) (hn : (l.map fst).Nodup) :
    ∃ d', d.setPrev (headPtr l none) p' = some d' ∧ d'.head = d.head ∧ Seg d'.cells p' l none ∧
      ∀ q, q ∉ l.map fst → d'.cells q = d.cells q := by
  cases l with
  | nil => exact ⟨d, rfl, rfl, trivial, fun _ _ => rfl⟩
  | cons x l =>
    rw [map_cons, nodup_cons] at hn
    refine ⟨_, modify_eq_some hs.1 _, rfl, ⟨update_self _ _ _, hs.2.congr fun y hy => ?_⟩,
      fun q hq => ?_⟩
    · have hne : y.1 ≠ x.1 := fun h => hn.1 (h ▸ mem_map_of_mem hy)
      exact update_of_ne hne _ _
    · exact update_of_ne (fun h => hq (by simp [h])) _ _

section Ops

variable {d : Dll α} {l1 l2 : List (ℕ × α)} {p : ℕ} {a : α}

theorem Linked.get (h : Linked d (l1 ++ (p, a) :: l2)) :
    d.cells p = some ⟨a, headPtr l2 none, lastPtr none l1⟩ := (seg_append.mp h.seg).2.1

theorem nodup_middle (h : ((l1 ++ (p, a) :: l2).map fst).Nodup) :
    (l1.map fst).Nodup ∧ (l2.map fst).Nodup ∧ p ∉ l1.map fst ∧ p ∉ l2.map fst ∧
      ∀ q ∈ l1.map fst, q ∉ l2.map fst := by
  rw [map_append, map_cons] at h
  obtain ⟨h1, h2, h3⟩ := nodup_append.mp h
  rw [nodup_cons] at h2
  exact ⟨h1, h2.2, fun hp => h3 p hp p mem_cons_self rfl, h2.1,
    fun q hq hq' => h3 q hq q (mem_cons_of_mem p hq') rfl⟩

theorem Linked.unlink (h : Linked d (l1 ++ (p, a) :: l2)) :
    ∃ d', d.unlink p = some d' ∧ Linked d' (l1 ++ l2) ∧
      ∀ q, q ∉ (l1 ++ l2).map fst → d'.cells q = d.cells q := by
  obtain ⟨hn1, hn2, -, -, hdis⟩ := nodup_middle h.nodup
  obtain ⟨hs1, -, hs2⟩ := seg_append.mp h.seg
  have hh : d.head = headPtr l1 (some p) := by rw [h.head, headPtr_append]; rfl
  obtain ⟨d1, hd1, hh1, hs1', hf1⟩ := setNext_last (headPtr l2 none) hh hs1 hn1
  have hs2' : Seg d1.cells (some p) l2 none := hs2.congr fun x hx =>
    hf1 x.1 fun hx' => hdis x.1 hx' (mem_map_of_mem hx)
  obtain ⟨d2, hd2, hh2, hs2'', hf2⟩ := setPrev_first (lastPtr none l1) hs2' hn2
  refine ⟨d2, ?_, ⟨?_, ?_, ?_⟩, fun q hq => ?_⟩
  · simp only [Dll.unlink, h.get, Option.bind_eq_bind, Option.bind_some, hd1, hd2]
  · rw [hh2, hh1, headPtr_append]
  · refine seg_append.mpr ⟨hs1'.congr fun x hx => ?_, hs2''⟩
    exact hf2 x.1 (hdis x.1 (mem_map_of_mem hx))
  · rw [map_append]
    exact nodup_append.mpr ⟨hn1, hn2, fun q hq q' hq' e => hdis q hq (e ▸ hq')⟩
  · rw [map_append, mem_append, not_or] at hq
    rw [hf2 q hq.2, hf1 q hq.1]

theorem Linked.link (h : Linked d (l1 ++ l2)) (hp : p ∉ (l1 ++ l2).map fst) (hnode : d.cells p = some node) :
    ∃ d', d.link p (lastPtr none l1) (headPtr l2 none) = some d' ∧ Linked d' (l1 ++ (p, node.data) :: l2) ∧
      ∀ q, q ∉ (l1 ++ (p, node.data) :: l2).map fst → d'.cells q = d.cells q := by
  have hnd := h.nodup
  rw [map_append] at hp hnd
  obtain ⟨hn1, hn2, hdis⟩ := nodup_append.mp hnd
  rw [mem_append, not_or] at hp
  obtain ⟨hs1, hs2⟩ := seg_append.mp h.seg
  have hh : d.head = headPtr l1 (headPtr l2 none) := by rw [h.head, headPtr_append]
  set d0 : Dll α := { d with
    cells := update d.cells p (some ⟨node.data, headPtr l2 none, lastPtr none l1⟩) }
  have hd0 : d.modify p (fun n => { n with next := headPtr l2 none, prev := lastPtr none l1 }) =
      some d0 := modify_eq_some hnode _
  have hne : ∀ q, q ≠ p → d0.cells q = d.cells q := fun q hq => update_of_ne hq _ _
  have hh0 : d0.head = headPtr l1 (headPtr l2 none) := hh
  have hs10 : Seg d0.cells none l1 (headPtr l2 none) := hs1.congr fun x hx =>
    hne x.1 fun e => hp.1 (e ▸ mem_map_of_mem hx)
  obtain ⟨d1, hd1, hh1, hs1', hf1⟩ := setNext_last (some p) hh0 hs10 hn1
  have hs2' : Seg d1.cells (lastPtr none l1) l2 none := hs2.congr fun x hx => by
    rw [hf1 x.1 fun hx' => hdis x.1 hx' x.1 (mem_map_of_mem hx) rfl]
    exact hne x.1 fun e => hp.2 (e ▸ mem_map_of_mem hx)
  obtain ⟨d2, hd2, hh2, hs2'', hf2⟩ := setPrev_first (some p) hs2' hn2
  refine ⟨d2, ?_, ⟨?_, ?_, ?_⟩, fun q hq => ?_⟩
  · simp only [Dll.link, hd0, Option.bind_eq_bind, Option.bind_some, hd1, hd2]
  · rw [hh2, hh1, headPtr_append]
    rfl
  · refine seg_append.mpr ⟨hs1'.congr fun x hx => ?_, ?_, hs2''⟩
    · exact hf2 x.1 fun hx' => hdis x.1 (mem_map_of_mem hx) x.1 hx' rfl
    · rw [hf2 p hp.2, hf1 p hp.1]
      exact update_self _ _ _
  · rw [map_append, map_cons]
    refine nodup_append.mpr ⟨hn1, nodup_cons.mpr ⟨hp.2, hn2⟩, fun q hq q' hq' => ?_⟩
    rcases mem_cons.mp hq' with rfl | hq'
    · exact fun e => hp.1 (e ▸ hq)
    · exact hdis q hq q' hq'
  · simp only [map_append, map_cons, mem_append, mem_cons, not_or] at hq
    rw [hf2 q hq.2.2, hf1 q hq.1, hne q hq.2.1]

theorem Linked.setData (h : Linked d (l1 ++ (p, a) :: l2)) (b : α) :
    ∃ d', d.setData p b = some d' ∧ Linked d' (l1 ++ (p, b) :: l2) ∧ ∀ q, q ≠ p → d'.cells q = d.cells q := by
  obtain ⟨-, -, hp1, hp2, -⟩ := nodup_middle h.nodup
  obtain ⟨hs1, hx, hs2⟩ := seg_append.mp h.seg
  have hne : ∀ q, q ≠ p → update d.cells p
      (some ⟨b, headPtr l2 none, lastPtr none l1⟩) q = d.cells q := fun q hq =>
    update_of_ne hq _ _
  refine ⟨_, modify_eq_some hx _, ⟨?_, ?_, ?_⟩, hne⟩
  · show d.head = _
    rw [h.head, headPtr_append, headPtr_append]
    rfl
  · refine seg_append.mpr ⟨hs1.congr fun x hx => ?_, update_self _ _ _, hs2.congr fun x hx => ?_⟩
    · exact hne x.1 fun e => hp1 (e ▸ mem_map_of_mem hx)
    · exact hne x.1 fun e => hp2 (e ▸ mem_map_of_mem hx)
  · have := h.nodup
    simpa using this

theorem Linked.congr {d' : Dll α} (h : Linked d l) (hh : d'.head = d.head)
    (hc : ∀ q ∈ l.map fst, d'.cells q = d.cells q) : Linked d' l :=
  ⟨hh.trans h.head, h.seg.congr fun x hx => hc x.1 (mem_map_of_mem hx), h.nodup⟩

theorem Linked.free (h : Linked d l) (hp : p ∉ l.map fst) : Linked (d.free p) l :=
  h.congr rfl fun _ hq => update_of_ne (ne_of_mem_of_not_mem hq hp) _ _

theorem Linked.alloc (h : Linked d l) (hp : p ∉ l.map fst) (a : α) : Linked (d.alloc p a) l :=
  h.congr rfl fun _ hq => update_of_ne (ne_of_mem_of_not_mem hq hp) _ _

theorem Linked.setData_unlinked (h : Linked d l) (hp : p ∉ l.map fst) (hc : d.cells p = some node) (b : α) :
    ∃ d', d.setData p b = some d' ∧ Linked d' l ∧ d'.cells p = some { node with data := b } ∧
      ∀ q, q ≠ p → d'.cells q = d.cells q := by
  have hne : ∀ q, q ≠ p → update d.cells p (some { node with data := b }) q = d.cells q :=
    fun q hq => update_of_ne hq _ _
  refine ⟨_, modify_eq_some hc _, h.congr rfl fun q hq => ?_, update_self _ _ _, hne⟩
  exact hne q (ne_of_mem_of_not_mem hq hp)

end Ops

end LinkedList
