import CoolPotOS.Util.CowList

namespace CoolPotOS

open List

variable {α : Type*}

/-- With these outcomes of the allocations the call has its full effect or none, and `done` tells
from the returned value which of the two. A call whose full effect is to change nothing may be
reported either way. -/
def CowOp.Settles (done : CowOp α → CowResult α → Prop) (list : CowList α) (op : CowOp α)
    (heap : List Bool) : Prop :=
  ((op.run list heap).1.toList = (op.runPure list.toList).1 ∧ done op (op.run list heap).2) ∨
    ((op.run list heap).1.toList = list.toList ∧ ¬done op (op.run list heap).2)

/-- The calls that need no memory or report its absence: an element is added behind another one, a
cleared place holds nothing, a removed element is the last. -/
def CowOp.Atomic (list : CowList α) : CowOp α → Prop
  | .add _ => list.size ≠ 0
  | .remove index => list.size ≤ index + 1
  | .get _ => True
  | .set _ _ => True
  | .clear index => cowListGet list index = none

def CowOp.Done : CowOp α → CowResult α → Prop
  | .add _, .position index => index ≠ 0
  | .set _ _, .done ok => ok = true
  | _, _ => True

variable {done : CowOp α → CowResult α → Prop} {list : CowList α} {op : CowOp α} {index : ℕ}

theorem CowOp.settles_of_eq {heap : List Bool} (hrun : (op.run list heap).1.toList = list.toList)
    (hpure : (op.runPure list.toList).1 = list.toList) : op.Settles done list heap := by
  by_cases hdone : done op (op.run list heap).2
  · exact .inl ⟨hrun.trans hpure.symm, hdone⟩
  · exact .inr ⟨hrun, hdone⟩

theorem cowListAppend_cases (list : CowList α) (element : Option α) (heap : List Bool)
    (h : calculateBlockCount (list.size + 1) ≤ list.blocksCapacity) :
    (cowListAppend list element heap h).1 = (list, 0) ∨
      ((cowListAppend list element heap h).1.1.toList = list.toList ++ [element] ∧
        (cowListAppend list element heap h).1.2 = list.size) := by
  -- the result with memory does not depend on the later outcomes
  obtain ⟨list', heap', hok, hlist, -⟩ := cowListAppend_spec list element h (not_mem_nil : false ∉ [])
  unfold cowListAppend at hok ⊢
  cases hmalloc : malloc heap with
  | mk ok rest =>
    cases ok with
    | false => exact .inl rfl
    | true =>
      refine .inr ⟨?_, rfl⟩
      exact (congrArg (fun r => r.1.1.toList) hok).trans hlist

/-- `cow_list_add` leaves the list as it is and returns 0, or appends the element and returns its
position. -/
theorem cowListAdd_cases (list : CowList α) (element : Option α) (heap : List Bool) :
    ((cowListAdd list element heap).1.1.toList = list.toList ∧ (cowListAdd list element heap).1.2 = 0) ∨
      ((cowListAdd list element heap).1.1.toList = list.toList ++ [element] ∧
        (cowListAdd list element heap).1.2 = list.size) := by
  unfold cowListAdd
  split
  · cases hmalloc : malloc heap with
    | mk ok rest =>
      cases ok with
      | false => exact .inl ⟨rfl, rfl⟩
      | true =>
        rcases cowListAppend_cases { list with
          blocksCapacity := list.blocksCapacity * 2
          le_capacity := by have := list.le_capacity; omega
          capacity_pos := by have := list.capacity_pos; omega } element rest
            list.le_double_capacity with h | h
        · exact .inl ⟨congrArg (fun r => r.1.toList) h, congrArg Prod.snd h⟩
        · exact .inr h
  · rename_i hroom
    rcases cowListAppend_cases list element heap (Nat.le_of_not_lt hroom) with h | h
    · exact .inl ⟨congrArg (fun r => r.1.toList) h, congrArg Prod.snd h⟩
    · exact .inr h

theorem cowListSet_cases (list : CowList α) (index : ℕ) (element : Option α) (heap : List Bool) :
    ((cowListSet list index element heap).1.1 = list ∧ (cowListSet list index element heap).1.2 = false) ∨
      ((cowListSet list index element heap).1.1.toList = list.toList.set index element ∧
        (cowListSet list index element heap).1.2 = true) := by
  unfold cowListSet
  split
  · exact .inl ⟨rfl, rfl⟩
  · cases hmalloc : malloc heap with
    | mk ok rest =>
      cases ok with
      | false => exact .inl ⟨rfl, rfl⟩
      | true => exact .inr ⟨list.toList_write index element, rfl⟩

theorem cowListClear_none (h : cowListGet list index = none) (heap : List Bool) :
    (cowListClear list index heap).1.1 = list := by
  unfold cowListClear
  split
  · rfl
  · rename_i hindex
    have hat : list.at index = none := by
      rw [← h]
      exact (if_neg hindex).symm
    rw [hat]

theorem set_none_of_get (h : cowListGet list index = none) : list.toList.set index none = list.toList := by
  apply ext_getElem
  · simp
  · intro j hj hj'
    rw [getElem_set]
    split
    · rename_i hij
      subst hij
      rw [CowList.get_eq, List.getElem?_eq_getElem hj'] at h
      exact h.symm
    · rfl

theorem CowOp.settles (h : op.Atomic list) (heap : List Bool) : op.Settles CowOp.Done list heap := by
  cases op with
  | add element =>
    rcases cowListAdd_cases list element heap with ⟨hlist, hret⟩ | ⟨hlist, hret⟩
    · exact .inr ⟨hlist, fun hdone => hdone hret⟩
    · refine .inl ⟨hlist, fun hzero => h ?_⟩
      rw [← hret]
      exact hzero
  | remove index =>
    by_cases hlast : index + 1 = list.size
    · refine .inl ⟨?_, trivial⟩
      have hremove := cowListRemove_last list heap hlast
      refine hremove.trans ?_
      simp only [CowOp.runPure]
      rw [dropLast_eq_eraseIdx (by simpa using hlast)]
    · have hindex : list.size ≤ index := by
        have hatomic : list.size ≤ index + 1 := h
        omega
      apply CowOp.settles_of_eq
      · exact congrArg (fun r => r.1.1.toList) (cowListRemove_of_le list heap hindex)
      · exact eraseIdx_of_length_le (by simpa using hindex)
  | get index => exact CowOp.settles_of_eq rfl rfl
  | set index element =>
    rcases cowListSet_cases list index element heap with ⟨hlist, hret⟩ | ⟨hlist, hret⟩
    · refine .inr ⟨congrArg CowList.toList hlist, fun hdone => ?_⟩
      exact Bool.false_ne_true (hret.symm.trans hdone)
    · exact .inl ⟨hlist, hret⟩
  | clear index =>
    apply CowOp.settles_of_eq
    · exact congrArg CowList.toList (cowListClear_none h heap)
    · exact set_none_of_get h

/-- A call that returns the same value when its first allocation fails and it changes nothing as
when it has changed something. -/
theorem CowOp.not_settles (hfail : (op.run list [false]).1.toList = list.toList)
    (hret : (op.run list [false]).2 = (op.run list []).2) (hne : (op.runPure list.toList).1 ≠ list.toList) :
    ¬∀ heap, op.Settles done list heap := by
  intro h
  have hok := congrArg Prod.fst (CowOp.run_eq list op (not_mem_nil : false ∉ []))
  dsimp only at hok
  rcases h [] with ⟨-, hdone⟩ | ⟨hlist, -⟩
  · rcases h [false] with ⟨hlist, -⟩ | ⟨-, hnot⟩
    · exact hne (hlist.symm.trans hfail)
    · exact hnot (hret ▸ hdone)
  · exact hne (hok.symm.trans hlist)

theorem cowListAdd_empty (h : list.size = 0) (element : Option α) :
    (cowListAdd list element [false]).1 = (list, 0) ∧ (cowListAdd list element []).1.2 = 0 := by
  have hroom : ¬calculateBlockCount (list.size + 1) > list.blocksCapacity := by
    have hpos := list.capacity_pos
    have hone : calculateBlockCount (0 + 1) = 1 := rfl
    rw [h, hone]
    omega
  unfold cowListAdd
  rw [dif_neg hroom, dif_neg hroom]
  exact ⟨rfl, h⟩

theorem cowListRemove_fails (h : index + 1 < list.size) :
    (cowListRemove list index [false]).1 = (list, list.at index) := by
  unfold cowListRemove
  rw [if_neg (by omega), show list.size - 1 - index = list.size - 1 - index - 1 + 1 by omega]
  simp [cowListShift, malloc]

theorem cowListClear_fails {element : α} (h : cowListGet list index = some element) :
    (cowListClear list index [false]).1 = (list, some element) ∧
      (cowListClear list index []).1.2 = some element := by
  have hindex : ¬index ≥ list.size := by
    intro hge
    rw [cowListGet, if_pos hge] at h
    simp at h
  rw [cowListGet, if_neg hindex] at h
  unfold cowListClear
  rw [if_neg hindex, if_neg hindex, h]
  exact ⟨rfl, rfl⟩

theorem CowOp.atomic_of_settles (h : ∀ heap, op.Settles done list heap) : op.Atomic list := by
  by_contra hnot
  cases op with
  | add element =>
    have hsize : list.size = 0 := not_not.mp hnot
    obtain ⟨hfail, hok⟩ := cowListAdd_empty hsize element
    refine CowOp.not_settles ?_ ?_ ?_ h
    · exact congrArg (fun r => r.1.toList) hfail
    · exact congrArg CowResult.position ((congrArg Prod.snd hfail).trans hok.symm)
    · simp [CowOp.runPure]
  | remove index =>
    have hindex : index + 1 < list.size := not_le.mp hnot
    have hfail := cowListRemove_fails hindex
    obtain ⟨list', heap', hok, -, -⟩ := cowListRemove_spec list
      (Nat.lt_of_succ_lt hindex) (not_mem_nil : false ∉ [])
    refine CowOp.not_settles ?_ ?_ ?_ h
    · exact congrArg (fun r => r.1.toList) hfail
    · have hret := congrArg (fun r => r.1.2) hok
      exact congrArg CowResult.element ((congrArg Prod.snd hfail).trans hret.symm)
    · intro heq
      have hlen := congrArg length heq
      simp only [CowOp.runPure] at hlen
      rw [length_eraseIdx_of_lt (by simp; omega)] at hlen
      simp at hlen
      omega
  | get index => exact hnot trivial
  | set index element => exact hnot trivial
  | clear index =>
    obtain ⟨element, hget⟩ := Option.ne_none_iff_exists'.mp hnot
    obtain ⟨hfail, hok⟩ := cowListClear_fails hget
    refine CowOp.not_settles ?_ ?_ ?_ h
    · exact congrArg (fun r => r.1.toList) hfail
    · exact congrArg CowResult.element ((congrArg Prod.snd hfail).trans hok.symm)
    · intro heq
      rw [CowList.get_eq] at hget
      have hset : (list.toList.set index none)[index]?.join = some element := by
        rw [show list.toList.set index none = list.toList from heq]
        exact hget
      by_cases hindex : index < list.toList.length
      · rw [List.getElem?_set_self hindex] at hset
        simp at hset
      · rw [List.getElem?_eq_none (by simpa using hindex)] at hset
        simp at hset

/-- However its result is read, a call settles under every pattern of failures only if it adds to a
list that is not empty, removes the last element, clears nothing, or sets an element; and one way
of reading the results is right for all these calls. -/
theorem cowList_atomic_iff :
    (∀ (done : CowOp α → CowResult α → Prop) (list : CowList α) (op : CowOp α),
        (∀ heap, op.Settles done list heap) → op.Atomic list) ∧
      ∃ done : CowOp α → CowResult α → Prop, ∀ (list : CowList α) (op : CowOp α),
        (∀ heap, op.Settles done list heap) ↔ op.Atomic list :=
  ⟨fun _ _ _ => CowOp.atomic_of_settles,
    CowOp.Done, fun _ _ => ⟨CowOp.atomic_of_settles, CowOp.settles⟩⟩

/-- The list with the elements 7, 8, and `cow_list_remove` of the first without memory. -/
theorem cowListRemove_not_told :
    let list : CowList ℕ := (CowOp.runAll CowList.empty [(.add (some 7), []), (.add (some 8), [])]).1
    ∀ done : CowOp ℕ → CowResult ℕ → Prop,
      ¬∀ heap, (CowOp.remove 0).Settles done list heap := by
  intro list done h
  have hatomic : list.size ≤ 0 + 1 := CowOp.atomic_of_settles h
  exact absurd hatomic (by decide)

end CoolPotOS
