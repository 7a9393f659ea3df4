import CoolPotOS.Machine

namespace CoolPotOS

open Function List

def cowBlockSize : ℕ := 64

def calculateBlockCount (totalSize : ℕ) : ℕ :=
  if totalSize = 0 then 0 else (totalSize + cowBlockSize - 1) / cowBlockSize

theorem calculateBlockCount_mono {m n : ℕ} (h : m ≤ n) : calculateBlockCount m ≤ calculateBlockCount n := by
  unfold calculateBlockCount cowBlockSize
  split_ifs <;> omega

theorem calculateBlockCount_succ_le (n : ℕ) : calculateBlockCount (n + 1) ≤ calculateBlockCount n + 1 := by
  unfold calculateBlockCount cowBlockSize
  split_ifs <;> omega

/-- `cow_arraylist`. `blocks k j` is `blocks[k]->elements[j]`, with `none` for `NULL`. Every change
copies the block it writes to and no block is ever shared, so that the model writes to the block
itself. -/
structure CowList (α : Type*) where
  blocks : ℕ → ℕ → Option α
  blockCount : ℕ
  blocksCapacity : ℕ
  size : ℕ
  count_eq : blockCount = calculateBlockCount size
  le_capacity : blockCount ≤ blocksCapacity
  capacity_pos : 0 < blocksCapacity

variable {α : Type*}

/-- What `cow_list_create` returns when its allocations succeed. -/
def CowList.empty : CowList α where
  blocks := fun _ _ => none
  blockCount := 0
  blocksCapacity := 4
  size := 0
  count_eq := rfl
  le_capacity := by norm_num
  capacity_pos := by norm_num

def cowListCreate (heap : List Bool) : Option (CowList α) × List Bool :=
  match malloc heap with
  | (false, heap) => (none, heap)
  | (true, heap) =>
    match malloc heap with
    | (false, heap) => (none, heap)
    | (true, heap) => (some CowList.empty, heap)

def CowList.at (list : CowList α) (i : ℕ) : Option α :=
  list.blocks (i / cowBlockSize) (i % cowBlockSize)

/-- Replaces the element at a position of the table of blocks. -/
def CowList.write (list : CowList α) (i : ℕ) (element : Option α) : CowList α :=
  { list with
    blocks := Function.update list.blocks (i / cowBlockSize)
      (Function.update (list.blocks (i / cowBlockSize)) (i % cowBlockSize) element) }

def cowListGet (list : CowList α) (index : ℕ) : Option α :=
  if index ≥ list.size then none else list.at index

/-- `cow_list_set`; it returns whether it wrote the element. -/
def cowListSet (list : CowList α) (index : ℕ) (element : Option α) (heap : List Bool) :
    (CowList α × Bool) × List Bool :=
  if index ≥ list.size then ((list, false), heap)
  else
    match malloc heap with
    | (false, heap) => ((list, false), heap)
    | (true, heap) => ((list.write index element, true), heap)

/-- `cow_list_clear`; it returns the element that was there, also when it could not clear
it. -/
def cowListClear (list : CowList α) (index : ℕ) (heap : List Bool) :
    (CowList α × Option α) × List Bool :=
  if index ≥ list.size then ((list, none), heap)
  else
    match list.at index with
    | none => ((list, none), heap)
    | some element =>
      match malloc heap with
      | (false, heap) => ((list, some element), heap)
      | (true, heap) => ((list.write index none, some element), heap)

/-- `cow_list_add` once the table of blocks is large enough: a new last block, or a
copy of the last block, takes the element. -/
def cowListAppend (list : CowList α) (element : Option α) (heap : List Bool)
    (h : calculateBlockCount (list.size + 1) ≤ list.blocksCapacity) :
    (CowList α × ℕ) × List Bool :=
  match malloc heap with
  | (false, heap) => ((list, 0), heap)
  | (true, heap) =>
    let target := calculateBlockCount (list.size + 1) - 1
    let block : ℕ → Option α :=
      if calculateBlockCount (list.size + 1) > list.blockCount then fun _ => none
      else list.blocks target
    ((⟨Function.update list.blocks target
          (Function.update block (list.size % cowBlockSize) element),
        calculateBlockCount (list.size + 1), list.blocksCapacity, list.size + 1, rfl, h,
        list.capacity_pos⟩, list.size), heap)

theorem CowList.le_double_capacity (list : CowList α) :
    calculateBlockCount (list.size + 1) ≤ list.blocksCapacity * 2 := by
  have hcount := list.count_eq
  have hle := list.le_capacity
  have hpos := list.capacity_pos
  have := calculateBlockCount_succ_le list.size
  omega

/-- `cow_list_add`; it returns 0 when an allocation fails. -/
def cowListAdd (list : CowList α) (element : Option α) (heap : List Bool) :
    (CowList α × ℕ) × List Bool :=
  if h : calculateBlockCount (list.size + 1) > list.blocksCapacity then
    match malloc heap with
    | (false, heap) => ((list, 0), heap)
    | (true, heap) =>
      let grown := { list with
        blocksCapacity := list.blocksCapacity * 2
        le_capacity := by have := list.le_capacity; omega
        capacity_pos := by have := list.capacity_pos; omega }
      cowListAppend grown element heap list.le_double_capacity
  else
    cowListAppend list element heap (Nat.le_of_not_lt h)

/-- The loop of `cow_list_remove` that moves the elements behind `index` down by one.
The block written to is copied at the first step and at the start of each block; when
that allocation fails the loop stops. -/
def cowListShift (index : ℕ) : ℕ → ℕ → CowList α → List Bool → (CowList α × Bool) × List Bool
  | 0, _, list, heap => ((list, true), heap)
  | n + 1, i, list, heap =>
    if i = index ∨ i % cowBlockSize = 0 then
      match malloc heap with
      | (false, heap) => ((list, false), heap)
      | (true, heap) => cowListShift index n (i + 1) (list.write i (list.at (i + 1))) heap
    else
      cowListShift index n (i + 1) (list.write i (list.at (i + 1))) heap

theorem calculateBlockCount_le_pred_succ (n : ℕ) :
    calculateBlockCount n ≤ calculateBlockCount (n - 1) + 1 := by
  unfold calculateBlockCount cowBlockSize
  split_ifs <;> omega

/-- The end of `cow_list_remove`: an emptied last block is released, else the last
element is cleared in a copy of its block, if there is memory for one. -/
def cowListDropLast (list : CowList α) (heap : List Bool) : CowList α × List Bool :=
  if hcount : calculateBlockCount (list.size - 1) < list.blockCount then
    (⟨Function.update list.blocks (list.blockCount - 1) fun _ => none, list.blockCount - 1,
        list.blocksCapacity, list.size - 1, by
          have hc := list.count_eq
          have := calculateBlockCount_le_pred_succ list.size
          omega, by
          have := list.le_capacity
          omega, list.capacity_pos⟩, heap)
  else
    let cleared := if (malloc heap).1 then list.write (list.size - 1) none else list
    (⟨cleared.blocks, list.blockCount, list.blocksCapacity, list.size - 1, by
        have hc := list.count_eq
        have := calculateBlockCount_mono (Nat.sub_le list.size 1)
        omega, list.le_capacity, list.capacity_pos⟩, (malloc heap).2)

/-- `cow_list_remove`; it returns the element at `index`, also when an allocation
fails half way. -/
def cowListRemove (list : CowList α) (index : ℕ) (heap : List Bool) :
    (CowList α × Option α) × List Bool :=
  if index ≥ list.size then ((list, none), heap)
  else
    let removed := list.at index
    match cowListShift index (list.size - 1 - index) index list heap with
    | ((list, false), heap) => ((list, removed), heap)
    | ((list, true), heap) =>
      let (list, heap) := cowListDropLast list heap
      ((list, removed), heap)

namespace CowList

def toList (list : CowList α) : List (Option α) := (List.range list.size).map list.at

@[simp]
theorem length_toList (list : CowList α) : list.toList.length = list.size := by
  simp [toList]

theorem toList_getElem (list : CowList α) {i : ℕ} (h : i < list.toList.length) :
    list.toList[i] = list.at i := by
  simp [toList]

@[simp]
theorem toList_empty : (CowList.empty : CowList α).toList = [] := rfl

theorem get_eq (list : CowList α) (i : ℕ) : cowListGet list i = list.toList[i]?.join := by
  unfold cowListGet
  by_cases hi : i < list.size
  · rw [if_neg (by omega), List.getElem?_eq_getElem (by simpa using hi), toList_getElem]
    rfl
  · rw [if_pos (by omega), List.getElem?_eq_none (by simpa using hi)]
    rfl

theorem block_index_inj {i j : ℕ} (hdiv : i / cowBlockSize = j / cowBlockSize)
    (hmod : i % cowBlockSize = j % cowBlockSize) : i = j := by
  rw [← Nat.div_add_mod i cowBlockSize, hdiv, hmod, Nat.div_add_mod]

theorem update_block (blocks : ℕ → ℕ → Option α) (block : ℕ → Option α) (i j : ℕ) (element : Option α)
    (h : j / cowBlockSize = i / cowBlockSize → j ≠ i →
      block (j % cowBlockSize) = blocks (i / cowBlockSize) (j % cowBlockSize)) :
    update blocks (i / cowBlockSize)
        (update block (i % cowBlockSize) element) (j / cowBlockSize) (j % cowBlockSize) =
      if j = i then element else blocks (j / cowBlockSize) (j % cowBlockSize) := by
  by_cases hij : j = i
  · subst hij
    simp
  · rw [if_neg hij]
    by_cases hdiv : j / cowBlockSize = i / cowBlockSize
    · have hmod : j % cowBlockSize ≠ i % cowBlockSize := fun hm => hij (block_index_inj hdiv hm)
      rw [hdiv, update_self, update_of_ne hmod, h hdiv hij]
    · rw [update_of_ne hdiv]

@[simp]
theorem at_write (list : CowList α) (i j : ℕ) (element : Option α) :
    (list.write i element).at j = if j = i then element else list.at j :=
  update_block _ _ _ _ _ fun _ _ => rfl

@[simp]
theorem size_write (list : CowList α) (i : ℕ) (element : Option α) :
    (list.write i element).size = list.size := rfl

end CowList

theorem calculateBlockCount_succ (n : ℕ) : calculateBlockCount (n + 1) - 1 = n / cowBlockSize ∧
      (calculateBlockCount n < calculateBlockCount (n + 1) ↔ n % cowBlockSize = 0) := by
  have hsucc : calculateBlockCount (n + 1) = n / cowBlockSize + 1 := by
    unfold calculateBlockCount cowBlockSize
    rw [if_neg n.succ_ne_zero]
    omega
  refine ⟨by rw [hsucc, Nat.add_sub_cancel], ?_⟩
  rw [hsucc]
  unfold calculateBlockCount cowBlockSize
  split_ifs <;> omega

variable {heap : List Bool} {index : ℕ}

theorem cowListAppend_spec (list : CowList α) (element : Option α)
    (h : calculateBlockCount (list.size + 1) ≤ list.blocksCapacity) (hheap : false ∉ heap) :
    ∃ list' heap', cowListAppend list element heap h = ((list', list.size), heap') ∧
      list'.toList = list.toList ++ [element] ∧ false ∉ heap' := by
  obtain ⟨heap', hmalloc, hheap'⟩ := malloc_of_ok hheap
  obtain ⟨htarget, hnew⟩ := calculateBlockCount_succ list.size
  refine ⟨_, heap', by rw [cowListAppend, hmalloc], ?_, hheap'⟩
  -- below the old size nothing changes: a new block starts at the old size
  have hat : ∀ j ≤ list.size, update list.blocks (calculateBlockCount (list.size + 1) - 1)
      (update (if calculateBlockCount (list.size + 1) > list.blockCount then fun _ => none
        else list.blocks (calculateBlockCount (list.size + 1) - 1)) (list.size % cowBlockSize)
        element) (j / cowBlockSize) (j % cowBlockSize) =
      if j = list.size then element else list.at j := by
    intro j hj
    rw [htarget]
    apply CowList.update_block
    intro hdiv hne
    rw [if_neg]
    rw [gt_iff_lt, list.count_eq, hnew]
    unfold cowBlockSize at hdiv ⊢
    omega
  unfold CowList.toList
  rw [range_succ, map_append, map_singleton]
  congr 1
  · apply map_congr_left
    intro j hj
    rw [mem_range] at hj
    refine (hat j hj.le).trans ?_
    rw [if_neg hj.ne]
  · exact congrArg (fun x => [x]) ((hat list.size le_rfl).trans (if_pos rfl))

theorem cowListAdd_spec (list : CowList α) (element : Option α) (hheap : false ∉ heap) :
    ∃ list' heap', cowListAdd list element heap = ((list', list.size), heap') ∧
      list'.toList = list.toList ++ [element] ∧ false ∉ heap' := by
  unfold cowListAdd
  split
  · obtain ⟨heap', hmalloc, hheap'⟩ := malloc_of_ok hheap
    simp only [hmalloc]
    apply cowListAppend_spec
    exact hheap'
  · exact cowListAppend_spec list element _ hheap

theorem cowListShift_spec (index n i : ℕ) (list : CowList α) (hheap : false ∉ heap) :
    ∃ list' heap', cowListShift index n i list heap = ((list', true), heap') ∧
      list'.size = list.size ∧ false ∉ heap' ∧
      ∀ j, list'.at j = if i ≤ j ∧ j < i + n then list.at (j + 1) else list.at j := by
  induction n generalizing i list heap with
  | zero =>
    refine ⟨list, heap, rfl, rfl, hheap, fun j => ?_⟩
    rw [if_neg (by omega)]
  | succ n ih =>
    -- both branches go on with the same list
    have hnext : ∀ heap, false ∉ heap → ∃ list' heap',
        cowListShift index n (i + 1) (list.write i (list.at (i + 1))) heap =
          ((list', true), heap') ∧ list'.size = list.size ∧ false ∉ heap' ∧
        ∀ j, list'.at j = if i ≤ j ∧ j < i + (n + 1) then list.at (j + 1) else list.at j := by
      intro heap hheap
      obtain ⟨list', heap', hrun, hsize, hheap', hat⟩ := ih (i + 1) (list.write i (list.at (i + 1))) hheap
      refine ⟨list', heap', hrun, hsize, hheap', fun j => ?_⟩
      rw [hat j, CowList.at_write, CowList.at_write]
      by_cases hj : j = i
      · rw [if_neg (by omega), if_pos hj, if_pos (by omega), hj]
      · by_cases hin : i + 1 ≤ j ∧ j < i + 1 + n
        · rw [if_pos hin, if_neg (by omega), if_pos (by omega)]
        · rw [if_neg hin, if_neg hj, if_neg (by omega)]
    unfold cowListShift
    split
    · obtain ⟨heap', hmalloc, hheap'⟩ := malloc_of_ok hheap
      rw [hmalloc]
      exact hnext heap' hheap'
    · exact hnext heap hheap

theorem cowListDropLast_spec (list : CowList α) (heap : List Bool) :
    (cowListDropLast list heap).1.size = list.size - 1 ∧
      ∀ j < list.size - 1, (cowListDropLast list heap).1.at j = list.at j := by
  unfold cowListDropLast
  split
  case isTrue hcount =>
    refine ⟨rfl, fun j hj => ?_⟩
    have hblock : j / cowBlockSize ≠ list.blockCount - 1 := by
      have hc := list.count_eq
      unfold calculateBlockCount cowBlockSize at *
      split_ifs at hc hcount <;> omega
    change update list.blocks (list.blockCount - 1) (fun _ => none) (j / cowBlockSize)
      (j % cowBlockSize) = list.at j
    rw [update_of_ne hblock]
    rfl
  case isFalse hcount =>
    refine ⟨rfl, fun j hj => ?_⟩
    have hwrite := CowList.at_write list (list.size - 1) j none
    rw [if_neg hj.ne] at hwrite
    change (if (malloc heap).1 = true then list.write (list.size - 1) none else list).at j = list.at j
    split
    · exact hwrite
    · rfl

theorem cowListDropLast_heap (list : CowList α) (hheap : false ∉ heap) :
    false ∉ (cowListDropLast list heap).2 := by
  obtain ⟨heap', hmalloc, hheap'⟩ := malloc_of_ok hheap
  unfold cowListDropLast
  rw [hmalloc]
  split
  · exact hheap
  · exact hheap'

theorem cowListRemove_spec (list : CowList α) (hindex : index < list.size) (hheap : false ∉ heap) :
    ∃ list' heap', cowListRemove list index heap = ((list', list.at index), heap') ∧
      list'.toList = list.toList.eraseIdx index ∧ false ∉ heap' := by
  obtain ⟨moved, heap', hshift, hsize, hheap', hat⟩ :=
    cowListShift_spec index (list.size - 1 - index) index list hheap
  obtain ⟨hsize', hlast⟩ := cowListDropLast_spec moved heap'
  have hheap'' := cowListDropLast_heap moved hheap'
  refine ⟨(cowListDropLast moved heap').1, (cowListDropLast moved heap').2, ?_, ?_, hheap''⟩
  · unfold cowListRemove
    rw [if_neg (by omega), hshift]
  · apply ext_getElem
    · rw [length_eraseIdx_of_lt (by simpa using hindex)]
      simp [hsize', hsize]
    · intro j hj hj'
      have hjs : j < list.size - 1 := by simpa [hsize', hsize] using hj
      rw [CowList.toList_getElem, hlast j (by omega), hat j, getElem_eraseIdx]
      by_cases hlt : j < index
      · rw [if_neg (by omega), dif_pos hlt, CowList.toList_getElem]
      · rw [if_pos (by omega), dif_neg hlt, CowList.toList_getElem]

theorem cowListRemove_last (list : CowList α) (heap : List Bool) (hindex : index + 1 = list.size) :
    (cowListRemove list index heap).1.1.toList = list.toList.dropLast := by
  have hmoved : cowListShift index (list.size - 1 - index) index list heap = ((list, true), heap) := by
    rw [show list.size - 1 - index = 0 by omega]
    rfl
  obtain ⟨hsize, hlast⟩ := cowListDropLast_spec list heap
  unfold cowListRemove
  rw [if_neg (by omega), hmoved]
  apply ext_getElem
  · simp [hsize]
  · intro j hj hj'
    rw [CowList.toList_getElem, hlast j (by simpa [hsize] using hj), getElem_dropLast,
      CowList.toList_getElem]

theorem cowListRemove_of_le (list : CowList α) (heap : List Bool) (hindex : list.size ≤ index) :
    cowListRemove list index heap = ((list, none), heap) :=
  if_pos hindex

theorem CowList.find_entry [DecidableEq α] (list : CowList α) (x : α) {elements : List α}
    (hlist : list.toList = elements.map some) (hnodup : elements.Nodup) :
    (x ∉ elements ∧ (range list.size).find? (fun i => cowListGet list i = some x) = none) ∨
    x ∈ elements ∧ ∃ i, (range list.size).find? (fun i => cowListGet list i = some x) = some i ∧
      i < list.size ∧ list.toList.eraseIdx i = (elements.erase x).map some := by
  have hentry : ∀ i, cowListGet list i = some x ↔ elements[i]? = some x := by
    intro i
    rw [CowList.get_eq, hlist, List.getElem?_map]
    cases elements[i]? <;> simp
  cases hfind : (range list.size).find? fun i => cowListGet list i = some x with
  | none =>
    refine .inl ⟨fun hmem => ?_, rfl⟩
    obtain ⟨i, hi⟩ := mem_iff_getElem?.mp hmem
    have hlt : i < list.size := by
      rw [← list.length_toList, hlist, length_map]
      exact (List.getElem?_eq_some_iff.mp hi).1
    have hno := List.find?_eq_none.mp hfind i (mem_range.mpr hlt)
    exact hno (by simpa using (hentry i).mpr hi)
  | some i =>
    have hat := (hentry i).mp (by simpa using List.find?_some hfind)
    have hlt : i < list.size := mem_range.mp (List.mem_of_find?_eq_some hfind)
    obtain ⟨hlt', hx⟩ := List.getElem?_eq_some_iff.mp hat
    refine .inr ⟨hx ▸ getElem_mem hlt', i, rfl, hlt, ?_⟩
    rw [hlist, eraseIdx_map, ← hx, hnodup.erase_getElem]

theorem CowList.toList_write (list : CowList α) (index : ℕ) (element : Option α) :
    (list.write index element).toList = list.toList.set index element := by
  apply ext_getElem
  · simp
  · intro j hj hj'
    rw [CowList.toList_getElem, CowList.at_write, getElem_set]
    by_cases hij : index = j
    · rw [if_pos hij, if_pos hij.symm]
    · rw [if_neg hij, if_neg (Ne.symm hij), CowList.toList_getElem]

theorem CowList.toList_getElem? (list : CowList α) (h : index < list.size) :
    list.toList[index]? = some (list.at index) := by
  unfold CowList.toList
  rw [List.getElem?_map, List.getElem?_range h, Option.map_some]

theorem cowListSet_spec (list : CowList α) (index : ℕ) (element : Option α) (hheap : false ∉ heap) :
    ∃ list' heap', cowListSet list index element heap = ((list', decide (index < list.size)), heap') ∧
      list'.toList = list.toList.set index element ∧ false ∉ heap' := by
  unfold cowListSet
  by_cases h : index ≥ list.size
  · refine ⟨list, heap, ?_, ?_, hheap⟩
    · rw [if_pos h, decide_eq_false h.not_gt]
    · rw [set_eq_of_length_le (by simpa using h)]
  · obtain ⟨heap', hmalloc, hheap'⟩ := malloc_of_ok hheap
    refine ⟨list.write index element, heap', ?_, list.toList_write index element, hheap'⟩
    rw [if_neg h, hmalloc, decide_eq_true (not_le.mp h)]

theorem cowListClear_spec (list : CowList α) (index : ℕ) (hheap : false ∉ heap) :
    ∃ list' heap', cowListClear list index heap = ((list', list.toList[index]?.join), heap') ∧
      list'.toList = list.toList.set index none ∧ false ∉ heap' := by
  unfold cowListClear
  by_cases h : index ≥ list.size
  · refine ⟨list, heap, ?_, ?_, hheap⟩
    · rw [if_pos h, List.getElem?_eq_none (by simpa using h)]
      rfl
    · rw [set_eq_of_length_le (by simpa using h)]
  · rw [if_neg h, list.toList_getElem? (not_le.mp h), Option.join_some]
    cases hat : list.at index with
    | none =>
      refine ⟨list, heap, rfl, ?_, hheap⟩
      have hlt : index < list.toList.length := by simpa using h
      rw [← hat, ← CowList.toList_getElem list hlt, set_getElem_self]
    | some element =>
      obtain ⟨heap', hmalloc, hheap'⟩ := malloc_of_ok hheap
      refine ⟨list.write index none, heap', ?_, list.toList_write index none, hheap'⟩
      rw [hmalloc]

/-- The calls that use a list. An element may be `NULL`. -/
inductive CowOp (α : Type*)
  | add (element : Option α)
  | remove (index : ℕ)
  | get (index : ℕ)
  | set (index : ℕ) (element : Option α)
  | clear (index : ℕ)

/-- What a call returns: a position, an element, or whether it did its work. -/
inductive CowResult (α : Type*)
  | position (index : ℕ)
  | element (element : Option α)
  | done (ok : Bool)
  deriving DecidableEq

def CowOp.run (list : CowList α) (heap : List Bool) : CowOp α → CowList α × CowResult α
  | .add element =>
    let ((list, index), _) := cowListAdd list element heap
    (list, .position index)
  | .remove index =>
    let ((list, element), _) := cowListRemove list index heap
    (list, .element element)
  | .get index => (list, .element (cowListGet list index))
  | .set index element =>
    let ((list, ok), _) := cowListSet list index element heap
    (list, .done ok)
  | .clear index =>
    let ((list, element), _) := cowListClear list index heap
    (list, .element element)

def CowOp.runPure (elements : List (Option α)) : CowOp α → List (Option α) × CowResult α
  | .add element => (elements ++ [element], .position elements.length)
  | .remove index => (elements.eraseIdx index, .element elements[index]?.join)
  | .get index => (elements, .element elements[index]?.join)
  | .set index element => (elements.set index element, .done (index < elements.length))
  | .clear index => (elements.set index none, .element elements[index]?.join)

/-- With memory at hand, a call does to the list what it does to the sequence of its elements, and
returns the same. -/
theorem CowOp.run_eq (list : CowList α) (op : CowOp α) (hheap : false ∉ heap) :
    ((op.run list heap).1.toList, (op.run list heap).2) = op.runPure list.toList := by
  cases op with
  | add element =>
    obtain ⟨list', heap', hadd, hlist, -⟩ := cowListAdd_spec list element hheap
    simp only [CowOp.run, CowOp.runPure, hadd, hlist, CowList.length_toList]
  | remove index =>
    by_cases h : index < list.size
    · obtain ⟨list', heap', hremove, hlist, -⟩ := cowListRemove_spec list h hheap
      simp only [CowOp.run, CowOp.runPure, hremove, hlist, list.toList_getElem? h, Option.join_some]
    · have hle : list.toList.length ≤ index := by simpa using h
      simp only [CowOp.run, CowOp.runPure, cowListRemove_of_le list heap (not_lt.mp h),
        eraseIdx_of_length_le hle, List.getElem?_eq_none hle, Option.join_none]
  | get index => simp only [CowOp.run, CowOp.runPure, CowList.get_eq]
  | set index element =>
    obtain ⟨list', heap', hset, hlist, -⟩ := cowListSet_spec list index element hheap
    simp only [CowOp.run, CowOp.runPure, hset, hlist, CowList.length_toList]
  | clear index =>
    obtain ⟨list', heap', hclear, hlist, -⟩ := cowListClear_spec list index hheap
    simp only [CowOp.run, CowOp.runPure, hclear, hlist]

def CowOp.runAll (list : CowList α) : List (CowOp α × List Bool) → CowList α × List (CowResult α)
  | [] => (list, [])
  | (op, heap) :: ops =>
    ((CowOp.runAll (op.run list heap).1 ops).1,
      (op.run list heap).2 :: (CowOp.runAll (op.run list heap).1 ops).2)

def CowOp.runAllPure (elements : List (Option α)) :
    List (CowOp α) → List (Option α) × List (CowResult α)
  | [] => (elements, [])
  | op :: ops =>
    ((CowOp.runAllPure (op.runPure elements).1 ops).1,
      (op.runPure elements).2 :: (CowOp.runAllPure (op.runPure elements).1 ops).2)

/-- Every history of calls whose allocations succeed gives the elements and the results that it
gives on a sequence. -/
theorem cowList_refines_sequence (list : CowList α) (ops : List (CowOp α × List Bool))
    (hheap : ∀ call ∈ ops, false ∉ call.2) :
    ((CowOp.runAll list ops).1.toList, (CowOp.runAll list ops).2) =
      CowOp.runAllPure list.toList (ops.map Prod.fst) := by
  induction ops generalizing list with
  | nil => rfl
  | cons call ops ih =>
    obtain ⟨op, heap⟩ := call
    have hstep := CowOp.run_eq list op (hheap (op, heap) List.mem_cons_self)
    have hrest := ih (op.run list heap).1 fun c hc => hheap c (List.mem_cons_of_mem _ hc)
    rw [Prod.ext_iff] at hstep hrest
    simp only [CowOp.runAll, CowOp.runAllPure, List.map_cons, ← hstep.1, ← hstep.2, ← hrest.1,
      ← hrest.2]

theorem cowList_refines_add_remove :
    (CowOp.runAll CowList.empty [(.add (some 7), []), (.add (some 8), []), (.remove 0, [true])]).2 =
      [.position 0, .position 1, .element (some 7)] :=
  congrArg Prod.snd (cowList_refines_sequence CowList.empty
    [(.add (some 7), []), (.add (some 8), []), (.remove 0, [true])] (by simp))

end CoolPotOS
