import CoolPotOS.Util.CowList

namespace CoolPotOS

open Function List

variable {β : Type*}

def hashPtr (ptr : ℕ) : ℕ := wrap (ptr / 2 ^ 4 * 2654435761)

/-- `struct map`: the chain of bucket `i` is `buckets i`. -/
structure HashMap (β : Type*) where
  buckets : ℕ → List (ℕ × β)
  capacity : ℕ
  size : ℕ
  capacity_pos : 0 < capacity
  placed : ∀ i, ∀ e ∈ buckets i, hashPtr e.1 % capacity = i
  nodup : ∀ i, ((buckets i).map Prod.fst).Nodup

/-- What `map_create` makes with the memory that it gets, for a capacity that is not 0. -/
def HashMap.empty (capacity : ℕ) (h : 0 < capacity) : HashMap β :=
  ⟨fun _ => [], capacity, 0, h, by simp, by simp⟩

def mapGet (m : HashMap β) (key : ℕ) : Option β :=
  (m.buckets (hashPtr key % m.capacity)).lookup key

def setEntry (key : ℕ) (value : β) : List (ℕ × β) → List (ℕ × β)
  | [] => []
  | e :: chain => if e.1 = key then (key, value) :: chain else e :: setEntry key value chain

theorem keys_setEntry (key : ℕ) (value : β) (chain : List (ℕ × β)) :
    (setEntry key value chain).map Prod.fst = chain.map Prod.fst := by
  induction chain with
  | nil => rfl
  | cons e chain ih =>
    unfold setEntry
    split
    · rename_i h
      simp [h]
    · simp [ih]

variable {chain : List (ℕ × β)} {key : ℕ} {m : HashMap β} {heap : List Bool}

theorem lookup_eq_some_iff_mem (h : (chain.map Prod.fst).Nodup) {value : β} :
    chain.lookup key = some value ↔ (key, value) ∈ chain := by
  induction chain with
  | nil => simp
  | cons e chain ih =>
    obtain ⟨hnot, hnodup⟩ := nodup_cons.mp h
    obtain ⟨k, v⟩ := e
    rw [lookup_cons, mem_cons, Prod.mk.injEq]
    by_cases hk : key = k
    · subst hk
      have habsent : (key, value) ∉ chain := fun hmem =>
        hnot (mem_map.mpr ⟨_, hmem, rfl⟩)
      simp [habsent, eq_comm]
    · rw [show (key == k) = false by simpa using hk]
      simp [hk, ih hnodup]

theorem lookup_eq_none_iff_notMem : chain.lookup key = none ↔ key ∉ chain.map Prod.fst := by
  induction chain with
  | nil => simp
  | cons e chain ih =>
    rw [lookup_cons, map_cons, mem_cons, not_or]
    by_cases hk : key = e.1
    · simp [hk]
    · rw [show (key == e.1) = false by simpa using hk]
      simp [hk, ih]

theorem lookup_setEntry (h : key ∈ chain.map Prod.fst) (value : β) (k : ℕ) :
    (setEntry key value chain).lookup k = if k = key then some value else chain.lookup k := by
  induction chain with
  | nil => simp at h
  | cons e chain ih =>
    unfold setEntry
    by_cases he : e.1 = key
    · rw [if_pos he, lookup_cons, lookup_cons, he]
      by_cases hk : k = key
      · simp [hk]
      · rw [show (k == key) = false by simpa using hk, if_neg hk]
    · have hmem : key ∈ chain.map Prod.fst := by
        rw [map_cons, mem_cons] at h
        exact h.resolve_left fun h => he h.symm
      rw [if_neg he, lookup_cons, lookup_cons, ih hmem]
      by_cases hk : k = e.1
      · simp [hk, he]
      · rw [show (k == e.1) = false by simpa using hk]

theorem lookup_eraseP (h : (chain.map Prod.fst).Nodup) (key k : ℕ) :
    (chain.eraseP fun e => e.1 = key).lookup k = if k = key then none else chain.lookup k := by
  induction chain with
  | nil => simp
  | cons e chain ih =>
    obtain ⟨hnot, hnodup⟩ := nodup_cons.mp h
    by_cases he : e.1 = key
    · rw [eraseP_cons_of_pos (by simpa using he), lookup_cons]
      by_cases hk : k = key
      · rw [if_pos hk, lookup_eq_none_iff_notMem, hk, ← he]
        exact hnot
      · rw [show (k == e.1) = false by simpa [he] using hk, if_neg hk]
    · rw [eraseP_cons_of_neg (by simpa using he), lookup_cons, lookup_cons, ih hnodup]
      by_cases hk : k = e.1
      · simp [hk, he]
      · rw [show (k == e.1) = false by simpa using hk]

/-- The loop of `map_resize` that moves the entries to the new chains. -/
def rehash (capacity : ℕ) (entries : List (ℕ × β)) (buckets : ℕ → List (ℕ × β)) :
    ℕ → List (ℕ × β) :=
  entries.foldl (fun buckets e =>
    Function.update buckets (hashPtr e.1 % capacity) (e :: buckets (hashPtr e.1 % capacity))) buckets

theorem rehash_apply (capacity : ℕ) (entries : List (ℕ × β)) (buckets : ℕ → List (ℕ × β)) (i : ℕ) :
    rehash capacity entries buckets i =
      (entries.filter fun e => hashPtr e.1 % capacity = i).reverse ++ buckets i := by
  induction entries generalizing buckets with
  | nil => rfl
  | cons e entries ih =>
    have hstep : rehash capacity (e :: entries) buckets =
      rehash capacity entries (update buckets (hashPtr e.1 % capacity)
        (e :: buckets (hashPtr e.1 % capacity))) := rfl
    rw [hstep, ih]
    by_cases hi : hashPtr e.1 % capacity = i
    · rw [filter_cons_of_pos (by simpa using hi), hi]
      simp
    · rw [filter_cons_of_neg (by simpa using hi), update_of_ne (Ne.symm hi)]

namespace HashMap

def entries (m : HashMap β) : List (ℕ × β) := (List.range m.capacity).flatMap m.buckets

theorem mem_entries {e : ℕ × β} : e ∈ m.entries ↔ e ∈ m.buckets (hashPtr e.1 % m.capacity) := by
  unfold entries
  rw [mem_flatMap]
  constructor
  · rintro ⟨i, -, he⟩
    rwa [m.placed i e he]
  · intro he
    exact ⟨_, mem_range.mpr (Nat.mod_lt _ m.capacity_pos), he⟩

theorem nodup_keys (m : HashMap β) : (m.entries.map Prod.fst).Nodup := by
  unfold entries
  rw [map_flatMap, nodup_flatMap]
  refine ⟨fun i _ => m.nodup i, nodup_range.imp fun {i j} hij => ?_⟩
  -- equal keys have equal hashes
  intro k hi hj
  obtain ⟨e, he, rfl⟩ := mem_map.mp hi
  obtain ⟨e', he', hk⟩ := mem_map.mp hj
  apply hij
  rw [← m.placed i e he, ← m.placed j e' he', hk]

theorem get_eq_some_iff {value : β} : mapGet m key = some value ↔ (key, value) ∈ m.entries := by
  rw [mem_entries]
  exact lookup_eq_some_iff_mem (m.nodup _)

end HashMap

/-- `map_resize`; without memory the table stays as it is. -/
def mapResize (m : HashMap β) (heap : List Bool) : HashMap β × List Bool :=
  match malloc heap with
  | (false, heap) => (m, heap)
  | (true, heap) =>
    (⟨rehash (m.capacity * 2) m.entries fun _ => [], m.capacity * 2, m.size,
      Nat.mul_pos m.capacity_pos two_pos, by
        intro i e he
        rw [rehash_apply, List.append_nil, List.mem_reverse, List.mem_filter] at he
        simpa using he.2, by
        intro i
        rw [rehash_apply, List.append_nil, List.map_reverse, List.nodup_reverse]
        exact m.nodup_keys.sublist (List.filter_sublist.map _)⟩, heap)

/-- The table with another chain in one bucket, without a new key. -/
def HashMap.withChain (m : HashMap β) (i : ℕ) (chain : List (ℕ × β)) (size : ℕ)
    (h : (chain.map Prod.fst).Sublist ((m.buckets i).map Prod.fst)) : HashMap β where
  buckets := Function.update m.buckets i chain
  capacity := m.capacity
  size := size
  capacity_pos := m.capacity_pos
  placed := by
    intro j e he
    by_cases hj : j = i
    · subst hj
      rw [Function.update_self] at he
      obtain ⟨e', he', hk⟩ := List.mem_map.mp (h.subset (List.mem_map_of_mem (f := Prod.fst) he))
      rw [← hk]
      exact m.placed j e' he'
    · rw [Function.update_of_ne hj] at he
      exact m.placed j e he
  nodup := by
    intro j
    by_cases hj : j = i
    · subst hj
      rw [Function.update_self]
      exact (m.nodup j).sublist h
    · rw [Function.update_of_ne hj]
      exact m.nodup j

/-- The entry of a key that is in the table gets another value. -/
def mapReplace (m : HashMap β) (key : ℕ) (value : β) : HashMap β :=
  m.withChain (hashPtr key % m.capacity)
    (setEntry key value (m.buckets (hashPtr key % m.capacity))) m.size
    (by rw [keys_setEntry])

def HashMap.pushEntry (m : HashMap β) (key : ℕ) (value : β)
    (h : key ∉ (m.buckets (hashPtr key % m.capacity)).map Prod.fst) : HashMap β where
  buckets := Function.update m.buckets (hashPtr key % m.capacity)
    ((key, value) :: m.buckets (hashPtr key % m.capacity))
  capacity := m.capacity
  size := m.size + 1
  capacity_pos := m.capacity_pos
  placed := by
    intro i e he
    by_cases hi : i = hashPtr key % m.capacity
    · subst hi
      rw [Function.update_self, List.mem_cons] at he
      rcases he with rfl | he
      · rfl
      · exact m.placed _ e he
    · rw [Function.update_of_ne hi] at he
      exact m.placed i e he
  nodup := by
    intro i
    by_cases hi : i = hashPtr key % m.capacity
    · subst hi
      rw [Function.update_self]
      exact List.nodup_cons.mpr ⟨h, m.nodup _⟩
    · rw [Function.update_of_ne hi]
      exact m.nodup i

/-- `map_set` once there is room: the value of an entry is replaced, or there is a new entry.
There is no test of the memory for the new entry. -/
def mapPut (m : HashMap β) (key : ℕ) (value : β) (heap : List Bool) :
    Option (HashMap β × List Bool) :=
  if h : key ∈ (m.buckets (hashPtr key % m.capacity)).map Prod.fst then
    some (mapReplace m key value, heap)
  else
    match malloc heap with
    | (false, _) => none
    | (true, heap) => some (m.pushEntry key value h, heap)

/-- `map_set`. The quotient of the sizes is compared with 0.75 in floating point, which is exact
for tables of fewer than `2 ^ 52` chains. -/
def mapSet (m : HashMap β) (key : ℕ) (value : β) (heap : List Bool) :
    Option (HashMap β × List Bool) :=
  if 4 * (m.size + 1) > 3 * m.capacity then
    let (m, heap) := mapResize m heap
    mapPut m key value heap
  else mapPut m key value heap

def mapRemove (m : HashMap β) (key : ℕ) : HashMap β :=
  if key ∈ (m.buckets (hashPtr key % m.capacity)).map Prod.fst then
    m.withChain (hashPtr key % m.capacity)
      ((m.buckets (hashPtr key % m.capacity)).eraseP fun e => e.1 = key) (m.size - 1)
      (List.eraseP_sublist.map _)
  else m

theorem HashMap.get_withChain (m : HashMap β) (i : ℕ) (chain : List (ℕ × β)) (size : ℕ)
    (h : (chain.map Prod.fst).Sublist ((m.buckets i).map Prod.fst)) (k : ℕ) :
    mapGet (m.withChain i chain size h) k = (update m.buckets i chain (hashPtr k % m.capacity)).lookup k := by
  simp only [mapGet, HashMap.withChain]

theorem HashMap.get_pushEntry (m : HashMap β) (key : ℕ) (value : β)
    (h : key ∉ (m.buckets (hashPtr key % m.capacity)).map Prod.fst) (k : ℕ) :
    mapGet (m.pushEntry key value h) k = (update m.buckets (hashPtr key % m.capacity)
        ((key, value) :: m.buckets (hashPtr key % m.capacity)) (hashPtr k % m.capacity)).lookup k := by
  simp only [mapGet, HashMap.pushEntry]

theorem mapGet_withChain {size : ℕ}
    {h : (chain.map Prod.fst).Sublist ((m.buckets (hashPtr key % m.capacity)).map Prod.fst)} {value : Option β}
    (hchain : ∀ k, chain.lookup k = if k = key then value else (m.buckets (hashPtr key % m.capacity)).lookup k)
    (k : ℕ) : mapGet (m.withChain (hashPtr key % m.capacity) chain size h) k =
      if k = key then value else mapGet m k := by
  rw [HashMap.get_withChain]
  unfold mapGet
  by_cases hk : hashPtr k % m.capacity = hashPtr key % m.capacity
  · rw [hk, update_self, hchain]
  · rw [update_of_ne hk, if_neg fun h => hk (by rw [h])]

theorem mem_keys_iff : key ∈ (m.buckets (hashPtr key % m.capacity)).map Prod.fst ↔ mapGet m key ≠ none := by
  unfold mapGet
  rw [Ne, lookup_eq_none_iff_notMem, not_not]

theorem mapGet_replace (h : mapGet m key ≠ none) (value : β) (k : ℕ) :
    mapGet (mapReplace m key value) k = if k = key then some value else mapGet m k := by
  unfold mapReplace
  exact mapGet_withChain (fun k => lookup_setEntry (mem_keys_iff.mpr h) value k) k

theorem mapGet_remove (m : HashMap β) (key k : ℕ) :
    mapGet (mapRemove m key) k = if k = key then none else mapGet m k := by
  unfold mapRemove
  split
  · exact mapGet_withChain (fun k => lookup_eraseP (m.nodup _) key k) k
  · rename_i h
    rw [mem_keys_iff, not_not] at h
    split
    · rename_i hk
      rw [hk, h]
    · rfl

theorem capacity_mapRemove (m : HashMap β) (key : ℕ) : (mapRemove m key).capacity = m.capacity := by
  unfold mapRemove
  split <;> rfl

theorem mapGet_resize (m : HashMap β) (heap : List Bool) (k : ℕ) :
    mapGet (mapResize m heap).1 k = mapGet m k := by
  unfold mapResize
  split
  · rfl
  · rename_i heap' h
    apply Option.ext
    intro value
    rw [HashMap.get_eq_some_iff, HashMap.get_eq_some_iff, HashMap.mem_entries]
    simp [rehash_apply]

theorem mapResize_heap (m : HashMap β) (h : false ∉ heap) : false ∉ (mapResize m heap).2 := by
  obtain ⟨heap', hmalloc, hheap'⟩ := malloc_of_ok h
  unfold mapResize
  rw [hmalloc]
  exact hheap'

theorem mapPut_spec (m : HashMap β) (key : ℕ) (value : β) (h : false ∉ heap) :
    ∃ m' heap', mapPut m key value heap = some (m', heap') ∧ false ∉ heap' ∧
      ∀ k, mapGet m' k = if k = key then some value else mapGet m k := by
  unfold mapPut
  split
  · rename_i hkey
    exact ⟨_, heap, rfl, h, mapGet_replace (mem_keys_iff.mp hkey) value⟩
  · obtain ⟨heap', hmalloc, hheap'⟩ := malloc_of_ok h
    rw [hmalloc]
    refine ⟨_, heap', rfl, hheap', fun k => ?_⟩
    rw [HashMap.get_pushEntry]
    unfold mapGet
    by_cases hk : k = key
    · rw [hk, update_self]
      simp
    · rw [if_neg hk]
      by_cases hi : hashPtr k % m.capacity = hashPtr key % m.capacity
      · rw [hi, update_self, lookup_cons, show (k == key) = false by simpa using hk]
      · rw [update_of_ne hi]

theorem mapSet_spec (m : HashMap β) (key : ℕ) (value : β) (h : false ∉ heap) :
    ∃ m' heap', mapSet m key value heap = some (m', heap') ∧ false ∉ heap' ∧
      ∀ k, mapGet m' k = if k = key then some value else mapGet m k := by
  unfold mapSet
  split
  · obtain ⟨m', heap', hput, hheap', hget⟩ := mapPut_spec (mapResize m heap).1 key value (mapResize_heap m h)
    exact ⟨m', heap', hput, hheap', fun k => by rw [hget, mapGet_resize]⟩
  · exact mapPut_spec m key value h

end CoolPotOS
