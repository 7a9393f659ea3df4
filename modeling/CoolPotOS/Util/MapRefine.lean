import CoolPotOS.Util.Map

namespace CoolPotOS

variable {β : Type*}

variable {m : HashMap β} {key : ℕ} {value : β} {heap : List Bool}

namespace HashMap

def keys (m : HashMap β) : Finset ℕ := (m.entries.map Prod.fst).toFinset

theorem mem_keys {k : ℕ} : k ∈ m.keys ↔ mapGet m k ≠ none := by
  unfold keys
  rw [List.mem_toFinset, List.mem_map, Option.ne_none_iff_exists']
  constructor
  · rintro ⟨⟨k', v⟩, he, rfl⟩
    exact ⟨v, get_eq_some_iff.mpr he⟩
  · rintro ⟨v, hv⟩
    exact ⟨(k, v), get_eq_some_iff.mp hv, rfl⟩

def Sized (m : HashMap β) : Prop := m.size = m.keys.card

theorem sized_empty {capacity : ℕ} (h : 0 < capacity) : (HashMap.empty capacity h : HashMap β).Sized := by
  have hkeys : (HashMap.empty capacity h : HashMap β).keys = ∅ := by
    ext k
    rw [mem_keys]
    simp [mapGet, HashMap.empty]
  unfold Sized
  rw [hkeys]
  rfl

theorem sized_set {m' : HashMap β} (h : m.Sized)
    (hget : ∀ k, mapGet m' k = if k = key then some value else mapGet m k)
    (hsize : m'.size = if mapGet m key = none then m.size + 1 else m.size) : m'.Sized := by
  have hkeys : m'.keys = insert key m.keys := by
    ext k
    rw [mem_keys, Finset.mem_insert, mem_keys, hget]
    by_cases hk : k = key
    · simp [hk]
    · simp [hk]
  unfold Sized at h ⊢
  rw [hkeys, hsize, h]
  split
  · rename_i hnone
    rw [Finset.card_insert_of_notMem]
    rw [mem_keys, not_not]
    exact hnone
  · rename_i hsome
    rw [Finset.insert_eq_of_mem (mem_keys.mpr hsome)]

theorem sized_remove {m' : HashMap β} (h : m.Sized)
    (hget : ∀ k, mapGet m' k = if k = key then none else mapGet m k)
    (hsize : m'.size = if mapGet m key = none then m.size else m.size - 1) : m'.Sized := by
  have hkeys : m'.keys = m.keys.erase key := by
    ext k
    rw [mem_keys, Finset.mem_erase, mem_keys, hget]
    by_cases hk : k = key
    · simp [hk]
    · simp [hk]
  unfold Sized at h ⊢
  rw [hkeys, hsize, h]
  split
  · rename_i hnone
    rw [Finset.erase_eq_of_notMem]
    rw [mem_keys, not_not]
    exact hnone
  · rename_i hsome
    rw [Finset.card_erase_of_mem (mem_keys.mpr hsome)]

end HashMap

theorem size_mapResize (m : HashMap β) (heap : List Bool) : (mapResize m heap).1.size = m.size := by
  unfold mapResize
  split <;> rfl

theorem size_mapPut {r : HashMap β × List Bool} (h : mapPut m key value heap = some r) :
    r.1.size = if mapGet m key = none then m.size + 1 else m.size := by
  unfold mapPut at h
  split at h
  · rename_i hkey
    rw [if_neg (mem_keys_iff.mp hkey), ← Option.some.inj h]
    rfl
  · rename_i hkey
    rw [mem_keys_iff, not_not] at hkey
    rw [if_pos hkey]
    split at h
    · simp at h
    · rw [← Option.some.inj h]
      rfl

theorem size_mapSet {r : HashMap β × List Bool} (h : mapSet m key value heap = some r) :
    r.1.size = if mapGet m key = none then m.size + 1 else m.size := by
  unfold mapSet at h
  split at h
  · have hput := size_mapPut (m := (mapResize m heap).1) h
    rwa [mapGet_resize, size_mapResize] at hput
  · exact size_mapPut h

theorem size_mapRemove (m : HashMap β) (key : ℕ) :
    (mapRemove m key).size = if mapGet m key = none then m.size else m.size - 1 := by
  unfold mapRemove
  split
  · rename_i hkey
    rw [if_neg (mem_keys_iff.mp hkey)]
    rfl
  · rename_i hkey
    rw [mem_keys_iff, not_not] at hkey
    rw [if_pos hkey]

theorem entries_mapResize (m : HashMap β) (heap : List Bool) :
    (mapResize m heap).1.entries.Perm m.entries := by
  have hnodup : ∀ m : HashMap β, m.entries.Nodup := fun m => m.nodup_keys.of_map _
  rw [List.perm_ext_iff_of_nodup (hnodup _) (hnodup _)]
  rintro ⟨key, value⟩
  rw [← HashMap.get_eq_some_iff, ← HashMap.get_eq_some_iff, mapGet_resize]

inductive MapOp (β : Type*)
  | set (key : ℕ) (value : β)
  | get (key : ℕ)
  | remove (key : ℕ)

/-- A call with the outcomes of its allocations, and the value that `map_get` returns. -/
def MapOp.run (m : HashMap β) (heap : List Bool) : MapOp β → Option (HashMap β × Option β)
  | .set key value => (mapSet m key value heap).map fun r => (r.1, none)
  | .get key => some (m, mapGet m key)
  | .remove key => some (mapRemove m key, none)

def MapOp.runPure (f : ℕ → Option β) : MapOp β → (ℕ → Option β) × Option β
  | .set key value => (Function.update f key (some value), none)
  | .get key => (f, f key)
  | .remove key => (Function.update f key none, none)

/-- The table and the returned values after a history of calls. -/
def MapOp.runAll (m : HashMap β) : List (MapOp β × List Bool) → Option (HashMap β × List (Option β))
  | [] => some (m, [])
  | (op, heap) :: ops =>
    (op.run m heap).bind fun r => (runAll r.1 ops).map fun rest => (rest.1, r.2 :: rest.2)

def MapOp.runAllPure (f : ℕ → Option β) : List (MapOp β) → (ℕ → Option β) × List (Option β)
  | [] => (f, [])
  | op :: ops =>
    ((runAllPure (op.runPure f).1 ops).1, (op.runPure f).2 :: (runAllPure (op.runPure f).1 ops).2)

theorem MapOp.run_spec (hm : m.Sized) (op : MapOp β) (hheap : false ∉ heap) :
    ∃ m', op.run m heap = some (m', (op.runPure (mapGet m)).2) ∧ m'.Sized ∧
      mapGet m' = (op.runPure (mapGet m)).1 := by
  cases op with
  | set key value =>
    obtain ⟨m', heap', hset, -, hget⟩ := mapSet_spec m key value hheap
    refine ⟨m', ?_, HashMap.sized_set hm hget (size_mapSet hset), ?_⟩
    · simp [MapOp.run, MapOp.runPure, hset]
    · funext k
      rw [hget]
      exact (Function.update_apply (mapGet m) key (some value) k).symm
  | get key => exact ⟨m, rfl, hm, rfl⟩
  | remove key =>
    have hget := mapGet_remove m key
    refine ⟨mapRemove m key, rfl, HashMap.sized_remove hm hget (size_mapRemove m key), ?_⟩
    funext k
    rw [hget]
    exact (Function.update_apply (mapGet m) key none k).symm

theorem MapOp.runAll_spec (hm : m.Sized) (ops : List (MapOp β × List Bool))
    (hheap : ∀ call ∈ ops, false ∉ call.2) :
    ∃ m', MapOp.runAll m ops = some (m', (MapOp.runAllPure (mapGet m) (ops.map Prod.fst)).2) ∧
      m'.Sized ∧ mapGet m' = (MapOp.runAllPure (mapGet m) (ops.map Prod.fst)).1 := by
  induction ops generalizing m with
  | nil => exact ⟨m, rfl, hm, rfl⟩
  | cons call ops ih =>
    obtain ⟨op, heap⟩ := call
    obtain ⟨m1, hrun, hsized, hget⟩ := MapOp.run_spec hm op (hheap (op, heap) List.mem_cons_self)
    obtain ⟨m2, hrest, hsized', hget'⟩ := ih hsized fun c hc => hheap c (List.mem_cons_of_mem _ hc)
    rw [hget] at hrest hget'
    refine ⟨m2, ?_, hsized', hget'⟩
    simp only [MapOp.runAll, hrun, Option.bind_some, hrest, Option.map_some, List.map_cons, MapOp.runAllPure]

/-- Every history of calls whose allocations succeed, on a new table: `map_get` returns what it
returns on the partial function, the table holds that function, `size` is the number of its
keys, and a table that grows keeps each of its entries once. -/
theorem map_refines_finite_map (capacity : ℕ) (h : 0 < capacity) (ops : List (MapOp β × List Bool))
    (hheap : ∀ call ∈ ops, false ∉ call.2) :
    ∃ m : HashMap β,
      MapOp.runAll (.empty capacity h) ops =
          some (m, (MapOp.runAllPure (fun _ => none) (ops.map Prod.fst)).2) ∧
        mapGet m = (MapOp.runAllPure (fun _ => none) (ops.map Prod.fst)).1 ∧
        m.size = {k | (MapOp.runAllPure (β := β) (fun _ => none) (ops.map Prod.fst)).1 k ≠ none}.ncard ∧
        ∀ heap, (mapResize m heap).1.entries.Perm m.entries := by
  have hempty : mapGet (HashMap.empty capacity h : HashMap β) = fun _ => none := rfl
  obtain ⟨m, hrun, hsized, hget⟩ := MapOp.runAll_spec (HashMap.sized_empty h) ops hheap
  rw [hempty] at hrun hget
  refine ⟨m, hrun, hget, ?_, entries_mapResize m⟩
  have hkeys : {k | mapGet m k ≠ none} = (m.keys : Set ℕ) := by
    ext k
    exact HashMap.mem_keys.symm
  rw [← hget, hkeys, Set.ncard_coe_finset]
  exact hsized

/-- A table of one chain, which grows at once. -/
theorem map_refines_finite_map_grow :
    ∃ m : HashMap ℕ,
      MapOp.runAll (.empty 1 one_pos)
          [(.set 16 5, []), (.set 32 6, [true]), (.remove 16, []), (.get 32, [])] =
        some (m, [none, none, none, some 6]) ∧ m.size = 1 := by
  obtain ⟨m, hrun, hget, hsize, -⟩ := map_refines_finite_map (β := ℕ) 1 one_pos
    [(.set 16 5, []), (.set 32 6, [true]), (.remove 16, []), (.get 32, [])] (by simp)
  refine ⟨m, hrun, hsize.trans ?_⟩
  rw [Set.ncard_eq_one]
  refine ⟨32, Set.ext fun k => ?_⟩
  simp only [List.map_cons, List.map_nil, MapOp.runAllPure, MapOp.runPure, Function.update_apply,
    Set.mem_ofPred_eq, Set.mem_singleton_iff]
  by_cases h16 : k = 16
  · simp [h16]
  · by_cases h32 : k = 32 <;> simp [h16, h32]

end CoolPotOS
