import CoolPotOS.Machine

namespace CoolPotOS

open BitVec Finset

/-- `id_allocator_t`; a word of the bitmap has `BITS_PER_WORD` bits. A search that has not ended
after as many steps as there is fuel gives `none`. -/
structure IdAllocator where
  bitmap : ℕ → BitVec 32
  maxIds : ℕ
  freeCount : ℕ
  nextId : ℕ

/-- What `id_allocator_create` makes with the memory that it gets. -/
def IdAllocator.empty (maxIds : ℕ) : IdAllocator := ⟨fun _ => 0, maxIds, maxIds, 0⟩

def idMask (id : ℕ) : BitVec 32 := 1#32 <<< (id % 32)

/-- The bit of an identifier is set, and one identifier fewer is free. -/
def IdAllocator.take (allocator : IdAllocator) (id : ℕ) : IdAllocator :=
  { allocator with
    bitmap := Function.update allocator.bitmap (id / 32)
      (allocator.bitmap (id / 32) ||| idMask id)
    freeCount := (allocator.freeCount + (2 ^ 32 - 1)) % 2 ^ 32 }

/-- The bit of an identifier is cleared, and one identifier more is free. -/
def IdAllocator.release (allocator : IdAllocator) (id : ℕ) : IdAllocator :=
  { allocator with
    bitmap := Function.update allocator.bitmap (id / 32)
      (allocator.bitmap (id / 32) &&& ~~~idMask id)
    freeCount := (allocator.freeCount + 1) % 2 ^ 32 }

def idAllocSet (allocator : IdAllocator) (id : ℕ) : IdAllocator :=
  if id ≥ allocator.maxIds then allocator
  else if allocator.bitmap (id / 32) &&& idMask id = 0 then allocator.take id
  else allocator

def toInt32 (n : ℕ) : ℤ := (BitVec.ofNat 32 n).toInt

def idSearch (allocator : IdAllocator) (start : ℕ) : ℕ → ℕ → Option (IdAllocator × ℤ)
  | 0, _ => none
  | fuel + 1, id =>
    if allocator.bitmap (id / 32) &&& idMask id = 0 then
      some ({ allocator.take id with nextId := (id + 1) % allocator.maxIds }, toInt32 id)
    else
      let id := (id + 1) % allocator.maxIds
      if id = start then some (allocator, -1) else idSearch allocator start fuel id

def idAlloc (fuel : ℕ) (allocator : IdAllocator) : Option (IdAllocator × ℤ) :=
  if allocator.freeCount = 0 then some (allocator, -1)
  else idSearch allocator allocator.nextId fuel allocator.nextId

def idFree (allocator : IdAllocator) (id : ℕ) : IdAllocator × Bool :=
  if id ≥ allocator.maxIds then (allocator, false)
  else if allocator.bitmap (id / 32) &&& idMask id ≠ 0 then
    (allocator.release id, true)
  else (allocator, false)

def IdAllocator.taken (allocator : IdAllocator) (id : ℕ) : Bool :=
  (allocator.bitmap (id / 32)).getLsbD (id % 32)

theorem getLsbD_idMask {id : ℕ} (j : ℕ) : (idMask id).getLsbD j = decide (j = id % 32) := by
  have hlt : id % 32 < 32 := Nat.mod_lt _ (by norm_num)
  unfold idMask
  rw [← twoPow_eq, getLsbD_twoPow, decide_eq_true hlt, Bool.true_and, decide_eq_decide]
  exact eq_comm

theorem and_idMask_eq_zero (word : BitVec 32) (id : ℕ) :
    word &&& idMask id = 0 ↔ word.getLsbD (id % 32) = false := by
  constructor
  · intro h
    have hbit := congrArg (fun w => w.getLsbD (id % 32)) h
    simpa [getLsbD_idMask] using hbit
  · intro h
    apply eq_of_getLsbD_eq
    intro j hj
    rw [getLsbD_and, getLsbD_idMask]
    by_cases hji : j = id % 32
    · rw [hji, h]
      simp
    · simp [hji]

theorem taken_update (a : IdAllocator) {id : ℕ} {word : BitVec 32} {value : Bool}
    (h : ∀ j < 32, word.getLsbD j = if j = id % 32 then value else (a.bitmap (id / 32)).getLsbD j) (j : ℕ) :
    (Function.update a.bitmap (id / 32) word (j / 32)).getLsbD (j % 32) =
      if j = id then value else a.taken j := by
  unfold IdAllocator.taken
  by_cases hw : j / 32 = id / 32
  · have hiff : j % 32 = id % 32 ↔ j = id := by omega
    rw [hw, Function.update_self, h _ (Nat.mod_lt _ (by norm_num))]
    simp only [hiff]
  · rw [Function.update_of_ne hw, if_neg (by rintro rfl; exact hw rfl)]

theorem taken_take (a : IdAllocator) (id j : ℕ) :
    (a.take id).taken j = if j = id then true else a.taken j := by
  apply taken_update a
  intro k hk
  rw [getLsbD_or, getLsbD_idMask]
  by_cases hki : k = id % 32 <;> simp [hki]

/-- The number of clear bits below `max_ids`. -/
def IdAllocator.clear (a : IdAllocator) : Finset ℕ := (Finset.range a.maxIds).filter (a.taken · = false)

theorem mem_clear {a : IdAllocator} {id : ℕ} : id ∈ a.clear ↔ id < a.maxIds ∧ a.taken id = false := by
  simp [IdAllocator.clear]

theorem taken_release (a : IdAllocator) (id j : ℕ) :
    (a.release id).taken j = if j = id then false else a.taken j := by
  apply taken_update a
  intro k hk
  rw [getLsbD_and, getLsbD_not, getLsbD_idMask]
  by_cases hki : k = id % 32 <;> simp [hki, hk]

/-- The counter is the number of clear bits, and the search starts below `max_ids`. -/
structure IdAllocator.Ok (a : IdAllocator) : Prop where
  small : a.maxIds ≤ 2 ^ 31
  count : a.freeCount = a.clear.card
  next : a.nextId < a.maxIds ∨ a.maxIds = 0

theorem IdAllocator.ok_empty {maxIds : ℕ} (h : maxIds ≤ 2 ^ 31) : (empty maxIds).Ok where
  small := h
  count := by
    have hclear : (empty maxIds).clear = range maxIds := by
      ext id
      simp [IdAllocator.clear, IdAllocator.taken, IdAllocator.empty]
    rw [hclear, card_range]
    rfl
  next := by
    change 0 < maxIds ∨ maxIds = 0
    omega

variable {a : IdAllocator} {id : ℕ}

theorem IdAllocator.Ok.count_le (h : a.Ok) : a.freeCount ≤ 2 ^ 31 := by
  have hle : a.clear.card ≤ (range a.maxIds).card := card_filter_le _ _
  rw [card_range] at hle
  have hsmall := h.small
  have hcount := h.count
  omega

theorem IdAllocator.Ok.take (h : a.Ok) (hid : id ∈ a.clear) {next : ℕ}
    (hnext : next < a.maxIds ∨ a.maxIds = 0) : ({ a.take id with nextId := next } : IdAllocator).Ok where
  small := h.small
  count := by
    have hclear : ({ a.take id with nextId := next } : IdAllocator).clear = a.clear.erase id := by
      ext j
      have htaken := taken_take a id j
      rw [mem_clear, mem_erase, mem_clear]
      change j < a.maxIds ∧ (a.take id).taken j = false ↔ _
      rw [htaken]
      by_cases hj : j = id <;> simp [hj]
    have hpos : 0 < a.clear.card := card_pos.mpr ⟨id, hid⟩
    have hle := h.count_le
    have hcount := h.count
    rw [hclear, card_erase_of_mem hid]
    change (a.freeCount + (2 ^ 32 - 1)) % 2 ^ 32 = _
    omega
  next := hnext

theorem IdAllocator.Ok.set (h : a.Ok) (id : ℕ) : (idAllocSet a id).Ok := by
  unfold idAllocSet
  split
  · exact h
  · rename_i hid
    split
    · rename_i hbit
      rw [and_idMask_eq_zero] at hbit
      exact h.take (mem_clear.mpr ⟨not_le.mp hid, hbit⟩) h.next
    · exact h

theorem IdAllocator.Ok.release (h : a.Ok) (hid : id < a.maxIds) (htaken : id ∉ a.clear) :
    (a.release id).Ok where
  small := h.small
  count := by
    have hclear : (a.release id).clear = insert id a.clear := by
      ext j
      rw [mem_clear, mem_insert, mem_clear, taken_release]
      change j < a.maxIds ∧ _ ↔ _
      by_cases hj : j = id
      · simp [hj, hid]
      · simp [hj]
    have hle : (a.release id).clear.card ≤ (range a.maxIds).card := card_filter_le _ _
    have hsmall := h.small
    have hcount := h.count
    rw [hclear, card_insert_of_notMem htaken, card_range] at hle
    rw [hclear, card_insert_of_notMem htaken]
    change (a.freeCount + 1) % 2 ^ 32 = _
    omega
  next := h.next

theorem IdAllocator.Ok.free (h : a.Ok) (id : ℕ) : (idFree a id).1.Ok := by
  unfold idFree
  split
  · exact h
  · rename_i hid
    split
    · rename_i hbit
      rw [Ne, and_idMask_eq_zero] at hbit
      exact h.release (not_le.mp hid) fun hmem => hbit (mem_clear.mp hmem).2
    · exact h

theorem toInt32_of_lt {n : ℕ} (h : n < 2 ^ 31) : toInt32 n = n := by
  unfold toInt32
  rw [toInt_eq_toNat_of_msb]
  · rw [toNat_ofNat, Nat.mod_eq_of_lt (by omega)]
  · rw [msb_eq_false_iff_two_mul_lt, toNat_ofNat]
    omega

/-- What `id_alloc` does when it finds a free identifier. -/
def Allocates (a a' : IdAllocator) (r : ℤ) : Prop :=
  ∃ id : ℕ, r = id ∧ id < a.maxIds ∧ a.taken id = false ∧ a'.Ok ∧ a'.maxIds = a.maxIds ∧
    ∀ j, a'.taken j = if j = id then true else a.taken j

theorem idSearch_spec (h : a.Ok) (start : ℕ) {n fuel : ℕ} (hid : id < a.maxIds)
    (hfree : a.taken ((id + n) % a.maxIds) = false)
    (hround : ∀ k, 0 < k → k ≤ n → (id + k) % a.maxIds ≠ start) (hfuel : n < fuel) :
    ∃ a' r, idSearch a start fuel id = some (a', r) ∧ Allocates a a' r := by
  induction n generalizing id fuel with
  | zero =>
    obtain ⟨fuel, rfl⟩ := Nat.exists_eq_succ_of_ne_zero (by omega : fuel ≠ 0)
    rw [Nat.add_zero, Nat.mod_eq_of_lt hid] at hfree
    unfold idSearch
    rw [if_pos ((and_idMask_eq_zero _ id).mpr hfree)]
    have hsmall := h.small
    refine ⟨_, _, rfl, id, toInt32_of_lt (by omega), hid, hfree, ?_, rfl, taken_take a id⟩
    exact h.take (mem_clear.mpr ⟨hid, hfree⟩) (.inl (Nat.mod_lt _ (by omega)))
  | succ n ih =>
    obtain ⟨fuel, rfl⟩ := Nat.exists_eq_succ_of_ne_zero (by omega : fuel ≠ 0)
    unfold idSearch
    split
    · rename_i hbit
      rw [and_idMask_eq_zero] at hbit
      have hsmall := h.small
      refine ⟨_, _, rfl, id, toInt32_of_lt (by omega), hid, hbit, ?_, rfl, taken_take a id⟩
      exact h.take (mem_clear.mpr ⟨hid, hbit⟩) (.inl (Nat.mod_lt _ (by omega)))
    · have hshift : ∀ k, ((id + 1) % a.maxIds + k) % a.maxIds = (id + (k + 1)) % a.maxIds := by
        intro k
        rw [Nat.mod_add_mod]
        congr 1
        omega
      dsimp only
      rw [if_neg (hround 1 one_pos (by omega))]
      apply ih (Nat.mod_lt _ (by omega))
      · rwa [hshift]
      · intro k hk hkn
        rw [hshift]
        exact hround (k + 1) (by omega) (by omega)
      · omega

theorem exists_steps {start m : ℕ} (hstart : start < m) (hid : id < m) :
    ∃ n < m, (start + n) % m = id ∧ ∀ k, 0 < k → k ≤ n → (start + k) % m ≠ start := by
  refine ⟨(id + (m - start)) % m, Nat.mod_lt _ (by omega), ?_, ?_⟩
  · rw [Nat.add_mod_mod, show start + (id + (m - start)) = id + m by omega, Nat.add_mod_right,
      Nat.mod_eq_of_lt hid]
  · intro k hk hkn heq
    have hlt : (id + (m - start)) % m < m := Nat.mod_lt _ (by omega)
    by_cases hwrap : start + k < m
    · rw [Nat.mod_eq_of_lt hwrap] at heq
      omega
    · rw [Nat.mod_eq_sub_mod (by omega), Nat.mod_eq_of_lt (by omega)] at heq
      omega

theorem idAlloc_spec (h : a.Ok) {fuel : ℕ} (hfuel : a.maxIds ≤ fuel) : ∃ a' r, idAlloc fuel a = some (a', r) ∧
      ((∀ id < a.maxIds, a.taken id = true) ∧ r = -1 ∧ a' = a ∨ Allocates a a' r) := by
  unfold idAlloc
  split
  · rename_i hzero
    refine ⟨a, -1, rfl, .inl ⟨fun id hid => ?_, rfl, rfl⟩⟩
    have hclear : a.clear = ∅ := by
      rw [← card_eq_zero, ← h.count, hzero]
    by_contra hfree
    have hmem : id ∈ a.clear := mem_clear.mpr ⟨hid, Bool.eq_false_of_not_eq_true hfree⟩
    rw [hclear] at hmem
    simp at hmem
  · rename_i hcount
    have hpos : 0 < a.clear.card := by
      have := h.count
      omega
    obtain ⟨id, hmem⟩ := card_pos.mp hpos
    obtain ⟨hid, hfree⟩ := mem_clear.mp hmem
    have hnext : a.nextId < a.maxIds := h.next.resolve_right (by omega)
    obtain ⟨n, hn, hsteps, hround⟩ := exists_steps hnext hid
    rw [← hsteps] at hfree
    obtain ⟨a', r, hsearch, halloc⟩ := idSearch_spec h a.nextId hnext hfree hround (hn.trans_le hfuel)
    exact ⟨a', r, hsearch, .inr halloc⟩

inductive IdOp
  | alloc
  | free (id : ℕ)
  | set (id : ℕ)

def IdOp.run (fuel : ℕ) (a : IdAllocator) : IdOp → Option IdAllocator
  | .alloc => (idAlloc fuel a).map Prod.fst
  | .free id => some (idFree a id).1
  | .set id => some (idAllocSet a id)

/-- The allocator after a history of calls, all of whose searches end. -/
def IdOp.runAll (fuel : ℕ) (a : IdAllocator) : List IdOp → Option IdAllocator
  | [] => some a
  | op :: ops => (op.run fuel a).bind fun a => runAll fuel a ops

theorem maxIds_idFree (a : IdAllocator) (id : ℕ) : (idFree a id).1.maxIds = a.maxIds := by
  unfold idFree
  split
  · rfl
  · split <;> rfl

theorem maxIds_idAllocSet (a : IdAllocator) (id : ℕ) : (idAllocSet a id).maxIds = a.maxIds := by
  unfold idAllocSet
  split
  · rfl
  · split <;> rfl

theorem IdOp.run_spec (h : a.Ok) {fuel : ℕ} (hfuel : a.maxIds ≤ fuel) (op : IdOp) :
    ∃ a', op.run fuel a = some a' ∧ a'.Ok ∧ a'.maxIds = a.maxIds := by
  cases op with
  | alloc =>
    obtain ⟨a', r, hrun, hcases⟩ := idAlloc_spec h hfuel
    refine ⟨a', congrArg (Option.map Prod.fst) hrun, ?_⟩
    rcases hcases with ⟨-, -, rfl⟩ | ⟨id, -, -, -, hok, hmax, -⟩
    · exact ⟨h, rfl⟩
    · exact ⟨hok, hmax⟩
  | free id => exact ⟨_, rfl, h.free id, maxIds_idFree a id⟩
  | set id => exact ⟨_, rfl, h.set id, maxIds_idAllocSet a id⟩

theorem IdOp.runAll_spec (h : a.Ok) {fuel : ℕ} (hfuel : a.maxIds ≤ fuel) (ops : List IdOp) :
    ∃ a', IdOp.runAll fuel a ops = some a' ∧ a'.Ok ∧ a'.maxIds = a.maxIds := by
  induction ops generalizing a with
  | nil => exact ⟨a, rfl, h, rfl⟩
  | cons op ops ih =>
    obtain ⟨a1, hrun, hok, hmax⟩ := IdOp.run_spec h hfuel op
    obtain ⟨a2, hrest, hok', hmax'⟩ := ih hok (hmax.trans_le hfuel)
    refine ⟨a2, ?_, hok', hmax'.trans hmax⟩
    simp only [IdOp.runAll, hrun, Option.bind_some, hrest]

/-- After every history of calls on a new allocator, all searches have ended, the counter is the
number of clear bits below `max_ids`, and the next `id_alloc` returns -1 if and only if every
identifier is taken, and else an identifier that was free and is now taken. -/
theorem idAllocator_history {maxIds fuel : ℕ} (h : maxIds ≤ 2 ^ 31) (hfuel : maxIds ≤ fuel)
    (ops : List IdOp) :
    ∃ a, IdOp.runAll fuel (.empty maxIds) ops = some a ∧ a.freeCount = a.clear.card ∧
      ∃ a' r, idAlloc fuel a = some (a', r) ∧
        (r = -1 ↔ ∀ id < maxIds, a.taken id = true) ∧
        (r ≠ -1 → ∃ id : ℕ, r = id ∧ id < maxIds ∧ a.taken id = false ∧
          ∀ j, a'.taken j = if j = id then true else a.taken j) := by
  obtain ⟨a, hrun, hok, hmax⟩ := IdOp.runAll_spec (IdAllocator.ok_empty h) hfuel ops
  have hmax' : a.maxIds = maxIds := hmax
  obtain ⟨a', r, halloc, hcases⟩ := idAlloc_spec hok (hmax'.trans_le hfuel)
  rw [hmax'] at hcases
  refine ⟨a, hrun, hok.count, a', r, halloc, ?_⟩
  rcases hcases with ⟨hfull, hr, -⟩ | ⟨id, hr, hid, hfree, -, -, htaken⟩
  · exact ⟨iff_of_true hr hfull, fun hne => absurd hr hne⟩
  · refine ⟨iff_of_false (by omega) fun hall => ?_, fun _ => ⟨id, hr, hmax' ▸ hid, hfree, htaken⟩⟩
    rw [hall id (hmax' ▸ hid)] at hfree
    simp at hfree

/-- Two identifiers, a double free and a set that is out of range. -/
theorem idAllocator_history_two :
    ∃ a, IdOp.runAll 2 (.empty 2) [.alloc, .set 7, .free 0, .free 0, .alloc] = some a ∧
      a.freeCount = a.clear.card := by
  obtain ⟨a, hrun, hcount, -⟩ := idAllocator_history (by norm_num : 2 ≤ 2 ^ 31) (le_refl 2)
    [.alloc, .set 7, .free 0, .free 0, .alloc]
  exact ⟨a, hrun, hcount⟩

end CoolPotOS
