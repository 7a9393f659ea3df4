import CoolPotOS.Mem.VmaCalls

namespace CoolPotOS

open LinkedList List Option

/-- What an area says about an address: flags, type, descriptor and file offset. -/
structure Entry where
  flags : BitVec 64
  type : VmaType
  fd : ℤ
  offset : Option ℕ
  deriving DecidableEq

def Vma.entry (v : Vma) (x : ℕ) : Entry where
  flags := v.vmFlags
  type := v.vmType
  fd := v.vmFd
  offset := if v.vmType = .file then some (wrap (v.vmOffset + (x - v.vmStart))) else none

def lookupAreas (vs : List Vma) (x : ℕ) : Option Entry :=
  (vs.find? fun v => decide (x ≥ v.vmStart ∧ x < v.vmEnd)).map fun v => v.entry x

/-- What the area that `vma_find` returns says about the address. -/
def VmaManager.lookup (mgr : VmaManager) (x : ℕ) : Option Entry := do
  let found ← vmaFind mgr x
  let vma ← found
  let node ← mgr.list.cells vma
  return node.data.entry x

section Lookup

variable {mgr : VmaManager} {ps : List (ℕ × Vma)}

theorem lookupAreas_cons (v : Vma) (vs : List Vma) (x : ℕ) : lookupAreas (v :: vs) x =
      if v.vmStart ≤ x ∧ x < v.vmEnd then some (v.entry x) else lookupAreas vs x := by
  unfold lookupAreas
  rw [List.find?_cons]
  by_cases h : v.vmStart ≤ x ∧ x < v.vmEnd
  · simp [h]
  · rw [if_neg h]
    have : decide (x ≥ v.vmStart ∧ x < v.vmEnd) = false := decide_eq_false h
    rw [this]

theorem lookupAreas_append (vs ws : List Vma) (x : ℕ) :
    lookupAreas (vs ++ ws) x = (lookupAreas vs x).or (lookupAreas ws x) := by
  unfold lookupAreas
  rw [List.find?_append]
  cases vs.find? fun v => decide (x ≥ v.vmStart ∧ x < v.vmEnd) <;> rfl

theorem Rep.lookup_eq (h : Rep mgr ps) (x : ℕ) : mgr.lookup x = lookupAreas (ps.map Prod.snd) x := by
  have hfind : vmaFind mgr x = some ((ps.find? fun y =>
      decide (x ≥ y.2.vmStart ∧ x < y.2.vmEnd)).map Prod.fst) := by
    rw [vmaFind, h.linked.head]
    exact vmaWalk_eq _ [] h.linked h.length_le
  simp only [VmaManager.lookup, hfind, lookupAreas, List.find?_map, bind_eq_bind,
    bind_some, Option.pure_def]
  cases hy : ps.find? fun y => decide (x ≥ y.2.vmStart ∧ x < y.2.vmEnd) with
  | none =>
    have hy' : ps.find? ((fun v : Vma => decide (x ≥ v.vmStart ∧ x < v.vmEnd)) ∘ Prod.snd) = none := hy
    rw [hy']
    rfl
  | some y =>
    have hy' : ps.find? ((fun v : Vma => decide (x ≥ v.vmStart ∧ x < v.vmEnd)) ∘ Prod.snd) = some y := hy
    obtain ⟨l1, l2, hl⟩ := append_of_mem (List.mem_of_find?_eq_some hy)
    have hget : mgr.list.cells y.1 = some ⟨y.2, headPtr l2 none, lastPtr none l1⟩ := by
      have hlinked := h.linked
      rw [hl] at hlinked
      exact hlinked.get
    rw [hy', map_some, map_some, map_some, bind_some, hget]
    rfl

end Lookup

variable {v : Vma} {used n : ℕ} {ps : List (ℕ × Vma)}

section Counted

variable {start stop : ℕ} {heap : ℕ → Bool}

theorem Vma.entry_from {x : ℕ} (h1 : v.vmStart ≤ stop) (h2 : stop ≤ x) (h3 : stop < 2 ^ 64) :
    (v.from stop).entry x = v.entry x := by
  have hoff : wrap (wrap (v.vmOffset + wrapSub stop v.vmStart) + (x - stop)) =
      wrap (v.vmOffset + (x - v.vmStart)) := by
    rw [wrapSub_of_le h1 h3]
    unfold wrap
    omega
  unfold Vma.entry Vma.from
  by_cases hf : v.vmType = .file
  · simp only [hf, if_true, hoff]
  · simp only [hf, if_false]

theorem unmapArea_lookup {p : ℕ} (hss : start < stop) (hword : v.vmEnd < 2 ^ 64)
    (hheap : v.spans start stop → heap n = true ∧ heap (n + 1) = true) (x : ℕ) :
    lookupAreas ((unmapArea (cutEndCounted start) (cutStartCounted stop) start stop heap used n p
        v).out.map Prod.snd) x =
      if start ≤ x ∧ x < stop then none else lookupAreas [v] x := by
  have hnil : ∀ x, lookupAreas [] x = none := fun _ => rfl
  have hupTo : ∀ a, (v.upTo a).entry x = v.entry x := fun _ => rfl
  have hfrom : v.vmStart ≤ stop → stop ≤ x → stop < 2 ^ 64 → (v.from stop).entry x = v.entry x :=
    Vma.entry_from
  unfold unmapArea
  by_cases h1 : v.vmStart ≥ start ∧ v.vmEnd ≤ stop
  · simp only [if_pos h1, map_nil, lookupAreas_cons, hnil]
    split_ifs <;> first | rfl | omega
  rw [if_neg h1]
  by_cases h2 : v.vmEnd ≤ start ∨ v.vmStart ≥ stop
  · simp only [if_pos h2, map_cons, map_nil, lookupAreas_cons, hnil]
    split_ifs <;> first | rfl | omega
  rw [if_neg h2]
  by_cases h3 : v.vmStart < start ∧ v.vmEnd > stop
  · obtain ⟨hn, hn'⟩ := hheap (by unfold Vma.spans; omega)
    simp only [if_pos h3, unmapSpanned, hn, hn', hss, if_true, map_cons, map_nil,
      lookupAreas_cons, hnil, Vma.upTo_vmStart, Vma.upTo_vmEnd, Vma.from_vmStart, Vma.from_vmEnd,
      hupTo]
    split_ifs <;> first | rfl | omega | exact congrArg some (hfrom (by omega) (by omega) (by omega))
  rw [if_neg h3]
  by_cases h4 : v.vmStart < start
  · simp only [if_pos h4, cutEndCounted, map_cons, map_nil, lookupAreas_cons, hnil,
      Vma.upTo_vmStart, Vma.upTo_vmEnd, hupTo]
    split_ifs <;> first | rfl | omega
  · simp only [if_neg h4, cutStartCounted, map_cons, map_nil, lookupAreas_cons, hnil,
      Vma.from_vmStart, Vma.from_vmEnd]
    split_ifs <;> first | rfl | omega | exact congrArg some (hfrom (by omega) (by omega) (by omega))

theorem not_spans_of_spans {vs : List Vma} (h : InOrder (v :: vs)) (hv : v.spans start stop) :
    ∀ w ∈ vs, ¬w.spans start stop := by
  intro w hw hws
  have hle := (inOrder_cons.mp h).2.2.2 w hw
  unfold Vma.spans at hv hws
  omega

theorem unmapList_lookup (hss : start < stop) (h : InOrder (ps.map Prod.snd))
    (hheap : ∀ v ∈ ps.map Prod.snd, v.spans start stop → heap n = true ∧ heap (n + 1) = true) (x : ℕ) :
    lookupAreas ((unmapList (cutEndCounted start) (cutStartCounted stop) start stop heap ps used
        n).out.map Prod.snd) x =
      if start ≤ x ∧ x < stop then none else lookupAreas (ps.map Prod.snd) x := by
  induction ps generalizing used n with
  | nil => exact (ite_self none).symm
  | cons y ps ih =>
    rw [map_cons] at h hheap
    obtain ⟨-, h2, h3, -⟩ := inOrder_cons.mp h
    have harea : lookupAreas ((unmapArea (cutEndCounted start) (cutStartCounted stop) start stop heap
        used n y.1 y.2).out.map Prod.snd) x =
        if start ≤ x ∧ x < stop then none else lookupAreas [y.2] x :=
      unmapArea_lookup hss h2 (hheap y.2 mem_cons_self) x
    have hcons : lookupAreas ((y :: ps).map Prod.snd) x =
        (lookupAreas [y.2] x).or (lookupAreas (ps.map Prod.snd) x) :=
      lookupAreas_append [y.2] (ps.map Prod.snd) x
    rw [hcons]
    simp only [unmapList, map_append, lookupAreas_append]
    rw [harea, ih h3 fun w hw hws => ?_]
    · split_ifs <;> rfl
    · by_cases hy : y.2.spans start stop
      · exact absurd hws (not_spans_of_spans h hy w hw)
      · rw [unmapArea_mallocs _ _ hy]
        exact hheap w (mem_cons_of_mem y.2 hw) hws

end Counted

section Plain

variable {start stop : ℕ} {heap : ℕ → Bool}

/-- The bytes of an area in the range that `munmap` does not count. -/
def Vma.uncounted (start stop : ℕ) (v : Vma) : ℕ :=
  if v.oneSided start stop then min v.vmEnd stop - max v.vmStart start else 0

theorem Vma.uncounted_le (v : Vma) : v.uncounted start stop ≤ v.size := by
  unfold Vma.uncounted Vma.size
  split_ifs <;> omega

theorem Vma.uncounted_pos (hss : start < stop) (h : v.oneSided start stop) : 0 < v.uncounted start stop := by
  rw [Vma.uncounted, if_pos h]
  unfold Vma.oneSided at h
  omega

theorem wrapSub_cast (a : ℕ) {b : ℕ} (h : b ≤ 2 ^ 64) : ((wrapSub a b : ℕ) : ZMod (2 ^ 64)) = a - b := by
  unfold wrapSub
  rw [ZMod.natCast_mod, Nat.cast_add, Nat.cast_sub h, ZMod.natCast_self]
  ring

theorem wrapSub_cast_sub (a b c : ℕ) :
    ((wrapSub a (wrapSub b c) : ℕ) : ZMod (2 ^ 64)) - a = -(wrapSub b c : ℕ) := by
  have hle : wrapSub b c ≤ 2 ^ 64 := (Nat.mod_lt _ (by norm_num)).le
  rw [wrapSub_cast a hle]
  ring

theorem unmapSpanned_used_diff {u1 u2 p : ℕ} :
    ((unmapSpanned start stop heap u1 n p v).used : ZMod (2 ^ 64)) - u1 =
      (unmapSpanned start stop heap u2 n p v).used - u2 := by
  unfold unmapSpanned
  split_ifs <;> simp only [wrapSub_cast_sub, sub_self]

variable (start stop heap)

theorem unmapArea_used_diff (u1 u2 n p : ℕ) (hword : v.vmEnd < 2 ^ 64) :
    ((unmapArea (cutEndCounted start) (cutStartCounted stop) start stop heap u1 n p v).used :
        ZMod (2 ^ 64)) - u1 + v.uncounted start stop =
      (unmapArea (cutEndPlain start) (cutStartPlain stop) start stop heap u2 n p v).used - u2 := by
  have hzero : ¬v.oneSided start stop → v.uncounted start stop = 0 := fun h => if_neg h
  unfold Vma.oneSided at hzero
  unfold unmapArea
  by_cases h1 : v.vmStart ≥ start ∧ v.vmEnd ≤ stop
  · simp only [if_pos h1, hzero (by omega), wrapSub_cast_sub, Nat.cast_zero, add_zero]
  simp only [if_neg h1]
  by_cases h2 : v.vmEnd ≤ start ∨ v.vmStart ≥ stop
  · simp only [if_pos h2, hzero (by omega), sub_self, Nat.cast_zero, add_zero]
  simp only [if_neg h2]
  by_cases h3 : v.vmStart < start ∧ v.vmEnd > stop
  · simp only [if_pos h3, hzero (by omega), Nat.cast_zero, add_zero]
    exact unmapSpanned_used_diff
  simp only [if_neg h3]
  by_cases h4 : v.vmStart < start
  · have hun : v.uncounted start stop = v.vmEnd - start := by
      rw [Vma.uncounted, if_pos (by unfold Vma.oneSided; omega)]
      omega
    simp only [if_pos h4, cutEndCounted, cutEndPlain, wrapSub_cast_sub, sub_self]
    rw [wrapSub_of_le (by omega) hword, hun]
    ring
  · have hun : v.uncounted start stop = stop - v.vmStart := by
      rw [Vma.uncounted, if_pos (by unfold Vma.oneSided; omega)]
      omega
    simp only [if_neg h4, cutStartCounted, cutStartPlain, wrapSub_cast_sub, sub_self]
    rw [wrapSub_of_le (by omega) (by omega), hun]
    ring

theorem unmapArea_mallocs_eq (u1 u2 n p : ℕ) (v : Vma) :
    (unmapArea (cutEndCounted start) (cutStartCounted stop) start stop heap u1 n p v).mallocs =
      (unmapArea (cutEndPlain start) (cutStartPlain stop) start stop heap u2 n p v).mallocs := by
  unfold unmapArea unmapSpanned
  split_ifs <;> rfl

theorem unmapList_used_diff (u1 u2 n : ℕ) (h : AreasOk (ps.map Prod.snd)) :
    ((unmapList (cutEndCounted start) (cutStartCounted stop) start stop heap ps u1 n).used :
        ZMod (2 ^ 64)) - u1 + ((ps.map fun x => x.2.uncounted start stop).sum : ℕ) =
      (unmapList (cutEndPlain start) (cutStartPlain stop) start stop heap ps u2 n).used - u2 := by
  induction ps generalizing u1 u2 n with
  | nil => simp [unmapList]
  | cons x ps ih =>
    obtain ⟨-, h2, h3, -⟩ := areasOk_cons.mp h
    have harea := unmapArea_used_diff start stop heap u1 u2 n x.1 h2
    have hn := unmapArea_mallocs_eq start stop heap u1 u2 n x.1 x.2
    set a1 := unmapArea (cutEndCounted start) (cutStartCounted stop) start stop heap u1 n x.1 x.2 with ha1
    set a2 := unmapArea (cutEndPlain start) (cutStartPlain stop) start stop heap u2 n x.1 x.2 with ha2
    have hrest := ih a1.used a2.used a2.mallocs h3
    simp only [unmapList, ← ha1, ← ha2, map_cons, sum_cons, Nat.cast_add, hn]
    linear_combination harea + hrest

variable {start stop heap}

theorem unmapList_eq_of_not_oneSided (h : ∀ v ∈ ps.map Prod.snd, ¬v.oneSided start stop) :
    unmapList (cutEndCounted start) (cutStartCounted stop) start stop heap ps used n =
      unmapList (cutEndPlain start) (cutStartPlain stop) start stop heap ps used n := by
  induction ps generalizing used n with
  | nil => rfl
  | cons x ps ih =>
    have hx := h x.2 mem_cons_self
    have harea : unmapArea (cutEndCounted start) (cutStartCounted stop) start stop heap used n x.1
        x.2 = unmapArea (cutEndPlain start) (cutStartPlain stop) start stop heap used n x.1 x.2 := by
      unfold Vma.oneSided at hx
      unfold unmapArea
      split_ifs <;> first | rfl | omega
    simp only [unmapList, harea, ih fun v hv => h v (mem_cons_of_mem x.2 hv)]

end Plain

def Removed (mgr : VmaManager) (start stop : ℕ) (mgr' : VmaManager) : Prop :=
  ∀ x, mgr'.lookup x = if start ≤ x ∧ x < stop then none else mgr.lookup x

/-- Both loops remove the range from the map and leave the same number of used bytes,
exactly when no area has only one of its ends in the range. -/
theorem unmapRange_agree_iff {mgr : VmaManager} {ps : List (ℕ × Vma)} (h : Inv mgr ps)
    {start stop : ℕ} (hss : start < stop) (h0 : mgr.heap mgr.mallocs = true)
    (h1 : mgr.heap (mgr.mallocs + 1) = true) :
    (∃ m₁ m₂, vmaUnmapRange mgr start stop = some m₁ ∧ munmapRange mgr start stop = some m₂ ∧
      Removed mgr start stop m₁ ∧ Removed mgr start stop m₂ ∧ m₁.vmUsed = m₂.vmUsed) ↔
    ∀ v ∈ mgr.areas, ¬v.oneSided start stop := by
  rw [h.areas_eq]
  have hsafe : SplitsSafe mgr.heap mgr.mallocs start stop (ps.map Prod.snd) :=
    splitsSafe_of_heap (.inl h0)
  have hwalk : ∀ cutEnd cutStart, ∃ d, unmapWalk cutEnd cutStart start stop mgr.mallocs mgr
      mgr.list.head = some (mgr.unmapped d
        (unmapList cutEnd cutStart start stop mgr.heap ps mgr.vmUsed mgr.mallocs)) ∧
      Rep (mgr.unmapped d
        (unmapList cutEnd cutStart start stop mgr.heap ps mgr.vmUsed mgr.mallocs))
        (unmapList cutEnd cutStart start stop mgr.heap ps mgr.vmUsed mgr.mallocs).out := by
    intro cutEnd cutStart
    rw [h.linked.head]
    exact unmapWalk_eq cutEnd cutStart [] h.toRep h.length_le h.ok.sorted hsafe
  obtain ⟨d₁, hd₁, hr₁⟩ := hwalk (cutEndCounted start) (cutStartCounted stop)
  obtain ⟨d₂, hd₂, hr₂⟩ := hwalk (cutEndPlain start) (cutStartPlain stop)
  constructor
  · rintro ⟨m₁, m₂, hm₁, hm₂, -, -, hused⟩ v hv hone
    rw [vmaUnmapRange, hd₁, Option.some.injEq] at hm₁
    rw [munmapRange, hd₂, Option.some.injEq] at hm₂
    rw [← hm₁, ← hm₂] at hused
    have hdiff := unmapList_used_diff start stop mgr.heap mgr.vmUsed mgr.vmUsed mgr.mallocs h.ok
    have hused' : (unmapList (cutEndCounted start) (cutStartCounted stop) start stop mgr.heap ps
        mgr.vmUsed mgr.mallocs).used = (unmapList (cutEndPlain start) (cutStartPlain stop) start stop
        mgr.heap ps mgr.vmUsed mgr.mallocs).used := hused
    -- the uncounted bytes are fewer than `2^64`, so they cannot vanish
    rw [hused', add_eq_left, ZMod.natCast_eq_zero_iff] at hdiff
    have hsum : (ps.map fun x => x.2.uncounted start stop).sum ≤ total (ps.map Prod.snd) := by
      rw [total, List.map_map]
      exact List.sum_le_sum fun x _ => x.2.uncounted_le
    have hzero := Nat.eq_zero_of_dvd_of_lt hdiff (hsum.trans_lt h.ok.total_lt)
    obtain ⟨x, hx, rfl⟩ := List.mem_map.mp hv
    have hle : x.2.uncounted start stop ≤ (ps.map fun x => x.2.uncounted start stop).sum :=
      List.le_sum_of_mem (List.mem_map_of_mem (f := fun x : ℕ × Vma => x.2.uncounted start stop) hx)
    have hpos := Vma.uncounted_pos hss hone
    omega
  · intro hone
    refine ⟨_, _, hd₁, hd₂, ?_, ?_, ?_⟩
    · intro x
      rw [hr₁.lookup_eq, h.lookup_eq]
      exact unmapList_lookup hss h.ok.inOrder (fun _ _ _ => ⟨h0, h1⟩) x
    · intro x
      rw [hr₂.lookup_eq, h.lookup_eq, ← unmapList_eq_of_not_oneSided hone]
      exact unmapList_lookup hss h.ok.inOrder (fun _ _ _ => ⟨h0, h1⟩) x
    · show (unmapList _ _ start stop mgr.heap ps mgr.vmUsed mgr.mallocs).used = _
      rw [unmapList_eq_of_not_oneSided hone]
      rfl

def oneArea (v : Vma) : VmaManager where
  list := { cells := fun p => if p = 0 then some ⟨v, none, none⟩ else none, head := some 0 }
  vmUsed := v.size
  mallocs := 1
  heap := fun _ => true

theorem oneArea_inv (h1 : v.vmStart < v.vmEnd) (h2 : v.vmEnd < 2 ^ 64) : Inv (oneArea v) [(0, v)] where
  linked := ⟨rfl, ⟨rfl, trivial⟩, nodup_singleton 0⟩
  lt := by simp [oneArea]
  ok := areasOk_cons.mpr ⟨h1, h2, ⟨List.Pairwise.nil, by simp, by simp⟩, by simp⟩

def filePages : Vma :=
  { freshVma with vmStart := 0x1000, vmEnd := 0x4000, vmFlags := vmaRead, vmType := .file, vmFd := 3 }

theorem unmapRange_agree_middle :
    ∃ m₁ m₂, vmaUnmapRange (oneArea filePages) 0x2000 0x3000 = some m₁ ∧
      munmapRange (oneArea filePages) 0x2000 0x3000 = some m₂ ∧
      Removed (oneArea filePages) 0x2000 0x3000 m₁ ∧ Removed (oneArea filePages) 0x2000 0x3000 m₂ ∧
      m₁.vmUsed = m₂.vmUsed :=
  (unmapRange_agree_iff (oneArea_inv (v := filePages) (by decide) (by decide)) (by decide) rfl
    rfl).mpr (by decide)

/-- For the first page the counters differ, and `munmap` also loses the file offset. -/
theorem unmapRange_differ_front :
    ¬∃ m₁ m₂, vmaUnmapRange (oneArea filePages) 0x1000 0x2000 = some m₁ ∧
      munmapRange (oneArea filePages) 0x1000 0x2000 = some m₂ ∧
      Removed (oneArea filePages) 0x1000 0x2000 m₁ ∧ Removed (oneArea filePages) 0x1000 0x2000 m₂ ∧
      m₁.vmUsed = m₂.vmUsed := by
  rintro ⟨m₁, m₂, h₁, h₂, -, -, hused⟩
  have hne : (vmaUnmapRange (oneArea filePages) 0x1000 0x2000).map VmaManager.vmUsed ≠
      (munmapRange (oneArea filePages) 0x1000 0x2000).map VmaManager.vmUsed := by decide
  rw [h₁, h₂, Option.map_some, Option.map_some, hused] at hne
  exact hne rfl

end CoolPotOS
