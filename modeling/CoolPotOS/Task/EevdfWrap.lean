import CoolPotOS.Task.EevdfQueue

namespace CoolPotOS

open RbTree

structure WordQueue (s : Eevdf) : Prop where
  nodup : (inorder s.root).Nodup
  current_mem : ∀ c, s.current = some c → c ∈ inorder s.root
  min_lt : s.minVruntime < 2 ^ 64
  word : ∀ id ∈ inorder s.root,
    (s.get id).vruntime < 2 ^ 64 ∧ (s.get id).minVruntime < 2 ^ 64 ∧ (s.get id).deadline < 2 ^ 64

def SchedEntity.times (se : SchedEntity) : List ℕ := [se.vruntime, se.minVruntime, se.deadline]

/-- One offset is taken off all virtual times, so that their differences and the order of the deadlines stay. -/
structure SameSchedule (s s' : Eevdf) : Prop where
  offset : ∃ d < 2 ^ 64, s'.minVruntime = wrapSub s.minVruntime d ∧
    ∀ id ∈ inorder s.root, (s'.get id).times = (s.get id).times.map (wrapSub · d)
  difference : ∀ a ∈ inorder s.root, ∀ b ∈ inorder s.root,
    List.zipWith wrapSub (s'.get a).times (s'.get b).times = List.zipWith wrapSub (s.get a).times (s.get b).times
  order : ∀ a ∈ inorder s.root, ∀ b ∈ inorder s.root,
    ((s'.get a).deadline ≤ (s'.get b).deadline ↔ (s.get a).deadline ≤ (s.get b).deadline)

theorem wrapSub_zero {n : ℕ} (h : n < 2 ^ 64) : wrapSub n 0 = n := by
  unfold wrapSub
  rw [Nat.sub_zero, Nat.add_mod_right, Nat.mod_eq_of_lt h]

theorem eq_zero_of_wrapSub {n d : ℕ} (hd : d < 2 ^ 64) (h : wrapSub n d = n) : d = 0 := by
  unfold wrapSub at h
  omega

variable {s : Eevdf}

theorem minVruntime_wrapped (offset : ℕ) (s : Eevdf) (id : ℕ) :
    (wrapped offset s id).minVruntime = (s.get id).minVruntime := by
  unfold wrapped
  by_cases h : s.current = some id
  · rw [if_pos h]
    rfl
  · rw [if_neg h]
    rfl

theorem sameSchedule_refl (h : WordQueue s) : SameSchedule s s := by
  refine ⟨⟨0, Nat.two_pow_pos 64, (wrapSub_zero h.min_lt).symm, fun id hid => ?_⟩, fun _ _ _ _ => rfl,
    fun _ _ _ _ => Iff.rfl⟩
  obtain ⟨hv, hm, hd⟩ := h.word id hid
  unfold SchedEntity.times
  simp only [List.map_cons, List.map_nil, wrapSub_zero hv, wrapSub_zero hm, wrapSub_zero hd]

/-- `wrap_vruntime` keeps the schedule when it does nothing, or when there is nothing to schedule. -/
theorem wrapVruntime_sameSchedule (h : WordQueue s) :
    SameSchedule s (wrapVruntime s) ↔ s.minVruntime < vruntimeOffsetThreshold ∨ inorder s.root = [] := by
  by_cases hmin : s.minVruntime < vruntimeOffsetThreshold
  · have hsame : wrapVruntime s = s := if_pos hmin
    rw [hsame]
    exact ⟨fun _ => .inl hmin, fun _ => sameSchedule_refl h⟩
  · have hwrap : wrapVruntime s = wrapVruntimeBy vruntimeOffsetThreshold s := if_neg hmin
    have hmin' : (wrapVruntime s).minVruntime = s.minVruntime - vruntimeOffsetThreshold := by
      rw [hwrap]
      unfold wrapVruntimeBy
      obtain ⟨ents, hcurrent, -⟩ := wrapCurrent_eq vruntimeOffsetThreshold
        { s with minVruntime := s.minVruntime - vruntimeOffsetThreshold }
      rw [hcurrent]
      dsimp only
      rw [foldl_set (wrapEntity vruntimeOffsetThreshold) h.nodup]
    have hpos : 0 < vruntimeOffsetThreshold := by norm_num [vruntimeOffsetThreshold]
    constructor
    · intro hsame
      right
      by_contra hne
      obtain ⟨id, hid⟩ := List.exists_mem_of_ne_nil _ hne
      obtain ⟨d, hd, hmind, htimes⟩ := hsame.offset
      obtain ⟨m, a, heq⟩ := wrapVruntimeBy_eq vruntimeOffsetThreshold h.nodup h.current_mem
      have hget : (wrapVruntime s).get id = wrapped vruntimeOffsetThreshold s id := by
        rw [hwrap, heq]
        simp [Eevdf.get, hid]
      -- the entity keeps its `min_vruntime`, so the offset would have to be 0
      have hkept := congrArg (fun l => l[1]?) (htimes id hid)
      simp only [SchedEntity.times, hget, minVruntime_wrapped, List.map_cons, List.getElem?_cons_succ,
        List.getElem?_cons_zero, Option.some.injEq] at hkept
      obtain rfl := eq_zero_of_wrapSub hd hkept.symm
      rw [hmin', wrapSub_zero h.min_lt] at hmind
      omega
    · rintro (hlt | hnil)
      · exact absurd hlt hmin
      · have hthreshold : vruntimeOffsetThreshold < 2 ^ 64 := by norm_num [vruntimeOffsetThreshold]
        refine ⟨⟨vruntimeOffsetThreshold, hthreshold, ?_, ?_⟩, ?_, ?_⟩
        · have := h.min_lt
          rw [hmin']
          unfold wrapSub
          omega
        · rw [hnil]
          intro id hid
          cases hid
        · rw [hnil]
          intro a ha
          cases ha
        · rw [hnil]
          intro a ha
          cases ha

/-- One entity that runs, where the virtual time of the queue has reached the offset. -/
def lateQueue : Eevdf where
  entities := fun _ => some { (default : SchedEntity) with
    vruntime := vruntimeOffsetThreshold + 5
    deadline := vruntimeOffsetThreshold + 9
    minVruntime := vruntimeOffsetThreshold
    onRq := true }
  schedHandle := fun _ => none
  root := .node .black .nil 0 .nil
  current := some 0
  waitQueue := CowList.empty
  taskCount := 1
  avgLoad := 0
  avgVruntime := 0
  minVruntime := vruntimeOffsetThreshold

theorem wordQueue_lateQueue : WordQueue lateQueue := by
  refine ⟨by decide, fun c hc => ?_, by decide, fun id _ => ?_⟩
  · cases hc
    decide
  · change vruntimeOffsetThreshold + 5 < 2 ^ 64 ∧ vruntimeOffsetThreshold < 2 ^ 64 ∧
      vruntimeOffsetThreshold + 9 < 2 ^ 64
    decide

theorem wrapVruntime_sameSchedule_lateQueue :
    SameSchedule lateQueue (wrapVruntime lateQueue) ↔
      lateQueue.minVruntime < vruntimeOffsetThreshold ∨ inorder lateQueue.root = [] :=
  wrapVruntime_sameSchedule wordQueue_lateQueue

/-- An entity keeps its `min_vruntime` when the virtual time of the queue is wrapped. -/
theorem wrapVruntime_shifts : ¬ ∀ s, WordQueue s → SameSchedule s (wrapVruntime s) := by
  intro hclaim
  obtain ⟨d, hd, hmin, htimes⟩ := (hclaim lateQueue wordQueue_lateQueue).offset
  have hzero : 0 = wrapSub vruntimeOffsetThreshold d := hmin
  have hkept := congrArg (fun l => l[1]?) (htimes 0 (by decide))
  have hsame : some vruntimeOffsetThreshold = some (wrapSub vruntimeOffsetThreshold d) := hkept
  rw [← hzero] at hsame
  cases hsame

end CoolPotOS
