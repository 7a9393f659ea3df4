import CoolPotOS.Mem.VmaAreas

namespace CoolPotOS

open LinkedList List Option Prod

/-- The range lies inside the area and touches neither of its ends. -/
def Vma.spans (start stop : ℕ) (v : Vma) : Prop :=
  v.vmStart < start ∧ start < v.vmEnd ∧ v.vmStart < stop ∧ stop < v.vmEnd

def Vma.oneSided (start stop : ℕ) (v : Vma) : Prop :=
  (v.vmStart < start ∧ start < v.vmEnd ∧ v.vmEnd ≤ stop) ∨
    (start ≤ v.vmStart ∧ v.vmStart < stop ∧ stop < v.vmEnd)

instance (start stop : ℕ) (v : Vma) : Decidable (v.spans start stop) :=
  inferInstanceAs (Decidable (_ ∧ _))

instance (start stop : ℕ) (v : Vma) : Decidable (v.oneSided start stop) :=
  inferInstanceAs (Decidable (_ ∨ _))

/-- The outcome of the loop for some areas: what is left of them, `vm_used`, and the
number of allocations so far. -/
structure Unmapped where
  out : List (ℕ × Vma)
  used : ℕ
  mallocs : ℕ

section Area

variable (cutEnd cutStart : ℕ → Vma → ℕ × Vma) (start stop : ℕ) (heap : ℕ → Bool)

/-- The two splits of an area around the range. When the second one fails, the part
that is thrown away is not the range but the rest of the area. -/
def unmapSpanned (used n p : ℕ) (v : Vma) : Unmapped :=
  if heap n = true then
    if start < stop then
      if heap (n + 1) = true then
        ⟨[(p, v.upTo start), (n, v.from stop)], wrapSub used (wrapSub stop start), n + 2⟩
      else ⟨[(p, v.upTo stop)], wrapSub used (wrapSub v.vmEnd stop), n + 2⟩
    else ⟨[(p, v.upTo stop)], wrapSub used (wrapSub v.vmEnd stop), n + 1⟩
  else if heap (n + 1) = true then
    ⟨[(p, v.upTo start)], wrapSub used (wrapSub v.vmEnd start), n + 2⟩
  else ⟨[(p, v)], used, n + 2⟩

def unmapArea (used n p : ℕ) (v : Vma) : Unmapped :=
  if v.vmStart ≥ start ∧ v.vmEnd ≤ stop then ⟨[], wrapSub used (wrapSub v.vmEnd v.vmStart), n⟩
  else if v.vmEnd ≤ start ∨ v.vmStart ≥ stop then ⟨[(p, v)], used, n⟩
  else if v.vmStart < start ∧ v.vmEnd > stop then unmapSpanned start stop heap used n p v
  else if v.vmStart < start then ⟨[(p, (cutEnd used v).2)], (cutEnd used v).1, n⟩
  else ⟨[(p, (cutStart used v).2)], (cutStart used v).1, n⟩

def unmapList : List (ℕ × Vma) → ℕ → ℕ → Unmapped
  | [], used, n => ⟨[], used, n⟩
  | x :: ps, used, n =>
    let a := unmapArea cutEnd cutStart start stop heap used n x.1 x.2
    let r := unmapList ps a.used a.mallocs
    ⟨a.out ++ r.out, r.used, r.mallocs⟩

end Area

/-- An area around the range is the last of the list, or one of its two splits finds the
memory for a new area. -/
def SplitsSafe (heap : ℕ → Bool) (n start stop : ℕ) : List Vma → Prop
  | [] => True
  | v :: vs => (v.spans start stop → vs = [] ∨ heap n = true ∨ heap (n + 1) = true) ∧
    SplitsSafe heap n start stop vs

instance decidableSplitsSafe (heap : ℕ → Bool) (n start stop : ℕ) :
    ∀ vs, Decidable (SplitsSafe heap n start stop vs)
  | [] => inferInstanceAs (Decidable True)
  | v :: vs =>
    have := decidableSplitsSafe heap n start stop vs
    inferInstanceAs (Decidable ((v.spans start stop → _) ∧ _))

variable {heap : ℕ → Bool} {n p used : ℕ} {mgr : VmaManager} {l1 l2 : List (ℕ × Vma)} {v : Vma}

theorem splitsSafe_of_not_spans {start stop : ℕ} {vs : List Vma} (h : ∀ v ∈ vs, ¬v.spans start stop) :
    SplitsSafe heap n start stop vs := by
  induction vs with
  | nil => trivial
  | cons v vs ih =>
    exact ⟨fun hv => absurd hv (h v mem_cons_self), ih fun w hw => h w (mem_cons_of_mem v hw)⟩

theorem splitsSafe_of_heap {start stop : ℕ} {vs : List Vma} (h : heap n = true ∨ heap (n + 1) = true) :
    SplitsSafe heap n start stop vs := by
  induction vs with
  | nil => trivial
  | cons v vs ih => exact ⟨fun _ => .inr h, ih⟩

section Walk

variable {cutEnd cutStart : ℕ → Vma → ℕ × Vma} {start stop : ℕ}

def VmaManager.unmapped (mgr : VmaManager) (d : Dll Vma) (a : Unmapped) : VmaManager :=
  { mgr with list := d, vmUsed := a.used, mallocs := a.mallocs }

theorem unmapMiddle_of_splits {m1 m2 : VmaManager} {b1 b2 : Bool} {q : ℕ} {w : Vma}
    (h1 : vmaSplit mgr p stop = some (m1, b1)) (h2 : vmaSplit m1 p start = some (m2, b2))
    (h : Rep m2 (l1 ++ (p, v) :: (q, w) :: l2)) :
    ∃ d, unmapMiddle mgr p start stop = some { m2 with
        list := d, vmUsed := wrapSub m2.vmUsed (wrapSub w.vmEnd w.vmStart) } ∧
      Rep { m2 with list := d, vmUsed := wrapSub m2.vmUsed (wrapSub w.vmEnd w.vmStart) }
        (l1 ++ (p, v) :: l2) := by
  have hl : Linked m2.list ((l1 ++ [(p, v)]) ++ (q, w) :: l2) := by simpa using h.linked
  obtain ⟨d, hd, hld, -⟩ := vmaRemove_eq hl
  refine ⟨d.free q, ?_, by simpa using hld, fun x hx => h.lt x ?_⟩
  · simp only [unmapMiddle, h1, h2, h.linked.get, headPtr_cons, hd, bind_eq_bind,
      bind_some, map_some, vmaFree]
  · simp only [mem_append, mem_cons] at hx ⊢
    tauto

theorem unmapMiddle_eq (h : Rep mgr (l1 ++ (p, v) :: l2)) (hv : v.spans start stop)
    (hsafe : l2 = [] ∨ mgr.heap mgr.mallocs = true ∨ mgr.heap (mgr.mallocs + 1) = true) :
    ∃ d, unmapMiddle mgr p start stop =
        some (mgr.unmapped d (unmapSpanned start stop mgr.heap mgr.vmUsed mgr.mallocs p v)) ∧
      Rep (mgr.unmapped d (unmapSpanned start stop mgr.heap mgr.vmUsed mgr.mallocs p v))
        (l1 ++ (unmapSpanned start stop mgr.heap mgr.vmUsed mgr.mallocs p v).out ++ l2) := by
  obtain ⟨hv1, hv2, hv3, hv4⟩ := hv
  by_cases h0 : mgr.heap mgr.mallocs = true
  · obtain ⟨d1, hd1, h₁⟩ := vmaSplit_eq h hv3 hv4 h0
    by_cases hss : start < stop
    · by_cases hh : mgr.heap (mgr.mallocs + 1) = true
      · -- both splits succeed, and the part between them is removed
        obtain ⟨d2, hd2, h₂⟩ := vmaSplit_eq h₁ hv1 hss hh
        obtain ⟨d, hd, hr⟩ := unmapMiddle_of_splits hd1 hd2 h₂
        have ha : unmapSpanned start stop mgr.heap mgr.vmUsed mgr.mallocs p v =
            ⟨[(p, v.upTo start), (mgr.mallocs, v.from stop)],
              wrapSub mgr.vmUsed (wrapSub stop start), mgr.mallocs + 2⟩ := by
          simp [unmapSpanned, h0, hss, hh]
        rw [ha, append_assoc]
        exact ⟨d, hd, hr⟩
      · -- the second split fails, and the part after the range is removed
        have hd2 := vmaSplit_fails h₁.linked hv1 hss (by simpa using hh)
        have h₂ : Rep { mgr with list := d1, mallocs := mgr.mallocs + 2 } _ :=
          ⟨h₁.linked, fun x hx => Nat.lt_succ_of_lt (h₁.lt x hx)⟩
        obtain ⟨d, hd, hr⟩ := unmapMiddle_of_splits hd1 hd2 h₂
        have ha : unmapSpanned start stop mgr.heap mgr.vmUsed mgr.mallocs p v =
            ⟨[(p, v.upTo stop)], wrapSub mgr.vmUsed (wrapSub v.vmEnd stop), mgr.mallocs + 2⟩ := by
          simp [unmapSpanned, h0, hss, hh]
        rw [ha, append_assoc]
        exact ⟨d, hd, hr⟩
    · -- the second split has nothing to do
      have hd2 := vmaSplit_outside h₁.linked (show start ≤ _ ∨ start ≥ (v.upTo stop).vmEnd from
        .inr (not_lt.mp hss))
      obtain ⟨d, hd, hr⟩ := unmapMiddle_of_splits hd1 hd2 h₁
      have ha : unmapSpanned start stop mgr.heap mgr.vmUsed mgr.mallocs p v =
          ⟨[(p, v.upTo stop)], wrapSub mgr.vmUsed (wrapSub v.vmEnd stop), mgr.mallocs + 1⟩ := by
        simp [unmapSpanned, h0, hss]
      rw [ha, append_assoc]
      exact ⟨d, hd, hr⟩
  · have hd1 := vmaSplit_fails h.linked hv3 hv4 (by simpa using h0)
    have h₁ : Rep { mgr with mallocs := mgr.mallocs + 1 } _ :=
      ⟨h.linked, fun x hx => Nat.lt_succ_of_lt (h.lt x hx)⟩
    by_cases hh : mgr.heap (mgr.mallocs + 1) = true
    · obtain ⟨d2, hd2, h₂⟩ := vmaSplit_eq h₁ hv1 hv2 hh
      obtain ⟨d, hd, hr⟩ := unmapMiddle_of_splits hd1 hd2 h₂
      have ha : unmapSpanned start stop mgr.heap mgr.vmUsed mgr.mallocs p v =
          ⟨[(p, v.upTo start)], wrapSub mgr.vmUsed (wrapSub v.vmEnd start), mgr.mallocs + 2⟩ := by
        simp [unmapSpanned, h0, hh]
      rw [ha, append_assoc]
      exact ⟨d, hd, hr⟩
    · -- no split at all: only the last area of a list survives this
      obtain rfl : l2 = [] := hsafe.resolve_right (by simp [h0, hh])
      have hd2 := vmaSplit_fails h₁.linked hv1 hv2 (by simpa using hh)
      have ha : unmapSpanned start stop mgr.heap mgr.vmUsed mgr.mallocs p v =
          ⟨[(p, v)], mgr.vmUsed, mgr.mallocs + 2⟩ := by
        simp [unmapSpanned, h0, hh]
      rw [ha, append_nil]
      refine ⟨mgr.list, ?_, h.linked, fun x hx => Nat.lt_succ_of_lt (h₁.lt x hx)⟩
      simp only [unmapMiddle, hd1, hd2, h.linked.get, headPtr_nil, vmaRemove, bind_eq_bind,
        bind_some]
      rfl

variable (cutEnd cutStart)

theorem unmapWalk_area (fuel : ℕ) (h : Rep mgr (l1 ++ (p, v) :: l2))
    (hsafe : v.spans start stop → l2 = [] ∨ mgr.heap mgr.mallocs = true ∨ mgr.heap (mgr.mallocs + 1) = true) :
    ∃ d, unmapWalk cutEnd cutStart start stop (fuel + 1) mgr (some p) =
        unmapWalk cutEnd cutStart start stop fuel (mgr.unmapped d
          (unmapArea cutEnd cutStart start stop mgr.heap mgr.vmUsed mgr.mallocs p v)) (headPtr l2 none) ∧
      Rep (mgr.unmapped d (unmapArea cutEnd cutStart start stop mgr.heap mgr.vmUsed mgr.mallocs p v))
        (l1 ++ (unmapArea cutEnd cutStart start stop mgr.heap mgr.vmUsed mgr.mallocs p v).out ++ l2) := by
  have hget := h.linked.get
  have hlt : ∀ w x, x ∈ l1 ++ (p, w) :: l2 → x.1 < mgr.mallocs := by
    intro w x hx
    have hlt := h.lt
    simp only [mem_append, mem_cons, or_imp, forall_and, forall_eq] at hlt hx
    rcases hx with hx | rfl | hx
    · exact hlt.1 x hx
    · exact hlt.2.1
    · exact hlt.2.2 x hx
  simp only [unmapWalk, hget, bind_eq_bind, bind_some, unmapArea]
  by_cases h1 : v.vmStart ≥ start ∧ v.vmEnd ≤ stop
  · simp only [if_pos h1]
    obtain ⟨d, hd, hl, -⟩ := vmaRemove_eq h.linked
    rw [hd, append_nil]
    refine ⟨d.free p, rfl, hl, fun x hx => hlt v x ?_⟩
    simp only [mem_append, mem_cons] at hx ⊢
    tauto
  simp only [if_neg h1]
  by_cases h2 : v.vmEnd ≤ start ∨ v.vmStart ≥ stop
  · simp only [if_pos h2]
    refine ⟨mgr.list, rfl, ?_⟩
    rw [append_assoc]
    exact h
  simp only [if_neg h2]
  by_cases h3 : v.vmStart < start ∧ v.vmEnd > stop
  · simp only [if_pos h3]
    obtain ⟨d, hd, hr⟩ := unmapMiddle_eq h (show v.spans start stop by
      unfold Vma.spans
      omega) (hsafe (by unfold Vma.spans; omega))
    exact ⟨d, by rw [hd]; rfl, hr⟩
  simp only [if_neg h3]
  by_cases h4 : v.vmStart < start
  · simp only [if_pos h4]
    obtain ⟨d, hd, hl⟩ := vmaWrite_eq h.linked (cutEnd mgr.vmUsed v).2
    rw [hd, append_assoc]
    exact ⟨d, rfl, hl, hlt _⟩
  · simp only [if_neg h4]
    obtain ⟨d, hd, hl⟩ := vmaWrite_eq h.linked (cutStart mgr.vmUsed v).2
    rw [hd, append_assoc]
    exact ⟨d, rfl, hl, hlt _⟩

theorem unmapArea_mallocs (h : ¬v.spans start stop) :
    (unmapArea cutEnd cutStart start stop heap used n p v).mallocs = n := by
  unfold unmapArea
  unfold Vma.spans at h
  split_ifs <;> first | rfl | omega

theorem unmapWalk_eq {fuel : ℕ} (l1 : List (ℕ × Vma)) (h : Rep mgr (l1 ++ l2)) (hf : l2.length ≤ fuel)
    (hsorted : (l2.map snd).Pairwise fun a b => a.vmEnd ≤ b.vmStart)
    (hsafe : SplitsSafe mgr.heap mgr.mallocs start stop (l2.map snd)) :
    ∃ d, unmapWalk cutEnd cutStart start stop fuel mgr (headPtr l2 none) = some (mgr.unmapped d
          (unmapList cutEnd cutStart start stop mgr.heap l2 mgr.vmUsed mgr.mallocs)) ∧
      Rep (mgr.unmapped d (unmapList cutEnd cutStart start stop mgr.heap l2 mgr.vmUsed mgr.mallocs))
        (l1 ++ (unmapList cutEnd cutStart start stop mgr.heap l2 mgr.vmUsed mgr.mallocs).out) := by
  induction l2 generalizing l1 mgr fuel with
  | nil => exact ⟨mgr.list, by cases fuel <;> rfl, h⟩
  | cons x l2 ih =>
    obtain ⟨p, v⟩ := x
    obtain ⟨fuel, rfl⟩ := Nat.exists_eq_succ_of_ne_zero (show fuel ≠ 0 by rintro rfl; simp at hf)
    rw [map_cons, pairwise_cons] at hsorted
    obtain ⟨hv, hrest⟩ := hsafe
    have hv' : v.spans start stop →
        l2 = [] ∨ mgr.heap mgr.mallocs = true ∨ mgr.heap (mgr.mallocs + 1) = true := by
      simpa using hv
    obtain ⟨d, hd, hr⟩ := unmapWalk_area cutEnd cutStart fuel h hv'
    -- at most one area of a sorted list is around the range
    have hrest' : SplitsSafe mgr.heap
        (unmapArea cutEnd cutStart start stop mgr.heap mgr.vmUsed mgr.mallocs p v).mallocs
        start stop (l2.map snd) := by
      by_cases hs : v.spans start stop
      · refine splitsSafe_of_not_spans fun w hw hws => ?_
        have hle : v.vmEnd ≤ w.vmStart := hsorted.1 w hw
        unfold Vma.spans at hs hws
        omega
      · rw [unmapArea_mallocs cutEnd cutStart hs]
        exact hrest
    obtain ⟨d', hd', hr'⟩ := ih _ hr (by simpa using hf) hsorted.2 hrest'
    rw [append_assoc] at hr'
    exact ⟨d', hd.trans hd', hr'⟩

end Walk

/-- The two truncations move the end of an area to `start` or its start to `stop`. -/
structure Cuts (start stop : ℕ) (cutEnd cutStart : ℕ → Vma → ℕ × Vma) : Prop where
  endAt : ∀ used v, (cutEnd used v).2 = v.upTo start
  startAt : ∀ used v, (cutStart used v).2.vmStart = stop ∧ (cutStart used v).2.vmEnd = v.vmEnd

theorem cuts_counted (start stop : ℕ) : Cuts start stop (cutEndCounted start) (cutStartCounted stop) :=
  ⟨fun _ _ => rfl, fun _ _ => ⟨rfl, rfl⟩⟩

section Parts

variable {cutEnd cutStart : ℕ → Vma → ℕ × Vma} {start stop : ℕ} {heap : ℕ → Bool}

theorem unmapSpanned_parts (hv : v.spans start stop) :
    PartsOf v ((unmapSpanned start stop heap used n p v).out.map snd) := by
  obtain ⟨h1, h2, h3, h4⟩ := hv
  have hstart : PartsOf v [v.upTo start] := partsOf_singleton le_rfl h1 h2.le
  have hstop : PartsOf v [v.upTo stop] := partsOf_singleton le_rfl h3 h4.le
  have hfrom : PartsOf v [v.from stop] := partsOf_singleton h3.le h4 le_rfl
  unfold unmapSpanned
  split_ifs with h5 h6 h7 h8
  · exact partsOf_pair hstart hfrom h6.le
  · exact hstop
  · exact hstop
  · exact hstart
  · exact partsOf_singleton le_rfl (h1.trans h2) le_rfl

theorem unmapArea_parts (hc : Cuts start stop cutEnd cutStart) (hv : v.vmStart < v.vmEnd) :
    PartsOf v ((unmapArea cutEnd cutStart start stop heap used n p v).out.map snd) := by
  unfold unmapArea
  split_ifs with h1 h2 h3 h4
  · exact partsOf_nil
  · exact partsOf_singleton le_rfl hv le_rfl
  · exact unmapSpanned_parts (by unfold Vma.spans; omega)
  · rw [hc.endAt]
    exact partsOf_singleton le_rfl h4 (show start ≤ v.vmEnd by omega)
  · obtain ⟨hs, he⟩ := hc.startAt used v
    exact partsOf_singleton (w := (cutStart used v).2) (by omega) (by omega) (by omega)

theorem unmapList_ok (hc : Cuts start stop cutEnd cutStart) (l1 : List Vma)
    (h : AreasOk (l1 ++ l2.map snd)) :
    AreasOk (l1 ++ (unmapList cutEnd cutStart start stop heap l2 used n).out.map snd) := by
  induction l2 generalizing l1 used n with
  | nil => exact h
  | cons x l2 ih =>
    have hx := h.nonempty x.2 (by simp)
    simp only [unmapList, map_append, ← append_assoc]
    exact ih _ (h.replace (unmapArea_parts hc hx))

theorem unmapArea_used (hv : v.vmStart < v.vmEnd) (hword : v.vmEnd < 2 ^ 64) (hle : v.size ≤ used)
    (hused : used < 2 ^ 64)
    (hcut : v.oneSided start stop → cutEnd = cutEndCounted start ∧ cutStart = cutStartCounted stop) :
    (unmapArea cutEnd cutStart start stop heap used n p v).used + v.size =
        used + total ((unmapArea cutEnd cutStart start stop heap used n p v).out.map snd) ∧
      total ((unmapArea cutEnd cutStart start stop heap used n p v).out.map snd) ≤ v.size := by
  have hsub : ∀ a b, b ≤ a → a ≤ v.vmEnd → v.vmStart ≤ b →
      wrapSub used (wrapSub a b) = used - (a - b) := by
    intro a b h1 h2 h3
    unfold Vma.size at hle
    rw [wrapSub_of_le h1 (by omega), wrapSub_of_le (by omega) hused]
  unfold Vma.size at hle ⊢
  unfold unmapArea unmapSpanned
  unfold Vma.oneSided at hcut
  split_ifs with h1 h2 h3 h4 h5 h6 h7 h8
  all_goals simp only [map_cons, map_nil, total_cons, total_nil, Vma.size,
    Vma.upTo_vmStart, Vma.upTo_vmEnd, Vma.from_vmStart, Vma.from_vmEnd]
  · rw [hsub _ _ hv.le le_rfl le_rfl]
    omega
  · omega
  · rw [hsub _ _ (by omega) (by omega) (by omega)]
    omega
  · rw [hsub _ _ (by omega) (by omega) (by omega)]
    omega
  · rw [hsub _ _ (by omega) (by omega) (by omega)]
    omega
  · rw [hsub _ _ (by omega) (by omega) (by omega)]
    omega
  · omega
  · rw [(hcut (by omega)).1]
    simp only [cutEndCounted, Vma.upTo_vmStart, Vma.upTo_vmEnd]
    rw [hsub _ _ (by omega) (by omega) (by omega)]
    omega
  · rw [(hcut (by omega)).2]
    simp only [cutStartCounted, Vma.from_vmStart, Vma.from_vmEnd]
    rw [hsub _ _ (by omega) (by omega) (by omega)]
    omega

theorem unmapList_used (h : AreasOk (l2.map snd)) (hle : total (l2.map snd) ≤ used)
    (hused : used < 2 ^ 64)
    (hcut : ∀ v ∈ l2.map snd, v.oneSided start stop → cutEnd = cutEndCounted start ∧ cutStart = cutStartCounted stop) :
    (unmapList cutEnd cutStart start stop heap l2 used n).used + total (l2.map snd) =
      used + total ((unmapList cutEnd cutStart start stop heap l2 used n).out.map snd) := by
  induction l2 generalizing used n with
  | nil => rfl
  | cons x l2 ih =>
    rw [map_cons, total_cons] at hle
    obtain ⟨h1, h2, h3, -⟩ := areasOk_cons.mp h
    set a := unmapArea cutEnd cutStart start stop heap used n x.1 x.2 with ha
    obtain ⟨he, hout⟩ : a.used + x.2.size = used + total (a.out.map snd) ∧
        total (a.out.map snd) ≤ x.2.size :=
      unmapArea_used h1 h2 (by omega) hused (hcut x.2 mem_cons_self)
    have hrest : (unmapList cutEnd cutStart start stop heap l2 a.used a.mallocs).used +
          total (l2.map snd) = a.used +
        total ((unmapList cutEnd cutStart start stop heap l2 a.used a.mallocs).out.map snd) :=
      ih h3 (by omega) (by omega) fun v hv => hcut v (mem_cons_of_mem x.2 hv)
    simp only [unmapList, ← ha, map_cons, map_append, total_cons, total_append]
    omega

end Parts

end CoolPotOS
