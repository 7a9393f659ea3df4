import CoolPotOS.Mem.VmaAgree

namespace CoolPotOS

open LinkedList List Option Prod

section Exact

variable {start stop : ℕ} {heap : ℕ → Bool}

theorem unmapArea_within (hss : start < stop) {v : Vma} (hle : v.vmStart ≤ v.vmEnd)
    (heap : ℕ → Bool) (used n p : ℕ) :
    let out := (unmapArea (cutEndCounted start) (cutStartCounted stop) start stop heap used n p
      v).out.map snd
    out.Pairwise (fun a b => a.vmEnd ≤ b.vmStart) ∧
      ∀ w ∈ out, v.vmStart ≤ w.vmStart ∧ w.vmStart ≤ w.vmEnd ∧ w.vmEnd ≤ v.vmEnd := by
  have hone : ∀ w : Vma, v.vmStart ≤ w.vmStart → w.vmStart ≤ w.vmEnd → w.vmEnd ≤ v.vmEnd →
      [w].Pairwise (fun a b => a.vmEnd ≤ b.vmStart) ∧
        ∀ u ∈ [w], v.vmStart ≤ u.vmStart ∧ u.vmStart ≤ u.vmEnd ∧ u.vmEnd ≤ v.vmEnd := by
    intro w h1 h2 h3
    refine ⟨pairwise_singleton _ _, fun u hu => ?_⟩
    obtain rfl := mem_singleton.mp hu
    exact ⟨h1, h2, h3⟩
  have hupTo : ∀ a, v.vmStart ≤ a → a ≤ v.vmEnd → [v.upTo a].Pairwise (fun a b => a.vmEnd ≤ b.vmStart) ∧
        ∀ u ∈ [v.upTo a], v.vmStart ≤ u.vmStart ∧ u.vmStart ≤ u.vmEnd ∧ u.vmEnd ≤ v.vmEnd :=
    fun a h1 h2 => hone (v.upTo a) le_rfl h1 h2
  unfold unmapArea unmapSpanned
  split_ifs with h1 h2 h3 h4 h5 h6 h7
  · exact ⟨List.Pairwise.nil, fun w hw => absurd hw not_mem_nil⟩
  · exact hone v le_rfl hle le_rfl
  · have hfrom : v.vmStart ≤ stop ∧ stop ≤ v.vmEnd := by omega
    refine ⟨pairwise_pair.mpr hss.le, fun w hw => ?_⟩
    obtain rfl | hw := mem_cons.mp hw
    · exact (hupTo start (by omega) (by omega)).2 _ mem_cons_self
    · obtain rfl := mem_singleton.mp hw
      exact ⟨hfrom.1, hfrom.2, le_rfl⟩
  · exact hupTo stop (by omega) (by omega)
  · exact hupTo start (by omega) (by omega)
  · exact hone v le_rfl hle le_rfl
  · exact hupTo start (by omega) (by omega)
  · have hfrom : v.vmStart ≤ stop ∧ stop ≤ v.vmEnd := by omega
    exact hone (v.from stop) hfrom.1 hfrom.2 le_rfl

theorem unmapList_inOrder (hss : start < stop) {ps : List (ℕ × Vma)}
    (h : InOrder (ps.map snd)) (used n : ℕ) :
    let out := (unmapList (cutEndCounted start) (cutStartCounted stop) start stop heap ps used
      n).out.map snd
    InOrder out ∧ ∀ w ∈ out, ∃ v ∈ ps.map snd, v.vmStart ≤ w.vmStart := by
  induction ps generalizing used n with
  | nil => exact ⟨h, fun w hw => absurd hw not_mem_nil⟩
  | cons x ps ih =>
    rw [map_cons] at h
    obtain ⟨h1, h2, h3, h4⟩ := inOrder_cons.mp h
    obtain ⟨hsorted, hwithin⟩ := unmapArea_within hss h1 heap used n x.1
    simp only [unmapList, map_append, map_cons, mem_append]
    generalize unmapArea (cutEndCounted start) (cutStartCounted stop) start stop heap used n x.1 x.2 = a
      at hsorted hwithin ⊢
    obtain ⟨hrest, hfrom⟩ := ih h3 a.used a.mallocs
    refine ⟨⟨?_, fun w hw => ?_, fun w hw => ?_⟩, fun w hw => ?_⟩
    · refine pairwise_append.mpr ⟨hsorted, hrest.sorted, fun u hu w hw => ?_⟩
      obtain ⟨v, hv, hvw⟩ := hfrom w hw
      exact ((hwithin u hu).2.2.trans (h4 v hv)).trans hvw
    · obtain hw | hw := mem_append.mp hw
      · exact (hwithin w hw).2.1
      · exact hrest.le w hw
    · obtain hw | hw := mem_append.mp hw
      · exact (hwithin w hw).2.2.trans_lt h2
      · exact hrest.word w hw
    · obtain hw | hw := hw
      · exact ⟨x.2, mem_cons_self, (hwithin w hw).1⟩
      · obtain ⟨v, hv, hvw⟩ := hfrom w hw
        exact ⟨v, mem_cons_of_mem _ hv, hvw⟩

def Vma.clip (start stop : ℕ) (v : Vma) : ℕ := min v.vmEnd stop - max v.vmStart start

theorem wrapSub_wrapSub {a b c : ℕ} (h : b + c ≤ 2 ^ 64) : wrapSub (wrapSub a b) c = wrapSub a (b + c) := by
  unfold wrapSub
  omega

theorem unmapArea_clip (hss : start < stop) {used n : ℕ} (p : ℕ) {v : Vma} (hle : v.vmStart ≤ v.vmEnd)
    (hword : v.vmEnd < 2 ^ 64) (hused : used < 2 ^ 64)
    (hheap : v.spans start stop → heap n = true ∧ heap (n + 1) = true) :
    (unmapArea (cutEndCounted start) (cutStartCounted stop) start stop heap used n p v).used =
      wrapSub used (v.clip start stop) := by
  unfold unmapArea
  by_cases h1 : v.vmStart ≥ start ∧ v.vmEnd ≤ stop
  · have hclip : v.clip start stop = v.vmEnd - v.vmStart := by
      unfold Vma.clip
      omega
    rw [if_pos h1, hclip]
    dsimp only
    rw [wrapSub_of_le hle hword]
  rw [if_neg h1]
  by_cases h2 : v.vmEnd ≤ start ∨ v.vmStart ≥ stop
  · have hclip : v.clip start stop = 0 := by
      unfold Vma.clip
      omega
    rw [if_pos h2, hclip, wrapSub_of_le (Nat.zero_le _) hused]
    rfl
  rw [if_neg h2]
  by_cases h3 : v.vmStart < start ∧ v.vmEnd > stop
  · have hspans : v.spans start stop := by
      unfold Vma.spans
      omega
    have hclip : v.clip start stop = stop - start := by
      unfold Vma.clip
      omega
    unfold unmapSpanned
    rw [if_pos h3, if_pos (hheap hspans).1, if_pos hss, if_pos (hheap hspans).2, hclip]
    dsimp only
    rw [wrapSub_of_le hss.le (h3.2.trans hword)]
  rw [if_neg h3]
  by_cases h4 : v.vmStart < start
  · have hclip : v.clip start stop = v.vmEnd - start := by
      unfold Vma.clip
      omega
    rw [if_pos h4, hclip]
    unfold cutEndCounted
    dsimp only
    rw [wrapSub_of_le (by omega) hword]
  · have hclip : v.clip start stop = stop - v.vmStart := by
      unfold Vma.clip
      omega
    have hstop : stop < 2 ^ 64 := by omega
    rw [if_neg h4, hclip]
    unfold cutStartCounted
    dsimp only
    rw [wrapSub_of_le (by omega) hstop]

def covered (start stop : ℕ) (vs : List Vma) : Finset ℕ :=
  (Finset.Ico start stop).filter fun x => (lookupAreas vs x).isSome

theorem card_covered {vs : List Vma} (h : InOrder vs) :
    (covered start stop vs).card = (vs.map (Vma.clip start stop)).sum := by
  induction vs with
  | nil => simp [covered, lookupAreas]
  | cons v vs ih =>
    obtain ⟨h1, -, h3, h4⟩ := inOrder_cons.mp h
    have hsplit : covered start stop (v :: vs) =
        Finset.Ico (max v.vmStart start) (min v.vmEnd stop) ∪ covered start stop vs := by
      ext x
      unfold covered
      simp only [Finset.mem_filter, Finset.mem_union, Finset.mem_Ico, lookupAreas_cons]
      by_cases hx : v.vmStart ≤ x ∧ x < v.vmEnd
      · simp only [if_pos hx, isSome_some, and_true]
        omega
      · rw [if_neg hx]
        constructor
        · exact fun hmem => .inr hmem
        · rintro (hmem | hmem)
          · omega
          · exact hmem
    have hdisjoint : Disjoint (Finset.Ico (max v.vmStart start) (min v.vmEnd stop))
        (covered start stop vs) := by
      rw [Finset.disjoint_left]
      intro x hx hmem
      obtain ⟨-, hsome⟩ := Finset.mem_filter.mp hmem
      obtain ⟨e, he⟩ := isSome_iff_exists.mp hsome
      unfold lookupAreas at he
      obtain ⟨w, hw, -⟩ := map_eq_some_iff.mp he
      have hin := List.find?_some hw
      have hle := h4 w (List.mem_of_find?_eq_some hw)
      rw [decide_eq_true_eq] at hin
      rw [Finset.mem_Ico] at hx
      omega
    rw [hsplit, Finset.card_union_of_disjoint hdisjoint, ih h3, Nat.card_Ico, map_cons, sum_cons]
    rfl

theorem sum_clip_le (start stop : ℕ) {vs : List Vma} (h : InOrder vs) :
    (vs.map (Vma.clip start stop)).sum ≤ stop - start := by
  rw [← card_covered h, ← Nat.card_Ico]
  exact Finset.card_filter_le _ _

theorem unmapList_clip (hss : start < stop) (hstop : stop ≤ 2 ^ 64) {ps : List (ℕ × Vma)}
    (h : InOrder (ps.map snd)) {used n : ℕ} (hused : used < 2 ^ 64)
    (hheap : ∀ v ∈ ps.map snd, v.spans start stop → heap n = true ∧ heap (n + 1) = true) :
    (unmapList (cutEndCounted start) (cutStartCounted stop) start stop heap ps used n).used =
      wrapSub used ((ps.map snd).map (Vma.clip start stop)).sum := by
  induction ps generalizing used n with
  | nil => exact (wrapSub_of_le (Nat.zero_le _) hused).symm
  | cons x ps ih =>
    have hsum := sum_clip_le start stop h
    rw [map_cons] at h hheap hsum ⊢
    obtain ⟨h1, h2, h3, -⟩ := inOrder_cons.mp h
    have harea := unmapArea_clip hss x.1 h1 h2 hused (hheap x.2 mem_cons_self)
    have hlt : wrapSub used (x.2.clip start stop) < 2 ^ 64 := Nat.mod_lt _ (by norm_num)
    rw [map_cons, sum_cons] at hsum ⊢
    simp only [unmapList]
    rw [ih h3 (by rw [harea]; exact hlt) fun w hw hws => ?_, harea, wrapSub_wrapSub (by omega)]
    by_cases hx : x.2.spans start stop
    · exact absurd hws (not_spans_of_spans h hx w hw)
    · rw [unmapArea_mallocs _ _ hx]
      exact hheap w (mem_cons_of_mem _ hw) hws

/-- `vma_unmap_range` with all allocations granted: the map is the old one without the range, the list
is still sorted and disjoint, and `vm_used` has dropped by the mapped bytes of the range. -/
theorem unmapRange_exact {mgr : VmaManager} {ps : List (ℕ × Vma)} (h : Rep mgr ps)
    (hareas : InOrder (ps.map Prod.snd)) (hused : mgr.vmUsed < 2 ^ 64) {start stop : ℕ}
    (hss : start < stop) (hstop : stop < 2 ^ 64) (hheap : ∀ n, mgr.mallocs ≤ n → mgr.heap n = true) :
    ∃ mgr' ps', vmaUnmapRange mgr start stop = some mgr' ∧ Rep mgr' ps' ∧
      InOrder (ps'.map Prod.snd) ∧ Removed mgr start stop mgr' ∧
      mgr'.vmUsed = wrapSub mgr.vmUsed
        ((Finset.Ico start stop).filter fun x => (mgr.lookup x).isSome).card := by
  have hspans : ∀ v ∈ ps.map Prod.snd, v.spans start stop →
      mgr.heap mgr.mallocs = true ∧ mgr.heap (mgr.mallocs + 1) = true :=
    fun _ _ _ => ⟨hheap _ le_rfl, hheap _ (Nat.le_succ _)⟩
  have hsafe : SplitsSafe mgr.heap mgr.mallocs start stop (ps.map Prod.snd) :=
    splitsSafe_of_heap (.inl (hheap _ le_rfl))
  obtain ⟨d, hwalk, hrep⟩ := unmapWalk_eq (cutEndCounted start) (cutStartCounted stop) [] h
    h.length_le hareas.sorted hsafe
  refine ⟨_, _, ?_, hrep, (unmapList_inOrder hss hareas _ _).1, fun x => ?_, ?_⟩
  · unfold vmaUnmapRange
    rw [h.linked.head]
    exact hwalk
  · rw [hrep.lookup_eq, h.lookup_eq]
    exact unmapList_lookup hss hareas hspans x
  · have hcard : (Finset.Ico start stop).filter (fun x => (mgr.lookup x).isSome) =
        covered start stop (ps.map Prod.snd) := by
      unfold covered
      simp only [h.lookup_eq]
    rw [hcard, card_covered hareas]
    exact unmapList_clip hss hstop.le hareas hused hspans

/-- The middle page of three. -/
theorem unmapRange_exact_middle :
    ∃ mgr' ps', vmaUnmapRange (oneArea filePages) 0x2000 0x3000 = some mgr' ∧ Rep mgr' ps' ∧
      InOrder (ps'.map Prod.snd) ∧ Removed (oneArea filePages) 0x2000 0x3000 mgr' ∧
      mgr'.vmUsed = wrapSub (oneArea filePages).vmUsed
        ((Finset.Ico 0x2000 0x3000).filter fun x => ((oneArea filePages).lookup x).isSome).card :=
  have hinv := oneArea_inv (v := filePages) (by decide) (by decide)
  unmapRange_exact hinv.toRep hinv.ok.inOrder (by decide) (by decide) (by decide) fun _ _ => rfl

/-- Both splits of an area around the range succeed, or both fail and it is the last area. -/
def SplitsKeep (heap : ℕ → Bool) (n start stop : ℕ) : List Vma → Prop
  | [] => True
  | v :: vs =>
    (v.spans start stop → (heap n = true ∧ heap (n + 1) = true) ∨
      (heap n = false ∧ heap (n + 1) = false ∧ vs = [])) ∧
    SplitsKeep heap n start stop vs

instance SplitsKeep.decidable (heap : ℕ → Bool) (n start stop : ℕ) :
    ∀ vs, Decidable (SplitsKeep heap n start stop vs)
  | [] => .isTrue trivial
  | v :: vs =>
    have := SplitsKeep.decidable heap n start stop vs
    inferInstanceAs (Decidable ((v.spans start stop → _) ∧ _))

theorem SplitsKeep.safe {n : ℕ} {vs : List Vma} (h : SplitsKeep heap n start stop vs) :
    SplitsSafe heap n start stop vs := by
  induction vs with
  | nil => trivial
  | cons v vs ih =>
    refine ⟨fun hv => ?_, ih h.2⟩
    obtain hboth | hlast := h.1 hv
    · exact .inr (.inl hboth.1)
    · exact .inl hlast.2.2

theorem exists_of_not_splitsKeep {n : ℕ} {ps : List (ℕ × Vma)}
    (h : ¬ SplitsKeep heap n start stop (ps.map snd)) :
    ∃ l1 p v l2, ps = l1 ++ (p, v) :: l2 ∧ v.spans start stop ∧ ¬ (heap n = true ∧ heap (n + 1) = true) ∧
      ¬ (heap n = false ∧ heap (n + 1) = false ∧ l2 = []) := by
  induction ps with
  | nil => exact absurd trivial h
  | cons x ps ih =>
    by_cases hx : x.2.spans start stop ∧ ¬ (heap n = true ∧ heap (n + 1) = true) ∧
        ¬ (heap n = false ∧ heap (n + 1) = false ∧ ps = [])
    · exact ⟨[], x.1, x.2, ps, rfl, hx⟩
    · have hrest : ¬ SplitsKeep heap n start stop (ps.map snd) := by
        intro hkeep
        refine h ⟨fun hspans => ?_, hkeep⟩
        by_contra hbad
        rw [not_or, map_eq_nil_iff] at hbad
        exact hx ⟨hspans, hbad⟩
      obtain ⟨l1, p, v, l2, rfl, hv⟩ := ih hrest
      exact ⟨x :: l1, p, v, l2, rfl, hv⟩

theorem lookupAreas_eq_none {vs : List Vma} {x : ℕ}
    (h : ∀ w ∈ vs, ¬ (w.vmStart ≤ x ∧ x < w.vmEnd)) : lookupAreas vs x = none := by
  induction vs with
  | nil => rfl
  | cons w vs ih =>
    rw [lookupAreas_cons, if_neg (h w mem_cons_self)]
    exact ih fun u hu => h u (mem_cons_of_mem w hu)

theorem lookupAreas_isSome {vs : List Vma} {v : Vma} {x : ℕ} (hv : v ∈ vs) (h1 : v.vmStart ≤ x)
    (h2 : x < v.vmEnd) : (lookupAreas vs x).isSome := by
  induction vs with
  | nil => cases hv
  | cons w vs ih =>
    rw [lookupAreas_cons]
    split_ifs with hw
    · rfl
    · obtain rfl | hv := mem_cons.mp hv
      · exact absurd ⟨h1, h2⟩ hw
      · exact ih hv

theorem unmapList_keeps (hss : start < stop) {ps : List (ℕ × Vma)} {used n : ℕ}
    (h : InOrder (ps.map snd)) (hkeep : SplitsKeep heap n start stop (ps.map snd)) {x : ℕ}
    (hx : ¬ (start ≤ x ∧ x < stop)) :
    lookupAreas ((unmapList (cutEndCounted start) (cutStartCounted stop) start stop heap ps used
      n).out.map snd) x = lookupAreas (ps.map snd) x := by
  induction ps generalizing used n with
  | nil => rfl
  | cons y ps ih =>
    rw [map_cons] at h hkeep
    obtain ⟨-, h2, h3, -⟩ := inOrder_cons.mp h
    have harea : lookupAreas ((unmapArea (cutEndCounted start) (cutStartCounted stop) start stop heap
        used n y.1 y.2).out.map snd) x = lookupAreas [y.2] x := by
      by_cases hboth : heap n = true ∧ heap (n + 1) = true
      · rw [unmapArea_lookup hss h2 fun _ => hboth, if_neg hx]
      · by_cases hy : y.2.spans start stop
        · -- both splits fail, and the area stays
          obtain hsplit | ⟨hn, hn', -⟩ := hkeep.1 hy
          · exact absurd hsplit hboth
          · have hout : unmapArea (cutEndCounted start) (cutStartCounted stop) start stop heap used n
                y.1 y.2 = ⟨[(y.1, y.2)], used, n + 2⟩ := by
              unfold Vma.spans at hy
              unfold unmapArea unmapSpanned
              rw [if_neg (by omega), if_neg (by omega), if_pos (by omega),
                if_neg (by rw [hn]; decide), if_neg (by rw [hn']; decide)]
            rw [hout]
            rfl
        · rw [unmapArea_lookup hss h2 fun hspans => absurd hspans hy, if_neg hx]
    have hrest : SplitsKeep heap (unmapArea (cutEndCounted start) (cutStartCounted stop) start stop heap
        used n y.1 y.2).mallocs start stop (ps.map snd) := by
      by_cases hy : y.2.spans start stop
      · have hno := not_spans_of_spans h hy
        generalize (unmapArea (cutEndCounted start) (cutStartCounted stop) start stop heap
          used n y.1 y.2).mallocs = m
        clear hkeep ih h3 harea h
        induction ps with
        | nil => trivial
        | cons z ps ih =>
          exact ⟨fun hz => absurd hz (hno z.2 mem_cons_self),
            ih fun w hw => hno w (mem_cons_of_mem _ hw)⟩
      · rw [unmapArea_mallocs _ _ hy]
        exact hkeep.2
    have hcons : lookupAreas ((y :: ps).map snd) x =
        (lookupAreas [y.2] x).or (lookupAreas (ps.map snd) x) :=
      lookupAreas_append [y.2] (ps.map snd) x
    rw [hcons]
    simp only [unmapList, map_append, lookupAreas_append]
    rw [harea, ih h3 hrest]

theorem unmapArea_before {used n p : ℕ} {v : Vma} (hle : v.vmStart ≤ v.vmEnd) (h : v.vmEnd < start) :
    unmapArea (cutEndCounted start) (cutStartCounted stop) start stop heap used n p v =
      ⟨[(p, v)], used, n⟩ := by
  unfold unmapArea
  rw [if_neg (by omega), if_pos (by omega)]

theorem unmapList_lost (hss : start < stop) {l1 l2 : List (ℕ × Vma)} {p used n : ℕ} {v : Vma}
    (h : InOrder ((l1 ++ (p, v) :: l2).map snd)) (hv : v.spans start stop)
    (hboth : ¬ (heap n = true ∧ heap (n + 1) = true)) (hone : ¬ (heap n = false ∧ heap (n + 1) = false)) :
    lookupAreas ((unmapList (cutEndCounted start) (cutStartCounted stop) start stop heap
      (l1 ++ (p, v) :: l2) used n).out.map snd) stop = none := by
  have hspans : v.vmStart < start ∧ start < v.vmEnd ∧ v.vmStart < stop ∧ stop < v.vmEnd := hv
  induction l1 generalizing used n with
  | nil =>
    rw [nil_append, map_cons] at h
    obtain ⟨-, -, h3, h4⟩ := inOrder_cons.mp h
    have hafter : ∀ w ∈ l2.map snd, v.vmEnd ≤ w.vmStart := h4
    have hrest : lookupAreas ((unmapList (cutEndCounted start) (cutStartCounted stop) start stop heap
        l2 (unmapArea (cutEndCounted start) (cutStartCounted stop) start stop heap used n p v).used
        (unmapArea (cutEndCounted start) (cutStartCounted stop) start stop heap used n p
          v).mallocs).out.map snd) stop = none := by
      apply lookupAreas_eq_none
      intro w hw hin
      obtain ⟨u, hu, hle⟩ := (unmapList_inOrder hss h3 _ _).2 w hw
      have := hafter u hu
      omega
    -- what is left of the area ends at `start` or at `stop`
    have harea : lookupAreas ((unmapArea (cutEndCounted start) (cutStartCounted stop) start stop heap
        used n p v).out.map snd) stop = none := by
      unfold unmapArea unmapSpanned
      rw [if_neg (by omega), if_neg (by omega), if_pos (by omega)]
      by_cases hn : heap n = true
      · rw [if_pos hn, if_pos hss, if_neg fun hn' => hboth ⟨hn, hn'⟩]
        apply lookupAreas_eq_none
        intro w hw
        obtain rfl := mem_singleton.mp hw
        exact fun hin => lt_irrefl _ hin.2
      · have hn' : heap (n + 1) = true := by
          by_contra hn'
          exact hone ⟨Bool.eq_false_iff.mpr hn, Bool.eq_false_iff.mpr hn'⟩
        rw [if_neg hn, if_pos hn']
        apply lookupAreas_eq_none
        intro w hw
        obtain rfl := mem_singleton.mp hw
        exact fun hin => lt_asymm hss hin.2
    rw [nil_append]
    simp only [unmapList, map_append]
    rw [lookupAreas_append, harea, hrest]
    rfl
  | cons x l1 ih =>
    rw [cons_append, map_cons] at h
    obtain ⟨h1, -, h3, h4⟩ := inOrder_cons.mp h
    have hx : x.2.vmEnd ≤ v.vmStart := h4 v (by simp)
    simp only [cons_append, unmapList, map_append]
    rw [unmapArea_before h1 (by omega), lookupAreas_append, ih h3 hboth hone]
    rw [lookupAreas_eq_none fun w hw => ?_]
    · rfl
    · obtain rfl := mem_singleton.mp hw
      have hend : (x.1, x.2).2.vmEnd ≤ v.vmStart := hx
      exact fun hin => by omega

theorem unmapWalk_stuck {mgr : VmaManager} {fuel : ℕ} (l0 : List (ℕ × Vma)) {l1 l2 : List (ℕ × Vma)}
    {p : ℕ} {v : Vma} {y : ℕ × Vma} (h : Linked mgr.list (l0 ++ (l1 ++ (p, v) :: y :: l2)))
    (horder : InOrder ((l1 ++ (p, v) :: y :: l2).map snd)) (hv : v.spans start stop)
    (h0 : mgr.heap mgr.mallocs = false) (h1 : mgr.heap (mgr.mallocs + 1) = false) :
    unmapWalk (cutEndCounted start) (cutStartCounted stop) start stop fuel mgr
      (headPtr (l1 ++ (p, v) :: y :: l2) none) = none := by
  have hspans : v.vmStart < start ∧ start < v.vmEnd ∧ v.vmStart < stop ∧ stop < v.vmEnd := hv
  induction l1 generalizing l0 fuel with
  | nil =>
    cases fuel with
    | zero => rfl
    | succ fuel =>
      rw [nil_append] at h ⊢
      have hsplit := vmaSplit_fails h hspans.2.2.1 hspans.2.2.2 h0
      have hsplit' := @vmaSplit_fails _ { mgr with mallocs := mgr.mallocs + 1 } _ _ _ _ h hspans.1
        hspans.2.1 h1
      have hnext : Linked mgr.list ((l0 ++ [(p, v)]) ++ y :: l2) := by
        rw [append_assoc]
        exact h
      obtain ⟨d, hd, -⟩ := @vmaRemove_eq { mgr with mallocs := mgr.mallocs + 1 + 1 } _ _ _ _ hnext
      rw [headPtr_cons]
      simp only [unmapWalk, h.get, bind_eq_bind, bind_some]
      rw [if_neg (by omega), if_neg (by omega), if_pos (by omega)]
      simp only [unmapMiddle, hsplit, hsplit', h.get, headPtr_cons, hd, bind_eq_bind,
        bind_some, map_some]
      cases fuel with
      | zero => rfl
      | succ fuel => simp [unmapWalk, vmaFree, Dll.free]
  | cons x l1 ih =>
    cases fuel with
    | zero => rfl
    | succ fuel =>
      rw [cons_append] at h horder ⊢
      rw [map_cons] at horder
      obtain ⟨h1, -, h3, h4⟩ := inOrder_cons.mp horder
      have hx : x.2.vmEnd ≤ v.vmStart := h4 v (by simp)
      rw [headPtr_cons]
      simp only [unmapWalk, h.get, bind_eq_bind, bind_some]
      rw [if_neg (by omega), if_pos (by omega)]
      exact ih (l0 ++ [x]) (by rw [append_assoc]; exact h) h3

/-- `vma_unmap_range` leaves the map outside the range as it was exactly when both splits of a
spanned area succeed, or both fail and no area comes after it. -/
theorem unmapRange_keeps_iff {mgr : VmaManager} {ps : List (ℕ × Vma)} (h : Rep mgr ps)
    (hareas : InOrder (ps.map Prod.snd)) {start stop : ℕ} (hss : start < stop) :
    (∃ mgr', vmaUnmapRange mgr start stop = some mgr' ∧
      ∀ x, ¬ (start ≤ x ∧ x < stop) → (mgr.lookup x).isSome → mgr'.lookup x = mgr.lookup x) ↔
      SplitsKeep mgr.heap mgr.mallocs start stop mgr.areas := by
  rw [h.areas_eq]
  constructor
  · rintro ⟨mgr', hmgr', hkeep⟩
    by_contra hbad
    obtain ⟨l₁, p, v, l₂, rfl, hv, hboth, hlast⟩ := exists_of_not_splitsKeep hbad
    unfold vmaUnmapRange at hmgr'
    rw [h.linked.head] at hmgr'
    by_cases hone : mgr.heap mgr.mallocs = false ∧ mgr.heap (mgr.mallocs + 1) = false
    · cases l₂ with
      | nil => exact hlast ⟨hone.1, hone.2, rfl⟩
      | cons y l₂ =>
        rw [unmapWalk_stuck [] h.linked hareas hv hone.1 hone.2] at hmgr'
        cases hmgr'
    · have hsafe : SplitsSafe mgr.heap mgr.mallocs start stop
          ((l₁ ++ (p, v) :: l₂).map Prod.snd) := by
        apply splitsSafe_of_heap
        by_contra hnone
        rw [not_or, Bool.not_eq_true, Bool.not_eq_true] at hnone
        exact hone hnone
      obtain ⟨d, hwalk, hrep⟩ := unmapWalk_eq (cutEndCounted start) (cutStartCounted stop) []
        (show Rep mgr ([] ++ (l₁ ++ (p, v) :: l₂)) from h) h.length_le hareas.sorted hsafe
      rw [hwalk, Option.some.injEq] at hmgr'
      subst hmgr'
      -- the address behind the range was mapped by the spanned area
      have hmapped : (mgr.lookup stop).isSome := by
        rw [h.lookup_eq]
        exact lookupAreas_isSome (v := v) (by simp) hv.2.2.1.le hv.2.2.2
      have hlost := hkeep stop (fun hin => lt_irrefl _ hin.2) hmapped
      rw [← hlost, hrep.lookup_eq, List.nil_append, unmapList_lost hss hareas hv hboth hone] at hmapped
      cases hmapped
  · intro hkeep
    obtain ⟨d, hwalk, hrep⟩ := unmapWalk_eq (cutEndCounted start) (cutStartCounted stop) [] h
      h.length_le hareas.sorted hkeep.safe
    have hrun := hwalk
    rw [← h.linked.head] at hrun
    refine ⟨_, hrun, fun x hx _ => ?_⟩
    rw [hrep.lookup_eq, h.lookup_eq]
    exact unmapList_keeps hss hareas hkeep hx

/-- With no memory at all the area stays whole. -/
theorem unmapRange_keeps_alone :
    ∃ mgr', vmaUnmapRange { oneArea filePages with heap := fun _ => false } 0x2000 0x3000 = some mgr' ∧
      ∀ x, ¬ (0x2000 ≤ x ∧ x < 0x3000) →
        (({ oneArea filePages with heap := fun _ => false } : VmaManager).lookup x).isSome →
        mgr'.lookup x = ({ oneArea filePages with heap := fun _ => false } : VmaManager).lookup x :=
  have hinv := oneArea_inv (v := filePages) (by decide) (by decide)
  have hrep : Rep { oneArea filePages with heap := fun _ => false } [(0, filePages)] :=
    ⟨hinv.linked, hinv.lt⟩
  (unmapRange_keeps_iff hrep hinv.ok.inOrder (by decide)).mpr (by decide)

/-- When only the first split finds memory, the page behind the range is lost. -/
theorem unmapRange_loses_last : ¬ ∃ mgr',
    vmaUnmapRange { oneArea filePages with heap := fun n => n = 1 } 0x2000 0x3000 = some mgr' ∧
      ∀ x, ¬ (0x2000 ≤ x ∧ x < 0x3000) →
        (({ oneArea filePages with heap := fun n => n = 1 } : VmaManager).lookup x).isSome →
        (mgr'.lookup x).isSome := by
  rintro ⟨mgr', hmgr', hkeep⟩
  have hlost : (vmaUnmapRange { oneArea filePages with heap := fun n => n = 1 } 0x2000 0x3000).bind
      (fun m => m.lookup 0x3000) = none := by decide
  have hsome := hkeep 0x3000 (by decide) (by decide)
  rw [hmgr', Option.bind_some] at hlost
  rw [hlost] at hsome
  cases hsome

end Exact

end CoolPotOS
