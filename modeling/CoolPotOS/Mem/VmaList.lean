import CoolPotOS.Mem.Vma

namespace CoolPotOS

open LinkedList List Option

/-- The cells of `ps` make up the list of the manager. -/
structure Rep (mgr : VmaManager) (ps : List (ℕ × Vma)) : Prop where
  linked : Linked mgr.list ps
  lt : ∀ x ∈ ps, x.1 < mgr.mallocs

variable {fuel addr : ℕ} {l2 : List (ℕ × Vma)}

section Searching

variable {mgr : VmaManager} {ps : List (ℕ × Vma)}

theorem Rep.length_le (h : Rep mgr ps) : ps.length ≤ mgr.mallocs := by
  have hsub : (ps.map Prod.fst).toFinset ⊆ Finset.range mgr.mallocs := by
    intro p hp
    obtain ⟨x, hx, rfl⟩ := List.mem_map.mp (List.mem_toFinset.mp hp)
    exact Finset.mem_range.mpr (h.lt x hx)
  have hcard := Finset.card_le_card hsub
  rwa [toFinset_card_of_nodup h.linked.nodup, length_map, Finset.card_range] at hcard

def areasWalk (mgr : VmaManager) : ℕ → Option ℕ → List Vma
  | 0, _ => []
  | _, none => []
  | fuel + 1, some vma =>
    match mgr.list.cells vma with
    | none => []
    | some node => node.data :: areasWalk mgr fuel node.next

def VmaManager.areas (mgr : VmaManager) : List Vma := areasWalk mgr mgr.mallocs mgr.list.head

theorem Rep.fresh (h : Rep mgr ps) : mgr.mallocs ∉ ps.map Prod.fst := by
  intro hp
  obtain ⟨x, hx, he⟩ := List.mem_map.mp hp
  exact absurd (h.lt x hx) (by rw [he]; exact lt_irrefl _)

theorem rep_empty (heap : ℕ → Bool) : Rep (.empty heap) [] where
  linked := ⟨rfl, trivial, nodup_nil⟩
  lt := fun _ hx => absurd hx not_mem_nil

theorem vmaWalk_eq (found : Vma → Bool) (l1 : List (ℕ × Vma)) (h : Linked mgr.list (l1 ++ l2))
    (hf : l2.length ≤ fuel) :
    vmaWalk mgr found fuel (headPtr l2 none) = some ((l2.find? fun x => found x.2).map Prod.fst) := by
  induction l2 generalizing l1 fuel with
  | nil => cases fuel <;> rfl
  | cons x l2 ih =>
    obtain ⟨fuel, rfl⟩ := Nat.exists_eq_succ_of_ne_zero (show fuel ≠ 0 by rintro rfl; simp at hf)
    simp only [headPtr_cons, vmaWalk, h.get, bind_eq_bind, bind_some, Option.pure_def]
    by_cases hx : found x.2 = true
    · rw [if_pos hx, List.find?_cons_of_pos (by exact hx)]
      rfl
    · rw [if_neg hx, List.find?_cons_of_neg (by exact hx)]
      exact ih (l1 ++ [x]) (by simpa using h) (by simpa using hf)

theorem areasWalk_eq (l1 : List (ℕ × Vma)) (h : Linked mgr.list (l1 ++ l2)) (hf : l2.length ≤ fuel) :
    areasWalk mgr fuel (headPtr l2 none) = l2.map Prod.snd := by
  induction l2 generalizing l1 fuel with
  | nil => cases fuel <;> rfl
  | cons x l2 ih =>
    obtain ⟨fuel, rfl⟩ := Nat.exists_eq_succ_of_ne_zero (show fuel ≠ 0 by rintro rfl; simp at hf)
    simp only [headPtr_cons, areasWalk, h.get, map_cons]
    rw [ih (l1 ++ [x]) (by simpa using h) (by simpa using hf)]

theorem Rep.areas_eq (h : Rep mgr ps) : mgr.areas = ps.map Prod.snd := by
  rw [VmaManager.areas, h.linked.head]
  exact areasWalk_eq [] h.linked h.length_le

theorem Rep.walk_cases (h : Rep mgr ps) (found : Vma → Bool) :
    (vmaWalk mgr found mgr.mallocs mgr.list.head = some none ∧ ∀ v ∈ ps.map Prod.snd, found v = false) ∨
    ∃ l1 p v l2, vmaWalk mgr found mgr.mallocs mgr.list.head = some (some p) ∧
      ps = l1 ++ (p, v) :: l2 ∧ found v = true := by
  rw [h.linked.head, vmaWalk_eq found [] h.linked h.length_le]
  cases hfind : ps.find? fun x => found x.2 with
  | none =>
    refine .inl ⟨rfl, fun v hv => ?_⟩
    obtain ⟨x, hx, rfl⟩ := List.mem_map.mp hv
    simpa using List.find?_eq_none.mp hfind x hx
  | some x =>
    obtain ⟨l1, l2, hl⟩ := append_of_mem (List.mem_of_find?_eq_some hfind)
    have hx := List.find?_some hfind
    exact .inr ⟨l1, x.1, x.2, l2, rfl, hl, hx⟩

theorem Rep.find_cases (h : Rep mgr ps) (addr : ℕ) :
    (vmaFind mgr addr = some none ∧ ∀ v ∈ ps.map Prod.snd, ¬(v.vmStart ≤ addr ∧ addr < v.vmEnd)) ∨
    ∃ l1 p v l2, vmaFind mgr addr = some (some p) ∧ ps = l1 ++ (p, v) :: l2 ∧
      v.vmStart ≤ addr ∧ addr < v.vmEnd := by
  have hcases := h.walk_cases fun v => decide (addr ≥ v.vmStart ∧ addr < v.vmEnd)
  simpa only [decide_eq_false_iff_not, decide_eq_true_eq, ge_iff_le, vmaFind] using hcases

theorem Rep.findIntersection_cases (h : Rep mgr ps) (start stop : ℕ) :
    (vmaFindIntersection mgr start stop = some none ∧ ∀ v ∈ ps.map Prod.snd, v.meets start stop = false) ∨
    ∃ l1 p v l2, vmaFindIntersection mgr start stop = some (some p) ∧ ps = l1 ++ (p, v) :: l2 ∧
      v.meets start stop = true := h.walk_cases (Vma.meets start stop)

theorem insertWalk_eq (start : ℕ) (l1 : List (ℕ × Vma)) (h : Linked mgr.list (l1 ++ l2)) (hf : l2.length ≤ fuel) :
    insertWalk mgr start fuel (lastPtr none l1) (headPtr l2 none) =
      some (lastPtr none (l1 ++ l2.takeWhile fun x => decide (x.2.vmStart < start)),
        headPtr (l2.dropWhile fun x => decide (x.2.vmStart < start)) none) := by
  induction l2 generalizing l1 fuel with
  | nil => cases fuel <;> simp [insertWalk]
  | cons x l2 ih =>
    obtain ⟨fuel, rfl⟩ := Nat.exists_eq_succ_of_ne_zero (show fuel ≠ 0 by rintro rfl; simp at hf)
    simp only [headPtr_cons, insertWalk, h.get, bind_eq_bind, bind_some, Option.pure_def]
    by_cases hx : x.2.vmStart < start
    · rw [if_pos hx, takeWhile_cons_of_pos (by simpa using hx),
        dropWhile_cons_of_pos (by simpa using hx), append_cons]
      have hlast : some x.1 = lastPtr none (l1 ++ [x]) := by rw [lastPtr_append]; rfl
      rw [hlast]
      exact ih (l1 ++ [x]) (by simpa using h) (by simpa using hf)
    · rw [if_neg hx, takeWhile_cons_of_neg (by simpa using hx),
        dropWhile_cons_of_neg (by simpa using hx), append_nil]
      rfl

end Searching

section Changing

variable {mgr : VmaManager} {l1 l2 : List (ℕ × Vma)} {p : ℕ} {v : Vma}

theorem vmaWrite_eq (h : Linked mgr.list (l1 ++ (p, v) :: l2)) (w : Vma) :
    ∃ d, vmaWrite mgr p w = some { mgr with list := d } ∧ Linked d (l1 ++ (p, w) :: l2) := by
  obtain ⟨d, hd, hl, -⟩ := h.setData w
  exact ⟨d, by rw [vmaWrite, hd]; rfl, hl⟩

theorem vmaRemove_eq (h : Linked mgr.list (l1 ++ (p, v) :: l2)) : ∃ d, vmaRemove mgr (some p) =
        some { mgr with list := d, vmUsed := wrapSub mgr.vmUsed (wrapSub v.vmEnd v.vmStart) } ∧
      Linked (d.free p) (l1 ++ l2) ∧
      ∀ q, q ∉ (l1 ++ (p, v) :: l2).map Prod.fst → (d.free p).cells q = mgr.list.cells q := by
  obtain ⟨d, hd, hl, hf⟩ := h.unlink
  obtain ⟨-, -, hp1, hp2, -⟩ := nodup_middle h.nodup
  refine ⟨d, ?_, hl.free ?_, fun q hq => ?_⟩
  · simp only [vmaRemove, h.get, hd, bind_eq_bind, bind_some, Option.pure_def]
  · rw [map_append, mem_append, not_or]
    exact ⟨hp1, hp2⟩
  · simp only [map_append, map_cons, mem_append, mem_cons, not_or] at hq
    refine (Function.update_of_ne hq.2.1 _ _).trans (hf q ?_)
    rw [map_append, mem_append, not_or]
    exact ⟨hq.1, hq.2.2⟩

/-- The areas that start before `addr`, at the front of the list. -/
def startsBefore (addr : ℕ) (x : ℕ × Vma) : Bool := decide (x.2.vmStart < addr)

/-- The list with the new area before the first one that does not start earlier. -/
def insertArea (x : ℕ × Vma) (ps : List (ℕ × Vma)) : List (ℕ × Vma) :=
  ps.takeWhile (startsBefore x.2.vmStart) ++ x :: ps.dropWhile (startsBefore x.2.vmStart)

theorem vmaInsert_eq {ps : List (ℕ × Vma)} {q : ℕ} {node : Node Vma} (h : Rep mgr ps)
    (hq : q ∉ ps.map Prod.fst) (hc : mgr.list.cells q = some node)
    (hmeet : ∀ v ∈ ps.map Prod.snd, v.meets node.data.vmStart node.data.vmEnd = false) :
    ∃ d, vmaInsert mgr q = some ({ mgr with
        list := d
        vmUsed := wrap (mgr.vmUsed + wrapSub node.data.vmEnd node.data.vmStart) }, true) ∧
      Linked d (insertArea (q, node.data) ps) := by
  have hfind : vmaFindIntersection mgr node.data.vmStart node.data.vmEnd = some none := by
    rcases h.findIntersection_cases node.data.vmStart node.data.vmEnd with
      ⟨hnone, -⟩ | ⟨l1, p, v, l2, -, hl, hv⟩
    · exact hnone
    · have hfalse := hmeet v (by rw [hl]; simp)
      rw [hv] at hfalse
      cases hfalse
  have hwalk : insertWalk mgr node.data.vmStart mgr.mallocs none mgr.list.head =
      some (lastPtr none (ps.takeWhile (startsBefore node.data.vmStart)),
        headPtr (ps.dropWhile (startsBefore node.data.vmStart)) none) := by
    rw [h.linked.head]
    exact insertWalk_eq node.data.vmStart [] h.linked h.length_le
  have hlinked := h.linked
  rw [← takeWhile_append_dropWhile (l := ps) (p := startsBefore node.data.vmStart)] at hq hlinked
  obtain ⟨d, hd, hl, -⟩ := hlinked.link hq hc
  refine ⟨d, ?_, hl⟩
  simp only [vmaInsert, hc, hfind, hwalk, hd, bind_eq_bind, bind_some, Option.pure_def]

theorem vmaInsert_refused {ps : List (ℕ × Vma)} {q : ℕ} {node : Node Vma} (h : Rep mgr ps)
    (hc : mgr.list.cells q = some node)
    (hmeet : ∃ v ∈ ps.map Prod.snd, v.meets node.data.vmStart node.data.vmEnd = true) :
    vmaInsert mgr q = some (mgr, false) := by
  rcases h.findIntersection_cases node.data.vmStart node.data.vmEnd with
    ⟨-, hnone⟩ | ⟨l1, p, v, l2, hfind, -, -⟩
  · obtain ⟨v, hv, hm⟩ := hmeet
    rw [hnone v hv] at hm
    cases hm
  · simp only [vmaInsert, hc, hfind, bind_eq_bind, bind_some, Option.pure_def]

theorem vmaSplit_outside (h : Linked mgr.list (l1 ++ (p, v) :: l2)) (ha : addr ≤ v.vmStart ∨ addr ≥ v.vmEnd) :
    vmaSplit mgr p addr = some (mgr, false) := by
  simp only [vmaSplit, h.get, bind_eq_bind, bind_some, if_pos ha, Option.pure_def]

theorem vmaSplit_fails (h : Linked mgr.list (l1 ++ (p, v) :: l2)) (h1 : v.vmStart < addr) (h2 : addr < v.vmEnd)
    (hheap : mgr.heap mgr.mallocs = false) :
    vmaSplit mgr p addr = some ({ mgr with mallocs := mgr.mallocs + 1 }, false) := by
  have hin : ¬(addr ≤ v.vmStart ∨ addr ≥ v.vmEnd) := by omega
  simp [vmaSplit, h.get, hin, vmaAlloc, hheap]

theorem vmaSplit_eq (h : Rep mgr (l1 ++ (p, v) :: l2)) (h1 : v.vmStart < addr) (h2 : addr < v.vmEnd)
    (hheap : mgr.heap mgr.mallocs = true) :
    ∃ d, vmaSplit mgr p addr = some ({ mgr with list := d, mallocs := mgr.mallocs + 1 }, true) ∧
      Rep { mgr with list := d, mallocs := mgr.mallocs + 1 }
        (l1 ++ (p, v.upTo addr) :: (mgr.mallocs, v.from addr) :: l2) := by
  have hin : ¬(addr ≤ v.vmStart ∨ addr ≥ v.vmEnd) := by omega
  have hget := h.linked.get
  have hnew : (mgr.list.alloc mgr.mallocs freshVma).cells mgr.mallocs = some ⟨freshVma, none, none⟩ :=
    Function.update_self _ _ _
  obtain ⟨d1, hd1, hl1, hc1, -⟩ :=
    (h.linked.alloc h.fresh freshVma).setData_unlinked h.fresh hnew (v.from addr)
  obtain ⟨d2, hd2, hl2, hf2⟩ := hl1.setData (v.upTo addr)
  -- the new cell goes between the two halves of the old list
  have hne : mgr.mallocs ≠ p := fun e => h.fresh (by rw [e]; simp)
  have hc2 := (hf2 mgr.mallocs hne).trans hc1
  have hl2' : Linked d2 ((l1 ++ [(p, v.upTo addr)]) ++ l2) := by simpa using hl2
  have hfresh : mgr.mallocs ∉ ((l1 ++ [(p, v.upTo addr)]) ++ l2).map Prod.fst := by
    have := h.fresh
    simpa using this
  obtain ⟨d, hd, hl, -⟩ := hl2'.link hfresh hc2
  have hlast : lastPtr none (l1 ++ [(p, v.upTo addr)]) = some p := by
    rw [lastPtr_append]
    rfl
  rw [hlast] at hd
  refine ⟨d, ?_, by simpa using hl, fun x hx => ?_⟩
  · simp [vmaSplit, hget, hin, vmaAlloc, hheap, vmaWrite, hd1, hd2, hd]
  · have hlt := h.lt
    simp only [mem_append, mem_cons, or_imp, forall_and, forall_eq] at hlt hx
    show x.1 < mgr.mallocs + 1
    rcases hx with hx | rfl | rfl | hx
    · exact Nat.lt_succ_of_lt (hlt.1 x hx)
    · exact Nat.lt_succ_of_lt hlt.2.1
    · exact Nat.lt_succ_self _
    · exact Nat.lt_succ_of_lt (hlt.2.2 x hx)

end Changing

end CoolPotOS
