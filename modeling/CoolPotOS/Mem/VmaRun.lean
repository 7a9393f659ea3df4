import CoolPotOS.Mem.VmaCalls

namespace CoolPotOS

open LinkedList List Option

variable {ps : List (ℕ × Vma)} {mgr : VmaManager}

section Protect

variable {mgr : VmaManager} {l1 l2 : List (ℕ × Vma)} {p : ℕ} {v : Vma} (addr stop : ℕ)

/-- The number of areas that the first loop of `mprotect` can make from one. -/
def splitWeight (v : Vma) : ℕ :=
  1 + (if v.vmStart < addr ∧ addr < v.vmEnd then 1 else 0) +
    (if v.vmStart < stop ∧ stop < v.vmEnd then 1 else 0)

def splitWeights (ps : List (ℕ × Vma)) : ℕ := (ps.map fun x => splitWeight addr stop x.2).sum

@[simp] theorem splitWeights_cons (x : ℕ × Vma) (ps : List (ℕ × Vma)) :
    splitWeights addr stop (x :: ps) = splitWeight addr stop x.2 + splitWeights addr stop ps := rfl

theorem splitWeights_le (ps : List (ℕ × Vma)) : splitWeights addr stop ps ≤ 3 * ps.length := by
  induction ps with
  | nil => exact le_rfl
  | cons x ps ih =>
    have hx : splitWeight addr stop x.2 ≤ 3 := by
      unfold splitWeight
      split_ifs <;> omega
    rw [splitWeights_cons, length_cons]
    omega

theorem splitWeight_split_stop (h1 : v.vmStart < stop) (h2 : stop < v.vmEnd) :
    splitWeight addr stop (v.upTo stop) + splitWeight addr stop (v.from stop) ≤ splitWeight addr stop v := by
  simp only [splitWeight, Vma.upTo_vmStart, Vma.upTo_vmEnd, Vma.from_vmStart, Vma.from_vmEnd]
  grind

theorem splitWeight_from_addr (h1 : v.vmStart < addr) (h2 : addr < v.vmEnd) :
    splitWeight addr stop (v.from addr) + 1 ≤ splitWeight addr stop v := by
  simp only [splitWeight, Vma.from_vmStart, Vma.from_vmEnd]
  grind

theorem Inv.keeps_protectCurrent (h : Inv mgr (l1 ++ (p, v) :: l2)) :
    ∃ mgr' k1, protectCurrent mgr p addr stop = some mgr' ∧
      Keeps True mgr (l1 ++ (p, v) :: l2) mgr' (k1 ++ l2) := by
  simp only [protectCurrent, h.linked.get, bind_eq_bind, bind_some]
  split_ifs with hin
  · obtain ⟨m, ok, hm, ⟨-, hk⟩ | ⟨-, -, -, hk⟩⟩ := h.split stop
    · exact ⟨m, l1 ++ [(p, v)], by rw [hm]; rfl, by simpa using hk⟩
    · exact ⟨m, l1 ++ [(p, v.upTo stop), (mgr.mallocs, v.from stop)], by rw [hm]; rfl, by simpa using hk⟩
  · exact ⟨mgr, l1 ++ [(p, v)], rfl, by simpa using h.keeps True⟩

theorem Inv.keeps_protectEnd (h : Inv mgr (l1 ++ (p, v) :: l2)) :
    ∃ mgr' k1 k2, protectEnd mgr p (headPtr l2 none) addr stop = some mgr' ∧
      Keeps True mgr (l1 ++ (p, v) :: l2) mgr' (k1 ++ k2) ∧ headPtr k2 none = headPtr l2 none ∧
      splitWeights addr stop k2 ≤ splitWeights addr stop l2 := by
  cases l2 with
  | nil =>
    obtain ⟨m, k1, hm, hk⟩ := h.keeps_protectCurrent addr stop
    exact ⟨m, k1, [], hm, hk, rfl, le_rfl⟩
  | cons x l2 =>
    obtain ⟨q, w⟩ := x
    have h' : Inv mgr ((l1 ++ [(p, v)]) ++ (q, w) :: l2) := by simpa using h
    simp only [protectEnd, headPtr_cons, h'.linked.get, bind_eq_bind, bind_some]
    split_ifs with hin
    · obtain ⟨m, ok, hm, ⟨-, hk⟩ | ⟨-, h1, h2, hk⟩⟩ := h'.split stop
      · exact ⟨m, l1 ++ [(p, v)], (q, w) :: l2, by rw [hm]; rfl, by simpa using hk, rfl, le_rfl⟩
      · refine ⟨m, l1 ++ [(p, v)], (q, w.upTo stop) :: (mgr.mallocs, w.from stop) :: l2,
          by rw [hm]; rfl, by simpa using hk, rfl, ?_⟩
        have := splitWeight_split_stop addr stop h1 h2
        simp only [splitWeights_cons]
        omega
    · obtain ⟨m, k1, hm, hk⟩ := h.keeps_protectCurrent addr stop
      exact ⟨m, k1, (q, w) :: l2, hm, hk, rfl, le_rfl⟩

theorem Inv.keeps_protectWalk {fuel : ℕ} (l1 : List (ℕ × Vma)) {l2 : List (ℕ × Vma)}
    (h : Inv mgr (l1 ++ l2)) (hf : splitWeights addr stop l2 ≤ fuel) :
    ∃ mgr' ps', protectWalk addr stop fuel mgr (headPtr l2 none) = some mgr' ∧
      Keeps True mgr (l1 ++ l2) mgr' ps' := by
  induction fuel generalizing mgr l1 l2 with
  | zero =>
    cases l2 with
    | nil => exact ⟨mgr, _, rfl, h.keeps True⟩
    | cons x l2 =>
      rw [splitWeights_cons] at hf
      unfold splitWeight at hf
      omega
  | succ fuel ih =>
    cases l2 with
    | nil => exact ⟨mgr, _, rfl, h.keeps True⟩
    | cons x l2 =>
      obtain ⟨p, v⟩ := x
      have hpos : 1 ≤ splitWeight addr stop v := by
        unfold splitWeight
        omega
      replace hf : splitWeight addr stop v + splitWeights addr stop l2 ≤ fuel + 1 := hf
      simp only [headPtr_cons, protectWalk, h.linked.get, bind_eq_bind, bind_some]
      split_ifs with hout hsplit
      · have h' : Inv mgr ((l1 ++ [(p, v)]) ++ l2) := by simpa using h
        obtain ⟨m, ps', hm, hk⟩ := ih _ h' (by omega)
        exact ⟨m, ps', hm, by simpa using hk⟩
      · obtain ⟨m, ok, hm, ⟨rfl, hk⟩ | ⟨rfl, h1, h2, hk⟩⟩ := h.split addr
        · -- no memory for the first split: the loop goes on with the old next area
          obtain ⟨m2, k1, k2, hm2, hk2, hhead, hw⟩ := hk.inv.keeps_protectEnd addr stop
          obtain ⟨m3, ps', hm3, hk3⟩ := ih _ hk2.inv (by omega)
          rw [hhead] at hm3
          refine ⟨m3, ps', ?_, (hk.trans hk2).trans hk3⟩
          simp only [hm, bind_some, Bool.false_eq_true, if_false, Option.pure_def, hm2, hm3]
        · obtain ⟨m2, k1, k2, hm2, hk2, hhead, hw⟩ := hk.inv.keeps_protectEnd addr stop
          have hweight := splitWeight_from_addr addr stop h1 h2
          replace hw : splitWeights addr stop k2 ≤
            splitWeight addr stop (v.from addr) + splitWeights addr stop l2 := hw
          obtain ⟨m3, ps', hm3, hk3⟩ := ih _ hk2.inv (by omega)
          rw [hhead] at hm3
          refine ⟨m3, ps', ?_, (hk.trans hk2).trans hk3⟩
          simp only [hm, bind_some, if_true, hk.inv.linked.get, map_some, hm2, hm3]
      · obtain ⟨m2, k1, k2, hm2, hk2, hhead, hw⟩ := h.keeps_protectEnd addr stop
        obtain ⟨m3, ps', hm3, hk3⟩ := ih _ hk2.inv (by omega)
        rw [hhead] at hm3
        refine ⟨m3, ps', ?_, hk2.trans hk3⟩
        simp only [hm2, bind_some, hm3]

theorem Inv.keeps_protectFlagsWalk (prot : BitVec 64) {fuel : ℕ} (l1 : List (ℕ × Vma))
    {l2 : List (ℕ × Vma)} (h : Inv mgr (l1 ++ l2)) (hf : l2.length ≤ fuel) :
    ∃ mgr' ps', protectFlagsWalk addr stop prot fuel mgr (headPtr l2 none) = some mgr' ∧
      Keeps True mgr (l1 ++ l2) mgr' ps' := by
  induction l2 generalizing mgr l1 fuel with
  | nil => exact ⟨mgr, _, by cases fuel <;> rfl, h.keeps True⟩
  | cons x l2 ih =>
    obtain ⟨p, v⟩ := x
    obtain ⟨fuel, rfl⟩ := Nat.exists_eq_succ_of_ne_zero (show fuel ≠ 0 by rintro rfl; simp at hf)
    simp only [headPtr_cons, protectFlagsWalk, h.linked.get, bind_eq_bind, bind_some]
    split_ifs with hin
    · set w : Vma := { v with
        vmFlags := addProtFlags (v.vmFlags &&& ~~~(vmaRead ||| vmaWriteFlag ||| vmaExec)) prot }
      have hok : AreasOk ((l1 ++ (p, w) :: l2).map Prod.snd) := by
        have hv := h.ok.nonempty v (by simp)
        have := h.ok
        rw [map_append, map_cons] at this ⊢
        simpa using this.replace (partsOf_singleton (w := w) le_rfl hv le_rfl)
      obtain ⟨m, hm, hk⟩ := h.write hok
      have hk' : Keeps True mgr (l1 ++ (p, v) :: l2) m ((l1 ++ [(p, w)]) ++ l2) := by
        simpa using hk.mono fun _ => rfl
      obtain ⟨m2, ps', hm2, hk2⟩ := ih _ hk'.inv (by simpa using hf)
      exact ⟨m2, ps', by simpa only [hm, bind_some] using hm2, hk'.trans hk2⟩
    · have h' : Inv mgr ((l1 ++ [(p, v)]) ++ l2) := by simpa using h
      obtain ⟨m, ps', hm, hk⟩ := ih _ h' (by simpa using hf)
      exact ⟨m, ps', hm, by simpa using hk⟩

theorem Inv.keeps_mprotect (h : Inv mgr ps) (a length prot : BitVec 64) (populate : Option Errno) :
    ∃ mgr' r ps', mprotect mgr a length prot populate = some (mgr', r) ∧ Keeps True mgr ps mgr' ps' := by
  unfold mprotect
  set addr := paddingDown a.toNat
  set len := paddingUp length.toNat
  dsimp only
  split_ifs with hover
  · exact ⟨mgr, _, ps, rfl, h.keeps True⟩
  cases populate with
  | some e => exact ⟨mgr, _, ps, rfl, h.keeps True⟩
  | none =>
    have hfuel : splitWeights addr (wrap (addr + len)) ps ≤ 3 * mgr.mallocs :=
      (splitWeights_le addr _ ps).trans (Nat.mul_le_mul_left 3 h.length_le)
    obtain ⟨m, ps1, hm, hk⟩ := Inv.keeps_protectWalk addr (wrap (addr + len)) [] h hfuel
    obtain ⟨m2, ps2, hm2, hk2⟩ := Inv.keeps_protectFlagsWalk addr (wrap (addr + len)) prot []
      hk.inv hk.inv.length_le
    rw [← h.linked.head] at hm
    rw [← hk.inv.linked.head] at hm2
    refine ⟨m2, .ok 0, ps2, ?_, hk.trans hk2⟩
    simp only [hm, hm2, bind_eq_bind, bind_some, Option.pure_def]

end Protect

/-- The arguments of a call that do not lead to a list that is not well formed. -/
def VmaCall.Safe (mgr : VmaManager) : VmaCall → Prop
  | .mmap addr length _ flags _ _ fdOpen _ => MmapSafe mgr addr length flags fdOpen
  | .munmap addr size => MunmapSafe mgr addr size
  | .mremap oldAddr _ newSize flags => MremapSafe mgr oldAddr newSize flags
  | .mprotect .. => True

/-- The arguments of a call that count every byte that they map or unmap. -/
def VmaCall.Counted (mgr : VmaManager) : VmaCall → Prop
  | .mmap .. => True
  | .munmap addr size => MunmapCounted mgr addr size
  | .mremap oldAddr oldSize newSize flags => MremapCounted mgr oldAddr oldSize newSize flags
  | .mprotect .. => True

theorem Inv.keeps_run (h : Inv mgr ps) {call : VmaCall} (hsafe : call.Safe mgr) :
    ∃ mgr' ps', call.run mgr = some mgr' ∧ Keeps (call.Counted mgr) mgr ps mgr' ps' := by
  cases call with
  | mmap addr length prot flags fd offset fdOpen mapped =>
    obtain ⟨m, r, ps', hm, hk⟩ := h.keeps_mmap hsafe
    exact ⟨m, ps', by rw [VmaCall.run, hm]; rfl, hk⟩
  | munmap addr size =>
    obtain ⟨m, r, ps', hm, hk⟩ := h.keeps_munmap hsafe
    exact ⟨m, ps', by rw [VmaCall.run, hm]; rfl, hk⟩
  | mremap oldAddr oldSize newSize flags =>
    obtain ⟨m, r, ps', hm, hk⟩ := h.keeps_mremap hsafe
    exact ⟨m, ps', by rw [VmaCall.run, hm]; rfl, hk⟩
  | mprotect addr length prot populate =>
    obtain ⟨m, r, ps', hm, hk⟩ := h.keeps_mprotect addr length prot populate
    exact ⟨m, ps', by rw [VmaCall.run, hm]; rfl, hk⟩

/-- Every call of the run meets `ok` in the state that it starts from. -/
def RunMeets (ok : VmaManager → VmaCall → Prop) : List VmaCall → VmaManager → Prop
  | [], _ => True
  | call :: calls, mgr => ok mgr call ∧ ∀ mgr' ∈ call.run mgr, RunMeets ok calls mgr'

theorem RunMeets.of_isPrefix {ok : VmaManager → VmaCall → Prop} {calls done : List VmaCall}
    (h : RunMeets ok calls mgr) (hp : done <+: calls) : RunMeets ok done mgr := by
  induction done generalizing calls mgr with
  | nil => trivial
  | cons call done ih =>
    obtain ⟨rest, rfl⟩ := hp
    exact ⟨h.1, fun m hm => ih (h.2 m hm) (prefix_append done rest)⟩

theorem Inv.keeps_runCalls {calls : List VmaCall} (h : Inv mgr ps)
    (hsafe : RunMeets (fun m call => call.Safe m) calls mgr) : ∃ mgr' ps', runCalls calls mgr = some mgr' ∧
      Keeps (RunMeets (fun m call => call.Counted m) calls mgr) mgr ps mgr' ps' := by
  induction calls generalizing mgr ps with
  | nil => exact ⟨mgr, ps, rfl, h.keeps _⟩
  | cons call calls ih =>
    obtain ⟨m, ps1, hm, hk⟩ := h.keeps_run hsafe.1
    obtain ⟨m', ps2, hm', hk'⟩ := ih hk.inv (hsafe.2 m hm)
    refine ⟨m', ps2, ?_, (hk.mono And.left).trans (hk'.mono fun hc => hc.2 m hm)⟩
    simp only [runCalls, hm, hm', bind_eq_bind, bind_some]

theorem inv_empty (heap : ℕ → Bool) : Inv (.empty heap) [] :=
  ⟨rep_empty heap, List.Pairwise.nil, by simp, by simp⟩

/-- The list of areas is sorted by address, its areas are disjoint and not empty, and all
links and the head agree. -/
def VmaListOk (mgr : VmaManager) : Prop :=
  ∃ ps, Linked mgr.list ps ∧
    (ps.map Prod.snd).Pairwise (fun a b => a.vmStart < b.vmStart) ∧
    (ps.map Prod.snd).Pairwise (fun a b =>
      Disjoint (Set.Ico a.vmStart a.vmEnd) (Set.Ico b.vmStart b.vmEnd)) ∧
    ∀ v ∈ ps.map Prod.snd, v.vmStart < v.vmEnd

theorem Inv.vmaListOk (h : Inv mgr ps) : VmaListOk mgr := by
  refine ⟨ps, h.linked, ?_, ?_, h.ok.nonempty⟩
  · refine h.ok.sorted.imp_of_mem fun {a b} ha _ hab => ?_
    exact (h.ok.nonempty a ha).trans_le hab
  · refine h.ok.sorted.imp fun {a b} hab => Set.disjoint_left.mpr fun x hx hx' => ?_
    exact absurd (hab.trans hx'.1) (not_le.mpr hx.2)

/-- In a safe run no call reads a freed area, and the list is well formed after every one. -/
theorem vmaListOk_of_safeRun (heap : ℕ → Bool) (calls : List VmaCall)
    (h : RunMeets (fun m call => call.Safe m) calls (.empty heap)) (done : List VmaCall)
    (hdone : done <+: calls) :
    ∃ mgr, runCalls done (.empty heap) = some mgr ∧ VmaListOk mgr := by
  obtain ⟨mgr, ps, hrun, hk⟩ := (inv_empty heap).keeps_runCalls (h.of_isPrefix hdone)
  exact ⟨mgr, hrun, hk.inv.vmaListOk⟩

/-- Three pages at `0x10000`, of which the middle one is protected and then unmapped. -/
def smallCalls : List VmaCall :=
  [.mmap 0x10000 0x3000 protRead mapAnonymous (-1) 0 false 0,
    .mprotect 0x11000 0x1000 (protRead ||| protWrite) none, .munmap 0x11000 0x1000]

theorem smallCalls_safe : RunMeets (fun m call => call.Safe m) smallCalls (.empty fun _ => true) := by
  refine ⟨fun _ _ => ?_, fun m hm => ⟨trivial, fun m' hm' => ⟨fun _ _ => ?_, fun _ _ => trivial⟩⟩⟩
  · rw [if_neg (by decide), if_pos (by decide)]
    exact fun _ _ => by decide
  · revert m'
    revert m
    decide

theorem vmaListOk_of_smallCalls : ∃ mgr, runCalls smallCalls (.empty fun _ => true) = some mgr ∧
    VmaListOk mgr :=
  vmaListOk_of_safeRun (fun _ => true) smallCalls smallCalls_safe smallCalls List.prefix_rfl

def VmaManager.headArea (mgr : VmaManager) : Option Vma := do
  let vma ← mgr.list.head
  (mgr.list.cells vma).map Node.data

theorem VmaListOk.headArea_nonempty (h : VmaListOk mgr) {v : Vma} (hv : mgr.headArea = some v) :
    v.vmStart < v.vmEnd := by
  obtain ⟨ps, hl, -, -, hne⟩ := h
  cases ps with
  | nil =>
    rw [VmaManager.headArea, hl.head] at hv
    cases hv
  | cons x ps =>
    have hcell : mgr.list.cells x.1 = some ⟨x.2, headPtr ps none, none⟩ := hl.seg.1
    simp only [VmaManager.headArea, hl.head, headPtr_cons, bind_eq_bind, bind_some,
      hcell, map_some, Option.some.injEq] at hv
    subst hv
    exact hne x.2 mem_cons_self

/-- `mremap` to the size zero leaves an empty area in the list. -/
theorem not_vmaListOk_of_mremap_zero :
    ∃ mgr, runCalls [.mmap 0x1000 0x1000 protRead mapAnonymous (-1) 0 false 0,
        .mremap 0x1000 0x1000 0 0] (.empty fun _ => true) = some mgr ∧ ¬VmaListOk mgr := by
  set run := runCalls [.mmap 0x1000 0x1000 protRead mapAnonymous (-1) 0 false 0,
    .mremap 0x1000 0x1000 0 0] (.empty fun _ => true) with hrun
  have hhead : (run.bind VmaManager.headArea).map (fun v => (v.vmStart, v.vmEnd)) =
      some (0x1000, 0x1000) := by
    rw [hrun]
    decide
  obtain ⟨v, hv, hbounds⟩ := Option.map_eq_some_iff.mp hhead
  obtain ⟨mgr, hmgr, harea⟩ := Option.bind_eq_some_iff.mp hv
  refine ⟨mgr, hmgr, fun hok => ?_⟩
  have hlt := hok.headArea_nonempty harea
  rw [Prod.mk.injEq] at hbounds
  omega

theorem total_eq_sum (vs : List Vma) (h : AreasOk vs) :
    (total vs : ℤ) = (vs.map fun v => (v.vmEnd : ℤ) - v.vmStart).sum := by
  induction vs with
  | nil => rfl
  | cons v vs ih =>
    obtain ⟨h1, -, h3, -⟩ := areasOk_cons.mp h
    rw [total_cons, map_cons, sum_cons, ← ih h3, Nat.cast_add, Vma.size, Nat.cast_sub h1.le]

/-- In a safe run whose calls all count, `vm_used` is right after every call. -/
theorem vmUsed_eq_of_countedRun (heap : ℕ → Bool) (calls : List VmaCall)
    (hsafe : RunMeets (fun m call => call.Safe m) calls (.empty heap))
    (hcount : RunMeets (fun m call => call.Counted m) calls (.empty heap)) (done : List VmaCall)
    (hdone : done <+: calls) :
    ∃ mgr, runCalls done (.empty heap) = some mgr ∧
      (mgr.vmUsed : ℤ) = (mgr.areas.map fun v => (v.vmEnd : ℤ) - v.vmStart).sum := by
  obtain ⟨mgr, ps, hrun, hk⟩ := (inv_empty heap).keeps_runCalls (hsafe.of_isPrefix hdone)
  refine ⟨mgr, hrun, ?_⟩
  rw [hk.count (hcount.of_isPrefix hdone) rfl, hk.inv.areas_eq, total_eq_sum _ hk.inv.ok]

theorem smallCalls_counted : RunMeets (fun m call => call.Counted m) smallCalls (.empty fun _ => true) := by
  refine ⟨trivial, fun m hm => ⟨trivial, fun m' hm' => ⟨fun _ _ => ?_, fun _ _ => trivial⟩⟩⟩
  revert m'
  revert m
  decide

theorem vmUsed_eq_of_smallCalls : ∃ mgr, runCalls smallCalls (.empty fun _ => true) = some mgr ∧
    (mgr.vmUsed : ℤ) = (mgr.areas.map fun v => (v.vmEnd : ℤ) - v.vmStart).sum :=
  vmUsed_eq_of_countedRun (fun _ => true) smallCalls smallCalls_safe smallCalls_counted smallCalls
    List.prefix_rfl

/-- `munmap` of the first of two pages leaves `vm_used` at two pages. -/
theorem vmUsed_ne_of_munmap_front :
    ∃ mgr, runCalls [.mmap 0x1000 0x2000 protRead mapAnonymous (-1) 0 false 0,
        .munmap 0x1000 0x1000] (.empty fun _ => true) = some mgr ∧
      (mgr.vmUsed : ℤ) ≠ (mgr.areas.map fun v => (v.vmEnd : ℤ) - v.vmStart).sum := by
  refine (Option.isSome_iff_exists.mp ?_).imp fun mgr hmgr => ⟨hmgr, ?_⟩
  · decide
  · revert mgr
    decide

end CoolPotOS
