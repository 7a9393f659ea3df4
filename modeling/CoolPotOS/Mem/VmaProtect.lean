import CoolPotOS.Mem.VmaRun
import CoolPotOS.Mem.VmaExact

namespace CoolPotOS

open LinkedList List Option

/-- The areas `ps'` say the same about every address as `ps`. -/
structure Splits (mgr : VmaManager) (ps : List (ℕ × Vma)) (mgr' : VmaManager)
    (ps' : List (ℕ × Vma)) : Prop where
  inv : Inv mgr' ps'
  heap : mgr'.heap = mgr.heap
  mallocs : mgr.mallocs ≤ mgr'.mallocs
  used : mgr'.vmUsed = mgr.vmUsed
  lookup : ∀ x, lookupAreas (ps'.map Prod.snd) x = lookupAreas (ps.map Prod.snd) x

/-- The address lies inside the area, and is not its first one. -/
def Vma.straddles (a : ℕ) (v : Vma) : Prop := v.vmStart < a ∧ a < v.vmEnd

section Splitting

variable {mgr mgr' mgr'' : VmaManager} {ps ps' ps'' l1 l2 : List (ℕ × Vma)} {p : ℕ} {v : Vma}

theorem Inv.splits (h : Inv mgr ps) : Splits mgr ps mgr ps := ⟨h, rfl, le_rfl, rfl, fun _ => rfl⟩

theorem Splits.trans (h : Splits mgr ps mgr' ps') (h' : Splits mgr' ps' mgr'' ps'') :
    Splits mgr ps mgr'' ps'' :=
  ⟨h'.inv, h'.heap.trans h.heap, h.mallocs.trans h'.mallocs, h'.used.trans h.used,
    fun x => (h'.lookup x).trans (h.lookup x)⟩

theorem Splits.granted (h : Splits mgr ps mgr' ps') (hheap : ∀ n, mgr.mallocs ≤ n → mgr.heap n = true) :
    ∀ n, mgr'.mallocs ≤ n → mgr'.heap n = true := by
  intro n hn
  rw [h.heap]
  exact hheap n (h.mallocs.trans hn)

theorem lookupAreas_parts {a : ℕ} (hv : v.straddles a) (hword : v.vmEnd < 2 ^ 64) (x : ℕ) :
    lookupAreas [v.upTo a, v.from a] x = lookupAreas [v] x := by
  obtain ⟨h1, h2⟩ := hv
  have hlow : (v.upTo a).vmStart = v.vmStart ∧ (v.upTo a).vmEnd = a := ⟨rfl, rfl⟩
  have hhigh : (v.from a).vmStart = a ∧ (v.from a).vmEnd = v.vmEnd := ⟨rfl, rfl⟩
  rw [lookupAreas_cons, lookupAreas_cons, lookupAreas_cons]
  by_cases hx : v.vmStart ≤ x ∧ x < a
  · rw [if_pos (by omega), if_pos (by omega)]
    rfl
  · rw [if_neg (by omega)]
    by_cases hx' : a ≤ x ∧ x < v.vmEnd
    · rw [if_pos (by omega), if_pos (by omega), Vma.entry_from h1.le hx'.1 (h2.trans hword)]
    · rw [if_neg (by omega), if_neg (by omega)]

theorem Inv.splits_split (h : Inv mgr (l1 ++ (p, v) :: l2))
    (hheap : mgr.heap mgr.mallocs = true) {a : ℕ} (hv : v.straddles a) :
    ∃ mgr', vmaSplit mgr p a = some (mgr', true) ∧ Splits mgr (l1 ++ (p, v) :: l2) mgr'
      (l1 ++ (p, v.upTo a) :: (mgr.mallocs, v.from a) :: l2) := by
  obtain ⟨d, hd, hrep⟩ := vmaSplit_eq h.toRep hv.1 hv.2 hheap
  have hword : v.vmEnd < 2 ^ 64 := h.ok.word v (by simp)
  have hparts : PartsOf v [v.upTo a, v.from a] :=
    partsOf_pair (partsOf_singleton le_rfl hv.1 hv.2.le) (partsOf_singleton hv.1.le hv.2 le_rfl) le_rfl
  have hok := h.ok
  rw [map_append, map_cons] at hok
  refine ⟨_, hd, ⟨hrep, ?_⟩, rfl, Nat.le_succ _, rfl, fun x => ?_⟩
  · have hreplace := hok.replace hparts
    rw [append_assoc] at hreplace
    rw [map_append]
    exact hreplace
  · have hold : (p, v) :: l2 = [(p, v)] ++ l2 := rfl
    have hnew : (p, v.upTo a) :: (mgr.mallocs, v.from a) :: l2 =
      [(p, v.upTo a), (mgr.mallocs, v.from a)] ++ l2 := rfl
    rw [hold, hnew]
    simp only [map_append, lookupAreas_append]
    exact congrArg (fun o => (lookupAreas (l1.map Prod.snd) x).or (Option.or o _))
      (lookupAreas_parts hv hword x)

end Splitting

section FirstLoop

variable {mgr : VmaManager} {l1 l2 : List (ℕ × Vma)} {p : ℕ} {v : Vma} {addr stop : ℕ}

def Clean (addr stop : ℕ) (ps : List (ℕ × Vma)) : Prop :=
  ∀ x ∈ ps, ¬ x.2.straddles addr ∧ ¬ x.2.straddles stop

theorem clean_append {ps qs : List (ℕ × Vma)} :
    Clean addr stop (ps ++ qs) ↔ Clean addr stop ps ∧ Clean addr stop qs := by
  unfold Clean
  simp only [mem_append, or_imp, forall_and]
  tauto

theorem clean_singleton {x : ℕ × Vma} :
    Clean addr stop [x] ↔ ¬ x.2.straddles addr ∧ ¬ x.2.straddles stop := by
  unfold Clean
  simp only [mem_singleton, forall_eq]

/-- The areas start and end at addresses of `ends`. -/
def EndsIn (ends : Set ℕ) (ps : List (ℕ × Vma)) : Prop :=
  ∀ x ∈ ps, x.2.vmStart ∈ ends ∧ x.2.vmEnd ∈ ends

theorem EndsIn.split {ends : Set ℕ} {a q : ℕ} (h : EndsIn ends (l1 ++ (p, v) :: l2)) (ha : a ∈ ends) :
    EndsIn ends (l1 ++ (p, v.upTo a) :: (q, v.from a) :: l2) := by
  obtain ⟨hstart, hend⟩ := h (p, v) (by simp)
  intro x hx
  simp only [mem_append, mem_cons] at hx
  obtain hx | rfl | rfl | hx := hx
  · exact h x (mem_append_left _ hx)
  · exact ⟨hstart, ha⟩
  · exact ⟨ha, hend⟩
  · exact h x (mem_append_right _ (mem_cons_of_mem _ hx))

variable (addr stop) (ends : Set ℕ)

theorem Inv.splits_protectCurrent (h : Inv mgr (l1 ++ (p, v) :: l2))
    (hheap : ∀ n, mgr.mallocs ≤ n → mgr.heap n = true) :
    ∃ mgr' k1, protectCurrent mgr p addr stop = some mgr' ∧ Splits mgr (l1 ++ (p, v) :: l2) mgr' (k1 ++ l2) ∧
      (stop ∈ ends → EndsIn ends (l1 ++ (p, v) :: l2) → EndsIn ends (k1 ++ l2)) ∧
      (addr ≤ stop → Clean addr stop l1 → ¬ v.straddles addr →
        (v.straddles stop → addr ≤ v.vmStart) → Clean addr stop k1) := by
  simp only [protectCurrent, h.linked.get, bind_eq_bind, bind_some]
  split_ifs with hin
  · have hv : v.straddles stop := ⟨hin.1, hin.2.1⟩
    obtain ⟨m, hm, hsplits⟩ := h.splits_split (hheap _ le_rfl) hv
    refine ⟨m, l1 ++ [(p, v.upTo stop), (mgr.mallocs, v.from stop)], by rw [hm]; rfl, ?_, fun hstop hends => ?_, ?_⟩
    · rw [append_assoc]
      exact hsplits
    · rw [append_assoc]
      exact hends.split hstop
    · intro hle hclean _ _
      have hends : (v.upTo stop).vmStart = v.vmStart ∧ (v.upTo stop).vmEnd = stop ∧
        (v.from stop).vmStart = stop := ⟨rfl, rfl, rfl⟩
      refine clean_append.mpr ⟨hclean, (@clean_append addr stop [_] [_]).mpr
        ⟨clean_singleton.mpr ⟨?_, ?_⟩, clean_singleton.mpr ⟨?_, ?_⟩⟩⟩ <;>
      · unfold Vma.straddles
        dsimp only
        omega
  · refine ⟨mgr, l1 ++ [(p, v)], rfl, ?_, fun _ hends => ?_, fun _ hclean haddr hstop => ?_⟩
    · rw [append_assoc]
      exact h.splits
    · rw [append_assoc]
      exact hends
    · refine clean_append.mpr ⟨hclean, clean_singleton.mpr ⟨haddr, fun hv => ?_⟩⟩
      exact hin ⟨hv.1, hv.2, hstop hv⟩

theorem Inv.splits_protectEnd (h : Inv mgr (l1 ++ (p, v) :: l2))
    (hheap : ∀ n, mgr.mallocs ≤ n → mgr.heap n = true) :
    ∃ mgr' k1 k2, protectEnd mgr p (headPtr l2 none) addr stop = some mgr' ∧
      Splits mgr (l1 ++ (p, v) :: l2) mgr' (k1 ++ k2) ∧ headPtr k2 none = headPtr l2 none ∧
      splitWeights addr stop k2 ≤ splitWeights addr stop l2 ∧
      (stop ∈ ends → EndsIn ends (l1 ++ (p, v) :: l2) → EndsIn ends (k1 ++ k2)) ∧
      (addr ≤ stop → Clean addr stop l1 → ¬ v.straddles addr →
        (v.straddles stop → addr ≤ v.vmStart) → Clean addr stop k1) := by
  cases l2 with
  | nil =>
    obtain ⟨m, k1, hm, hsplits, hends, hclean⟩ := h.splits_protectCurrent addr stop ends hheap
    exact ⟨m, k1, [], hm, hsplits, rfl, le_rfl, hends, hclean⟩
  | cons x l2 =>
    obtain ⟨q, w⟩ := x
    have hassoc : l1 ++ (p, v) :: (q, w) :: l2 = (l1 ++ [(p, v)]) ++ (q, w) :: l2 := by
      rw [append_assoc]
      rfl
    have h' : Inv mgr ((l1 ++ [(p, v)]) ++ (q, w) :: l2) := by
      rw [← hassoc]
      exact h
    simp only [protectEnd, headPtr_cons, h'.linked.get, bind_eq_bind, bind_some]
    split_ifs with hin
    · have hw : w.straddles stop := hin
      obtain ⟨m, hm, hsplits⟩ := h'.splits_split (hheap _ le_rfl) hw
      rw [← hassoc] at hsplits
      refine ⟨m, l1 ++ [(p, v)], (q, w.upTo stop) :: (mgr.mallocs, w.from stop) :: l2,
        by rw [hm]; rfl, hsplits, rfl, ?_, fun hstop hends => ?_, fun _ hclean haddr _ => ?_⟩
      · have := splitWeight_split_stop addr stop hw.1 hw.2
        simp only [splitWeights_cons]
        omega
      · rw [hassoc] at hends
        exact hends.split hstop
      · refine clean_append.mpr ⟨hclean, clean_singleton.mpr ⟨haddr, fun hv => ?_⟩⟩
        -- two areas of a sorted list are not both around the end of the range
        have hok := h.ok.sorted
        rw [map_append, pairwise_append] at hok
        have hle : v.vmEnd ≤ w.vmStart := (pairwise_cons.mp hok.2.1).1 w mem_cons_self
        have hlt : stop < v.vmEnd := hv.2
        omega
    · obtain ⟨m, k1, hm, hsplits, hends, hclean⟩ := h.splits_protectCurrent addr stop ends hheap
      exact ⟨m, k1, (q, w) :: l2, hm, hsplits, rfl, le_rfl, hends, hclean⟩

theorem Inv.splits_protectWalk {fuel : ℕ} (l1 : List (ℕ × Vma)) {l2 : List (ℕ × Vma)}
    (h : Inv mgr (l1 ++ l2)) (hf : splitWeights addr stop l2 ≤ fuel)
    (hheap : ∀ n, mgr.mallocs ≤ n → mgr.heap n = true) :
    ∃ mgr' ps', protectWalk addr stop fuel mgr (headPtr l2 none) = some mgr' ∧
      Splits mgr (l1 ++ l2) mgr' ps' ∧
      (addr ∈ ends → stop ∈ ends → EndsIn ends (l1 ++ l2) → EndsIn ends ps') ∧
      (addr ≤ stop → Clean addr stop l1 → Clean addr stop ps') := by
  induction fuel generalizing mgr l1 l2 with
  | zero =>
    cases l2 with
    | nil =>
      rw [append_nil] at h ⊢
      exact ⟨mgr, _, rfl, h.splits, fun _ _ hends => hends, fun _ hclean => hclean⟩
    | cons x l2 =>
      rw [splitWeights_cons] at hf
      unfold splitWeight at hf
      omega
  | succ fuel ih =>
    cases l2 with
    | nil =>
      rw [append_nil] at h ⊢
      exact ⟨mgr, _, rfl, h.splits, fun _ _ hends => hends, fun _ hclean => hclean⟩
    | cons x l2 =>
      obtain ⟨p, v⟩ := x
      have hpos : 1 ≤ splitWeight addr stop v := by
        unfold splitWeight
        omega
      have hweights : splitWeight addr stop v + splitWeights addr stop l2 ≤ fuel + 1 := hf
      simp only [headPtr_cons, protectWalk, h.linked.get, bind_eq_bind, bind_some]
      split_ifs with hout hsplit
      · have hassoc : l1 ++ (p, v) :: l2 = (l1 ++ [(p, v)]) ++ l2 := by
          rw [append_assoc]
          rfl
        rw [hassoc] at h ⊢
        obtain ⟨m, ps', hm, hsplits, hends, hps'⟩ := ih _ h (by omega) hheap
        refine ⟨m, ps', hm, hsplits, hends, fun hle hclean => hps' hle (clean_append.mpr ⟨hclean, ?_⟩)⟩
        apply clean_singleton.mpr
        unfold Vma.straddles
        dsimp only
        omega
      · obtain ⟨m, hm, hsplits⟩ := h.splits_split (hheap _ le_rfl) hsplit
        obtain ⟨m2, k1, k2, hm2, hsplits2, hhead, hw, hends2, hk1⟩ := hsplits.inv.splits_protectEnd
          addr stop ends (hsplits.granted hheap)
        have hweight := splitWeight_from_addr addr stop hsplit.1 hsplit.2
        have hrest : splitWeights addr stop k2 ≤
          splitWeight addr stop (v.from addr) + splitWeights addr stop l2 := hw
        obtain ⟨m3, ps', hm3, hsplits3, hends3, hps'⟩ := ih k1 hsplits2.inv (by omega)
          (hsplits2.granted (hsplits.granted hheap))
        rw [hhead] at hm3
        refine ⟨m3, ps', ?_, (hsplits.trans hsplits2).trans hsplits3,
          fun haddr hstop hends => hends3 haddr hstop (hends2 hstop (hends.split haddr)), fun hle hclean => ?_⟩
        · simp only [hm, bind_some, if_true, hsplits.inv.linked.get, map_some, hm2, hm3]
        · -- the front part ends where the range starts
          have hend : (v.upTo addr).vmEnd = addr := rfl
          refine hps' hle (hk1 hle hclean ?_ ?_)
          · exact fun hv => lt_irrefl _ hv.2
          · intro hv
            have hlt : stop < addr := hv.2
            omega
      · obtain ⟨m2, k1, k2, hm2, hsplits2, hhead, hw, hends2, hk1⟩ := h.splits_protectEnd addr stop ends hheap
        obtain ⟨m3, ps', hm3, hsplits3, hends3, hps'⟩ := ih k1 hsplits2.inv (by omega)
          (hsplits2.granted hheap)
        rw [hhead] at hm3
        refine ⟨m3, ps', ?_, hsplits2.trans hsplits3,
          fun haddr hstop hends => hends3 haddr hstop (hends2 hstop hends), fun hle hclean => ?_⟩
        · simp only [hm2, bind_some, hm3]
        · refine hps' hle (hk1 hle hclean hsplit fun hv => ?_)
          have hlt : stop < v.vmEnd := hv.2
          omega

end FirstLoop

/-- `flags &= ~(VMA_READ | VMA_WRITE | VMA_EXEC);` and then the bits of `prot`. -/
def protFlags (flags prot : BitVec 64) : BitVec 64 :=
  addProtFlags (flags &&& ~~~(vmaRead ||| vmaWriteFlag ||| vmaExec)) prot

/-- The three bits say what `prot` asks for. -/
def FlagsMatch (flags prot : BitVec 64) : Prop :=
  hasFlag flags vmaRead = hasFlag prot protRead ∧
    hasFlag flags vmaWriteFlag = hasFlag prot protWrite ∧
    hasFlag flags vmaExec = hasFlag prot protExec

instance (flags prot : BitVec 64) : Decidable (FlagsMatch flags prot) :=
  inferInstanceAs (Decidable (_ ∧ _ ∧ _))

theorem hasFlag_cleared {a m k : BitVec 64} (h : ~~~k &&& m = 0#64) : hasFlag (a &&& ~~~k) m = false := by
  unfold hasFlag
  rw [BitVec.and_assoc, h, BitVec.and_zero]
  rfl

theorem protFlags_match (flags prot : BitVec 64) : FlagsMatch (protFlags flags prot) prot := by
  have hbit : ∀ (c : Bool) (m k : BitVec 64),
      hasFlag (if c = true then m else 0) k = (c && hasFlag m k) := by
    intro c m k
    cases c
    · exact decide_eq_false (fun h => h (BitVec.zero_and ..))
    · rfl
  unfold FlagsMatch protFlags addProtFlags
  simp only [hasFlag_or, hbit]
  refine ⟨?_, ?_, ?_⟩
  · rw [hasFlag_cleared (by decide)]
    simp [hasFlag, vmaRead, vmaWriteFlag, vmaExec]
  · rw [hasFlag_cleared (by decide)]
    simp [hasFlag, vmaRead, vmaWriteFlag, vmaExec]
  · rw [hasFlag_cleared (by decide)]
    simp [hasFlag, vmaRead, vmaWriteFlag, vmaExec]

def Vma.protect (addr stop : ℕ) (prot : BitVec 64) (v : Vma) : Vma :=
  if v.vmStart ≥ addr ∧ v.vmEnd ≤ stop then { v with vmFlags := protFlags v.vmFlags prot } else v

def Entry.protect (prot : BitVec 64) (e : Entry) : Entry := { e with flags := protFlags e.flags prot }

section SecondLoop

variable (addr stop : ℕ) (prot : BitVec 64)

@[simp] theorem Vma.protect_vmStart (v : Vma) : (v.protect addr stop prot).vmStart = v.vmStart := by
  unfold Vma.protect
  split_ifs <;> rfl

@[simp] theorem Vma.protect_vmEnd (v : Vma) : (v.protect addr stop prot).vmEnd = v.vmEnd := by
  unfold Vma.protect
  split_ifs <;> rfl

theorem protectFlagsWalk_eq {mgr : VmaManager} {fuel : ℕ} (l1 : List (ℕ × Vma))
    {l2 : List (ℕ × Vma)} (h : Linked mgr.list (l1 ++ l2)) (hf : l2.length ≤ fuel) :
    ∃ d, protectFlagsWalk addr stop prot fuel mgr (headPtr l2 none) = some { mgr with list := d } ∧
      Linked d (l1 ++ l2.map fun x => (x.1, x.2.protect addr stop prot)) := by
  induction l2 generalizing mgr l1 fuel with
  | nil => exact ⟨mgr.list, by cases fuel <;> rfl, h⟩
  | cons x l2 ih =>
    obtain ⟨p, v⟩ := x
    obtain ⟨fuel, rfl⟩ := Nat.exists_eq_succ_of_ne_zero (show fuel ≠ 0 by rintro rfl; simp at hf)
    have hassoc : ∀ (w : Vma) (qs : List (ℕ × Vma)),
        l1 ++ (p, w) :: qs = (l1 ++ [(p, w)]) ++ qs := by
      intro w qs
      rw [append_assoc]
      rfl
    simp only [headPtr_cons, protectFlagsWalk, h.get, bind_eq_bind, bind_some, map_cons]
    by_cases hin : v.vmStart ≥ addr ∧ v.vmEnd ≤ stop
    · have hv : v.protect addr stop prot = { v with vmFlags := protFlags v.vmFlags prot } := if_pos hin
      obtain ⟨d, hd, hl⟩ := vmaWrite_eq h (v.protect addr stop prot)
      rw [hassoc] at hl ⊢
      obtain ⟨d', hd', hl'⟩ := @ih { mgr with list := d } _ _ hl (by simpa using hf)
      refine ⟨d', ?_, hl'⟩
      rw [hv] at hd
      unfold protFlags at hd
      rw [if_pos hin, hd]
      exact hd'
    · have hv : v.protect addr stop prot = v := if_neg hin
      rw [hv, hassoc]
      rw [hassoc] at h
      obtain ⟨d, hd, hl⟩ := ih _ h (by simpa using hf)
      exact ⟨d, by rw [if_neg hin]; exact hd, hl⟩

theorem lookupAreas_protect {ps : List (ℕ × Vma)} (hclean : Clean addr stop ps) (x : ℕ) :
    lookupAreas ((ps.map fun y => (y.1, y.2.protect addr stop prot)).map Prod.snd) x =
      (lookupAreas (ps.map Prod.snd) x).map fun e => if addr ≤ x ∧ x < stop then e.protect prot else e := by
  induction ps with
  | nil => rfl
  | cons y ps ih =>
    obtain ⟨haddr, hstop⟩ := hclean y mem_cons_self
    unfold Vma.straddles at haddr hstop
    simp only [map_cons, lookupAreas_cons, Vma.protect_vmStart, Vma.protect_vmEnd]
    rw [ih fun z hz => hclean z (mem_cons_of_mem y hz)]
    by_cases hx : y.2.vmStart ≤ x ∧ x < y.2.vmEnd
    · rw [if_pos hx, if_pos hx, map_some]
      by_cases hin : addr ≤ x ∧ x < stop
      · rw [if_pos hin, Vma.protect, if_pos (by omega)]
        rfl
      · rw [if_neg hin, Vma.protect, if_neg (by omega)]
    · rw [if_neg hx, if_neg hx]

theorem map_protect_of_lt {ps : List (ℕ × Vma)} (hlt : stop < addr) (h : AreasOk (ps.map Prod.snd)) :
    (ps.map fun y => (y.1, y.2.protect addr stop prot)) = ps := by
  refine (map_congr_left fun y hy => ?_).trans (List.map_id ps)
  have hne := h.nonempty y.2 (List.mem_map_of_mem hy)
  rw [Vma.protect, if_neg (by omega)]
  rfl

end SecondLoop

section Call

variable {mgr mgr' : VmaManager} {ps : List (ℕ × Vma)} {addr length : BitVec 64}

theorem areasOk_protect {ps : List (ℕ × Vma)} (h : AreasOk (ps.map Prod.snd)) (addr stop : ℕ)
    (prot : BitVec 64) : AreasOk ((ps.map fun y => (y.1, y.2.protect addr stop prot)).map Prod.snd) := by
  induction ps with
  | nil => exact h
  | cons y ps ih =>
    simp only [map_cons] at h ⊢
    obtain ⟨h1, h2, h3, h4⟩ := areasOk_cons.mp h
    refine areasOk_cons.mpr ⟨by simpa using h1, by simpa using h2, ih h3, fun w hw => ?_⟩
    rw [List.map_map] at hw
    obtain ⟨z, hz, rfl⟩ := List.mem_map.mp hw
    have hle := h4 z.2 (List.mem_map_of_mem hz)
    simpa using hle

theorem Inv.mprotect_eq (h : Inv mgr ps) (haddr : pageSize ∣ addr.toNat)
    (hlength : pageSize ∣ length.toNat) (hacc : checkUserOverflow addr.toNat length.toNat = false)
    (hheap : ∀ n, mgr.mallocs ≤ n → mgr.heap n = true) (prot : BitVec 64) (ends : Set ℕ) :
    ∃ mgr' ps', mprotect mgr addr length prot none = some (mgr', .ok 0) ∧ Inv mgr' ps' ∧
      mgr'.vmUsed = mgr.vmUsed ∧
      (addr.toNat ∈ ends → wrap (addr.toNat + length.toNat) ∈ ends → EndsIn ends ps → EndsIn ends ps') ∧
      ∀ x, mgr'.lookup x = (mgr.lookup x).map fun e =>
        if addr.toNat ≤ x ∧ x < wrap (addr.toNat + length.toNat) then e.protect prot else e := by
  have hfuel : splitWeights addr.toNat (wrap (addr.toNat + length.toNat)) ps ≤ 3 * mgr.mallocs :=
    (splitWeights_le _ _ ps).trans (Nat.mul_le_mul_left 3 h.length_le)
  obtain ⟨m, ps1, hm, hsplits, hends, hclean⟩ := Inv.splits_protectWalk addr.toNat
    (wrap (addr.toNat + length.toNat)) ends [] h hfuel hheap
  obtain ⟨d, hd, hl⟩ := protectFlagsWalk_eq addr.toNat (wrap (addr.toNat + length.toNat)) prot []
    hsplits.inv.linked hsplits.inv.length_le
  rw [← h.linked.head] at hm
  rw [← hsplits.inv.linked.head] at hd
  have hinv : Inv { m with list := d } (ps1.map fun y =>
      (y.1, y.2.protect addr.toNat (wrap (addr.toNat + length.toNat)) prot)) := by
    refine ⟨⟨hl, fun y hy => ?_⟩, areasOk_protect hsplits.inv.ok _ _ prot⟩
    obtain ⟨z, hz, rfl⟩ := List.mem_map.mp hy
    exact hsplits.inv.lt z hz
  refine ⟨_, _, ?_, hinv, hsplits.used, fun haddr' hstop h' => ?_, fun x => ?_⟩
  · unfold mprotect
    rw [paddingDown_of_dvd haddr, paddingUp_of_dvd hlength length.isLt]
    dsimp only
    rw [hacc, if_neg Bool.false_ne_true]
    simp only [hm, hd, bind_eq_bind, bind_some, Option.pure_def]
  · intro y hy
    obtain ⟨z, hz, rfl⟩ := List.mem_map.mp hy
    show (z.2.protect _ _ prot).vmStart ∈ ends ∧ (z.2.protect _ _ prot).vmEnd ∈ ends
    unfold Vma.protect
    split_ifs <;> exact hends haddr' hstop h' z hz
  · rw [hinv.lookup_eq, h.lookup_eq, ← nil_append ps, ← hsplits.lookup x]
    by_cases hle : addr.toNat ≤ wrap (addr.toNat + length.toNat)
    · exact lookupAreas_protect _ _ _ (hclean hle fun y hy => absurd hy not_mem_nil) x
    · rw [map_protect_of_lt _ _ _ (not_le.mp hle) hsplits.inv.ok]
      have hout : ¬ (addr.toNat ≤ x ∧ x < wrap (addr.toNat + length.toNat)) := by omega
      simp only [if_neg hout, Option.map_id']

/-- What `mprotect` of `[start, stop)` should do: the areas still cover the same addresses, each of
them once, and only the protection of the addresses in the range has changed. -/
structure Protected (mgr : VmaManager) (start stop : ℕ) (prot : BitVec 64) (mgr' : VmaManager) :
    Prop where
  ok : VmaListOk mgr'
  used : mgr'.vmUsed = mgr.vmUsed
  unmapped : ∀ x, mgr.lookup x = none → mgr'.lookup x = none
  once : ∀ x, (mgr.lookup x).isSome → ∃! v, v ∈ mgr'.areas ∧ v.vmStart ≤ x ∧ x < v.vmEnd
  mapped : ∀ x e, mgr.lookup x = some e → ∃ e', mgr'.lookup x = some e' ∧ e'.type = e.type ∧
    e'.fd = e.fd ∧ e'.offset = e.offset ∧
    (start ≤ x ∧ x < stop → FlagsMatch e'.flags prot) ∧
    (¬ (start ≤ x ∧ x < stop) → e'.flags = e.flags)

theorem lookupAreas_eq_some {vs : List Vma} {x : ℕ} {e : Entry} (h : lookupAreas vs x = some e) :
    ∃ v ∈ vs, (v.vmStart ≤ x ∧ x < v.vmEnd) ∧ e = v.entry x := by
  unfold lookupAreas at h
  obtain ⟨v, hv, rfl⟩ := map_eq_some_iff.mp h
  have hin := List.find?_some hv
  rw [decide_eq_true_eq] at hin
  exact ⟨v, List.mem_of_find?_eq_some hv, hin, rfl⟩

theorem AreasOk.eq_of_mem {vs : List Vma} (h : AreasOk vs) {v w : Vma} (hv : v ∈ vs) (hw : w ∈ vs)
    {x : ℕ} (hvx : v.vmStart ≤ x ∧ x < v.vmEnd) (hwx : w.vmStart ≤ x ∧ x < w.vmEnd) : v = w := by
  induction vs with
  | nil => cases hv
  | cons u vs ih =>
    obtain ⟨-, -, h3, h4⟩ := areasOk_cons.mp h
    obtain rfl | hv' := mem_cons.mp hv <;> obtain rfl | hw' := mem_cons.mp hw
    · rfl
    · have := h4 w hw'
      omega
    · have := h4 v hv'
      omega
    · exact ih h3 hv' hw'

theorem lookupAreas_of_mem {vs : List Vma} (h : AreasOk vs) {v : Vma} (hv : v ∈ vs) {x : ℕ}
    (hx : v.vmStart ≤ x ∧ x < v.vmEnd) : lookupAreas vs x = some (v.entry x) := by
  obtain ⟨e, he⟩ := isSome_iff_exists.mp (lookupAreas_isSome hv hx.1 hx.2)
  obtain ⟨w, hw, hwx, rfl⟩ := lookupAreas_eq_some he
  rw [he, h.eq_of_mem hv hw hx hwx]

/-- `mprotect` does what it should exactly when the range does not wrap around the end of the address
space, or when all that lies behind `addr` has the protection already. -/
theorem mprotect_exact_iff (h : Inv mgr ps) (haddr : pageSize ∣ addr.toNat)
    (hlength : pageSize ∣ length.toNat) (hacc : checkUserOverflow addr.toNat length.toNat = false)
    (hheap : ∀ n, mgr.mallocs ≤ n → mgr.heap n = true) (prot : BitVec 64) :
    (∃ mgr', mprotect mgr addr length prot none = some (mgr', .ok 0) ∧
      Protected mgr addr.toNat (addr.toNat + length.toNat) prot mgr') ↔
      (addr.toNat + length.toNat < 2 ^ 64 ∨
        ∀ v ∈ mgr.areas, addr.toNat < v.vmEnd → FlagsMatch v.vmFlags prot) := by
  obtain ⟨mgr', ps', hrun, hinv, hused, -, hlookup⟩ := h.mprotect_eq haddr hlength hacc hheap prot ∅
  constructor
  · rintro ⟨mgr'', hrun', hprot⟩
    by_cases hwrap : addr.toNat + length.toNat < 2 ^ 64
    · exact .inl hwrap
    · refine .inr fun v hv hend => ?_
      rw [hrun, Option.some.injEq, Prod.mk.injEq] at hrun'
      rw [← hrun'.1] at hprot
      rw [h.areas_eq] at hv
      -- the first address of the area that is not before `addr`
      have hne := h.ok.nonempty v hv
      have hword := h.ok.word v hv
      have hx : v.vmStart ≤ max v.vmStart addr.toNat ∧ max v.vmStart addr.toNat < v.vmEnd := by omega
      have hsome : mgr.lookup (max v.vmStart addr.toNat) = some (v.entry (max v.vmStart addr.toNat)) := by
        rw [h.lookup_eq]
        exact lookupAreas_of_mem h.ok hv hx
      obtain ⟨e', he', -, -, -, hin, -⟩ := hprot.mapped _ _ hsome
      have hout : ¬ (addr.toNat ≤ max v.vmStart addr.toNat ∧
          max v.vmStart addr.toNat < wrap (addr.toNat + length.toNat)) := by
        have hlow := addr.isLt
        have hlow' := length.isLt
        unfold wrap
        omega
      rw [hlookup, hsome, Option.map_some, if_neg hout, Option.some.injEq] at he'
      have hmatch := hin (by omega)
      rw [← he'] at hmatch
      exact hmatch
  · intro hcond
    refine ⟨mgr', hrun, hinv.vmaListOk, hused, fun x hx => ?_, fun x hx => ?_, fun x e hx => ?_⟩
    · rw [hlookup, hx]
      rfl
    · have hsome : (mgr'.lookup x).isSome := by
        rw [hlookup, Option.isSome_map]
        exact hx
      rw [hinv.lookup_eq] at hsome
      obtain ⟨e, he⟩ := Option.isSome_iff_exists.mp hsome
      obtain ⟨v, hv, hvx, -⟩ := lookupAreas_eq_some he
      rw [hinv.areas_eq]
      exact ⟨v, ⟨hv, hvx⟩, fun w hw => hinv.ok.eq_of_mem hw.1 hv hw.2 hvx⟩
    · rw [hlookup, hx, Option.map_some]
      by_cases hwrap : addr.toNat + length.toNat < 2 ^ 64
      · rw [wrap_of_lt hwrap]
        by_cases hin : addr.toNat ≤ x ∧ x < addr.toNat + length.toNat
        · rw [if_pos hin]
          exact ⟨_, rfl, rfl, rfl, rfl, fun _ => protFlags_match e.flags prot, fun hout => absurd hin hout⟩
        · rw [if_neg hin]
          exact ⟨_, rfl, rfl, rfl, rfl, fun hin' => absurd hin' hin, fun _ => rfl⟩
      · have hout : ¬ (addr.toNat ≤ x ∧ x < wrap (addr.toNat + length.toNat)) := by
          have hlow := addr.isLt
          have hlow' := length.isLt
          unfold wrap
          omega
        rw [if_neg hout]
        refine ⟨_, rfl, rfl, rfl, rfl, fun hin => ?_, fun _ => rfl⟩
        rw [h.lookup_eq] at hx
        obtain ⟨v, hv, hvx, rfl⟩ := lookupAreas_eq_some hx
        rw [h.areas_eq] at hcond
        exact (hcond.resolve_left hwrap) v hv (by omega)

/-- The middle page of three becomes writable. -/
theorem mprotect_exact_middle : ∃ mgr',
    mprotect (oneArea filePages) 0x2000 0x1000 (protRead ||| protWrite) none = some (mgr', .ok 0) ∧
      Protected (oneArea filePages) (0x2000 : BitVec 64).toNat
        ((0x2000 : BitVec 64).toNat + (0x1000 : BitVec 64).toNat) (protRead ||| protWrite) mgr' :=
  (mprotect_exact_iff (oneArea_inv (v := filePages) (by decide) (by decide)) (by decide) (by decide)
    (by decide) (fun _ _ => rfl) _).mpr (.inl (by decide))

/-- From the first page to the end of the address space: the call succeeds, and the three pages stay
readable. -/
theorem mprotect_wraps : ¬ ∃ mgr',
    mprotect (oneArea filePages) 0x1000 0xfffffffffffff000 0 none = some (mgr', .ok 0) ∧
      Protected (oneArea filePages) (0x1000 : BitVec 64).toNat
        ((0x1000 : BitVec 64).toNat + (0xfffffffffffff000 : BitVec 64).toNat) 0 mgr' := by
  rintro ⟨mgr', hrun, hprot⟩
  have hflags : ((mprotect (oneArea filePages) 0x1000 0xfffffffffffff000 0 none).bind
      fun r => r.1.lookup 0x1000).map Entry.flags = some vmaRead := by decide
  obtain ⟨e', he', -, -, -, hin, -⟩ := hprot.mapped 0x1000 _ (by decide : _ = some (filePages.entry 0x1000))
  rw [hrun, Option.bind_some, he', Option.map_some, Option.some.injEq] at hflags
  have hmatch := (hin (by decide)).1
  rw [hflags] at hmatch
  exact absurd hmatch (by decide)

end Call

end CoolPotOS
