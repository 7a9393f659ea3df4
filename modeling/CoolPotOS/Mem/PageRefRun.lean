import CoolPotOS.Mem.PageRef

namespace CoolPotOS

open Finset Function Option RefState

/-- The party has taken the last reference to the page and has not put it back. -/
def RefPc.Empties (f : ℕ) : RefPc → Prop
  | .locking addr _ true => f = addr / pageSize
  | .claiming addr _ _ offset => addr / pageSize ≤ f ∧ f < addr / pageSize + offset
  | .undoing addr rollback offset =>
    addr / pageSize + rollback ≤ f ∧ f < addr / pageSize + offset
  | .reading addr _ pages _ => addr / pageSize ≤ f ∧ f < addr / pageSize + pages
  | .releasing addr _ pages _ => addr / pageSize ≤ f ∧ f < addr / pageSize + pages
  | _ => False

def RefPc.Releases (f : ℕ) : RefPc → Prop
  | .locking addr _ true => f = addr / pageSize
  | .reading addr _ pages _ => addr / pageSize ≤ f ∧ f < addr / pageSize + pages
  | .releasing addr _ pages _ => addr / pageSize ≤ f ∧ f < addr / pageSize + pages
  | _ => False

theorem RefPc.Releases.empties {f : ℕ} {pc : RefPc} (h : pc.Releases f) : pc.Empties f := by
  unfold Releases at h
  unfold Empties
  split at h <;> simp_all

/-- A block that has passed the checks of `free_frames_common`. -/
structure FreeRange (s : Buddy) (addr order pages : ℕ) : Prop where
  pos : addr ≠ 0
  page : pageSize ∣ addr
  count : ∃ count, countToOrder count = some (order, pages)
  usable : ∀ f, addr / pageSize ≤ f → f < addr / pageSize + pages →
    bitmapGet s.usableRegions f = true
  zone : ∀ f, addr / pageSize ≤ f → f < addr / pageSize + pages →
    physToZoneType (f * pageSize) = physToZoneType addr

namespace RefState

variable {n : ℕ}

def total (x : RefState n) (f : ℕ) : ℕ := ∑ q, x.held q f

/-- The last reference to the page has been dropped for good. -/
def LastDropped (x : RefState n) (f : ℕ) : Prop :=
  0 < x.handed f ∨ ∃ p, (x.pc p).Releases f

def PcOk (x : RefState n) (p : Fin n) : RefPc → Prop
  | .idle => True
  | .trying _ _ => True
  | .dropping addr _ => pageSize ∣ addr ∧ addressIsManaged x.buddy addr = true ∧
      0 < x.held p (addr / pageSize)
  | .locking addr count true => pageSize ∣ addr ∧ addressIsManaged x.buddy addr = true ∧ count = 1
  | .locking addr count false => x.held p = (x.before p).2 p ∧
      ∀ order pages, countToOrder count = some (order, pages) →
        ∀ f, addr / pageSize ≤ f → f < addr / pageSize + pages → 0 < x.held p f
  | .claiming addr order pages offset => FreeRange x.buddy addr order pages ∧ offset ≤ pages ∧
      (∀ f, addr / pageSize + offset ≤ f → f < addr / pageSize + pages → 0 < x.held p f) ∧
      ∀ f, (x.before p).2 p f = x.held p f +
        if addr / pageSize ≤ f ∧ f < addr / pageSize + offset then 1 else 0
  | .undoing addr rollback offset => rollback ≤ offset ∧ ∀ f, (x.before p).2 p f = x.held p f +
      if addr / pageSize + rollback ≤ f ∧ f < addr / pageSize + offset then 1 else 0
  | .reading addr order pages _ => FreeRange x.buddy addr order pages
  | .releasing addr order pages _ => FreeRange x.buddy addr order pages

def EndOk (M : Set ℕ) (x : RefState n) (p : Fin n) : RefEnd → Prop
  | .referenced f => 0 < x.held p f
  | .droppedLast f => f ∈ M ∧ f ∉ handedOut x.buddy ∧ x.handed f = 1
  | .refused _ => x.held p = (x.before p).2 p
  | _ => True

end RefState

/-- The invariant, with the pages that the allocator manages. -/
structure RefInv {n : ℕ} (M : Set ℕ) (x : RefState n) : Prop where
  sound : Sound M x.buddy
  outside : ∀ f, ¬f < x.buddy.memorySize / pageSize → x.buddy.refcount f = 0
  counts : ∀ f, x.buddy.refcount f = (x.total f : ℤ).bmod (2 ^ 32)
  bound : ∀ f, x.total f ≤ 2 ^ 31
  snapshot : ∀ p f, (x.before p).1 f = ((∑ q, (x.before p).2 q f : ℕ) : ℤ).bmod (2 ^ 32)
  once : ∀ f, x.handed f = 0 ∨ x.handed f = 1 ∧ f ∉ handedOut x.buddy
  pcOk : ∀ p, x.PcOk p (x.pc p)
  empty : ∀ p f, (x.pc p).Empties f → f ∈ handedOut x.buddy ∧ x.buddy.refcount f = 0
  single : ∀ p q f, (x.pc p).Empties f → (x.pc q).Empties f → p = q
  busy : ∀ p, x.pc p = .idle ∨ x.ended p = none
  endOk : ∀ p e, x.ended p = some e → x.EndOk M p e

section Counts

variable {n : ℕ} {M : Set ℕ} {x : RefState n} {p : Fin n} {f : ℕ}

theorem RefInv.refcount_pos (h : RefInv M x) (hpos : 0 < x.buddy.refcount f) :
    x.buddy.refcount f = x.total f ∧ x.total f < 2 ^ 31 := by
  have hc := h.counts f
  have hb := h.bound f
  rw [Int.bmod_def] at hc
  split_ifs at hc <;> omega

theorem RefInv.refcount_eq_zero (h : RefInv M x) : x.buddy.refcount f = 0 ↔ x.total f = 0 := by
  have hc := h.counts f
  have hb := h.bound f
  rw [Int.bmod_def] at hc
  split_ifs at hc <;> omega

theorem RefState.total_eq_zero : x.total f = 0 ↔ ∀ q, x.held q f = 0 := by
  simp [RefState.total]

theorem RefInv.mem_handedOut (h : RefInv M x) (hne : x.buddy.refcount f ≠ 0) : f ∈ handedOut x.buddy := by
  by_contra hout
  by_cases hf : f < x.buddy.memorySize / pageSize
  · exact hne (h.sound.idle f hf hout)
  · exact hne (h.outside f hf)

@[simp] theorem RefState.gain_refcount (x : RefState n) (p : Fin n) (f : ℕ) :
    (x.gain p f).buddy.refcount =
      update x.buddy.refcount f (addInt (x.buddy.refcount f) 1) := rfl

@[simp] theorem RefState.lose_refcount (x : RefState n) (p : Fin n) (f : ℕ) :
    (x.lose p f).buddy.refcount =
      update x.buddy.refcount f (x.buddy.refcount f - 1) := rfl

theorem RefState.held_gain (x : RefState n) (p q : Fin n) (f g : ℕ) :
    (x.gain p f).held q g = x.held q g + if q = p ∧ g = f then 1 else 0 := by
  simp only [gain, setHeld, setCount]
  by_cases hq : q = p
  · subst hq
    by_cases hg : g = f
    · subst hg
      simp
    · simp [hg]
  · simp [hq]

theorem RefState.held_lose (x : RefState n) (p q : Fin n) (f g : ℕ) (hpos : 0 < x.held p f) :
    x.held q g = (x.lose p f).held q g + if q = p ∧ g = f then 1 else 0 := by
  simp only [lose, setHeld, setCount]
  by_cases hq : q = p
  · subst hq
    by_cases hg : g = f
    · subst hg
      simp only [update_self, and_self, if_true]
      omega
    · simp [hg]
  · simp [hq]

theorem RefState.total_gain (x : RefState n) (p : Fin n) (f g : ℕ) :
    (x.gain p f).total g = x.total g + if g = f then 1 else 0 := by
  simp only [total, held_gain, sum_add_distrib]
  by_cases hg : g = f <;> simp [hg]

theorem RefState.total_lose (x : RefState n) (p : Fin n) (f g : ℕ) (hpos : 0 < x.held p f) :
    x.total g = (x.lose p f).total g + if g = f then 1 else 0 := by
  have hsum : x.total g = ∑ q, ((x.lose p f).held q g + if q = p ∧ g = f then 1 else 0) :=
    Finset.sum_congr rfl fun q _ => x.held_lose p q f g hpos
  rw [hsum, sum_add_distrib]
  by_cases hg : g = f <;> simp [hg, total]

end Counts

/-- A step of a party leaves the rest of the others as it is. -/
structure Turn {n : ℕ} (p : Fin n) (x x' : RefState n) : Prop where
  pc : ∀ q, q ≠ p → x'.pc q = x.pc q
  held : ∀ q, q ≠ p → x'.held q = x.held q
  ended : ∀ q, q ≠ p → x'.ended q = x.ended q
  before : ∀ q, q ≠ p → x'.before q = x.before q
  usable : x'.buddy.usableRegions = x.buddy.usableRegions
  memory : x'.buddy.memorySize = x.buddy.memorySize

variable {s s' : Buddy} {addr order pages count offset : ℕ} {released : Bool} {M : Set ℕ}

section Steps

variable {n : ℕ} {M : Set ℕ} {x x' : RefState n} {p q : Fin n} {f : ℕ} {pc : RefPc}

theorem FreeRange.congr (h : FreeRange s addr order pages) (husable : s'.usableRegions = s.usableRegions) :
    FreeRange s' addr order pages :=
  ⟨h.pos, h.page, h.count, by rw [husable]; exact h.usable, h.zone⟩

theorem addressIsManaged_congr (husable : s'.usableRegions = s.usableRegions)
    (hmemory : s'.memorySize = s.memorySize) (addr : ℕ) :
    addressIsManaged s' addr = addressIsManaged s addr := by
  rw [addressIsManaged, addressIsManaged, husable, hmemory]

theorem RefState.PcOk.congr (h : x.PcOk q pc) (hheld : x'.held q = x.held q)
    (hbefore : x'.before q = x.before q) (husable : x'.buddy.usableRegions = x.buddy.usableRegions)
    (hmemory : x'.buddy.memorySize = x.buddy.memorySize) : x'.PcOk q pc := by
  have hman := addressIsManaged_congr husable hmemory
  cases pc with
  | idle => trivial
  | trying => trivial
  | dropping addr refs =>
    obtain ⟨hpage, hm, hpos⟩ := h
    exact ⟨hpage, by rw [hman, hm], by rw [hheld]; exact hpos⟩
  | locking addr count released =>
    cases released with
    | true =>
      obtain ⟨hpage, hm, hone⟩ := h
      exact ⟨hpage, by rw [hman, hm], hone⟩
    | false =>
      obtain ⟨hkept, hpos⟩ := h
      refine ⟨by rw [hheld, hbefore, hkept], ?_⟩
      rw [hheld]
      exact hpos
  | claiming addr order pages offset =>
    obtain ⟨hr, hle, hpos, hkept⟩ := h
    refine ⟨hr.congr husable, hle, ?_, ?_⟩
    · rw [hheld]
      exact hpos
    · rw [hheld, hbefore]
      exact hkept
  | undoing addr rollback offset =>
    obtain ⟨hle, hkept⟩ := h
    refine ⟨hle, ?_⟩
    rw [hheld, hbefore]
    exact hkept
  | reading addr order pages offset => exact FreeRange.congr h husable
  | releasing addr order pages released => exact FreeRange.congr h husable

theorem RefState.EndOk.congr {e : RefEnd} (h : x.EndOk M q e) (hheld : x'.held q = x.held q)
    (hbefore : x'.before q = x.before q) (hout : handedOut x'.buddy ⊆ handedOut x.buddy)
    (hhanded : ∀ f, f ∉ handedOut x.buddy → x'.handed f = x.handed f) : x'.EndOk M q e := by
  cases e with
  | referenced f =>
    show 0 < x'.held q f
    rw [hheld]
    exact h
  | droppedLast f =>
    obtain ⟨hM, hf, hone⟩ := h
    exact ⟨hM, fun hf' => hf (hout hf'), by rw [hhanded f hf, hone]⟩
  | refused addr =>
    show x'.held q = (x'.before q).2 q
    rw [hheld, hbefore]
    exact h
  | notReferenced => trivial
  | unmanaged => trivial
  | dropped => trivial
  | freed => trivial

theorem RefInv.turn (h : RefInv M x) (ht : Turn p x x')
    (hout : handedOut x'.buddy = handedOut x.buddy) (hhanded : x'.handed = x.handed)
    (hsound : Sound M x'.buddy)
    (houtside : ∀ f, ¬f < x'.buddy.memorySize / pageSize → x'.buddy.refcount f = 0)
    (hcounts : ∀ f, x'.buddy.refcount f = (x'.total f : ℤ).bmod (2 ^ 32)) (hbound : ∀ f, x'.total f ≤ 2 ^ 31)
    (hsnap : ∀ f, (x'.before p).1 f = ((∑ q, (x'.before p).2 q f : ℕ) : ℤ).bmod (2 ^ 32))
    (hpcOk : x'.PcOk p (x'.pc p))
    (hempty : ∀ f, (x'.pc p).Empties f → f ∈ handedOut x.buddy ∧ x'.buddy.refcount f = 0)
    (hothers : ∀ q, q ≠ p → ∀ f, (x.pc q).Empties f → x'.buddy.refcount f = 0 ∧ ¬(x'.pc p).Empties f)
    (hbusy : x'.pc p = .idle ∨ x'.ended p = none)
    (hend : ∀ e, x'.ended p = some e → x'.EndOk M p e) : RefInv M x' where
  sound := hsound
  outside := houtside
  counts := hcounts
  bound := hbound
  snapshot := by
    intro q
    by_cases hq : q = p
    · rw [hq]
      exact hsnap
    · rw [ht.before q hq]
      exact h.snapshot q
  once := by
    rw [hhanded, hout]
    exact h.once
  pcOk := by
    intro q
    by_cases hq : q = p
    · rw [hq]
      exact hpcOk
    · rw [ht.pc q hq]
      exact (h.pcOk q).congr (ht.held q hq) (ht.before q hq) ht.usable ht.memory
  empty := by
    intro q f hf
    rw [hout]
    by_cases hq : q = p
    · rw [hq] at hf
      exact hempty f hf
    · rw [ht.pc q hq] at hf
      exact ⟨(h.empty q f hf).1, (hothers q hq f hf).1⟩
  single := by
    intro q r f hq hr
    by_cases hqp : q = p
    · by_cases hrp : r = p
      · rw [hqp, hrp]
      · rw [ht.pc r hrp] at hr
        rw [hqp] at hq
        exact absurd hq (hothers r hrp f hr).2
    · rw [ht.pc q hqp] at hq
      by_cases hrp : r = p
      · rw [hrp] at hr
        exact absurd hr (hothers q hqp f hq).2
      · rw [ht.pc r hrp] at hr
        exact h.single q r f hq hr
  busy := by
    intro q
    by_cases hq : q = p
    · rw [hq]
      exact hbusy
    · rw [ht.pc q hq, ht.ended q hq]
      exact h.busy q
  endOk := by
    intro q e he
    by_cases hq : q = p
    · rw [hq] at he ⊢
      exact hend e he
    · rw [ht.ended q hq] at he
      exact (h.endOk q e he).congr (ht.held q hq) (ht.before q hq) hout.subset
        fun f _ => congrFun hhanded f

theorem RefInv.move (h : RefInv M x) (ht : Turn p x x') (hbuddy : x'.buddy = x.buddy)
    (hheld : x'.held = x.held) (hhanded : x'.handed = x.handed)
    (hsnap : ∀ f, (x'.before p).1 f = ((∑ q, (x'.before p).2 q f : ℕ) : ℤ).bmod (2 ^ 32))
    (hpcOk : x'.PcOk p (x'.pc p)) (hempty : ∀ f, (x'.pc p).Empties f → (x.pc p).Empties f)
    (hbusy : x'.pc p = .idle ∨ x'.ended p = none)
    (hend : ∀ e, x'.ended p = some e → x'.EndOk M p e) : RefInv M x' := by
  have htotal : x'.total = x.total := by
    funext f
    rw [RefState.total, RefState.total, hheld]
  apply h.turn ht (by rw [hbuddy]) hhanded
  · rw [hbuddy]
    exact h.sound
  · rw [hbuddy]
    exact h.outside
  · rw [hbuddy, htotal]
    exact h.counts
  · rw [htotal]
    exact h.bound
  · exact hsnap
  · exact hpcOk
  · intro f hf
    rw [hbuddy]
    exact h.empty p f (hempty f hf)
  · intro q hq f hf
    refine ⟨by rw [hbuddy]; exact (h.empty q f hf).2, fun hp => hq ?_⟩
    exact h.single q p f hf (hempty f hp)
  · exact hbusy
  · exact hend

theorem Sound.setRefcount (h : Sound M s) {r : ℕ → ℤ} (hr : ∀ f, f ∉ handedOut s → s.refcount f = 0 → r f = 0) :
    Sound M { s with refcount := r } where
  at_ := ⟨h.at_.zone, h.at_.type, h.at_.stop, h.at_.memory, h.at_.length, h.at_.layout,
    h.at_.managed, h.at_.used⟩
  idle := fun f hf hout => hr f hout (h.idle f hf hout)

theorem RefInv.gain (h : RefInv M x) (ht : Turn p x x') (hbuddy : x'.buddy = (x.gain p f).buddy)
    (hheld : x'.held = (x.gain p f).held) (hhanded : x'.handed = x.handed)
    (hf : f ∈ handedOut x.buddy) (hlt : x.total f < 2 ^ 31)
    (hfree : ∀ q, q ≠ p → ¬(x.pc q).Empties f) (hsnap : (x'.before p) = x.before p)
    (hpcOk : x'.PcOk p (x'.pc p)) (hempty : ∀ g, (x'.pc p).Empties g → (x.pc p).Empties g ∧ g ≠ f)
    (hbusy : x'.pc p = .idle ∨ x'.ended p = none)
    (hend : ∀ e, x'.ended p = some e → x'.EndOk M p e) : RefInv M x' := by
  have hout : handedOut x'.buddy = handedOut x.buddy := by
    rw [hbuddy]
    rfl
  have hrefs : ∀ g, g ≠ f → x'.buddy.refcount g = x.buddy.refcount g := by
    intro g hg
    rw [hbuddy, gain_refcount, update_of_ne hg]
  have htotal : ∀ g, x'.total g = x.total g + if g = f then 1 else 0 := by
    intro g
    rw [← total_gain x p f g, RefState.total, hheld, RefState.total]
  apply h.turn ht hout hhanded
  · rw [hbuddy]
    refine h.sound.setRefcount fun g hg hzero => ?_
    have hgf : g ≠ f := by
      rintro rfl
      exact hg hf
    rw [update_of_ne hgf, hzero]
  · intro g hg
    rw [hbuddy] at hg
    rw [hrefs g (fun hgf => hg (hgf ▸ hf.1))]
    exact h.outside g hg
  · intro g
    rw [htotal]
    by_cases hg : g = f
    · rw [hbuddy, hg, gain_refcount, update_self, if_pos rfl, addInt, h.counts f,
        Int.bmod_add_bmod]
      push_cast
      rfl
    · rw [hrefs g hg, if_neg hg, h.counts g, Nat.add_zero]
  · intro g
    rw [htotal]
    split_ifs with hg
    · rw [hg]
      omega
    · exact h.bound g
  · rw [hsnap]
    exact h.snapshot p
  · exact hpcOk
  · intro g hg
    obtain ⟨hg, hne⟩ := hempty g hg
    rw [hrefs g hne]
    exact h.empty p g hg
  · intro q hq g hg
    have hgf : g ≠ f := fun hgf => hfree q hq (hgf ▸ hg)
    refine ⟨by rw [hrefs g hgf]; exact (h.empty q g hg).2, fun hp => hq ?_⟩
    exact h.single q p g hg (hempty g hp).1
  · exact hbusy
  · exact hend

theorem RefInv.lose (h : RefInv M x) (ht : Turn p x x') (hbuddy : x'.buddy = (x.lose p f).buddy)
    (hheld : x'.held = (x.lose p f).held) (hhanded : x'.handed = x.handed)
    (hpos : 0 < x.held p f) (hcount : 0 < x.buddy.refcount f) (hsnap : (x'.before p) = x.before p)
    (hpcOk : x'.PcOk p (x'.pc p))
    (hempty : ∀ g, (x'.pc p).Empties g → (x.pc p).Empties g ∨ g = f ∧ x.buddy.refcount f = 1)
    (hbusy : x'.pc p = .idle ∨ x'.ended p = none)
    (hend : ∀ e, x'.ended p = some e → x'.EndOk M p e) : RefInv M x' := by
  have hf : f ∈ handedOut x.buddy := h.mem_handedOut hcount.ne'
  have hout : handedOut x'.buddy = handedOut x.buddy := by
    rw [hbuddy]
    rfl
  have hrefs : ∀ g, g ≠ f → x'.buddy.refcount g = x.buddy.refcount g := by
    intro g hg
    rw [hbuddy, lose_refcount, update_of_ne hg]
  have hself : x'.buddy.refcount f = x.buddy.refcount f - 1 := by
    rw [hbuddy, lose_refcount, update_self]
  -- Nobody has taken the last reference of this page, whose count is positive.
  have hne : ∀ q g, (x.pc q).Empties g → g ≠ f := by
    intro q g hg hgf
    rw [hgf] at hg
    exact hcount.ne' (h.empty q f hg).2
  have htotal : ∀ g, x.total g = x'.total g + if g = f then 1 else 0 := by
    intro g
    rw [total_lose x p f g hpos]
    simp only [RefState.total, hheld]
  apply h.turn ht hout hhanded
  · rw [hbuddy]
    refine h.sound.setRefcount fun g hg hzero => ?_
    have hgf : g ≠ f := by
      rintro rfl
      exact hg hf
    rw [update_of_ne hgf, hzero]
  · intro g hg
    rw [hbuddy] at hg
    rw [hrefs g (fun hgf => hg (hgf ▸ hf.1))]
    exact h.outside g hg
  · intro g
    have htg := htotal g
    by_cases hg : g = f
    · obtain ⟨hc, hlt⟩ := h.refcount_pos hcount
      rw [if_pos hg, hg] at htg
      rw [hg, hself, hc, Int.bmod_def]
      split_ifs <;> omega
    · rw [if_neg hg, Nat.add_zero] at htg
      rw [hrefs g hg, h.counts g, htg]
  · intro g
    have htg := htotal g
    have hb := h.bound g
    omega
  · rw [hsnap]
    exact h.snapshot p
  · exact hpcOk
  · intro g hg
    obtain hg | ⟨hgf, hone⟩ := hempty g hg
    · rw [hrefs g (hne p g hg)]
      exact h.empty p g hg
    · rw [hgf, hself, hone]
      exact ⟨hf, by norm_num⟩
  · intro q hq g hg
    refine ⟨by rw [hrefs g (hne q g hg)]; exact (h.empty q g hg).2, fun hp => ?_⟩
    obtain hp | ⟨hgf, -⟩ := hempty g hp
    · exact hq (h.single q p g hg hp)
    · exact hne q g hg hgf
  · exact hbusy
  · exact hend

theorem FreeRange.blockIn (h : FreeRange s addr order pages) (hs : Sound M s)
    (hout : ∀ f, addr / pageSize ≤ f → f < addr / pageSize + pages → f ∈ handedOut s) :
    ∃ z, s.zones (physToZoneType addr) = some z ∧ BlockIn z order addr := by
  obtain ⟨count, hcount⟩ := h.count
  obtain ⟨horder, hpages, -⟩ := countToOrder_eq_some hcount
  have hpos : 0 < pages := by
    rw [hpages, orderToPages]
    positivity
  have hsize : pages * pageSize = 2 ^ order := by
    rw [hpages]
    exact orderToPages_mul horder
  have haddr : addr / pageSize * pageSize = addr := Nat.div_mul_cancel h.page
  obtain ⟨z, hz, hge, -⟩ := hs.at_.layout _ (hout _ le_rfl (by omega)).1
  obtain ⟨z', hz', -, hlt⟩ := hs.at_.layout _ (hout (addr / pageSize + pages - 1) (by omega)
    (by omega)).1
  -- The first and the last page of the block are of the same zone.
  rw [haddr] at hz
  rw [h.zone _ (by omega) (by omega), hz] at hz'
  cases hz'
  refine ⟨z, hz, h.page, ?_, ?_⟩
  · rw [zonePhysStart, ← haddr]
    exact Nat.mul_le_mul_right _ hge
  · rw [zonePhysEnd, ← hsize, ← haddr, ← Nat.add_mul]
    exact Nat.mul_le_mul_right _ (by omega)

theorem RefInv.handBack (h : RefInv M x) (hpc : x.pc p = .releasing addr order pages released)
    (hstep : x.handBack p addr order pages released = some x') : RefInv M x' := by
  have hrange : FreeRange x.buddy addr order pages := by
    have hok := h.pcOk p
    rw [hpc] at hok
    exact hok
  have hmine : ∀ f, addr / pageSize ≤ f → f < addr / pageSize + pages →
      f ∈ handedOut x.buddy ∧ x.buddy.refcount f = 0 := by
    intro f hf hf'
    apply h.empty p f
    rw [hpc]
    exact ⟨hf, hf'⟩
  obtain ⟨z, hz, hin⟩ := hrange.blockIn h.sound fun f hf hf' => (hmine f hf hf').1
  obtain ⟨count, hcount⟩ := hrange.count
  obtain ⟨horder, hpages, -⟩ := countToOrder_eq_some hcount
  rw [RefState.handBack, hz, bind_eq_bind, bind_some] at hstep
  obtain ⟨s, hs, hstep⟩ := bind_eq_some_iff.mp hstep
  cases hstep
  have hpos : 0 < pages := by
    rw [hpages, orderToPages]
    positivity
  have hlast := hmine (addr / pageSize + pages - 1) (Nat.le_sub_one_of_lt (by omega))
    (Nat.sub_lt (Nat.add_pos_right _ hpos) one_pos)
  have hrel : Release x.buddy addr count order pages z x.buddy.refcount :=
    { pos := hrange.pos
      order := hcount
      zone := hz
      inside := hin
      length := by
        have hlen := h.sound.at_.length
        have hlt := hlast.1.1
        omega
      inUse := fun f hf hf' => ⟨(hmine f hf hf').1.2, hrange.usable f hf hf'⟩
      refs := by
        intro f
        split_ifs with hf
        · exact (hmine f hf.1 hf.2).2
        · rfl }
  obtain ⟨hsound, hmem, husable, hrefs, -, hout, -⟩ := releaseFrames_sound h.sound hrel hs
  have hcell : ∀ f, f ∈ cellPages order addr ↔
      addr / pageSize ≤ f ∧ f < addr / pageSize + pages := by
    intro f
    rw [hpages]
    exact mem_cellPages horder hrange.page
  have houter : ∀ f, f ∈ handedOut s ↔ f ∈ handedOut x.buddy ∧
      ¬(addr / pageSize ≤ f ∧ f < addr / pageSize + pages) := by
    intro f
    rw [hout, Set.mem_sdiff, hcell]
  have hother : ∀ q, q ≠ p → ∀ f, (x.pc q).Empties f →
      ¬(addr / pageSize ≤ f ∧ f < addr / pageSize + pages) := by
    intro q hq f hf hin
    refine hq (h.single q p f hf ?_)
    rw [hpc]
    exact hin
  refine
    { sound := hsound, outside := ?_, counts := ?_, bound := h.bound, snapshot := h.snapshot,
      once := ?_, pcOk := ?_, empty := ?_, single := ?_, busy := ?_, endOk := ?_ }
  · intro f hf
    have hf' : ¬f < x.buddy.memorySize / pageSize := by
      rw [← hmem]
      exact hf
    exact (congrFun hrefs f).trans (h.outside f hf')
  · intro f
    exact (congrFun hrefs f).trans (h.counts f)
  · intro f
    show (if _ then x.handed f + 1 else x.handed f) = 0 ∨ (if _ then x.handed f + 1 else x.handed f) = 1
      ∧ f ∉ handedOut s
    rw [houter]
    split_ifs with hf
    · -- The page was handed out, so that it has not been handed back before.
      obtain hzero | ⟨-, hnot⟩ := h.once f
      · exact .inr ⟨by rw [hzero], fun hin => hin.2 hf⟩
      · exact absurd (hmine f hf.1 hf.2).1 hnot
    · obtain hzero | ⟨hone, hnot⟩ := h.once f
      · exact .inl hzero
      · exact .inr ⟨hone, fun hin => hnot hin.1⟩
  · intro q
    show RefState.PcOk _ q (update x.pc p .idle q)
    by_cases hq : q = p
    · rw [hq, update_self]
      trivial
    · rw [update_of_ne hq]
      exact (h.pcOk q).congr rfl rfl husable hmem
  · intro q f hf
    replace hf : (update x.pc p .idle q).Empties f := hf
    by_cases hq : q = p
    · rw [hq, update_self] at hf
      cases hf
    · rw [update_of_ne hq] at hf
      obtain ⟨hin, hzero⟩ := h.empty q f hf
      exact ⟨(houter f).mpr ⟨hin, hother q hq f hf⟩, (congrFun hrefs f).trans hzero⟩
  · intro q r f hq hr
    replace hq : (update x.pc p .idle q).Empties f := hq
    replace hr : (update x.pc p .idle r).Empties f := hr
    by_cases hqp : q = p
    · rw [hqp, update_self] at hq
      cases hq
    · by_cases hrp : r = p
      · rw [hrp, update_self] at hr
        cases hr
      · rw [update_of_ne hqp] at hq
        rw [update_of_ne hrp] at hr
        exact h.single q r f hq hr
  · intro q
    by_cases hq : q = p
    · exact .inl (by rw [hq]; exact update_self _ _ _)
    · have hb := h.busy q
      rwa [← update_of_ne hq RefPc.idle x.pc, ← update_of_ne hq
        (some (if released then RefEnd.droppedLast (addr / pageSize) else .freed addr pages))
        x.ended] at hb
  · intro q e he
    replace he : update x.ended p (some (if released then
      RefEnd.droppedLast (addr / pageSize) else .freed addr pages)) q = some e := he
    by_cases hq : q = p
    · rw [hq, update_self] at he
      cases he
      cases released with
      | false => trivial
      | true =>
        have hfirst : addr / pageSize ≤ addr / pageSize ∧
            addr / pageSize < addr / pageSize + pages := by omega
        refine ⟨h.sound.at_.used (hmine _ hfirst.1 hfirst.2).1, fun hin => ?_, ?_⟩
        · exact ((houter _).mp hin).2 hfirst
        · show (if _ then x.handed _ + 1 else x.handed _) = 1
          obtain hzero | ⟨-, hnot⟩ := h.once (addr / pageSize)
          · rw [if_pos hfirst, hzero]
          · exact absurd (hmine _ hfirst.1 hfirst.2).1 hnot
    · rw [update_of_ne hq] at he
      refine (h.endOk q e he).congr rfl rfl (fun f hf => ((houter f).mp hf).1) fun f hf => ?_
      show (if _ then x.handed f + 1 else x.handed f) = x.handed f
      rw [if_neg]
      intro hin
      exact hf (hmine f hin.1 hin.2).1

theorem Turn.trans {x₁ x₂ x₃ : RefState n} (h : Turn p x₁ x₂) (h' : Turn p x₂ x₃) : Turn p x₁ x₃ where
  pc q hq := (h'.pc q hq).trans (h.pc q hq)
  held q hq := (h'.held q hq).trans (h.held q hq)
  ended q hq := (h'.ended q hq).trans (h.ended q hq)
  before q hq := (h'.before q hq).trans (h.before q hq)
  usable := h'.usable.trans h.usable
  memory := h'.memory.trans h.memory

theorem turn_goto (x : RefState n) (p : Fin n) (pc : RefPc) : Turn p x (x.goto p pc) :=
  ⟨fun _ hq => update_of_ne hq _ _, fun _ _ => rfl, fun _ _ => rfl, fun _ _ => rfl, rfl, rfl⟩

theorem turn_enter (x : RefState n) (p : Fin n) (pc : RefPc) : Turn p x (x.enter p pc) :=
  ⟨fun _ hq => update_of_ne hq _ _, fun _ _ => rfl,
    fun _ hq => update_of_ne hq _ _, fun _ _ => rfl, rfl, rfl⟩

theorem turn_leave (x : RefState n) (p : Fin n) (e : RefEnd) : Turn p x (x.leave p e) :=
  ⟨fun _ hq => update_of_ne hq _ _, fun _ _ => rfl,
    fun _ hq => update_of_ne hq _ _, fun _ _ => rfl, rfl, rfl⟩

theorem turn_gain (x : RefState n) (p : Fin n) (f : ℕ) : Turn p x (x.gain p f) :=
  ⟨fun _ _ => rfl, fun _ hq => update_of_ne hq _ _, fun _ _ => rfl, fun _ _ => rfl, rfl, rfl⟩

theorem turn_lose (x : RefState n) (p : Fin n) (f : ℕ) : Turn p x (x.lose p f) :=
  ⟨fun _ _ => rfl, fun _ hq => update_of_ne hq _ _, fun _ _ => rfl, fun _ _ => rfl, rfl, rfl⟩

theorem turn_lock (x : RefState n) (p : Fin n) (lock : ZoneType → Option (Fin n)) :
    Turn p x { x with lock := lock } :=
  ⟨fun _ _ => rfl, fun _ _ => rfl, fun _ _ => rfl, fun _ _ => rfl, rfl, rfl⟩

@[simp] theorem RefState.goto_pc (x : RefState n) (p : Fin n) (pc : RefPc) :
    (x.goto p pc).pc p = pc := update_self _ _ _

@[simp] theorem RefState.enter_pc (x : RefState n) (p : Fin n) (pc : RefPc) :
    (x.enter p pc).pc p = pc := update_self _ _ _

@[simp] theorem RefState.enter_ended (x : RefState n) (p : Fin n) (pc : RefPc) :
    (x.enter p pc).ended p = none := update_self _ _ _

@[simp] theorem RefState.leave_pc (x : RefState n) (p : Fin n) (e : RefEnd) :
    (x.leave p e).pc p = .idle := update_self _ _ _

@[simp] theorem RefState.leave_ended (x : RefState n) (p : Fin n) (e : RefEnd) :
    (x.leave p e).ended p = some e := update_self _ _ _

theorem RefInv.goto (h : RefInv M x) (hbusy : x.pc p ≠ .idle) (hok : x.PcOk p pc)
    (hempty : ∀ f, pc.Empties f → (x.pc p).Empties f) : RefInv M (x.goto p pc) := by
  have hnone : x.ended p = none := (h.busy p).resolve_left hbusy
  apply h.move (turn_goto x p pc) rfl rfl rfl (h.snapshot p)
  · rw [goto_pc]
    exact hok.congr rfl rfl rfl rfl
  · rw [goto_pc]
    exact hempty
  · exact .inr hnone
  · intro e he
    exact absurd (hnone.symm.trans he) (by simp)

theorem RefInv.enter (h : RefInv M x) (hok : x.PcOk p pc) (hempty : ∀ f, ¬pc.Empties f) :
    RefInv M (x.enter p pc) := by
  apply h.move (turn_enter x p pc) rfl rfl rfl (h.snapshot p)
  · rw [enter_pc]
    exact hok.congr rfl rfl rfl rfl
  · rw [enter_pc]
    exact fun f hf => absurd hf (hempty f)
  · exact .inr (enter_ended x p pc)
  · intro e he
    rw [enter_ended] at he
    cases he

theorem RefInv.leave (h : RefInv M x) {e : RefEnd} (hok : x.EndOk M p e) : RefInv M (x.leave p e) := by
  apply h.move (turn_leave x p e) rfl rfl rfl (h.snapshot p)
  · rw [leave_pc]
    trivial
  · rw [leave_pc]
    exact fun f hf => hf.elim
  · exact .inl (leave_pc x p e)
  · intro e' he'
    rw [leave_ended] at he'
    cases he'
    exact hok.congr rfl rfl subset_rfl fun _ _ => rfl

theorem RefInv.setLock (h : RefInv M x) (p : Fin n) (lock : ZoneType → Option (Fin n)) :
    RefInv M { x with lock := lock } :=
  h.move (turn_lock x p lock) rfl rfl rfl (h.snapshot p) ((h.pcOk p).congr rfl rfl rfl rfl)
    (fun _ hf => hf) (h.busy p)
    fun e he => (h.endOk p e he).congr rfl rfl subset_rfl fun _ _ => rfl

theorem freeFramesChecks_eq_some (hs : Sound M s) (h : freeFramesChecks s addr count = some (order, pages))
    (huse : pagesInUse s (addr / pageSize) pages = true) :
    countToOrder count = some (order, pages) ∧ FreeRange s addr order pages := by
  rw [freeFramesChecks] at h
  split_ifs at h with hzero hmask hmem
  split at h
  · cases h
  rename_i o m hcount
  split at h
  · cases h
  rename_i z hz
  dsimp only at h
  split_ifs at h with hrange hindex
  obtain ⟨rfl, rfl⟩ := Prod.mk.inj (Option.some.inj h)
  have hpage : pageSize ∣ addr := by
    rw [not_not, show pageSize - 1 = 2 ^ 12 - 1 by norm_num [pageSize],
      Nat.and_two_pow_sub_one_eq_mod] at hmask
    rw [show pageSize = 2 ^ 12 by norm_num [pageSize]]
    exact Nat.dvd_of_mod_eq_zero hmask
  obtain ⟨horder, hpages, -⟩ := countToOrder_eq_some hcount
  have hmemory := hs.at_.memory
  have hle : m ≤ 2 ^ 18 := by
    rw [hpages, orderToPages, minOrder]
    have hlt := (mem_orders.mp horder).2
    exact Nat.pow_le_pow_right (by norm_num) (by omega)
  have hend : wrap (addr + m * pageSize) = addr + m * pageSize :=
    wrap_add_pages (by omega) hle fun hlt => hrange (.inl hlt)
  refine ⟨hcount, ⟨fun haddr => hzero (.inl haddr), hpage, ⟨count, hcount⟩, ?_, ?_⟩⟩
  · intro f hf hf'
    exact (pagesInUse_iff.mp huse f hf hf').2
  · intro f hf hf'
    have haddr : addr / pageSize * pageSize = addr := Nat.div_mul_cancel hpage
    rw [hend] at hrange
    refine hs.at_.type _ z hz f ?_ ?_
    · have hge : zonePhysStart z ≤ addr := by omega
      rw [zonePhysStart, ← haddr] at hge
      exact (Nat.le_of_mul_le_mul_right hge (by norm_num [pageSize])).trans hf
    · have hle : addr + m * pageSize ≤ zonePhysEnd z := by omega
      rw [zonePhysEnd, ← haddr, ← Nat.add_mul] at hle
      exact hf'.trans_le (Nat.le_of_mul_le_mul_right hle (by norm_num [pageSize]))

theorem freeFramesChecks_one (hs : Sound M s) (hpage : pageSize ∣ addr)
    (hmanaged : addressIsManaged s addr = true) (hout : addr / pageSize ∈ handedOut s) :
    freeFramesChecks s addr 1 = some (12, 1) ∧ pagesInUse s (addr / pageSize) 1 = true := by
  have haddr : addr / pageSize * pageSize = addr := Nat.div_mul_cancel hpage
  obtain ⟨hmem, hlen, hbit⟩ : addr < s.memorySize ∧ addr / pageSize < s.usableRegions.length ∧
      bitmapGet s.usableRegions (addr / pageSize) = true := by
    simpa [addressIsManaged] using hmanaged
  have hne : addr ≠ 0 := by
    intro hzero
    apply (hs.at_.managed _ (hs.at_.used hout)).1
    rw [hzero, Nat.zero_div]
  have hmask : addr &&& (pageSize - 1) = 0 := by
    rw [show pageSize = 2 ^ 12 by norm_num [pageSize]] at hpage ⊢
    rw [Nat.and_two_pow_sub_one_eq_mod, Nat.mod_eq_zero_of_dvd hpage]
  obtain ⟨z, hz, hge, hlt⟩ := hs.at_.layout _ hout.1
  rw [haddr] at hz
  have hstart : zonePhysStart z ≤ addr := by
    rw [zonePhysStart, ← haddr]
    exact Nat.mul_le_mul_right _ hge
  have hstop : addr + 1 * pageSize ≤ zonePhysEnd z := by
    rw [zonePhysEnd, ← haddr, ← Nat.add_mul]
    exact Nat.mul_le_mul_right _ hlt
  have hlarge := hs.at_.physEnd_lt hz
  have hend : wrap (addr + 1 * pageSize) = addr + 1 * pageSize := wrap_of_lt (by omega)
  have hsmall : addr / pageSize < s.memorySize := (Nat.div_le_self _ _).trans_lt hmem
  have hindex : wrap (addr / pageSize + 1) = addr / pageSize + 1 := by
    have hmemory := hs.at_.memory
    exact wrap_of_lt (by omega)
  have husing := hs.at_.length
  have hlt' := hout.1
  refine ⟨?_, pagesInUse_iff.mpr fun f hf hf' => ?_⟩
  · rw [freeFramesChecks, if_neg (by simp [hne]), if_neg (not_not.mpr hmask), if_neg (by omega),
      show countToOrder 1 = some (12, 1) by decide]
    dsimp only
    rw [hz]
    dsimp only
    rw [hend, hindex, if_neg (by omega), if_neg (by omega)]
  · obtain rfl : f = addr / pageSize := by omega
    exact ⟨hout.2, hbit⟩

theorem RefInv.of_pc (h : RefInv M x) {pc : RefPc} (hpc : x.pc p = pc) (hbusy : pc ≠ .idle) :
    x.pc p ≠ .idle ∧ x.ended p = none ∧ x.PcOk p pc := by
  subst hpc
  exact ⟨hbusy, (h.busy p).resolve_left hbusy, h.pcOk p⟩

theorem RefInv.trying (h : RefInv M x) {refs : ℤ} (hpc : x.pc p = .trying addr refs)
    (hstep : x.advance p = some x') : RefInv M x' := by
  obtain ⟨hbusy, -, -⟩ := h.of_pc hpc RefPc.noConfusion
  simp only [RefState.advance, hpc] at hstep
  split_ifs at hstep with hpos hsame
  · cases hstep
    have hcount : 0 < x.buddy.refcount (addr / pageSize) := by
      rw [← hsame] at hpos
      exact hpos
    refine h.gain (f := addr / pageSize) (p := p)
      ((turn_gain x p _).trans (turn_leave _ p _)) rfl rfl rfl
      (h.mem_handedOut hcount.ne') (h.refcount_pos hcount).2 ?_ rfl ?_ ?_ ?_ ?_
    · intro q _ hq
      exact hcount.ne' (h.empty q _ hq).2
    · rw [leave_pc]
      trivial
    · intro g hg
      rw [leave_pc] at hg
      exact hg.elim
    · exact .inl (leave_pc _ p _)
    · intro e he
      rw [leave_ended] at he
      cases he
      show 0 < (x.gain p (addr / pageSize)).held p (addr / pageSize)
      rw [held_gain, if_pos ⟨rfl, rfl⟩]
      omega
  · cases hstep
    exact h.goto hbusy trivial fun f hf => hf.elim
  · cases hstep
    exact h.leave trivial

theorem RefInv.dropping (h : RefInv M x) {refs : ℤ} (hpc : x.pc p = .dropping addr refs)
    (hstep : x.advance p = some x') : RefInv M x' := by
  obtain ⟨hbusy, hnone, hpage, hmanaged, hheld⟩ := h.of_pc hpc RefPc.noConfusion
  simp only [RefState.advance, hpc] at hstep
  split_ifs at hstep with hpos hsame hlast
  · cases hstep
    have hone : x.buddy.refcount (addr / pageSize) = 1 := by
      have hcount : x.buddy.refcount (addr / pageSize) = refs := hsame
      omega
    refine h.lose (f := addr / pageSize) (p := p)
      ((turn_lose x p _).trans (turn_goto _ p _)) rfl rfl rfl hheld (by omega) rfl ?_ ?_ ?_ ?_
    · rw [goto_pc]
      exact ⟨hpage, hmanaged, rfl⟩
    · intro g hg
      rw [goto_pc] at hg
      exact .inr ⟨hg, hone⟩
    · exact .inr hnone
    · intro e he
      exact absurd (hnone.symm.trans he) (by simp)
  · cases hstep
    have hcount : 0 < x.buddy.refcount (addr / pageSize) := by
      rw [← hsame] at hpos
      exact hpos
    refine h.lose (f := addr / pageSize) (p := p)
      ((turn_lose x p _).trans (turn_leave _ p _)) rfl rfl rfl hheld hcount rfl ?_ ?_ ?_ ?_
    · rw [leave_pc]
      trivial
    · intro g hg
      rw [leave_pc] at hg
      exact hg.elim
    · exact .inl (leave_pc _ p _)
    · intro e he
      rw [leave_ended] at he
      cases he
      trivial
  · cases hstep
    exact h.goto hbusy ⟨hpage, hmanaged, hheld⟩ fun f hf => hf.elim
  · cases hstep
    exact h.leave trivial

theorem RefInv.locking (h : RefInv M x) (hpc : x.pc p = .locking addr count released)
    (hstep : x.advance p = some x') : RefInv M x' := by
  obtain ⟨hbusy, -, hok⟩ := h.of_pc hpc RefPc.noConfusion
  simp only [RefState.advance, hpc] at hstep
  cases released with
  | true =>
    obtain ⟨hpage, hmanaged, rfl⟩ := hok
    have hmine : (x.pc p).Empties (addr / pageSize) := by
      rw [hpc]
      rfl
    obtain ⟨hchecks, huse⟩ := freeFramesChecks_one h.sound hpage hmanaged (h.empty p _ hmine).1
    rw [hchecks] at hstep
    simp only [huse, Bool.not_true, Bool.false_eq_true, if_false, if_true] at hstep
    split_ifs at hstep with hlock
    cases hstep
    have hrange := (freeFramesChecks_eq_some h.sound hchecks huse).2
    refine (h.setLock p _).goto hbusy (hrange.congr rfl) fun f hf => ?_
    obtain rfl : f = addr / pageSize := by
      obtain ⟨hge, hlt⟩ := hf
      omega
    exact hmine
  | false =>
    obtain ⟨hkept, hpos⟩ := hok
    simp only [Bool.false_eq_true, if_false] at hstep
    split at hstep
    · cases hstep
      exact h.leave hkept
    · rename_i order pages hchecks
      split_ifs at hstep with hlock huse
      · cases hstep
        exact h.leave hkept
      · cases hstep
        have huse' : pagesInUse x.buddy (addr / pageSize) pages = true := by simpa using huse
        obtain ⟨hcount, hrange⟩ := freeFramesChecks_eq_some h.sound hchecks huse'
        refine (h.setLock p _).goto hbusy
          ⟨hrange.congr rfl, Nat.zero_le _, ?_, fun f => ?_⟩ fun f hf => ?_
        · intro f hf hf'
          exact hpos order pages hcount f (by omega) hf'
        · show (x.before p).2 p f = x.held p f + if _ then 1 else 0
          rw [if_neg (by omega), hkept, Nat.add_zero]
        · obtain ⟨hge, hlt⟩ := hf
          omega

theorem RefInv.claiming (h : RefInv M x) (hpc : x.pc p = .claiming addr order pages offset)
    (hstep : x.advance p = some x') : RefInv M x' := by
  obtain ⟨hbusy, hnone, hrange, hle, hpos, hkept⟩ := h.of_pc hpc RefPc.noConfusion
  simp only [RefState.advance, hpc, count, page_of_offset] at hstep
  split_ifs at hstep with hlt hone
  · cases hstep
    have hheld := hpos (addr / pageSize + offset) le_rfl (by omega)
    refine h.lose (f := addr / pageSize + offset) (p := p)
      ((turn_lose x p _).trans (turn_goto _ p _)) rfl rfl rfl hheld (by omega) rfl ?_ ?_ ?_ ?_
    · rw [goto_pc]
      refine ⟨hrange.congr rfl, hlt, fun f hf hf' => ?_, fun f => ?_⟩
      · have hf₀ := hpos f (by omega) hf'
        rw [x.held_lose p p _ f hheld, if_neg (by omega)] at hf₀
        exact hf₀
      · show (x.before p).2 p f = (x.lose p (addr / pageSize + offset)).held p f + if _ then 1 else 0
        rw [hkept f, x.held_lose p p _ f hheld]
        split_ifs <;> omega
    · intro g hg
      rw [goto_pc] at hg
      obtain ⟨hge, hlt'⟩ := hg
      by_cases hg : g = addr / pageSize + offset
      · exact .inr ⟨hg, hone⟩
      · rw [hpc]
        exact .inl ⟨hge, by omega⟩
    · exact .inr hnone
    · intro e he
      exact absurd (hnone.symm.trans he) (by simp)
  · cases hstep
    refine h.goto hbusy ⟨Nat.zero_le _, hkept⟩ fun f hf => ?_
    rw [hpc]
    exact hf
  · cases hstep
    refine h.goto hbusy hrange fun f hf => ?_
    rw [hpc]
    obtain ⟨hge, hlt'⟩ := hf
    exact ⟨hge, by omega⟩

theorem RefInv.undoing (h : RefInv M x) {rollback : ℕ} (hpc : x.pc p = .undoing addr rollback offset)
    (hstep : x.advance p = some x') : RefInv M x' := by
  obtain ⟨hbusy, hnone, hle, hkept⟩ := h.of_pc hpc RefPc.noConfusion
  simp only [RefState.advance, hpc, page_of_offset] at hstep
  split_ifs at hstep with hlt
  · cases hstep
    have hmine : (x.pc p).Empties (addr / pageSize + rollback) := by
      rw [hpc]
      exact ⟨le_rfl, by omega⟩
    obtain ⟨hout, hzero⟩ := h.empty p _ hmine
    have htotal := h.refcount_eq_zero.mp hzero
    refine h.gain (f := addr / pageSize + rollback) (p := p)
      ((turn_gain x p _).trans (turn_goto _ p _)) rfl rfl rfl hout (by omega) ?_ rfl ?_ ?_ ?_ ?_
    · intro q hq hq'
      exact hq (h.single q p _ hq' hmine)
    · rw [goto_pc]
      refine ⟨hlt, fun f => ?_⟩
      show (x.before p).2 p f = (x.gain p (addr / pageSize + rollback)).held p f + if _ then 1 else 0
      rw [hkept f, x.held_gain p p _ f]
      split_ifs <;> omega
    · intro g hg
      rw [goto_pc] at hg
      obtain ⟨hge, hlt'⟩ := hg
      rw [hpc]
      exact ⟨⟨by omega, hlt'⟩, by omega⟩
    · exact .inr hnone
    · intro e he
      exact absurd (hnone.symm.trans he) (by simp)
  · cases hstep
    refine (h.setLock p _).leave ?_
    show x.held p = (x.before p).2 p
    funext f
    rw [hkept f, if_neg (by omega), Nat.add_zero]

theorem RefInv.reading (h : RefInv M x) (hpc : x.pc p = .reading addr order pages offset)
    (hstep : x.advance p = some x') : RefInv M x' := by
  obtain ⟨hbusy, -, hok⟩ := h.of_pc hpc RefPc.noConfusion
  simp only [RefState.advance, hpc, count, page_of_offset] at hstep
  split_ifs at hstep with hlt hcount
  · -- The party itself has taken the last reference.
    refine absurd (h.empty p (addr / pageSize + offset) ?_).2 hcount
    rw [hpc]
    exact ⟨by omega, by omega⟩
  · cases hstep
    refine h.goto hbusy hok fun f hf => ?_
    rw [hpc]
    exact hf
  · cases hstep
    refine h.goto hbusy hok fun f hf => ?_
    rw [hpc]
    exact hf

theorem RefInv.advance (h : RefInv M x) (hstep : x.advance p = some x') : RefInv M x' := by
  cases hpc : x.pc p with
  | idle => simp [RefState.advance, hpc] at hstep
  | trying addr refs => exact h.trying hpc hstep
  | dropping addr refs => exact h.dropping hpc hstep
  | locking addr count released => exact h.locking hpc hstep
  | claiming addr order pages offset => exact h.claiming hpc hstep
  | undoing addr rollback offset => exact h.undoing hpc hstep
  | reading addr order pages offset => exact h.reading hpc hstep
  | releasing addr order pages released =>
    refine h.handBack hpc ?_
    simpa only [RefState.advance, hpc] using hstep

theorem RefInv.step {op : RefOp n} (h : RefInv M x) (hholds : op.Holds x)
    (hstep : x.step op = some x') : RefInv M x' := by
  cases op with
  | addressRef p addr =>
    simp only [RefState.step] at hstep
    split_ifs at hstep with hidle hmanaged
    · cases hstep
      exact h.leave trivial
    · cases hstep
      exact h.enter trivial fun f hf => hf
  | addressRelease p addr =>
    simp only [RefState.step] at hstep
    split_ifs at hstep with hidle hmanaged
    · cases hstep
      exact h.leave trivial
    · cases hstep
      exact h.enter ⟨hholds.1, by simpa using hmanaged, hholds.2⟩ fun f hf => hf
  | freeFrames p addr count =>
    simp only [RefState.step] at hstep
    split_ifs at hstep with hidle
    cases hstep
    have ht : Turn p x { x.enter p (.locking addr count false) with
        before := update x.before p (x.buddy.refcount, x.held) } := by
      have ht₀ := turn_enter x p (.locking addr count false)
      exact ⟨ht₀.pc, ht₀.held, ht₀.ended, fun q hq => update_of_ne hq _ _, rfl, rfl⟩
    apply h.move ht rfl rfl rfl
    · intro f
      dsimp only
      rw [update_self]
      exact h.counts f
    · show RefState.PcOk _ p ((x.enter p (.locking addr count false)).pc p)
      rw [enter_pc]
      refine ⟨?_, hholds⟩
      show x.held p = (update x.before p (x.buddy.refcount, x.held) p).2 p
      rw [update_self]
    · intro f hf
      replace hf : ((x.enter p (.locking addr count false)).pc p).Empties f := hf
      rw [enter_pc] at hf
      exact hf.elim
    · exact .inr (enter_ended x p (.locking addr count false))
    · intro e he
      replace he : (x.enter p (.locking addr count false)).ended p = some e := he
      rw [enter_ended] at he
      cases he
  | advance p => exact h.advance hstep

end Steps

/-- Frames are allocated with one reference each, which the parties hold, and no call is under
way. -/
structure RefStart {n : ℕ} (M : Set ℕ) (x : RefState n) : Prop where
  sound : Sound M x.buddy
  one : ∀ f ∈ handedOut x.buddy, x.buddy.refcount f = 1
  rest : ∀ f, f ∉ handedOut x.buddy → x.buddy.refcount f = 0
  held : ∀ f, x.buddy.refcount f = x.total f
  idle : ∀ p, x.pc p = .idle
  ended : ∀ p, x.ended p = none
  handed : ∀ f, x.handed f = 0
  before : ∀ p, x.before p = (x.buddy.refcount, x.held)

structure FramesShared {n : ℕ} (M : Set ℕ) (x : RefState n) : Prop where
  /-- A frame is handed back at most once. -/
  once : ∀ f, x.handed f ≤ 1
  free : ∀ f, 0 < x.handed f → f ∉ handedOut x.buddy
  /-- Nobody holds a frame that has been handed back, or that is about to be. -/
  unheld : ∀ f, x.LastDropped f → ∀ q, x.held q f = 0
  /-- `address_ref` succeeds only on frames whose last reference has not been dropped. -/
  referenced : ∀ p f, x.ended p = some (.referenced f) → 0 < x.held p f ∧ ¬x.LastDropped f
  /-- After an `address_release` that dropped the last reference the frame is free. -/
  freed : ∀ p f, x.ended p = some (.droppedLast f) → x.handed f = 1 ∧ f ∉ handedOut x.buddy ∧
    (freeBlocks x.buddy).countP (f ∈ ·.pages) = 1
  /-- After a refused `free_frames` the party has its references, and each count is what it was
  before, but for what the other parties have done. -/
  refused : ∀ p addr, x.ended p = some (.refused addr) → x.held p = (x.before p).2 p ∧
    ∀ f, x.buddy.refcount f = ((x.before p).1 f +
      ∑ q ∈ univ.erase p, ((x.held q f : ℤ) - (x.before p).2 q f)).bmod (2 ^ 32)

section Runs

variable {n : ℕ} {M : Set ℕ} {x : RefState n}

theorem RefStart.refInv (h : RefStart M x) : RefInv M x := by
  have hle : ∀ f, x.total f ≤ 1 := by
    intro f
    have hheld := h.held f
    by_cases hf : f ∈ handedOut x.buddy
    · have hone := h.one f hf
      omega
    · have hzero := h.rest f hf
      omega
  have hcounts : ∀ f, x.buddy.refcount f = (x.total f : ℤ).bmod (2 ^ 32) := by
    intro f
    have hf := hle f
    rw [h.held f, Int.bmod_def]
    split_ifs <;> omega
  refine
    { sound := h.sound, outside := fun f hf => h.rest f fun hin => hf hin.1, counts := hcounts,
      bound := fun f => (hle f).trans (by norm_num), snapshot := fun p f => ?_,
      once := fun f => .inl (h.handed f), pcOk := fun p => ?_, empty := fun p f hf => ?_,
      single := fun p q f hf => ?_, busy := fun p => .inl (h.idle p), endOk := fun p e he => ?_ }
  · rw [h.before p]
    exact hcounts f
  · rw [h.idle p]
    trivial
  · rw [h.idle p] at hf
    exact hf.elim
  · rw [h.idle p] at hf
    exact hf.elim
  · rw [h.ended p] at he
    cases he

theorem RefInv.held_eq_zero (h : RefInv M x) {f : ℕ} (hf : x.LastDropped f) (q : Fin n) : x.held q f = 0 := by
  have hzero : x.buddy.refcount f = 0 := by
    obtain hhanded | ⟨p, hp⟩ := hf
    · obtain hnot | ⟨-, hout⟩ := h.once f
      · exact absurd hnot hhanded.ne'
      · by_contra hne
        exact hout (h.mem_handedOut hne)
    · exact (h.empty p f hp.empties).2
  exact total_eq_zero.mp (h.refcount_eq_zero.mp hzero) q

theorem RefInv.framesShared (h : RefInv M x) : FramesShared M x where
  once := by
    intro f
    obtain hzero | ⟨hone, -⟩ := h.once f
    · rw [hzero]
      exact Nat.zero_le 1
    · exact hone.le
  free := by
    intro f hf
    obtain hzero | ⟨-, hout⟩ := h.once f
    · exact absurd hzero hf.ne'
    · exact hout
  unheld := fun f hf q => h.held_eq_zero hf q
  referenced := by
    intro p f he
    have hpos : 0 < x.held p f := h.endOk p _ he
    exact ⟨hpos, fun hf => hpos.ne' (h.held_eq_zero hf p)⟩
  freed := by
    intro p f he
    obtain ⟨hM, hout, hone⟩ := h.endOk p _ he
    refine ⟨hone, hout, ?_⟩
    obtain ⟨hin, -⟩ | ⟨-, hblock⟩ := h.sound.freeListsExact.managed f hM
    · exact absurd hin hout
    · exact hblock
  refused := by
    intro p addr he
    have hkept : x.held p = (x.before p).2 p := h.endOk p _ he
    refine ⟨hkept, fun f => ?_⟩
    have hsum : (∑ q ∈ univ.erase p, ((x.held q f : ℤ) - (x.before p).2 q f)) =
        (x.total f : ℤ) - (∑ q, (x.before p).2 q f : ℕ) := by
      rw [Finset.sum_erase]
      · rw [Finset.sum_sub_distrib, RefState.total]
        push_cast
        rfl
      · rw [hkept, sub_self]
    rw [hsum, h.snapshot p f, h.counts f, Int.bmod_add_bmod, add_sub_cancel]

/-- Frames that any number of parties share and give up, in any order of the atomic operations. -/
theorem frames_handed_back_once (x : RefState n) (hstart : RefStart M x) (ops : List (RefOp n))
    (hholds : Runs.Meets RefState.step (fun x op => op.Holds x) ops x)
    {done : List (RefOp n)} {x' : RefState n} (hdone : done <+: ops)
    (hrun : Runs.run RefState.step done x = some x') : FramesShared M x' := by
  have hinv : RefInv M x' := by
    apply Runs.run_keeps (fun x op x' h hop hstep => RefInv.step h hop hstep) hstart.refInv
      (hholds.of_isPrefix hdone) hrun
  exact hinv.framesShared

end Runs

/-- Each frame that is handed out has one reference, and no other page has any. -/
structure OneEach (s : Buddy) : Prop where
  one : ∀ f ∈ handedOut s, s.refcount f = 1
  rest : ∀ f, f ∉ handedOut s → s.refcount f = 0

theorem OneEach.handsOut {t n : ℕ} (h : OneEach s) (ho : HandsOut M s s' count addr t n) : OneEach s' where
  one := by
    intro f hf
    rw [ho.out] at hf
    by_cases hcell : f ∈ cellPages t addr
    · exact ho.refs f hcell
    · rw [ho.frame f hcell]
      exact h.one f (hf.resolve_right hcell)
  rest := by
    intro f hf
    rw [ho.out, Set.mem_union, not_or] at hf
    rw [ho.frame f hf.2]
    exact h.rest f hf.1

theorem OneEach.alloc {types : List ZoneType} (h : OneEach s) (hs : Sound M s)
    (hrun : allocFramesFrom types s count = some (s', addr)) : OneEach s' := by
  obtain ⟨-, -, -, -, hfail, hok⟩ := allocFramesFrom_sound hs hrun
  by_cases haddr : addr = 0
  · obtain ⟨hout, hrefs⟩ := hfail haddr
    exact ⟨by rw [hout, hrefs]; exact h.one, by rw [hout, hrefs]; exact h.rest⟩
  · obtain ⟨t, n, ho⟩ := hok haddr
    exact h.handsOut ho

theorem OneEach.free (h : OneEach s) (hs : Sound M s) (hrun : freeFramesCommon s addr count released = some s') :
    OneEach s' := by
  obtain hr | ⟨k, m, z, r, hrel, -, hr⟩ := freeFramesCommon_cases hs.at_ addr count released
  · obtain rfl := Option.some.inj (hr.symm.trans hrun)
    exact h
  · obtain ⟨-, -, -, hrefs, -, hout, -⟩ := releaseFrames_sound hs hrel (hr.symm.trans hrun)
    obtain ⟨horder, hpages, -⟩ := countToOrder_eq_some hrel.order
    have hcell : ∀ f, f ∈ cellPages k addr ↔ addr / pageSize ≤ f ∧ f < addr / pageSize + m := by
      intro f
      rw [hpages]
      exact mem_cellPages horder hrel.inside.page
    constructor
    · intro f hf
      rw [hout] at hf
      rw [hrefs, hrel.refs f, if_neg fun hin => hf.2 ((hcell f).mpr hin)]
      exact h.one f hf.1
    · intro f hf
      rw [hrefs, hrel.refs f]
      split_ifs with hin
      · rfl
      · refine h.rest f fun hf' => hf ?_
        rw [hout]
        exact ⟨hf', fun hc => hin ((hcell f).mp hc)⟩

theorem runOps_oneEach (ops : List FrameOp) (hs : Sound M s) (h : OneEach s) (hrun : runOps ops s = some s') :
    OneEach s' := by
  induction ops generalizing s with
  | nil =>
    cases hrun
    exact h
  | cons op ops ih =>
    obtain ⟨s₁, hop, hrest⟩ := bind_eq_some_iff.mp hrun
    refine ih (op.run_sound hs hop) ?_ hrest
    cases op with
    | allocFrames count =>
      obtain ⟨⟨s₂, addr⟩, halloc, rfl⟩ := map_eq_some_iff.mp hop
      exact h.alloc hs halloc
    | allocFramesDma32 count =>
      obtain ⟨⟨s₂, addr⟩, halloc, rfl⟩ := map_eq_some_iff.mp hop
      exact h.alloc hs halloc
    | freeFrames addr count => exact h.free hs hop
    | freeFramesReleased addr count => exact h.free hs hop

def sharedStart {n : ℕ} (s : Buddy) (p : Fin n) : RefState n :=
  let held : Fin n → ℕ → ℕ := fun q f => if q = p ∧ s.refcount f = 1 then 1 else 0
  { buddy := s, lock := fun _ => none, pc := fun _ => .idle, held := held, handed := fun _ => 0,
    ended := fun _ => none, before := fun _ => (s.refcount, held) }

theorem refStart_of_bootAndRun {n : ℕ} (boot : Boot) (regions : List Region) (ops : List FrameOp)
    (s : Buddy) (p : Fin n) (hr : ∀ r ∈ regions, r.IsPageRange ∧ 0 ∉ r.pages)
    (hd : regions.Pairwise fun r r' => Disjoint r.pages r'.pages) (h : bootAndRun boot regions ops = some s) :
    RefStart (managedPages boot.memorySize regions) (sharedStart s p) := by
  obtain ⟨s₀, h₀, h⟩ := bind_eq_some_iff.mp h
  obtain ⟨s₁, h₁, h₂⟩ := bind_eq_some_iff.mp h
  obtain ⟨hs, -, hsame, -, hempty⟩ := addRegions_boot h₀ hr hd h₁
  have hzero : ∀ f, s₁.refcount f = 0 := by
    intro f
    rw [hsame.refcount, (buddyInit_eq_some h₀).refcount]
  have hone : OneEach s := by
    refine runOps_oneEach ops hs ⟨fun f hf => ?_, fun f _ => hzero f⟩ h₂
    rw [hempty] at hf
    exact hf.elim
  refine ⟨runOps_sound ops hs h₂, hone.one, hone.rest, fun f => ?_, fun _ => rfl, fun _ => rfl,
    fun _ => rfl, fun _ => rfl⟩
  show s.refcount f = ((∑ q : Fin n, if q = p ∧ s.refcount f = 1 then 1 else 0 : ℕ) : ℤ)
  by_cases hf : f ∈ handedOut s
  · simp [hone.one f hf]
  · simp [hone.rest f hf]

/-- Party 0 has four frames and tries to free them while party 1 has a reference to the second
one; then both give it up. -/
def shareAndFree : List (RefOp 2) :=
  [.addressRef 1 (9 * pageSize), .freeFrames 0 (8 * pageSize) 4, .advance 0, .advance 1, .advance 0,
    .advance 0, .advance 0, .advance 0, .addressRelease 1 (9 * pageSize), .addressRelease 0
    (9 * pageSize), .advance 1, .advance 0, .advance 0, .advance 0, .advance 0, .advance 0, .advance 0]

theorem frames_handed_back_once_shareAndFree :
    ∃ s x, bootAndRun smallBoot smallRegions [.allocFrames 4] = some s ∧
      Runs.run RefState.step shareAndFree (sharedStart s 0) = some x ∧
      x.ended 0 = some (.droppedLast 9) ∧ x.handed 9 = 1 ∧
      FramesShared (managedPages smallBoot.memorySize smallRegions) x := by
  have hsome : ((bootAndRun smallBoot smallRegions [.allocFrames 4]).bind fun s =>
      Runs.run RefState.step shareAndFree (sharedStart s 0)).isSome = true := by decide +kernel
  obtain ⟨x, hx⟩ := Option.isSome_iff_exists.mp hsome
  obtain ⟨s, hs, hx⟩ := Option.bind_eq_some_iff.mp hx
  have hmeets : ∀ s ∈ bootAndRun smallBoot smallRegions [.allocFrames 4],
      Runs.Meets RefState.step (fun x op => op.Holds x) shareAndFree (sharedStart s 0) := by
    decide +kernel
  have hend : ∀ s ∈ bootAndRun smallBoot smallRegions [.allocFrames 4],
      ∀ x ∈ Runs.run RefState.step shareAndFree (sharedStart s 0),
        x.ended 0 = some (.droppedLast 9) ∧ x.handed 9 = 1 := by decide +kernel
  obtain ⟨hlast, hhanded⟩ := hend s hs x hx
  refine ⟨s, x, hs, hx, hlast, hhanded, ?_⟩
  exact frames_handed_back_once (sharedStart s 0)
    (refStart_of_bootAndRun smallBoot smallRegions _ s 0 smallRegions_ok.1 smallRegions_ok.2 hs)
    shareAndFree (hmeets s hs) List.prefix_rfl hx

end CoolPotOS
