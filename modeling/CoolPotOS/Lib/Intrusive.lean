import Mathlib

namespace Intrusive

open Function List Option

variable {mem mem' : ℕ → ℕ} {off head a b w : ℕ} {l l1 l2 : List ℕ}

/-- The nodes from `head` on are those of `l`. -/
def Chain (mem : ℕ → ℕ) (off : ℕ) : ℕ → List ℕ → Prop
  | head, [] => head = 0
  | head, a :: l => head = a ∧ a ≠ 0 ∧ (∀ b ∈ l.head?, mem (b + off) = a) ∧ Chain mem off (mem a) l

def Apart (off a b : ℕ) : Prop := a ≠ b ∧ a + off ≠ b ∧ b + off ≠ a

/-- The word `w` belongs to a node of `l`. -/
def OnNode (off : ℕ) (l : List ℕ) (w : ℕ) : Prop := ∃ a ∈ l, w = a ∨ w = a + off

/-- Puts the node `a` in front of the list from `head` on. -/
def push (off : ℕ) (mem : ℕ → ℕ) (head a : ℕ) : ℕ → ℕ :=
  let mem := Function.update (Function.update mem a head) (a + off) 0
  if mem a ≠ 0 then Function.update mem (mem a + off) a else mem

/-- Takes the node `a` out from between its neighbours. -/
def unlink (off : ℕ) (mem : ℕ → ℕ) (a : ℕ) : ℕ → ℕ :=
  let mem := if mem a ≠ 0 then Function.update mem (mem a + off) (mem (a + off)) else mem
  if mem (a + off) ≠ 0 then Function.update mem (mem (a + off)) (mem a) else mem

theorem Chain.head_eq (h : Chain mem off head l) : head = l.headD 0 := by
  cases l with
  | nil => exact h
  | cons a l => exact h.1

theorem Chain.ne_zero (h : Chain mem off head l) (ha : a ∈ l) : a ≠ 0 := by
  induction l generalizing head with
  | nil => cases ha
  | cons b l ih =>
    obtain ⟨-, hb, -, hrest⟩ := h
    rcases mem_cons.mp ha with rfl | ha
    · exact hb
    · exact ih hrest ha

theorem Chain.congr (h : Chain mem off head l) (hnext : ∀ b ∈ l, mem' b = mem b)
    (hprev : ∀ b ∈ l.tail, mem' (b + off) = mem (b + off)) : Chain mem' off head l := by
  induction l generalizing head with
  | nil => exact h
  | cons a l ih =>
    obtain ⟨hhead, ha, hback, hrest⟩ := h
    refine ⟨hhead, ha, fun b hb => ?_, ?_⟩
    · rw [hprev b (List.mem_of_mem_head? hb)]
      exact hback b hb
    · rw [hnext a mem_cons_self]
      exact ih hrest (fun b hb => hnext b (mem_cons_of_mem a hb)) fun b hb => hprev b (mem_of_mem_tail hb)

theorem Chain.congr_words (h : Chain mem off head l) (hmem : ∀ w, OnNode off l w → mem' w = mem w) :
    Chain mem' off head l :=
  h.congr (fun b hb => hmem b ⟨b, hb, .inl rfl⟩) fun b hb => hmem _ ⟨b, mem_of_mem_tail hb, .inr rfl⟩

theorem Chain.links (h : Chain mem off head (l1 ++ a :: l2)) :
    mem a = l2.headD 0 ∧ ∀ p ∈ l1.getLast?, mem (a + off) = p := by
  induction l1 generalizing head with
  | nil =>
    obtain ⟨-, -, -, hrest⟩ := h
    refine ⟨hrest.head_eq, fun p hp => ?_⟩
    cases hp
  | cons b l1 ih =>
    obtain ⟨-, -, hback, hrest⟩ := h
    obtain ⟨hnext, hprev⟩ := ih hrest
    refine ⟨hnext, fun p hp => ?_⟩
    cases l1 with
    | nil =>
      obtain rfl : b = p := some.inj hp
      exact hback a rfl
    | cons c l1 => exact hprev p hp

def search (mem : ℕ → ℕ) (test : ℕ → Bool) : ℕ → ℕ → Option ℕ
  | 0, list => if list = 0 then some 0 else none
  | fuel + 1, list =>
    if list = 0 then some 0 else if test list then some list else search mem test fuel (mem list)

theorem Chain.search_eq (h : Chain mem off head l) (test : ℕ → Bool) {fuel : ℕ} (hfuel : l.length ≤ fuel) :
    search mem test fuel head = some ((l.find? test).getD 0) := by
  induction l generalizing head fuel with
  | nil =>
    obtain rfl : head = 0 := h
    cases fuel <;> rfl
  | cons a l ih =>
    obtain ⟨rfl, ha, -, hrest⟩ := h
    cases fuel with
    | zero => exact absurd hfuel (Nat.not_succ_le_zero _)
    | succ fuel =>
      rw [search, if_neg ha, List.find?_cons]
      cases test head with
      | true => rfl
      | false => exact ih hrest (Nat.succ_le_succ_iff.mp hfuel)

theorem add_ne_of_dvd (hoff : 0 < off) (ha : 2 * off ∣ a) (hb : 2 * off ∣ b) : a + off ≠ b := by
  rintro rfl
  have h := (Nat.dvd_add_right ha).mp hb
  have hle := Nat.le_of_dvd hoff h
  omega

theorem push_of_ne (hw : w ≠ a) (hw' : w ≠ a + off) (hhead : head ≠ 0 → w ≠ head + off)
    (hoff : 0 < off) : push off mem head a w = mem w := by
  have ha : a ≠ a + off := by omega
  unfold push
  simp only [update_of_ne ha, update_self]
  by_cases h0 : head ≠ 0
  · rw [if_pos h0, update_of_ne (hhead h0), update_of_ne hw', update_of_ne hw]
  · rw [if_neg h0, update_of_ne hw', update_of_ne hw]

theorem Chain.push (h : Chain mem off head l) (hoff : 0 < off) (ha : a ≠ 0) (hal : a ∉ l) (hnodup : l.Nodup)
    (hdvd : ∀ b ∈ a :: l, 2 * off ∣ b) : Chain (push off mem head a) off a (a :: l) := by
  have hself : a ≠ a + off := by omega
  have hda : 2 * off ∣ a := hdvd a mem_cons_self
  have hdl : ∀ b ∈ l, 2 * off ∣ b := fun b hb => hdvd b (mem_cons_of_mem a hb)
  cases l with
  | nil =>
    obtain rfl : head = 0 := h
    refine ⟨rfl, ha, fun b hb => (by cases hb), ?_⟩
    unfold Intrusive.push
    simp only [update_of_ne hself, update_self]
    rw [if_neg (not_not.mpr rfl), update_of_ne hself, update_self]
    rfl
  | cons b l =>
    obtain ⟨rfl, hhead, hback, hrest⟩ := h
    have hdhead := hdl head mem_cons_self
    refine ⟨rfl, ha, fun c hc => ?_, ?_⟩
    · obtain rfl : head = c := some.inj hc
      unfold Intrusive.push
      simp only [update_of_ne hself, update_self, if_pos hhead]
    · have hnext : Intrusive.push off mem head a a = head := by
        unfold Intrusive.push
        simp only [update_of_ne hself, update_self, if_pos hhead]
        rw [update_of_ne (add_ne_of_dvd hoff hdhead hda).symm, update_of_ne hself,
          update_self]
      rw [hnext]
      refine Chain.congr ⟨rfl, hhead, hback, hrest⟩ (fun c hc => ?_) fun c hc => ?_
      · have hca : c ≠ a := fun hca => hal (hca ▸ hc)
        exact push_of_ne hca (add_ne_of_dvd hoff hda (hdl c hc)).symm
          (fun _ => (add_ne_of_dvd hoff hdhead (hdl c hc)).symm) hoff
      · have hca : c ≠ a := fun hca => hal (hca ▸ mem_cons_of_mem head hc)
        have hchead : c ≠ head := fun hch => (nodup_cons.mp hnodup).1 (hch ▸ hc)
        exact push_of_ne (add_ne_of_dvd hoff (hdl c (mem_cons_of_mem head hc)) hda) (by omega)
          (fun _ => by omega) hoff

theorem Chain.pop (h : Chain mem off head (a :: l)) : Chain mem off (mem a) l := h.2.2.2

theorem Chain.bridge {p : ℕ} (h : Chain mem off head (l1 ++ p :: a :: l2)) (hoff : 0 < off)
    (hnodup : (l1 ++ p :: a :: l2).Nodup) (hdvd : ∀ b ∈ l1 ++ p :: a :: l2, 2 * off ∣ b)
    (hp : mem' p = mem a) (hback : ∀ b ∈ l2.head?, mem' (b + off) = p)
    (hmem : ∀ w, w ≠ p → (∀ b ∈ l2.head?, w ≠ b + off) → mem' w = mem w) :
    Chain mem' off head (l1 ++ p :: l2) := by
  induction l1 generalizing head with
  | nil =>
    obtain ⟨hhead, hp0, -, -, -, -, hrest⟩ := h
    have hdl : ∀ b ∈ l2, 2 * off ∣ b := fun b hb =>
      hdvd b (mem_cons_of_mem p (mem_cons_of_mem a hb))
    have hdp : 2 * off ∣ p := hdvd p mem_cons_self
    obtain ⟨hpl, hnodup⟩ := nodup_cons.mp hnodup
    have hnodup2 := (nodup_cons.mp hnodup).2
    refine ⟨hhead, hp0, hback, ?_⟩
    rw [hp]
    refine hrest.congr (fun b hb => ?_) fun b hb => ?_
    · refine hmem b (fun hbp => hpl (hbp ▸ mem_cons_of_mem a hb)) fun c hc => ?_
      exact (add_ne_of_dvd hoff (hdl c (List.mem_of_mem_head? hc)) (hdl b hb)).symm
    · have hb2 := mem_of_mem_tail hb
      refine hmem _ (add_ne_of_dvd hoff (hdl b hb2) hdp) fun c hc => ?_
      cases l2 with
      | nil => cases hb
      | cons c' l2 =>
        obtain rfl : c' = c := some.inj hc
        have hbc : b ≠ c' := fun hbc => (nodup_cons.mp hnodup2).1 (hbc ▸ hb)
        omega
  | cons y l1 ih =>
    obtain ⟨hhead, hy, hnext, hrest⟩ := h
    obtain ⟨hyl, hnodup⟩ := nodup_cons.mp hnodup
    have hdl : ∀ b ∈ l1 ++ p :: a :: l2, 2 * off ∣ b := fun b hb => hdvd b (mem_cons_of_mem y hb)
    have hpl : p ∈ l1 ++ p :: a :: l2 := mem_append_right l1 mem_cons_self
    have hlater : ∀ b ∈ l2.head?, b ∈ l1 ++ p :: a :: l2 := fun b hb =>
      mem_append_right l1 (mem_cons_of_mem p (mem_cons_of_mem a (List.mem_of_mem_head? hb)))
    have hkeep : mem' y = mem y := by
      refine hmem y (fun hyp => hyl (hyp ▸ hpl)) fun b hb => ?_
      exact (add_ne_of_dvd hoff (hdl b (hlater b hb)) (hdvd y mem_cons_self)).symm
    refine ⟨hhead, hy, fun b hb => ?_, ?_⟩
    · have hb' : b ∈ (l1 ++ p :: a :: l2).head? := by
        cases l1 with
        | nil => exact hb
        | cons z l1 => exact hb
      rw [← hnext b hb']
      refine hmem _ (add_ne_of_dvd hoff (hdl b (List.mem_of_mem_head? hb')) (hdl p hpl)) fun c hc => ?_
      have hbc : b ≠ c := by
        rintro rfl
        cases l1 with
        | nil =>
          obtain rfl : p = b := some.inj hb
          exact (nodup_cons.mp hnodup).1 (mem_cons_of_mem a (List.mem_of_mem_head? hc))
        | cons z l1 =>
          obtain rfl : z = b := some.inj hb
          refine (nodup_cons.mp hnodup).1 (mem_append_right l1 ?_)
          exact mem_cons_of_mem p (mem_cons_of_mem a (List.mem_of_mem_head? hc))
      omega
    · rw [hkeep]
      exact ih hrest hnodup hdl

theorem unlink_apply {p c : ℕ} (hprev : mem (a + off) = p) (hnext : mem a = c) (hp : p ≠ 0)
    (hca : c ≠ a) (hcoff : c + off ≠ a) (hcp : c + off ≠ p) (w : ℕ) :
    unlink off mem a w = if w = p then c else if c ≠ 0 ∧ w = c + off then p else mem w := by
  have hoff : a + off ≠ c + off := by omega
  unfold unlink
  rw [hprev, hnext]
  by_cases hc : c ≠ 0
  · simp only [if_pos hc, update_of_ne hoff, hprev, if_pos hp, update_of_ne hcoff.symm, hnext]
    by_cases hw : w = p
    · rw [if_pos hw, hw, update_self]
    · rw [if_neg hw, update_of_ne hw]
      by_cases hw' : w = c + off
      · rw [if_pos ⟨hc, hw'⟩, hw', update_self]
      · rw [if_neg fun h => hw' h.2, update_of_ne hw']
  · simp only [if_neg hc, hprev, if_pos hp, hnext]
    by_cases hw : w = p
    · rw [if_pos hw, hw, update_self]
    · rw [if_neg hw, update_of_ne hw, if_neg fun h => hc h.1]

theorem Chain.unlink (h : Chain mem off head (l1 ++ a :: l2)) (hl1 : l1 ≠ []) (hoff : 0 < off)
    (hnodup : (l1 ++ a :: l2).Nodup) (hdvd : ∀ b ∈ l1 ++ a :: l2, 2 * off ∣ b) :
    Chain (unlink off mem a) off head (l1 ++ l2) ∧
      ∀ w, ¬ OnNode off (l1 ++ l2) w → Intrusive.unlink off mem a w = mem w := by
  rcases eq_nil_or_concat l1 with rfl | ⟨l0, p, rfl⟩
  · exact absurd rfl hl1
  rw [concat_eq_append, append_assoc, singleton_append] at h hnodup hdvd ⊢
  have hp0 : p ≠ 0 := h.ne_zero (mem_append_right l0 mem_cons_self)
  have hsplit : l0 ++ p :: a :: l2 = (l0 ++ [p]) ++ a :: l2 := by
    rw [append_assoc, singleton_append]
  obtain ⟨hnext, hprev⟩ := (hsplit ▸ h).links
  have hprev : mem (a + off) = p := hprev p getLast?_concat
  have hdp : 2 * off ∣ p := hdvd p (mem_append_right l0 mem_cons_self)
  have hda : 2 * off ∣ a := hdvd a (mem_append_right l0 (mem_cons_of_mem p mem_cons_self))
  have hdl : ∀ b ∈ l2, 2 * off ∣ b := fun b hb =>
    hdvd b (mem_append_right l0 (mem_cons_of_mem p (mem_cons_of_mem a hb)))
  have ha0 : a ≠ 0 := h.ne_zero (mem_append_right l0 (mem_cons_of_mem p mem_cons_self))
  have hdc : 2 * off ∣ l2.headD 0 := by
    cases l2 with
    | nil => exact dvd_zero _
    | cons c l2 => exact hdl c mem_cons_self
  have htail : (p :: a :: l2).Nodup := hnodup.of_append_right
  have hca : l2.headD 0 ≠ a := by
    cases l2 with
    | nil => exact ha0.symm
    | cons c l2 =>
      rintro rfl
      exact (nodup_cons.mp (nodup_cons.mp htail).2).1 mem_cons_self
  have happly := unlink_apply hprev hnext hp0 hca (add_ne_of_dvd hoff hdc hda) (add_ne_of_dvd hoff hdc hdp)
  constructor
  · refine h.bridge hoff hnodup hdvd ?_ (fun b hb => ?_) fun w hw hback => ?_
    · rw [happly, if_pos rfl, hnext]
    · have hb2 := List.mem_of_mem_head? hb
      have hb0 : b ≠ 0 := h.ne_zero (mem_append_right l0 (mem_cons_of_mem p (mem_cons_of_mem a hb2)))
      have hhead : l2.headD 0 = b := by
        cases l2 with
        | nil => cases hb
        | cons c l2 => exact some.inj hb
      rw [happly, if_neg (add_ne_of_dvd hoff (hdl b hb2) hdp), hhead, if_pos ⟨hb0, rfl⟩]
    · rw [happly, if_neg hw, if_neg]
      rintro ⟨hc, rfl⟩
      cases l2 with
      | nil => exact hc rfl
      | cons c l2 => exact hback c rfl rfl
  · intro w hw
    rw [happly, if_neg, if_neg]
    · rintro ⟨hc, rfl⟩
      cases l2 with
      | nil => exact hc rfl
      | cons c l2 =>
        exact hw ⟨c, mem_append_right l0 (mem_cons_of_mem p mem_cons_self), .inr rfl⟩
    · rintro rfl
      exact hw ⟨w, mem_append_right l0 mem_cons_self, .inl rfl⟩

end Intrusive
