import Mathlib

namespace ParentTree

open Function List

variable {ι : Type*}

/-- The parent pointers lead from the node to `r`. -/
inductive Rooted (parent : ι → Option ι) (r : ι) : ι → Prop
  | root : Rooted parent r r
  | up {n p : ι} (h : parent n = some p) (hp : Rooted parent r p) : Rooted parent r n

/-- The node has `a` as an ancestor other than itself, or is on a cycle with it. -/
inductive Above (parent : ι → Option ι) (a : ι) : ι → Prop
  | parent {n : ι} (h : parent n = some a) : Above parent a n
  | up {n p : ι} (h : parent n = some p) (hp : Above parent a p) : Above parent a n

section Chains

variable {parent parent' : ι → Option ι} {r a b n p : ι}

theorem not_above (h : parent n = none) : ¬ Above parent a n := by
  intro ha
  cases ha with
  | parent h' => simp [h] at h'
  | up h' _ => simp [h] at h'

theorem above_iff (h : parent n = some p) : Above parent a n ↔ a = p ∨ Above parent a p := by
  constructor
  · intro ha
    cases ha with
    | parent h' => exact .inl (Option.some.inj (h'.symm.trans h))
    | up h' hp =>
      rw [h] at h'
      cases h'
      exact .inr hp
  · rintro (rfl | ha)
    · exact .parent h
    · exact .up h ha

theorem Above.exists_child (h : Above parent a n) : ∃ c, parent c = some a := by
  induction h with
  | parent h => exact ⟨_, h⟩
  | up _ _ ih => exact ih

theorem Above.up_left (h : Above parent a n) (hb : parent a = some b) : Above parent b n := by
  induction h with
  | parent h => exact .up h (.parent hb)
  | up h _ ih => exact .up h ih

theorem Rooted.not_above_self (hr : parent r = none) (h : Rooted parent r n) : ¬ Above parent n n := by
  induction h with
  | root => exact not_above hr
  | up h _ ih =>
    intro ha
    obtain heq | ha := (above_iff h).mp ha
    · apply ih
      rw [heq] at h
      exact .parent h
    · exact ih (ha.up_left h)

theorem Rooted.exists_parent (h : Rooted parent r n) (hn : n ≠ r) :
    ∃ p, parent n = some p ∧ Rooted parent r p := by
  cases h with
  | root => contradiction
  | up h hp => exact ⟨_, h, hp⟩

theorem Rooted.above (h : Rooted parent r n) (hn : n ≠ r) : Above parent r n := by
  induction h with
  | root => contradiction
  | @up n p h hp ih =>
    by_cases hpr : p = r
    · rw [hpr] at h
      exact .parent h
    · exact .up h (ih hpr)

theorem Rooted.congr {S : ι → Prop} (hS : ∀ m p, S m → parent m = some p → S p)
    (hsame : ∀ m, S m → parent' m = parent m) (h : Rooted parent r n) (hn : S n) : Rooted parent' r n := by
  induction h with
  | root => exact .root
  | up h _ ih => exact .up ((hsame _ hn).trans h) (ih (hS _ _ hn h))

/-- The pointers after two nodes have exchanged their parents. -/
def swap [DecidableEq ι] (parent : ι → Option ι) (a b : ι) : ι → Option ι :=
  Function.update (Function.update parent a (parent b)) b (parent a)

theorem Rooted.swap [DecidableEq ι] (hr : parent r = none) (ha : Rooted parent r a)
    (hb : Rooted parent r b) (har : a ≠ r) (hbr : b ≠ r) (hab : ¬ Above parent a b)
    (hba : ¬ Above parent b a) (h : Rooted parent r n) : Rooted (ParentTree.swap parent a b) r n := by
  -- no exchanged node is on the way up from one of the two
  have hkeep : ∀ x, x = a ∨ x = b → ∀ m, Above parent m x →
      ParentTree.swap parent a b m = parent m := by
    intro x hx m hm
    have hma : m ≠ a := by
      rintro rfl
      obtain rfl | rfl := hx
      · exact ha.not_above_self hr hm
      · exact hab hm
    have hmb : m ≠ b := by
      rintro rfl
      obtain rfl | rfl := hx
      · exact hba hm
      · exact hb.not_above_self hr hm
    unfold ParentTree.swap
    rw [update_of_ne hmb, update_of_ne hma]
  have hway : ∀ x p, x = a ∨ x = b → parent x = some p → Rooted parent r p →
      Rooted (ParentTree.swap parent a b) r p := fun x p hx hp hrp =>
    hrp.congr (S := fun m => Above parent m x) (fun _ _ hm h => hm.up_left h) (hkeep x hx) (.parent hp)
  obtain ⟨pa, hpa, hra⟩ := ha.exists_parent har
  obtain ⟨pb, hpb, hrb⟩ := hb.exists_parent hbr
  induction h with
  | root => exact .root
  | @up n p h _ ih =>
    by_cases hnb : n = b
    · subst hnb
      apply Rooted.up (p := pa) _ (hway a pa (.inl rfl) hpa hra)
      unfold ParentTree.swap
      rw [update_self, hpa]
    · by_cases hna : n = a
      · subst hna
        apply Rooted.up (p := pb) _ (hway b pb (.inr rfl) hpb hrb)
        unfold ParentTree.swap
        rw [update_of_ne hnb, update_self, hpb]
      · apply Rooted.up (p := p) _ ih
        unfold ParentTree.swap
        rw [update_of_ne hnb, update_of_ne hna, h]

def ancestors (parent : ι → Option ι) : ℕ → ι → List ι
  | 0, _ => []
  | fuel + 1, n =>
    match parent n with
    | none => []
    | some p => p :: ancestors parent fuel p

theorem Rooted.exists_ancestors (hr : parent r = none) (h : Rooted parent r n) :
    ∃ l : List ι, l.Nodup ∧ (∀ a, a ∈ l ↔ Above parent a n) ∧
      ∀ fuel, l.length ≤ fuel → ancestors parent fuel n = l := by
  induction h with
  | root =>
    refine ⟨[], nodup_nil, fun a => ?_, fun fuel _ => ?_⟩
    · simp [not_above hr]
    · cases fuel with
      | zero => rfl
      | succ fuel => simp [ancestors, hr]
  | @up n p h hp ih =>
    obtain ⟨l, hnodup, hmem, hfuel⟩ := ih
    have hpl : p ∉ l := fun hp' => hp.not_above_self hr ((hmem p).mp hp')
    refine ⟨p :: l, nodup_cons.mpr ⟨hpl, hnodup⟩, fun a => ?_, fun fuel hle => ?_⟩
    · rw [mem_cons, hmem, above_iff h]
    · cases fuel with
      | zero => simp at hle
      | succ fuel =>
        rw [length_cons, Nat.add_le_add_iff_right] at hle
        simp [ancestors, h, hfuel fuel hle]

theorem Rooted.mem_ancestors (hr : parent r = none) {S : Finset ι}
    (hS : ∀ m p, parent m = some p → p ∈ S) (h : Rooted parent r n) :
    a ∈ ancestors parent S.card n ↔ Above parent a n := by
  classical
  obtain ⟨l, hnodup, hmem, hfuel⟩ := h.exists_ancestors hr
  have hle : l.length ≤ S.card := by
    rw [← toFinset_card_of_nodup hnodup]
    apply Finset.card_le_card
    intro a ha
    obtain ⟨c, hc⟩ := ((hmem a).mp (mem_toFinset.mp ha)).exists_child
    exact hS c a hc
  rw [hfuel S.card hle, hmem]

end Chains

section Lists

variable [DecidableEq ι]

/-- The list of each node holds its live children, once each. -/
def Lists (parent : ι → Option ι) (child : ι → List ι) (live : ι → Prop) [DecidablePred live] :
    Prop :=
  ∀ p c, (child p).count c = if live c ∧ parent c = some p then 1 else 0

variable {parent parent' : ι → Option ι} {child child' : ι → List ι} {live live' : ι → Prop}
  [DecidablePred live] [DecidablePred live']

theorem Lists.mem_iff (h : Lists parent child live) {p c : ι} : c ∈ child p ↔ live c ∧ parent c = some p := by
  rw [← count_pos_iff, h p c]
  split_ifs with hc
  · simp [hc]
  · simp [hc]

theorem Lists.nodup (h : Lists parent child live) (p : ι) : (child p).Nodup := by
  rw [nodup_iff_count_le_one]
  intro c
  rw [h p c]
  split_ifs <;> omega

theorem count_update_append (child : ι → List ι) (p q c m : ι) : (update child q (child q ++ [m]) p).count c =
      (child p).count c + if p = q ∧ c = m then 1 else 0 := by
  rw [update_apply]
  by_cases hp : p = q
  · subst hp
    by_cases hc : c = m
    · simp [hc]
    · simp [hc, Ne.symm hc]
  · simp [hp]

theorem count_update_erase (child : ι → List ι) (p q c m : ι) :
    (update child q ((child q).erase m) p).count c = (child p).count c - if p = q ∧ c = m then 1 else 0 := by
  rw [update_apply]
  by_cases hp : p = q
  · subst hp
    by_cases hc : c = m
    · simp [hc]
    · simp [hc]
  · simp [hp]

theorem Lists.cons (h : Lists parent child live) {p c : ι} (hc : ¬ live c)
    (hparent : parent' = update parent c (some p)) (hcc : child c = [])
    (hchild : child' = update (update child p (c :: child p)) c [])
    (hpc : p ≠ c) (hlive : ∀ m, live' m ↔ m = c ∨ live m) : Lists parent' child' live' := by
  intro q m
  subst hparent hchild
  have hq := h q m
  simp only [update_apply, hlive]
  by_cases hmc : m = c
  · subst hmc
    by_cases hqp : q = p
    · subst hqp
      simp_all
    · by_cases hqm : q = m
      · simp_all [eq_comm]
      · simp_all [eq_comm]
  · by_cases hqc : q = c
    · subst hqc
      simp_all
    · by_cases hqp : q = p
      · simp_all [eq_comm]
      · simp_all

theorem Lists.erase (h : Lists parent child live) {p c : ι} (hp : parent c = some p)
    (hchild : child' = update child p ((child p).erase c))
    (hlive : ∀ m, live' m ↔ m ≠ c ∧ live m) : Lists parent child' live' := by
  intro q m
  have hq := h q m
  simp only [hchild, update_apply, hlive]
  by_cases hqp : q = p
  · subst hqp
    rw [if_pos rfl, count_erase, hq]
    by_cases hmc : m = c
    · subst hmc
      simp [hp]
      split_ifs <;> simp
    · simp [hmc, Ne.symm hmc]
  · rw [if_neg hqp, hq]
    by_cases hmc : m = c
    · subst hmc
      have : ¬ some p = some q := fun heq => hqp (Option.some.inj heq).symm
      simp [hp, this]
    · simp [hmc]

/-- Two nodes exchange their lists: each is put at the end of the list of the other and then
taken out of its own. -/
theorem Lists.swap (h : Lists parent child live) {a b pa pb : ι} (ha : live a) (hb : live b)
    (hpa : parent a = some pa) (hpb : parent b = some pb) {c1 c2 c3 : ι → List ι}
    (h1 : c1 = update child pa (child pa ++ [b])) (h2 : c2 = update c1 pb (c1 pb ++ [a]))
    (h3 : c3 = update c2 pb ((c2 pb).erase b)) (h4 : child' = update c3 pa ((c3 pa).erase a)) :
    Lists (ParentTree.swap parent a b) child' live := by
  intro p c
  have hcount : ∀ q : ι, ∀ m : ι, (child q).count m = if live m ∧ parent m = some q then 1 else 0 := h
  rw [h4, count_update_erase, h3, count_update_erase, h2, count_update_append, h1,
    count_update_append, hcount]
  unfold ParentTree.swap
  simp only [update_apply]
  by_cases hcb : c = b
  · subst hcb
    by_cases hca : c = a
    · subst hca
      obtain rfl : pa = pb := Option.some.inj (hpa.symm.trans hpb)
      by_cases hp : pa = p
      · simp [hp, hb, hpb]
      · simp [hp, Ne.symm hp, hb, hpb]
    · by_cases hp : pb = p
      · by_cases hp' : pa = p
        · simp [hp, hp', hb, hpa, hpb, hca]
        · simp [hp, hp', Ne.symm hp', hb, hpa, hpb, hca]
      · by_cases hp' : pa = p
        · simp [hp, hp', Ne.symm hp, hb, hpa, hpb, hca]
        · simp [hp, hp', Ne.symm hp, Ne.symm hp', hb, hpa, hpb, hca]
  · by_cases hca : c = a
    · subst hca
      by_cases hp : pb = p
      · by_cases hp' : pa = p
        · simp [hp, hp', ha, hpa, hpb, hcb]
        · simp [hp, hp', Ne.symm hp', ha, hpa, hpb, hcb]
      · by_cases hp' : pa = p
        · simp [hp, hp', Ne.symm hp, ha, hpa, hpb, hcb]
        · simp [hp, hp', Ne.symm hp, Ne.symm hp', ha, hpa, hpb, hcb]
    · simp [hca, hcb]

end Lists

end ParentTree
