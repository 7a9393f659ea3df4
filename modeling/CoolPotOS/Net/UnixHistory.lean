import Mathlib

namespace CoolPotOS

open Function List

/-- The connections that each listening socket has got, those that were taken and those that wait, in order, and
the ones that were dropped. Connections have numbers below `next`. -/
structure ConnHistory where
  connected : ℕ → List ℕ
  taken : ℕ → List ℕ
  pending : ℕ → List ℕ
  dropped : List ℕ
  next : ℕ

inductive ConnStep : ConnHistory → ConnHistory → Prop
  | quiet (h : ConnHistory) {n : ℕ} (hn : h.next ≤ n) : ConnStep h { h with next := n }
  | connect (h : ConnHistory) (l : ℕ) : ConnStep h
      { h with
        connected := Function.update h.connected l (h.connected l ++ [h.next])
        pending := Function.update h.pending l (h.pending l ++ [h.next])
        next := h.next + 1 }
  | take (h : ConnHistory) {l p : ℕ} {rest : List ℕ} (hp : h.pending l = p :: rest) : ConnStep h
      { h with
        taken := Function.update h.taken l (h.taken l ++ [p])
        pending := Function.update h.pending l rest }
  | requeue (h : ConnHistory) {l p : ℕ} (hp : (h.taken l).getLast? = some p) : ConnStep h
      { h with
        taken := Function.update h.taken l ((h.taken l).erase p)
        pending := Function.update h.pending l (p :: h.pending l) }
  | abort (h : ConnHistory) {l p : ℕ} (hp : p ∈ h.taken l) : ConnStep h
      { h with
        taken := Function.update h.taken l ((h.taken l).erase p)
        dropped := h.dropped ++ [p] }
  | close (h : ConnHistory) (l : ℕ) : ConnStep h
      { h with
        pending := Function.update h.pending l []
        dropped := h.dropped ++ h.pending l }

namespace ConnHistory

/-- Each connection was taken, waits or was dropped, and only one of these. -/
structure Kept (h : ConnHistory) : Prop where
  lt_next : ∀ l, ∀ p ∈ h.connected l, p < h.next
  nodup : ∀ l, (h.connected l).Nodup
  disjoint : ∀ l l' p, p ∈ h.connected l → p ∈ h.connected l' → l = l'
  order : ∀ l, (h.taken l ++ h.pending l).Sublist (h.connected l)
  once : ∀ l, ∀ p ∈ h.connected l, (p ∈ h.taken l ++ h.pending l ↔ p ∉ h.dropped)

variable {h h' : ConnHistory} {l p : ℕ}

theorem Kept.mem_connected (hk : h.Kept) (hp : p ∈ h.taken l ++ h.pending l) : p ∈ h.connected l :=
  (hk.order l).subset hp

theorem Kept.dropSome {D live : List ℕ} {taken pending : ℕ → List ℕ} (hk : h.Kept) (l : ℕ)
    (htaken : ∀ k, k ≠ l → taken k = h.taken k) (hpending : ∀ k, k ≠ l → pending k = h.pending k)
    (hlive : taken l ++ pending l = live) (hsub : live.Sublist (h.taken l ++ h.pending l))
    (hD : ∀ p, p ∈ D ↔ p ∈ h.taken l ++ h.pending l ∧ p ∉ live) :
    Kept { h with taken := taken, pending := pending, dropped := h.dropped ++ D } where
  lt_next := hk.lt_next
  nodup := hk.nodup
  disjoint := hk.disjoint
  order k := by
    dsimp only
    by_cases hkl : k = l
    · subst hkl
      rw [hlive]
      exact hsub.trans (hk.order k)
    · rw [htaken k hkl, hpending k hkl]
      exact hk.order k
  once k p hp := by
    have hmem := hk.once k p hp
    dsimp only
    rw [mem_append (t := D), not_or, hD]
    by_cases hkl : k = l
    · subst hkl
      rw [hlive]
      have := fun hin : p ∈ live => hsub.subset hin
      tauto
    · rw [htaken k hkl, hpending k hkl]
      have hnot : p ∉ h.taken l ++ h.pending l := fun hin => hkl (hk.disjoint k l p hp (hk.mem_connected hin))
      tauto

theorem Kept.moveSome {taken pending : ℕ → List ℕ} (hk : h.Kept)
    (hsame : ∀ k, taken k ++ pending k = h.taken k ++ h.pending k) :
    Kept { h with taken := taken, pending := pending } where
  lt_next := hk.lt_next
  nodup := hk.nodup
  disjoint := hk.disjoint
  order k := by
    dsimp only
    rw [hsame k]
    exact hk.order k
  once k p hp := by
    dsimp only
    rw [hsame k]
    exact hk.once k p hp

theorem Kept.connect {n : ℕ} (hk : h.Kept) (hn : h.next ≤ n) (hp : p < n) (hnew : ∀ k, p ∉ h.connected k)
    (hdropped : p ∉ h.dropped) (l : ℕ) : Kept { h with
      connected := update h.connected l (h.connected l ++ [p])
      pending := update h.pending l (h.pending l ++ [p])
      next := n } := by
  have hmem : ∀ k q, q ∈ update h.connected l (h.connected l ++ [p]) k → q ∈ h.connected k ∨ k = l ∧ q = p := by
    intro k q hq
    by_cases hkl : k = l
    · subst hkl
      rw [update_self, mem_append, mem_singleton] at hq
      exact hq.imp_right fun hq => ⟨rfl, hq⟩
    · rw [update_of_ne hkl] at hq
      exact .inl hq
  refine ⟨?_, ?_, ?_, ?_, ?_⟩
  · intro k q hq
    dsimp only
    rcases hmem k q hq with hq | ⟨-, rfl⟩
    · exact (hk.lt_next k q hq).trans_le hn
    · exact hp
  · intro k
    dsimp only
    by_cases hkl : k = l
    · subst hkl
      rw [update_self]
      rw [← concat_eq_append]
      exact (hk.nodup k).concat (hnew k)
    · rw [update_of_ne hkl]
      exact hk.nodup k
  · intro k k' q hq hq'
    rcases hmem k q hq with hin | ⟨hkl, heq⟩
    · rcases hmem k' q hq' with hin' | ⟨-, heq⟩
      · exact hk.disjoint k k' q hin hin'
      · rw [heq] at hin
        exact absurd hin (hnew k)
    · rcases hmem k' q hq' with hin' | ⟨hkl', -⟩
      · rw [heq] at hin'
        exact absurd hin' (hnew k')
      · rw [hkl, hkl']
  · intro k
    dsimp only
    by_cases hkl : k = l
    · subst hkl
      rw [update_self, update_self, ← append_assoc]
      exact (hk.order k).append (List.Sublist.refl _)
    · rw [update_of_ne hkl, update_of_ne hkl]
      exact hk.order k
  · intro k q hq
    dsimp only
    rcases hmem k q hq with hold | ⟨rfl, rfl⟩
    · have hne : q ≠ p := fun heq => hnew k (heq ▸ hold)
      rw [← hk.once k q hold]
      by_cases hkl : k = l
      · subst hkl
        rw [update_self]
        simp [hne]
      · rw [update_of_ne hkl]
    · rw [update_self]
      simp only [mem_append, mem_singleton, or_true, true_iff]
      exact hdropped

theorem Kept.step (hk : h.Kept) (hdropped : ∀ p ∈ h.dropped, p < h.next) (hstep : ConnStep h h') : h'.Kept := by
  have hlive : ∀ l, (h.taken l ++ h.pending l).Nodup := fun l => (hk.nodup l).sublist (hk.order l)
  cases hstep with
  | quiet hn => exact ⟨fun l p hp => (hk.lt_next l p hp).trans_le hn, hk.nodup, hk.disjoint, hk.order, hk.once⟩
  | connect l =>
    exact hk.connect (Nat.le_succ _) (Nat.lt_succ_self _) (fun k hmem => (hk.lt_next k _ hmem).false)
      (fun hin => (hdropped _ hin).false) l
  | @take l p rest hp =>
    apply hk.moveSome
    intro k
    by_cases hkl : k = l
    · subst hkl
      rw [update_self, update_self, hp, append_assoc, singleton_append]
    · rw [update_of_ne hkl, update_of_ne hkl]
  | @requeue l p hp =>
    apply hk.moveSome
    intro k
    by_cases hkl : k = l
    · subst hkl
      rw [update_self, update_self]
      -- the connection goes from the end of one list to the front of the other
      obtain ⟨front, hfront⟩ := getLast?_eq_some_iff.mp hp
      have hnodup := (nodup_append.mp (hlive k)).1
      rw [hfront] at hnodup ⊢
      have hnot : p ∉ front := fun hin => (nodup_append.mp hnodup).2.2 p hin p (mem_singleton_self p) rfl
      rw [erase_append_right _ hnot, erase_cons_head, append_nil, append_assoc,
        singleton_append]
    · rw [update_of_ne hkl, update_of_ne hkl]
  | @abort l p hp =>
    apply hk.dropSome l (fun k hkl => update_of_ne hkl ..) (fun _ _ => rfl) rfl
    · rw [update_self]
      exact (erase_sublist ..).append (List.Sublist.refl _)
    · intro q
      rw [update_self]
      have hnodup := nodup_append.mp (hlive l)
      simp only [mem_singleton, mem_append, hnodup.1.mem_erase_iff, not_or, not_and]
      constructor
      · rintro rfl
        exact ⟨.inl hp, fun hne => absurd rfl hne, fun hin => hnodup.2.2 q hp q hin rfl⟩
      · rintro ⟨hin, hne, hnot⟩
        by_contra hqp
        exact hin.elim (hne hqp) hnot
  | close l =>
    apply hk.dropSome l (fun _ _ => rfl) (fun k hkl => update_of_ne hkl ..) rfl
    · rw [update_self, append_nil]
      exact sublist_append_left ..
    · intro q
      rw [update_self, append_nil, mem_append]
      have hnodup := nodup_append.mp (hlive l)
      constructor
      · intro hq
        exact ⟨.inr hq, fun hin => hnodup.2.2 q hin q hq rfl⟩
      · rintro ⟨hin | hin, hnot⟩
        · exact absurd hin hnot
        · exact hin

theorem notMem_connected (hstep : ConnStep h h') (hp : p < h.next) (hnew : p ∉ h.connected l) :
    p ∉ h'.connected l := by
  cases hstep with
  | connect k =>
    dsimp only
    by_cases hlk : l = k
    · subst hlk
      rw [update_self, mem_append, mem_singleton, not_or]
      exact ⟨hnew, hp.ne⟩
    · rwa [update_of_ne hlk]
  | quiet | take | requeue | abort | close => exact hnew

end ConnHistory

end CoolPotOS
