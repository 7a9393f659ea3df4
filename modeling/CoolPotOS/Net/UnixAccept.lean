import CoolPotOS.Net.UnixPeers

namespace CoolPotOS

open List

theorem perm_filterMap_eraseIdx {α β : Type*} (f : α → Option β) {xs : List α} {k : ℕ} {a : α}
    (hk : xs[k]? = some a) : ((f a).toList ++ (xs.eraseIdx k).filterMap f).Perm (xs.filterMap f) := by
  obtain ⟨hlt, hget⟩ := List.getElem?_eq_some_iff.mp hk
  have hperm := (getElem_cons_eraseIdx_perm hlt).filterMap f
  rw [hget] at hperm
  cases hf : f a with
  | none => rwa [filterMap_cons_none hf] at hperm
  | some b => rwa [filterMap_cons_some hf] at hperm

theorem perm_filterMap_set {α β : Type*} (f : α → Option β) {xs : List α} {k : ℕ} {a : α}
    (hk : xs[k]? = some a) (b : α) :
    ((f a).toList ++ (xs.set k b).filterMap f).Perm ((f b).toList ++ xs.filterMap f) := by
  obtain ⟨hlt, -⟩ := List.getElem?_eq_some_iff.mp hk
  have hset : (xs.set k b)[k]? = some b := getElem?_set_self hlt
  have herase := perm_filterMap_eraseIdx f hset
  rw [eraseIdx_set_eq] at herase
  have hback := (perm_filterMap_eraseIdx f hk).append_left (f b).toList
  exact (herase.symm.append_left _).trans ((perm_append_comm_assoc ..).trans hback)

variable {owner : SockOwner} {e' : Option ℕ} {k : ℕ}

namespace SockSys

variable {s : SockSys} {i l p : ℕ} {x y : PeerSock} {e : Option ℕ}

theorem sock_setSock_self (s : SockSys) (i : ℕ) (x : Option PeerSock) : (s.setSock i x).sock i = x :=
  Function.update_self ..

theorem sock_setSock_of_ne (s : SockSys) (x : Option PeerSock) (h : p ≠ i) : (s.setSock i x).sock p = s.sock p :=
  Function.update_of_ne h ..

theorem pendingOf_setSock_self (s : SockSys) (i : ℕ) (x : PeerSock) :
    (s.setSock i (some x)).pendingOf i = x.backlog.pending := pendingOf_eq (sock_setSock_self s i _)

theorem pendingOf_setSock_of_ne (s : SockSys) (x : Option PeerSock) (h : l ≠ i) :
    (s.setSock i x).pendingOf l = s.pendingOf l := by
  unfold pendingOf
  rw [sock_setSock_of_ne s x h]

theorem OwnedBy.setSock (h : s.OwnedBy p owner) (hi : p = i → y.owner = owner) :
    (s.setSock i (some y)).OwnedBy p owner := by
  by_cases hp : p = i
  · exact ⟨y, by rw [hp, sock_setSock_self], hi hp⟩
  · obtain ⟨x, hx, howner⟩ := h
    exact ⟨x, by rw [sock_setSock_of_ne _ _ hp, hx], howner⟩

theorem OwnedBy.setSock_same (h : s.OwnedBy p owner) (hx : s.sock i = some x) (howner : y.owner = x.owner) :
    (s.setSock i (some y)).OwnedBy p owner := by
  apply h.setSock
  rintro rfl
  rw [howner]
  exact OwnedBy.unique ⟨x, hx, rfl⟩ h

theorem PeersOk.setSock (h : s.PeersOk) (hx : s.sock i = some x) (hpeer : y.peer = x.peer) :
    (s.setSock i (some y)).PeersOk := by
  have hkeep : ∀ j z, s.sock j = some z → ∃ z', (s.setSock i (some y)).sock j = some z' ∧ z'.peer = z.peer := by
    intro j z hz
    by_cases hj : j = i
    · subst hj
      obtain rfl := Option.some.inj (hx.symm.trans hz)
      exact ⟨y, sock_setSock_self .., hpeer⟩
    · exact ⟨z, by rw [sock_setSock_of_ne _ _ hj, hz], rfl⟩
  have hlift : ∀ j z, (s.setSock i (some y)).sock j = some z → ∃ z', s.sock j = some z' ∧ z'.peer = z.peer := by
    intro j z hz
    by_cases hj : j = i
    · subst hj
      rw [sock_setSock_self] at hz
      cases hz
      exact ⟨x, hx, hpeer.symm⟩
    · rw [sock_setSock_of_ne _ _ hj] at hz
      exact ⟨z, hz, rfl⟩
  intro j z k hz hk
  obtain ⟨z', hz', hzpeer⟩ := hlift j z hz
  obtain ⟨hne, w, hw, hwj⟩ := h j z' k hz' (hzpeer.trans hk)
  obtain ⟨w', hw', hwpeer⟩ := hkeep k w hw
  exact ⟨hne, w', hw', hwpeer.trans hwj⟩

theorem Counted.setSock (h : s.Counted e) (hx : s.sock i = some x) (howner : y.owner = x.owner)
    (hb : y.backlog.Holds y.backlog.pending) (hq : ∀ p ∈ y.backlog.pending, s.OwnedBy p (.backlog i))
    (hn : y.backlog.pending.Nodup)
    (hrefs : y.refcount + (if e = some i then 1 else 0) = x.refcount + if e' = some i then 1 else 0)
    (he : ∀ j, j ≠ i → (e' = some j ↔ e = some j))
    (hl : y.backlog.connMax ≠ 0 → x.owner = .descriptor ∨ x.owner = .none) : (s.setSock i (some y)).Counted e' where
  fresh j hj := by
    have hji : j ≠ i := by
      rintro rfl
      rw [h.fresh j hj] at hx
      cases hx
    rw [sock_setSock_of_ne _ _ hji]
    exact h.fresh j hj
  holds j z hz := by
    by_cases hj : j = i
    · subst hj
      rw [sock_setSock_self] at hz
      cases hz
      exact hb
    · rw [sock_setSock_of_ne _ _ hj] at hz
      exact h.holds j z hz
  queued l p hp := by
    by_cases hl : l = i
    · subst hl
      rw [pendingOf_setSock_self] at hp
      exact (hq p hp).setSock_same hx howner
    · rw [pendingOf_setSock_of_ne _ _ hl] at hp
      exact (h.queued l p hp).setSock_same hx howner
  nodup l := by
    by_cases hl : l = i
    · subst hl
      rw [pendingOf_setSock_self]
      exact hn
    · rw [pendingOf_setSock_of_ne _ _ hl]
      exact h.nodup l
  held l p hp := (h.held l p hp).setSock_same hx howner
  held_nodup := h.held_nodup
  listener a ha := (h.listener a ha).imp (·.setSock_same hx howner) (·.setSock_same hx howner)
  refs j z hz := by
    change z.refcount = (if z.owner = .none then 0 else 1) + s.accepting.countP (·.1 = j) + _
    by_cases hj : j = i
    · subst hj
      rw [sock_setSock_self] at hz
      cases hz
      have hcount := h.refs j x hx
      rw [howner]
      omega
    · rw [sock_setSock_of_ne _ _ hj] at hz
      have hcount := h.refs j z hz
      simp only [he j hj]
      exact hcount
  gone p hp := by
    obtain ⟨hlt, hnone⟩ := h.gone p hp
    have hpi : p ≠ i := by
      rintro rfl
      rw [hnone] at hx
      cases hx
    exact ⟨hlt, (sock_setSock_of_ne _ _ hpi).trans hnone⟩
  listens j z hz := by
    by_cases hj : j = i
    · subst hj
      rw [sock_setSock_self] at hz
      cases hz
      rw [howner]
      exact hl
    · rw [sock_setSock_of_ne _ _ hj] at hz
      exact h.listens j z hz

theorem Sound.setBacklog {b : Backlog} (h : s.Sound e) (hx : s.sock i = some x) (hb : b.Holds b.pending)
    (hq : ∀ p ∈ b.pending, s.OwnedBy p (.backlog i)) (hn : b.pending.Nodup)
    (hl : x.owner = .descriptor ∨ x.owner = .none) : (s.setSock i (some { x with backlog := b })).Sound e :=
  ⟨h.toCounted.setSock hx rfl hb hq hn rfl (fun _ _ => Iff.rfl) fun _ => hl, h.peers.setSock hx rfl⟩

theorem Counted.setSock_same (h : s.Counted e) (hx : s.sock i = some x) (howner : y.owner = x.owner)
    (hb : y.backlog = x.backlog)
    (hrefs : y.refcount + (if e = some i then 1 else 0) = x.refcount + if e' = some i then 1 else 0)
    (he : ∀ j, j ≠ i → (e' = some j ↔ e = some j)) : (s.setSock i (some y)).Counted e' := by
  apply h.setSock hx howner _ _ _ hrefs he
  · rw [hb]
    exact h.listens i x hx
  · rw [hb]
    exact h.holds i x hx
  · rw [hb, ← pendingOf_eq hx]
    exact h.queued i
  · rw [hb, ← pendingOf_eq hx]
    exact h.nodup i

theorem Counted.ne_of_mem_accepting {a : ℕ × Option ℕ} (h : s.Counted e) (hp : s.OwnedBy p owner)
    (hd : owner ≠ .descriptor) (hn : owner ≠ .none) (ha : a ∈ s.accepting) : a.1 ≠ p := by
  rintro rfl
  rcases h.listener a ha with hl | hl
  · exact hd (hp.unique hl)
  · exact hn (hp.unique hl)

theorem Counted.setOwner (h : s.Counted e) (hx : s.sock p = some x) (hq : ∀ l, p ∉ s.pendingOf l)
    (ha : ∀ l, (l, some p) ∉ s.accepting)
    (hl : ∀ a ∈ s.accepting, a.1 = p → owner = .descriptor ∨ owner = .none)
    (hmax : x.backlog.connMax ≠ 0 → owner = .descriptor ∨ owner = .none)
    (hrefs : (if x.owner = .none then 0 else 1) + (if e = some p then 1 else 0) = (if owner = .none then 0 else 1) + if e' = some p then 1 else 0)
    (he : ∀ j, j ≠ p → (e' = some j ↔ e = some j)) : (s.setOwner p x owner).Counted e' := by
  have hpending : ∀ l, (s.setOwner p x owner).pendingOf l = s.pendingOf l := by
    intro l
    by_cases hlp : l = p
    · subst hlp
      exact (pendingOf_setSock_self ..).trans (pendingOf_eq hx).symm
    · exact pendingOf_setSock_of_ne _ _ hlp
  have howned : ∀ q o, q ≠ p → s.OwnedBy q o → (s.setOwner p x owner).OwnedBy q o := fun q o hq h =>
    h.setSock fun heq => absurd heq hq
  have hcases : ∀ j z, (s.setOwner p x owner).sock j = some z →
      j = p ∧ z = { x with owner := owner } ∨ j ≠ p ∧ s.sock j = some z := by
    intro j z hz
    by_cases hj : j = p
    · subst hj
      exact .inl ⟨rfl, (Option.some.inj ((sock_setSock_self ..).symm.trans hz)).symm⟩
    · exact .inr ⟨hj, (sock_setSock_of_ne _ _ hj).symm.trans hz⟩
  have hgone : ∀ j, s.sock j = none → (s.setOwner p x owner).sock j = none := by
    intro j hj
    have hjp : j ≠ p := by
      rintro rfl
      rw [hj] at hx
      cases hx
    exact (sock_setSock_of_ne _ _ hjp).trans hj
  refine ⟨fun j hj => hgone j (h.fresh j hj), ?_, ?_, ?_, ?_, h.held_nodup, ?_, ?_,
    fun q hmem => ⟨(h.gone q hmem).1, hgone q (h.gone q hmem).2⟩, ?_⟩
  · intro j z hz
    rcases hcases j z hz with ⟨rfl, rfl⟩ | ⟨-, hz⟩
    · exact h.holds j x hx
    · exact h.holds j z hz
  · intro l q hmem
    rw [hpending] at hmem
    apply howned q _ _ (h.queued l q hmem)
    rintro rfl
    exact hq l hmem
  · intro l
    rw [hpending]
    exact h.nodup l
  · intro l q hmem
    apply howned q _ _ (h.held l q hmem)
    rintro rfl
    exact ha l hmem
  · intro a hmem
    by_cases hap : a.1 = p
    · have hown : (s.setOwner p x owner).OwnedBy a.1 owner := ⟨_, by rw [hap]; exact sock_setSock_self .., rfl⟩
      rcases hl a hmem hap with rfl | rfl
      · exact .inl hown
      · exact .inr hown
    · exact (h.listener a hmem).imp (howned _ _ hap) (howned _ _ hap)
  · intro j z hz
    rcases hcases j z hz with ⟨rfl, rfl⟩ | ⟨hj, hz⟩
    · have hcount := h.refs j x hx
      change x.refcount = (if owner = .none then 0 else 1) + s.accepting.countP (·.1 = j) + _
      omega
    · have hcount := h.refs j z hz
      simp only [he j hj]
      exact hcount
  · intro j z hz hz'
    rcases hcases j z hz with ⟨rfl, rfl⟩ | ⟨-, hz⟩
    · exact hmax hz'
    · exact h.listens j z hz hz'

theorem Sound.setOwner (h : s.Sound e) (hx : s.sock p = some x) (hq : ∀ l, p ∉ s.pendingOf l)
    (ha : ∀ l, (l, some p) ∉ s.accepting) (hd : x.owner ≠ .descriptor) (hold : x.owner ≠ .none)
    (hnew : owner ≠ .none) : (s.setOwner p x owner).Sound e := by
  refine ⟨h.toCounted.setOwner hx hq ha ?_ ?_ ?_ fun _ _ => Iff.rfl, h.peers.setSock hx rfl⟩
  · intro a hmem hap
    exact absurd hap (h.ne_of_mem_accepting ⟨x, hx, rfl⟩ hd hold hmem)
  · intro hmax
    rcases h.listens p x hx hmax with hx' | hx'
    · exact absurd hx' hd
    · exact absurd hx' hold
  · rw [if_neg hold, if_neg hnew]

theorem Sound.unown (h : s.Sound none) (hx : s.sock i = some x) (howner : x.owner = .descriptor) :
    (s.setOwner i x .none).Sound (some i) := by
  have hown : s.OwnedBy i .descriptor := ⟨x, hx, howner⟩
  refine ⟨h.toCounted.setOwner hx ?_ ?_ (fun _ _ _ => .inr rfl) (fun _ => .inr rfl) ?_ ?_,
    h.peers.setSock hx rfl⟩
  · intro l
    exact h.notMem_pendingOf hown (by simp)
  · intro l hmem
    exact absurd (hown.unique (h.held l i hmem)) (by simp)
  · simp [howner]
  · intro j hj
    simp [hj.symm]

theorem Sound.setHistory (h : s.Sound e) (connected taken : ℕ → List ℕ) :
    { s with connected := connected, taken := taken }.Sound e :=
  ⟨⟨h.fresh, h.holds, h.queued, h.nodup, h.held, h.held_nodup, h.listener, h.refs, h.gone, h.listens⟩, h.peers⟩

theorem Counted.pendingOf_eq_nil (h : s.Counted e) (hp : s.OwnedBy p owner) (hd : owner ≠ .descriptor)
    (hn : owner ≠ .none) : s.pendingOf p = [] := by
  obtain ⟨x, hx, rfl⟩ := hp
  have hzero : x.backlog.connMax = 0 := by
    by_contra hmax
    rcases h.listens p x hx hmax with hx' | hx'
    · exact hd hx'
    · exact hn hx'
  have hholds := h.holds p x hx
  rw [pendingOf_eq hx, ← length_eq_zero_iff, hholds.length_eq]
  have := hholds.curr_le
  have := hholds.cap_le
  omega

theorem Sound.drop (h : s.Sound e) (hp : s.OwnedBy p owner) (hd : owner ≠ .descriptor) (hn : owner ≠ .none)
    (hq : ∀ l, p ∉ s.pendingOf l) (ha : ∀ l, (l, some p) ∉ s.accepting) (checked : Bool) :
    s.drop p checked = some (s.without [p]) ∧ (s.without [p]).Sound e ∧ (s.without [p]).pendingOf = s.pendingOf := by
  refine ⟨?_, ?_, ?_⟩
  · obtain ⟨x, hx, -⟩ := hp
    exact h.peers.drop_eq hx checked
  · apply h.without
    · rintro l - q hmem hq'
      obtain rfl := mem_singleton.mp hq'
      exact hq l hmem
    · intro l q hmem hq'
      obtain rfl := mem_singleton.mp hq'
      exact ha l hmem
    · intro a hmem ha'
      exact h.ne_of_mem_accepting hp hd hn hmem (mem_singleton.mp ha')
  · funext k
    by_cases hk : k = p
    · subst hk
      rw [pendingOf_without_of_mem (mem_singleton_self k), h.pendingOf_eq_nil hp hd hn]
    · exact pendingOf_without (by simpa using hk)

theorem closed_setSock (hx : s.sock i = some x) (hb : y.backlog = x.backlog) :
    (s.setSock i (some y)).closed i = s.closed i := by
  unfold closed
  rw [pendingOf_setSock_self, hb, ← pendingOf_eq hx]
  unfold SockSys.without SockSys.setSock
  dsimp only
  congr 1
  funext j
  by_cases hj : j = i
  · simp [hj]
  · rw [Function.update_of_ne hj]

theorem Sound.release (h : s.Sound (some i)) (hx : s.sock i = some x) :
    ∃ s', s.release i = some s' ∧ s'.Sound none ∧
      (1 < x.refcount ∧ s' = s.setSock i (some { x with refcount := x.refcount - 1 }) ∨
        x.refcount = 1 ∧ s' = s.closed i) := by
  have hcount := h.refs i x hx
  rw [if_pos rfl] at hcount
  have hsound : (s.setSock i (some { x with refcount := x.refcount - 1 })).Sound none := by
    refine ⟨h.toCounted.setSock_same hx rfl rfl ?_ ?_, h.peers.setSock hx rfl⟩
    · rw [if_pos rfl, if_neg (by simp)]
      dsimp only
      omega
    · intro j hj
      simp [hj.symm]
  unfold SockSys.release
  rw [hx, Option.bind_some]
  dsimp only
  by_cases hlast : x.refcount - 1 > 0
  · rw [if_pos hlast]
    exact ⟨_, rfl, hsound, .inl ⟨by omega, rfl⟩⟩
  · rw [if_neg hlast]
    have hzero : x.refcount - 1 = 0 := by omega
    obtain ⟨hteardown, hclosed⟩ := hsound.teardown (sock_setSock_self ..) hzero
    have hsame := closed_setSock (y := { x with refcount := x.refcount - 1 }) hx rfl
    rw [hsame] at hteardown hclosed
    exact ⟨_, hteardown, hclosed, .inr ⟨by omega, rfl⟩⟩

theorem Sound.eraseIdx {q : Option ℕ} (h : s.Sound none) (hk : s.accepting[k]? = some (l, q)) :
    { s with accepting := s.accepting.eraseIdx k }.Sound (some l) := by
  have hmem : ∀ a ∈ s.accepting.eraseIdx k, a ∈ s.accepting := fun a ha => mem_of_mem_eraseIdx ha
  refine ⟨⟨h.fresh, h.holds, h.queued, h.nodup, fun l p hp => h.held l p (hmem _ hp), ?_,
    fun a ha => h.listener a (hmem a ha), ?_, h.gone, h.listens⟩, h.peers⟩
  · exact h.held_nodup.sublist ((eraseIdx_sublist _ k).filterMap _)
  · intro j z hz
    have hcount := h.refs j z hz
    obtain ⟨hlt, hget⟩ := List.getElem?_eq_some_iff.mp hk
    have hperm := (getElem_cons_eraseIdx_perm hlt).countP_eq (fun a => decide (a.1 = j))
    rw [hget, countP_cons] at hperm
    dsimp only at hperm ⊢
    simp only [reduceCtorEq, if_false, Nat.add_zero] at hcount
    by_cases hj : l = j
    · simp only [hj, decide_true, if_true] at hperm ⊢
      omega
    · simp only [hj, decide_false, Bool.false_eq_true, if_false, Option.some.injEq] at hperm ⊢
      omega

theorem Counted.listener_sock {a : ℕ × Option ℕ} (h : s.Counted e) (ha : a ∈ s.accepting) :
    ∃ x, s.sock a.1 = some x ∧ (x.owner = .descriptor ∨ x.owner = .none) := by
  rcases h.listener a ha with ⟨x, hx, hx'⟩ | ⟨x, hx, hx'⟩
  · exact ⟨x, hx, .inl hx'⟩
  · exact ⟨x, hx, .inr hx'⟩

theorem ne_of_owner (hx : s.sock l = some x) (howner : x.owner = .descriptor ∨ x.owner = .none)
    (hy : s.sock p = some y) (hd : y.owner ≠ .descriptor) (hn : y.owner ≠ .none) : p ≠ l := by
  rintro rfl
  obtain rfl := Option.some.inj (hx.symm.trans hy)
  exact howner.elim hd hn

theorem Counted.notMem_eraseIdx (h : s.Counted e) (hk : s.accepting[k]? = some (l, some p)) (l' : ℕ) :
    (l', some p) ∉ s.accepting.eraseIdx k := by
  intro hmem
  have hnodup := (perm_filterMap_eraseIdx Prod.snd hk).nodup_iff.mpr h.held_nodup
  have hnot := (nodup_cons.mp hnodup).1
  exact hnot (mem_filterMap.mpr ⟨_, hmem, rfl⟩)

theorem Sound.accept (h : s.Sound none) (l : ℕ) : (s.accept l).Sound none := by
  unfold SockSys.accept
  cases hx : s.sock l with
  | none => exact h
  | some x =>
    dsimp only
    split_ifs with hcond
    · exact h
    · rw [not_or, not_not] at hcond
      have hset : (s.setSock l (some { x with refcount := x.refcount + 1 })).Sound (some l) := by
        refine ⟨h.toCounted.setSock_same hx rfl rfl ?_ ?_, h.peers.setSock hx rfl⟩
        · simp
        · intro j hj
          simp [hj.symm]
      refine ⟨⟨hset.fresh, hset.holds, hset.queued, hset.nodup, ?_, ?_, ?_, ?_, hset.gone, hset.listens⟩,
        hset.peers⟩
      · intro l' p hp
        rcases mem_append.mp hp with hp | hp
        · exact hset.held l' p hp
        · simp at hp
      · simpa using h.held_nodup
      · intro a ha
        rcases mem_append.mp ha with ha | ha
        · exact hset.listener a ha
        · obtain rfl := mem_singleton.mp ha
          exact .inl ⟨_, sock_setSock_self .., hcond.1⟩
      · intro j z hz
        have hcount := hset.refs j z hz
        dsimp only
        rw [countP_append, countP_singleton]
        change z.refcount = _ + s.accepting.countP _ + _ at hcount
        by_cases hj : l = j
        · simp only [hj, if_true, decide_true] at hcount ⊢
          simpa [Nat.add_assoc] using hcount
        · simpa [hj] using hcount

theorem Sound.setAccepting (h : s.Sound e) (hk : s.accepting[k]? = some (l, none)) (hp : s.OwnedBy p .accept)
    (hnew : ∀ l, (l, some p) ∉ s.accepting) :
    { s with accepting := s.accepting.set k (l, some p) }.Sound e := by
  obtain ⟨hlt, hget⟩ := List.getElem?_eq_some_iff.mp hk
  have hsplit : s.accepting = s.accepting.take k ++ (l, none) :: s.accepting.drop (k + 1) := by
    rw [← hget, cons_getElem_drop_succ, take_append_drop]
  have hfst : (s.accepting.set k (l, some p)).map Prod.fst = s.accepting.map Prod.fst := by
    rw [set_eq_take_append_cons_drop, if_pos hlt]
    conv_rhs => rw [hsplit]
    simp
  have hmem : ∀ a ∈ s.accepting.set k (l, some p), a ∈ s.accepting ∨ a = (l, some p) := fun a ha =>
    mem_or_eq_of_mem_set ha
  refine ⟨⟨h.fresh, h.holds, h.queued, h.nodup, ?_, ?_, ?_, ?_, h.gone, h.listens⟩, h.peers⟩
  · intro l' q hq
    rcases hmem _ hq with hq | hq
    · exact h.held l' q hq
    · obtain rfl := Option.some.inj (congrArg Prod.snd hq)
      exact hp
  · apply (perm_filterMap_set Prod.snd hk (l, some p)).nodup_iff.mpr
    refine nodup_cons.mpr ⟨?_, h.held_nodup⟩
    intro hin
    obtain ⟨⟨l', q⟩, ha, hq⟩ := mem_filterMap.mp hin
    obtain rfl : q = some p := hq
    exact hnew l' ha
  · intro a ha
    rcases hmem a ha with ha | rfl
    · exact h.listener a ha
    · exact h.listener (l, none) (mem_of_getElem? hk)
  · intro j z hz
    have hcount := h.refs j z hz
    have hsame : (s.accepting.set k (l, some p)).countP (·.1 = j) = s.accepting.countP (·.1 = j) := by
      have := congrArg (countP (· = j)) hfst
      simpa only [countP_map, Function.comp_def] using this
    dsimp only
    rw [hsame]
    exact hcount

theorem Sound.alloc (h : s.Sound none) (ho : owner ≠ .none) : (s.alloc owner).Sound none := by
  have hnone : s.sock s.next = none := h.fresh _ le_rfl
  have howned : ∀ q o, s.OwnedBy q o → (s.alloc owner).OwnedBy q o := by
    intro q o hq
    apply hq.setSock
    rintro rfl
    obtain ⟨x, hx, -⟩ := hq
    rw [hnone] at hx
    cases hx
  have hpending : ∀ l, (s.alloc owner).pendingOf l = s.pendingOf l := by
    intro l
    by_cases hl : l = s.next
    · subst hl
      have hnew : (s.alloc owner).pendingOf s.next = [] := pendingOf_setSock_self ..
      rw [hnew, pendingOf, hnone]
      rfl
    · exact pendingOf_setSock_of_ne _ _ hl
  have hcases : ∀ j z, (s.alloc owner).sock j = some z →
      j = s.next ∧ z = ⟨none, .new 0, 1, owner⟩ ∨ s.sock j = some z := by
    intro j z hz
    by_cases hj : j = s.next
    · subst hj
      exact .inl ⟨rfl, (Option.some.inj ((sock_setSock_self ..).symm.trans hz)).symm⟩
    · exact .inr ((sock_setSock_of_ne _ _ hj).symm.trans hz)
  refine ⟨⟨?_, ?_, ?_, ?_, fun l p hp => howned _ _ (h.held l p hp), h.held_nodup, ?_, ?_, ?_, ?_⟩, ?_⟩
  · intro j hj
    have hj' : s.next + 1 ≤ j := hj
    exact (sock_setSock_of_ne _ _ (by omega)).trans (h.fresh j (by omega))
  · intro j z hz
    rcases hcases j z hz with ⟨rfl, rfl⟩ | hz
    · exact Backlog.holds_new 0
    · exact h.holds j z hz
  · intro l p hp
    rw [hpending] at hp
    exact howned _ _ (h.queued l p hp)
  · intro l
    rw [hpending]
    exact h.nodup l
  · intro a ha
    exact (h.listener a ha).imp (howned _ _) (howned _ _)
  · intro j z hz
    rcases hcases j z hz with ⟨rfl, rfl⟩ | hz
    · have hzero : s.accepting.countP (·.1 = s.next) = 0 := by
        apply countP_eq_zero.mpr
        intro a ha hnext
        have heq : a.1 = s.next := by simpa using hnext
        rcases h.listener a ha with ⟨x, hx, -⟩ | ⟨x, hx, -⟩
        all_goals
          rw [heq, hnone] at hx
          cases hx
      change 1 = (if owner = .none then 0 else 1) + s.accepting.countP (·.1 = s.next) + _
      rw [hzero, if_neg ho]
      simp
    · exact h.refs j z hz
  · intro p hp
    obtain ⟨hlt, hgone⟩ := h.gone p hp
    exact ⟨Nat.lt_succ_of_lt hlt, (sock_setSock_of_ne _ _ hlt.ne).trans hgone⟩
  · intro j z hz hmax
    rcases hcases j z hz with ⟨rfl, rfl⟩ | hz
    · exact absurd rfl hmax
    · exact h.listens j z hz hmax
  · intro j z k hz hk
    rcases hcases j z hz with ⟨rfl, rfl⟩ | hz
    · cases hk
    · obtain ⟨hne, w, hw, hwj⟩ := h.peers j z k hz hk
      refine ⟨hne, w, ?_, hwj⟩
      have hkn : k ≠ s.next := by
        rintro rfl
        rw [hnone] at hw
        cases hw
      exact (sock_setSock_of_ne _ _ hkn).trans hw

theorem Sound.link {j : ℕ} (h : s.Sound e) (hx : s.sock i = some x) (hy : s.sock j = some y) (hij : i ≠ j)
    (hxp : x.peer = none) (hyp : y.peer = none) :
    s.link i j = some ((s.setSock i (some { x with peer := some j })).setSock j (some { y with peer := some i })) ∧
    ((s.setSock i (some { x with peer := some j })).setSock j (some { y with peer := some i })).Sound e := by
  constructor
  · unfold SockSys.link
    rw [hx, Option.bind_some, hy, Option.map_some]
  · have hfirst : (s.setSock i (some { x with peer := some j })).Counted e :=
      h.toCounted.setSock_same hx rfl rfl rfl fun _ _ => Iff.rfl
    have hy' : (s.setSock i (some { x with peer := some j })).sock j = some y := by
      rw [sock_setSock_of_ne _ _ hij.symm, hy]
    refine ⟨hfirst.setSock_same hy' rfl rfl rfl fun _ _ => Iff.rfl, ?_⟩
    · intro a z b hz hb
      by_cases haj : a = j
      · subst haj
        rw [sock_setSock_self] at hz
        cases hz
        cases hb
        exact ⟨hij, _, (sock_setSock_of_ne _ _ hij).trans (sock_setSock_self ..), rfl⟩
      · rw [sock_setSock_of_ne _ _ haj] at hz
        by_cases hai : a = i
        · subst hai
          rw [sock_setSock_self] at hz
          cases hz
          cases hb
          exact ⟨hij.symm, _, sock_setSock_self .., rfl⟩
        · rw [sock_setSock_of_ne _ _ hai] at hz
          obtain ⟨hne, w, hw, hwa⟩ := h.peers a z b hz hb
          -- neither of the two sockets had a peer
          have hbi : b ≠ i := by
            rintro rfl
            obtain rfl := Option.some.inj (hx.symm.trans hw)
            rw [hxp] at hwa
            cases hwa
          have hbj : b ≠ j := by
            rintro rfl
            obtain rfl := Option.some.inj (hy.symm.trans hw)
            rw [hyp] at hwa
            cases hwa
          refine ⟨hne, w, ?_, hwa⟩
          rw [sock_setSock_of_ne _ _ hbj, sock_setSock_of_ne _ _ hbi, hw]

end SockSys

end CoolPotOS
