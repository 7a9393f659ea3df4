import CoolPotOS.Net.UnixAccept
import CoolPotOS.Net.UnixHistory

namespace CoolPotOS

open Function List Option

theorem Backlog.Holds.pending_eq {b : Backlog} {ps : List ℕ} (h : b.Holds ps) : b.pending = ps := by
  unfold Backlog.pending
  rw [h.contents_eq]
  simp [reduceOption]

namespace SockSys

variable {s : SockSys} {i l p : ℕ} {x y : PeerSock} {e : Option ℕ}

/-- What happened to the connections of each listening socket. -/
def history (s : SockSys) : ConnHistory := ⟨s.connected, s.taken, s.pendingOf, s.dropped, s.next⟩

theorem pendingOf_setSock (hx : s.sock i = some x) (hb : y.backlog = x.backlog) :
    (s.setSock i (some y)).pendingOf = s.pendingOf := by
  funext k
  by_cases hk : k = i
  · subst hk
    rw [pendingOf_setSock_self, hb, pendingOf_eq hx]
  · exact pendingOf_setSock_of_ne _ _ hk

theorem pendingOf_link {j : ℕ} (hx : s.sock i = some x) (hy : s.sock j = some y) (hij : i ≠ j) :
    ((s.setSock i (some { x with peer := some j })).setSock j (some { y with peer := some i })).pendingOf =
      s.pendingOf := by
  have hy' : (s.setSock i (some { x with peer := some j })).sock j = some y := by
    rw [sock_setSock_of_ne _ _ hij.symm, hy]
  rw [pendingOf_setSock (y := { y with peer := some i }) hy' rfl,
    pendingOf_setSock (y := { x with peer := some j }) hx rfl]

theorem pendingOf_setBacklog (s : SockSys) (i : ℕ) (y : PeerSock) :
    (s.setSock i (some y)).pendingOf = update s.pendingOf i y.backlog.pending := by
  funext k
  by_cases hk : k = i
  · subst hk
    rw [pendingOf_setSock_self, update_self]
  · rw [pendingOf_setSock_of_ne _ _ hk, update_of_ne hk]

theorem pendingOf_alloc (h : s.Counted e) (owner : SockOwner) : (s.alloc owner).pendingOf = s.pendingOf := by
  have hset : (s.alloc owner).pendingOf = update s.pendingOf s.next [] := pendingOf_setBacklog ..
  rw [hset]
  apply update_eq_self_iff.mpr
  unfold pendingOf
  rw [h.fresh _ le_rfl]
  rfl

theorem Sound.pendingOf_closed (h : s.Sound e) (i : ℕ) :
    (s.closed i).pendingOf = update s.pendingOf i [] := by
  funext k
  by_cases hk : k = i
  · subst hk
    rw [update_self]
    exact pendingOf_without_of_mem (by simp)
  · rw [update_of_ne hk]
    by_cases hmem : k ∈ s.pendingOf i
    · have hnil := h.pendingOf_eq_nil (h.queued i k hmem) (by simp) (by simp)
      rw [hnil]
      exact pendingOf_without_of_mem (mem_append_left _ hmem)
    · exact pendingOf_without (by simp [hmem, hk])

theorem Sound.release_step (h : s.Sound (some i)) (hx : s.sock i = some x) :
    ∃ s', s.release i = some s' ∧ s'.Sound none ∧ ConnStep s.history s'.history := by
  obtain ⟨s', hs', hsound, ⟨-, rfl⟩ | ⟨-, rfl⟩⟩ := h.release hx
  · refine ⟨_, hs', hsound, ?_⟩
    have hhistory : (s.setSock i (some { x with refcount := x.refcount - 1 })).history = s.history := by
      unfold history
      rw [pendingOf_setSock (y := { x with refcount := x.refcount - 1 }) hx rfl]
      rfl
    rw [hhistory]
    exact .quiet s.history le_rfl
  · refine ⟨_, hs', hsound, ?_⟩
    have hhistory : (s.closed i).history = { s.history with
          pending := update s.history.pending i []
          dropped := s.history.dropped ++ s.history.pending i } := by
      unfold history
      rw [h.pendingOf_closed]
      rfl
    rw [hhistory]
    exact .close s.history i

theorem Sound.close (h : s.Sound none) (i : ℕ) :
    ∃ s', s.close i = some s' ∧ s'.Sound none ∧ ConnStep s.history s'.history := by
  unfold SockSys.close
  cases hx : s.sock i with
  | none => exact ⟨s, rfl, h, .quiet s.history le_rfl⟩
  | some x =>
    dsimp only
    split_ifs with howner
    · have hhistory : (s.setOwner i x .none).history = s.history := by
        unfold history SockSys.setOwner
        rw [pendingOf_setSock (y := { x with owner := .none }) hx rfl]
        rfl
      rw [← hhistory]
      exact (h.unown hx howner).release_step (sock_setSock_self ..)
    · exact ⟨s, rfl, h, .quiet s.history le_rfl⟩

theorem Sound.socket_ok (h : s.Sound none) :
    (s.alloc .descriptor).Sound none ∧ ConnStep s.history (s.alloc .descriptor).history := by
  refine ⟨h.alloc (by simp), ?_⟩
  have hhistory : (s.alloc .descriptor).history = { s.history with next := s.next + 1 } := by
    unfold history
    rw [pendingOf_alloc h.toCounted]
    rfl
  rw [hhistory]
  exact .quiet s.history (Nat.le_succ _)

theorem Sound.socketpair_ok (h : s.Sound none) :
    ∃ s', s.socketpair .ok = some s' ∧ s'.Sound none ∧ ConnStep s.history s'.history := by
  have h1 : (s.alloc .descriptor).Sound none := h.alloc (by simp)
  have h2 : ((s.alloc .descriptor).alloc .descriptor).Sound none := h1.alloc (by simp)
  have hfst : ((s.alloc .descriptor).alloc .descriptor).sock s.next = some ⟨none, .new 0, 1, .descriptor⟩ :=
    (sock_setSock_of_ne _ _ (Nat.lt_succ_self _).ne).trans (sock_setSock_self ..)
  have hsnd : ((s.alloc .descriptor).alloc .descriptor).sock (s.next + 1) = some ⟨none, .new 0, 1, .descriptor⟩ :=
    sock_setSock_self ..
  obtain ⟨hlink, hsound⟩ := h2.link hfst hsnd (Nat.lt_succ_self _).ne rfl rfl
  refine ⟨_, hlink, hsound, ?_⟩
  have hhistory : ((((s.alloc .descriptor).alloc .descriptor).setSock s.next
      (some ⟨some (s.next + 1), .new 0, 1, .descriptor⟩)).setSock (s.next + 1)
      (some ⟨some s.next, .new 0, 1, .descriptor⟩)).history = { s.history with next := s.next + 2 } := by
    unfold history
    rw [pendingOf_link hfst hsnd (Nat.lt_succ_self _).ne, pendingOf_alloc h1.toCounted,
      pendingOf_alloc h.toCounted]
    rfl
  rw [hhistory]
  exact .quiet s.history (Nat.le_add_right _ 2)

theorem Sound.listen (h : s.Sound none) (i : ℕ) (backlog : ℤ) : (s.listen i backlog).Sound none ∧
      (s.pendingOf i = [] → ConnStep s.history (s.listen i backlog).history) := by
  unfold SockSys.listen
  cases hx : s.sock i with
  | none => exact ⟨h, fun _ => .quiet s.history le_rfl⟩
  | some x =>
    dsimp only
    by_cases howner : x.owner = .descriptor
    · rw [if_pos howner]
      constructor
      · apply h.setBacklog hx (Backlog.holds_new _) _ nodup_nil (.inl howner)
        intro p hp
        cases hp
      · intro hnil
        unfold history
        rw [pendingOf_setBacklog]
        have hsame : update s.pendingOf i [] = s.pendingOf := by
          apply update_eq_self_iff.mpr
          exact hnil.symm
        have hnew : ∀ n, (Backlog.new n).pending = [] := fun n => rfl
        dsimp only
        rw [hnew, hsame]
        exact .quiet s.history le_rfl
    · rw [if_neg howner]
      exact ⟨h, fun _ => .quiet s.history le_rfl⟩

theorem history_accept (s : SockSys) (l : ℕ) : (s.accept l).history = s.history := by
  unfold SockSys.accept
  cases hx : s.sock l with
  | none => rfl
  | some x =>
    dsimp only
    split_ifs
    · rfl
    · have hpending := pendingOf_setSock (y := { x with refcount := x.refcount + 1 }) hx rfl
      unfold history
      exact congrArg (fun pending => (⟨s.connected, s.taken, pending, s.dropped, s.next⟩ : ConnHistory)) hpending

/-- A new socket is made and becomes the peer of `c`. -/
theorem Sound.linkNew {c : ℕ} {owner : SockOwner} (h : s.Sound none) (howner : owner ≠ .none)
    (hx : s.sock c = some x) (hpeer : x.peer = none) :
    ∃ s', (s.alloc owner).link s.next c = some s' ∧ s'.Sound none ∧
      s'.history = { s.history with next := s.next + 1 } ∧
      s'.sock s.next = some ⟨some c, .new 0, 1, owner⟩ ∧ s'.sock c = some { x with peer := some s.next } ∧
      ∀ q, q < s.next → q ≠ c → s'.sock q = s.sock q := by
  have hc := h.lt_next hx
  have hnew : (s.alloc owner).sock s.next = some ⟨none, .new 0, 1, owner⟩ := sock_setSock_self ..
  have hold : ∀ q, q < s.next → (s.alloc owner).sock q = s.sock q := fun q hq => sock_setSock_of_ne _ _ hq.ne
  obtain ⟨hlink, hsound⟩ := (h.alloc howner).link hnew ((hold c hc).trans hx) hc.ne' rfl hpeer
  have hpending := pendingOf_link hnew ((hold c hc).trans hx) hc.ne'
  rw [pendingOf_alloc h.toCounted] at hpending
  refine ⟨_, hlink, hsound, ?_, ?_, sock_setSock_self .., fun q hq hqc => ?_⟩
  · unfold history
    rw [hpending]
    rfl
  · exact (sock_setSock_of_ne _ _ hc.ne').trans (sock_setSock_self ..)
  · exact ((sock_setSock_of_ne _ _ hqc).trans (sock_setSock_of_ne _ _ hq.ne)).trans (hold q hq)

/-- A socket that belongs to a call goes into the backlog of `l`. -/
theorem Sound.toBacklog {b : Backlog} {ps : List ℕ} (h : s.Sound none) (hx : s.sock l = some x)
    (howner : x.owner = .descriptor ∨ x.owner = .none) (hy : s.sock p = some y)
    (hyo : y.owner = .accept ∨ y.owner = .connect) (ha : ∀ k, (k, some p) ∉ s.accepting)
    (hb : b.Holds ps) (hps : ps.Perm (p :: s.pendingOf l)) :
    ((s.setOwner p y (.backlog l)).setSock l (some { x with backlog := b })).Sound none ∧
      ((s.setOwner p y (.backlog l)).setSock l (some { x with backlog := b })).pendingOf =
        update s.pendingOf l ps := by
  have hd : y.owner ≠ .descriptor := by rcases hyo with hyo | hyo <;> simp [hyo]
  have hn : y.owner ≠ .none := by rcases hyo with hyo | hyo <;> simp [hyo]
  have hq : ∀ k, p ∉ s.pendingOf k := fun k =>
    h.notMem_pendingOf ⟨y, hy, rfl⟩ (by rcases hyo with hyo | hyo <;> simp [hyo])
  have h1 : (s.setOwner p y (.backlog l)).Sound none := h.setOwner hy hq ha hd hn (by simp)
  have hpending := pendingOf_setSock (y := { y with owner := .backlog l }) hy rfl
  have hx1 : (s.setOwner p y (.backlog l)).sock l = some x :=
    (sock_setSock_of_ne _ _ (ne_of_owner hx howner hy hd hn).symm).trans hx
  constructor
  · apply h1.setBacklog hx1 _ _ _ howner
    · rw [hb.pending_eq]
      exact hb
    · intro q hmem
      rw [hb.pending_eq, hps.mem_iff, mem_cons] at hmem
      rcases hmem with rfl | hmem
      · exact ⟨_, sock_setSock_self .., rfl⟩
      · apply h1.queued l q
        exact hpending ▸ hmem
    · rw [hb.pending_eq, hps.nodup_iff]
      exact nodup_cons.mpr ⟨hq l, h.nodup l⟩
  · rw [pendingOf_setBacklog]
    dsimp only
    rw [hb.pending_eq]
    exact congrArg (fun pending => update pending l ps) hpending

theorem Sound.connect (h : s.Sound none) (c l : ℕ) (alloc grow : Bool) :
    ∃ s', s.connect c l alloc grow = some s' ∧ s'.Sound none ∧ ConnStep s.history s'.history := by
  have hquiet : ∃ s', some s = some s' ∧ s'.Sound none ∧ ConnStep s.history s'.history :=
    ⟨s, rfl, h, .quiet s.history le_rfl⟩
  unfold SockSys.connect
  cases hx : s.sock c with
  | none => exact hquiet
  | some x =>
    cases hy : s.sock l with
    | none => exact hquiet
    | some y =>
      dsimp only
      split_ifs with hclient hlisten halloc
      · exact hquiet
      · exact hquiet
      · exact hquiet
      · simp only [not_or, not_not] at hclient hlisten
        obtain ⟨hxo, hcl, -, hxp⟩ := hclient
        obtain ⟨s2, hlink, h2, hhist, hserver, -, hsame⟩ := h.linkNew (by simp : SockOwner.backlog l ≠ .none) hx hxp
        have hpending : s2.pendingOf = s.pendingOf := congrArg ConnHistory.pending hhist
        have hp2 : s2.OwnedBy s.next (.backlog l) := ⟨_, hserver, rfl⟩
        have hy2 : s2.sock l = some y := (hsame l (h.lt_next hy) (Ne.symm hcl)).trans hy
        rw [hlink, bind_some]
        have hold : ∀ k, s.next ∉ s.pendingOf k := by
          intro k hmem
          obtain ⟨z, hz, -⟩ := h.queued k _ hmem
          exact (h.lt_next hz).false
        cases hb : y.backlog.enqueueTail s.next grow with
        | some b =>
          obtain ⟨hholds, hmax⟩ := (h.holds l y hy).enqueueTail hb
          rw [← pendingOf_eq hy] at hholds
          have hbp := hholds.pending_eq
          have h3 : (s2.setSock l (some { y with backlog := b })).Sound none := by
            apply h2.setBacklog hy2
            · rw [hbp]
              exact hholds
            · intro p hp
              rw [hbp, mem_append, mem_singleton, ← hpending] at hp
              rcases hp with hp | rfl
              · exact h2.queued l p hp
              · exact hp2
            · rw [hbp, ← concat_eq_append]
              exact (h.nodup l).concat (hold l)
            · exact h.listens l y hy hlisten.1
          refine ⟨_, rfl, h3.setHistory _ _, ?_⟩
          have hpending' : (s2.setSock l (some { y with backlog := b })).pendingOf =
              update s.pendingOf l (s.pendingOf l ++ [s.next]) := by
            rw [pendingOf_setBacklog, hpending]
            dsimp only
            rw [hbp]
          have htaken : s2.taken = s.taken := congrArg ConnHistory.taken hhist
          have hdropped : s2.dropped = s.dropped := congrArg ConnHistory.dropped hhist
          have hnext : s2.next = s.next + 1 := congrArg ConnHistory.next hhist
          change ConnStep s.history ⟨_, s2.taken, (s2.setSock l _).pendingOf, s2.dropped, s2.next⟩
          rw [hpending', htaken, hdropped, hnext]
          exact .connect s.history l
        | none =>
          have hq : ∀ k, s.next ∉ s2.pendingOf k := by
            rw [hpending]
            exact hold
          have ha : ∀ k, (k, some s.next) ∉ s2.accepting := by
            intro k hmem
            exact absurd (OwnedBy.unique hp2 (h2.held k _ hmem)) (by simp)
          obtain ⟨hdrop, hsound, hsame⟩ := h2.drop hp2 (by simp) (by simp) hq ha false
          refine ⟨_, hdrop, hsound, ?_⟩
          have hhistory : (s2.without [s.next]).history = { s.history with next := s.next + 1 } := by
            rw [← hhist]
            unfold history
            rw [hsame]
            rfl
          rw [hhistory]
          exact .quiet s.history (Nat.le_succ _)

theorem Sound.take (h : s.Sound none) (i : ℕ) :
    ∃ s', s.take i = some s' ∧ s'.Sound none ∧ ConnStep s.history s'.history := by
  have hquiet : ∃ s', some s = some s' ∧ s'.Sound none ∧ ConnStep s.history s'.history :=
    ⟨s, rfl, h, .quiet s.history le_rfl⟩
  unfold SockSys.take
  cases hi : s.accepting[i]? with
  | none => exact hquiet
  | some a =>
    obtain ⟨l, q⟩ := a
    cases q with
    | some q => exact hquiet
    | none =>
      obtain ⟨x, hx, howner⟩ := h.listener_sock (mem_of_getElem? hi)
      dsimp only
      rw [hx, bind_some]
      by_cases hcurr : x.backlog.connCurr = 0
      · rw [if_pos hcurr]
        exact hquiet
      · rw [if_neg hcurr]
        have hholds := h.holds l x hx
        rw [← pendingOf_eq hx] at hholds
        obtain ⟨p, rest, hpending⟩ : ∃ p rest, s.pendingOf l = p :: rest := by
          apply exists_cons_of_ne_nil
          intro hnil
          have := hholds.length_eq
          rw [hnil] at this
          exact hcurr this.symm
        rw [hpending] at hholds
        obtain ⟨hp, hrest, -⟩ := hholds.takeHead
        have hnodup := h.nodup l
        rw [hpending, nodup_cons] at hnodup
        have hown : s.OwnedBy p (.backlog l) := h.queued l p (by simp [hpending])
        obtain ⟨y, hy, hyo⟩ := hown
        have hpl : p ≠ l := ne_of_owner hx howner hy (by simp [hyo]) (by simp [hyo])
        have h1 : (s.setSock l (some { x with backlog := x.backlog.takeHead.2 })).Sound none := by
          apply h.setBacklog hx _ _ _ howner
          · rw [hrest.pending_eq]
            exact hrest
          · intro q hq
            rw [hrest.pending_eq] at hq
            exact h.queued l q (by simp [hpending, hq])
          · rw [hrest.pending_eq]
            exact hnodup.2
        have hpending1 := pendingOf_setBacklog s l { x with backlog := x.backlog.takeHead.2 }
        dsimp only at hpending1
        rw [hrest.pending_eq] at hpending1
        have hy1 : (s.setSock l (some { x with backlog := x.backlog.takeHead.2 })).sock p = some y := by
          rw [sock_setSock_of_ne _ _ hpl, hy]
        have hunheld : ∀ k, (k, some p) ∉ s.accepting := by
          intro k hmem
          have := (show s.OwnedBy p (.backlog l) from ⟨y, hy, hyo⟩).unique (h.held k p hmem)
          cases this
        have h2 : ((s.setSock l (some { x with backlog := x.backlog.takeHead.2 })).setOwner p y .accept).Sound
            none := by
          apply h1.setOwner hy1 _ hunheld (by simp [hyo]) (by simp [hyo]) (by simp)
          intro k
          rw [hpending1]
          by_cases hk : k = l
          · subst hk
            rw [update_self]
            exact hnodup.1
          · rw [update_of_ne hk]
            apply h.notMem_pendingOf ⟨y, hy, hyo⟩
            simpa using Ne.symm hk
        have h3 := h2.setAccepting hi ⟨_, sock_setSock_self .., rfl⟩ hunheld
        have hpending2 := pendingOf_setSock (y := { y with owner := .accept }) hy1 rfl
        rw [hpending1] at hpending2
        rw [hp]
        dsimp only
        rw [hy1, map_some]
        refine ⟨_, rfl, h3.setHistory _ _, ?_⟩
        change ConnStep s.history ⟨s.connected, _, ((s.setSock l _).setSock p _).pendingOf, s.dropped, s.next⟩
        rw [hpending2]
        exact .take s.history hpending

theorem Sound.requeue (h : s.Sound none) (hx : s.sock l = some x) (howner : x.owner = .descriptor ∨ x.owner = .none)
    (hp : s.OwnedBy p .accept) (ha : ∀ k, (k, some p) ∉ s.accepting) (grow : Bool) :
    ∃ s', s.requeue l p grow = some s' ∧ s'.Sound none ∧
      ((s.taken l).getLast? = some p → ConnStep s.history s'.history) := by
  have hq : ∀ k, p ∉ s.pendingOf k := fun k => h.notMem_pendingOf hp (by simp)
  obtain ⟨y, hy, hyo⟩ := hp
  have hpl : p ≠ l := ne_of_owner hx howner hy (by simp [hyo]) (by simp [hyo])
  unfold SockSys.requeue
  rw [hx, bind_some]
  dsimp only
  cases hb : (if x.backlog.connMax > 0 then x.backlog.enqueueHead p grow else none) with
  | some b =>
    have hb' : x.backlog.enqueueHead p grow = some b := by
      split_ifs at hb
      exact hb
    obtain ⟨hholds, -⟩ := (h.holds l x hx).enqueueHead hb'
    rw [← pendingOf_eq hx] at hholds
    obtain ⟨h2, hpending⟩ := h.toBacklog hx howner hy (.inl hyo) ha hholds (.refl _)
    dsimp only
    rw [hy, map_some]
    refine ⟨_, rfl, h2.setHistory s.connected (update s.taken l ((s.taken l).erase p)), ?_⟩
    intro hlast
    change ConnStep s.history
      ⟨s.connected, _, ((s.setOwner p y (.backlog l)).setSock l _).pendingOf, s.dropped, s.next⟩
    rw [hpending]
    exact .requeue s.history hlast
  | none =>
    obtain ⟨hdrop, hsound, hpending⟩ := h.drop ⟨y, hy, hyo⟩ (by simp) (by simp) hq ha false
    have hdrop' : { s with
        taken := update s.taken l ((s.taken l).erase p)
        dropped := s.dropped ++ [p] }.drop p false = some { s.without [p] with
            taken := update s.taken l ((s.taken l).erase p)
            dropped := s.dropped ++ [p] } :=
      PeersOk.drop_eq (s := { s with
        taken := update s.taken l ((s.taken l).erase p)
        dropped := s.dropped ++ [p] }) h.peers hy false
    refine ⟨_, hdrop', ?_, ?_⟩
    · have hdropped : ∀ q ∈ [p], q < (s.without [p]).next ∧ (s.without [p]).sock q = none := by
        intro q hmem
        obtain rfl := mem_singleton.mp hmem
        exact ⟨h.lt_next hy, if_pos hmem⟩
      exact (hsound.addDropped hdropped).setHistory s.connected (update s.taken l ((s.taken l).erase p))
    · intro hlast
      change ConnStep s.history ⟨s.connected, _, (s.without [p]).pendingOf, _, s.next⟩
      rw [hpending]
      exact .abort s.history (List.mem_of_getLast? hlast)

theorem Sound.finish_ok (h : s.Sound none) (i : ℕ) (grow : Bool) :
    ∃ s', s.finish i true grow = some s' ∧ s'.Sound none ∧ ConnStep s.history s'.history := by
  unfold SockSys.finish
  cases hi : s.accepting[i]? with
  | none => exact ⟨s, rfl, h, .quiet s.history le_rfl⟩
  | some a =>
    obtain ⟨l, q⟩ := a
    have hmem := mem_of_getElem? hi
    obtain ⟨x, hx, howner⟩ := h.listener_sock hmem
    have herase := h.eraseIdx hi
    cases q with
    | none => exact herase.release_step hx
    | some p =>
      obtain ⟨y, hy, hyo⟩ := h.held l p hmem
      have hpl : p ≠ l := ne_of_owner hx howner hy (by simp [hyo]) (by simp [hyo])
      dsimp only
      rw [if_pos rfl, hy, bind_some]
      have hset : ({ s with accepting := s.accepting.eraseIdx i }.setOwner p y .descriptor).Sound (some l) := by
        apply herase.setOwner hy _ (h.notMem_eraseIdx hi) (by simp [hyo]) (by simp [hyo]) (by simp)
        intro k
        exact herase.notMem_pendingOf ⟨y, hy, hyo⟩ (by simp)
      obtain ⟨s', hs', hsound, hstep⟩ := hset.release_step ((sock_setSock_of_ne _ _ hpl.symm).trans hx)
      refine ⟨s', hs', hsound, ?_⟩
      have hhistory : ({ s with accepting := s.accepting.eraseIdx i }.setOwner p y .descriptor).history =
          s.history := by
        have hpending := pendingOf_setSock (s := { s with accepting := s.accepting.eraseIdx i })
          (y := { y with owner := .descriptor }) hy rfl
        change (⟨s.connected, s.taken, (SockSys.setSock _ p _).pendingOf, s.dropped, s.next⟩ : ConnHistory) = _
        rw [hpending]
        rfl
      rw [← hhistory]
      exact hstep

/-- Every call that made a node for a socket gets a descriptor too, and an `accept` that fails is not the last
to use its listening socket. -/
def Linked (s : SockSys) : SockOp → Prop
  | .socket outcome => outcome ≠ .noFd
  | .socketpair outcome => outcome ≠ .noFd ∧ ∀ first, outcome ≠ .oneNode first
  | .finish i false _ => ∀ a ∈ s.accepting[i]?, a.2 ≠ none → ∃ x ∈ s.sock a.1, 1 < x.refcount
  | _ => True

/-- No connection waits where `listen` is called, and an `accept` that fails was the last to take one. -/
def Ordered (s : SockSys) : SockOp → Prop
  | .listen i _ => s.pendingOf i = []
  | .finish i false _ => ∀ a ∈ s.accepting[i]?, ∀ p ∈ a.2, (s.taken a.1).getLast? = some p
  | _ => True

instance decidableLinked (s : SockSys) : ∀ op, Decidable (s.Linked op)
  | .socket _ => instDecidableNot
  | .socketpair _ => instDecidableAnd
  | .finish i false _ =>
    inferInstanceAs (Decidable (∀ a ∈ s.accepting[i]?, a.2 ≠ none → ∃ x ∈ s.sock a.1, 1 < x.refcount))
  | .finish _ true _ | .listen .. | .connect .. | .accept _ | .take _ | .close _ => .isTrue trivial

instance decidableOrdered (s : SockSys) : ∀ op, Decidable (s.Ordered op)
  | .listen i _ => inferInstanceAs (Decidable (s.pendingOf i = []))
  | .finish i false _ =>
    inferInstanceAs (Decidable (∀ a ∈ s.accepting[i]?, ∀ p ∈ a.2, (s.taken a.1).getLast? = some p))
  | .finish _ true _ | .socket _ | .socketpair _ | .connect .. | .accept _ | .take _ | .close _ => .isTrue trivial

theorem Sound.finish_fail (h : s.Sound none) (i : ℕ) (grow : Bool)
    (hlinked : s.Linked (.finish i false grow)) : ∃ s', s.finish i false grow = some s' ∧ s'.Sound none ∧
      (s.Ordered (.finish i false grow) → ConnStep s.history s'.history) := by
  unfold SockSys.finish
  cases hi : s.accepting[i]? with
  | none => exact ⟨s, rfl, h, fun _ => .quiet s.history le_rfl⟩
  | some a =>
    obtain ⟨l, q⟩ := a
    have hmem := mem_of_getElem? hi
    obtain ⟨x, hx, howner⟩ := h.listener_sock hmem
    have herase := h.eraseIdx hi
    cases q with
    | none =>
      obtain ⟨s', hs', hsound, hstep⟩ := herase.release_step hx
      exact ⟨s', hs', hsound, fun _ => hstep⟩
    | some p =>
      obtain ⟨s', hs', hsound, hcases⟩ := herase.release hx
      have hrefs : 1 < x.refcount := by
        obtain ⟨x', hx', hlt⟩ := hlinked (l, some p) hi (by simp)
        obtain rfl := Option.some.inj (hx.symm.trans hx')
        exact hlt
      obtain ⟨-, rfl⟩ := hcases.resolve_right fun hone => by omega
      dsimp only
      rw [if_neg (by simp), hs', bind_some]
      have hp := (h.held l p hmem).setSock_same (y := { x with refcount := x.refcount - 1 }) hx rfl
      obtain ⟨s'', hs'', hsound', hstep⟩ :=
        hsound.requeue (sock_setSock_self ..) howner hp (h.notMem_eraseIdx hi) grow
      refine ⟨s'', hs'', hsound', ?_⟩
      intro hordered
      have hhistory : ({ s with accepting := s.accepting.eraseIdx i }.setSock l
          (some { x with refcount := x.refcount - 1 })).history = s.history := by
        have hpending := pendingOf_setSock (s := { s with accepting := s.accepting.eraseIdx i })
          (y := { x with refcount := x.refcount - 1 }) hx rfl
        change (⟨s.connected, s.taken, (SockSys.setSock _ l _).pendingOf, s.dropped, s.next⟩ : ConnHistory) = _
        rw [hpending]
        rfl
      rw [← hhistory]
      exact hstep (hordered (l, some p) hi p rfl)

theorem Sound.step (h : s.Sound none) {op : SockOp} (hop : s.Linked op) :
    ∃ s', s.step op = some s' ∧ s'.Sound none ∧ (s.Ordered op → ConnStep s.history s'.history) := by
  have hany : ∀ {o : Option SockSys}, (∃ s', o = some s' ∧ s'.Sound none ∧ ConnStep s.history s'.history) →
      ∃ s', o = some s' ∧ s'.Sound none ∧ (s.Ordered op → ConnStep s.history s'.history) := by
    rintro o ⟨s', hs', hsound, hstep⟩
    exact ⟨s', hs', hsound, fun _ => hstep⟩
  have hnext : ∀ n, { s with next := s.next + n }.Sound none := fun n =>
    ⟨⟨fun i hi => h.fresh i (Nat.le_of_add_right_le hi), h.holds, h.queued, h.nodup, h.held, h.held_nodup, h.listener,
      h.refs, fun p hp => ⟨(h.gone p hp).1.trans_le (Nat.le_add_right _ n), (h.gone p hp).2⟩, h.listens⟩, h.peers⟩
  cases op with
  | socket outcome =>
    cases outcome with
    | ok => exact hany ⟨_, rfl, h.socket_ok⟩
    | noMemory => exact hany ⟨s, rfl, h, .quiet s.history le_rfl⟩
    | noNode => exact hany ⟨_, rfl, hnext 1, .quiet s.history (Nat.le_add_right _ 1)⟩
    | noFd => exact absurd rfl hop
  | socketpair outcome =>
    cases outcome with
    | ok => exact hany h.socketpair_ok
    | noMemory => exact hany ⟨s, rfl, h, .quiet s.history le_rfl⟩
    | noNodes => exact hany ⟨_, rfl, hnext 2, .quiet s.history (Nat.le_add_right _ 2)⟩
    | oneNode first => exact absurd rfl (hop.2 first)
    | noFd => exact absurd rfl hop.1
  | listen i backlog => exact ⟨_, rfl, h.listen i backlog⟩
  | connect c l alloc grow => exact hany (h.connect c l alloc grow)
  | accept l =>
    refine hany ⟨_, rfl, h.accept l, ?_⟩
    rw [history_accept]
    exact .quiet s.history le_rfl
  | take i => exact hany (h.take i)
  | finish i ok grow =>
    cases ok with
    | true => exact hany (h.finish_ok i grow)
    | false => exact h.finish_fail i grow hop
  | close i => exact hany (h.close i)

theorem sound_boot : boot.Sound none where
  fresh _ _ := rfl
  holds _ _ hx := by cases hx
  queued _ _ hp := by cases hp
  nodup _ := nodup_nil
  held _ _ hp := by cases hp
  held_nodup := nodup_nil
  listener _ he := by cases he
  refs _ _ hx := by cases hx
  gone _ hp := by cases hp
  listens _ _ hx := by cases hx
  peers _ _ _ hx := by cases hx

theorem kept_boot : boot.history.Kept where
  lt_next _ _ hp := by cases hp
  nodup _ := nodup_nil
  disjoint _ _ _ hp := by cases hp
  order _ := nil_sublist _
  once _ _ hp := by cases hp

theorem Sound.close_peer {j : ℕ} {s' : SockSys} (h : s.Sound none) (hx : s.sock i = some x) (hj : x.peer = some j)
    (hs' : s.close i = some s') (hgone : s'.sock i = none) (hy : s'.sock j = some y) : y.peer = none := by
  unfold SockSys.close at hs'
  rw [hx] at hs'
  dsimp only at hs'
  split_ifs at hs' with howner
  · obtain ⟨s'', hs'', -, ⟨-, rfl⟩ | ⟨-, rfl⟩⟩ := (h.unown hx howner).release (sock_setSock_self ..)
    · obtain rfl := Option.some.inj (hs''.symm.trans hs')
      rw [sock_setSock_self] at hgone
      cases hgone
    · obtain rfl := Option.some.inj (hs''.symm.trans hs')
      obtain ⟨hne, z, hz, hzi⟩ := h.peers i x j hx hj
      obtain ⟨-, z', hz', rfl⟩ := sock_of_without hy
      obtain rfl := Option.some.inj (((sock_setSock_of_ne _ _ hne).trans hz).symm.trans hz')
      unfold PeerSock.unpeer
      dsimp only
      rw [hzi]
      exact filter_eq_none_iff.mpr fun k hk => by
        cases hk
        simp
  · cases hs'
    rw [hx] at hgone
    cases hgone

/-- No run frees a socket that is still used. Peers have each other as peer, and the peer of a socket that is
closed has none. -/
theorem peers_symmetric (ops : List SockOp) (hops : Runs.Meets SockSys.step SockSys.Linked ops boot) :
    ∃ s, Runs.run SockSys.step ops boot = some s ∧ s.PeersOk ∧
      ∀ i x j, s.sock i = some x → x.peer = some j → ∃ s', s.close i = some s' ∧
        (s'.sock i = none → ∀ y, s'.sock j = some y → y.peer = none) := by
  obtain ⟨s, hs, hsound⟩ : ∃ s, Runs.run SockSys.step ops boot = some s ∧ s.Sound none := by
    refine Runs.run_total (fun s op (h : s.Sound none) hop => ?_) sound_boot hops
    obtain ⟨s', hs', hsound, -⟩ := h.step hop
    exact ⟨s', hs', hsound⟩
  refine ⟨s, hs, hsound.peers, fun i x j hx hj => ?_⟩
  obtain ⟨s', hs', -, -⟩ := hsound.close i
  exact ⟨s', hs', fun hgone y hy => hsound.close_peer hx hj hs' hgone hy⟩

/-- Runs that close sockets on both ends, and one whose `accept` fails. -/
def someSockCalls : List SockOp :=
  [.socketpair .ok, .socket .ok, .listen 2 4, .socket .ok, .socket .ok, .connect 3 2 true true,
    .connect 4 2 true true, .accept 2, .accept 2, .take 0, .finish 0 false true, .take 0, .finish 0 true true,
    .close 0, .close 3, .close 2]

theorem peers_symmetric_someSockCalls : ∃ s, Runs.run SockSys.step someSockCalls boot = some s ∧ s.PeersOk ∧
    ∀ i x j, s.sock i = some x → x.peer = some j → ∃ s', s.close i = some s' ∧
      (s'.sock i = none → ∀ y, s'.sock j = some y → y.peer = none) :=
  peers_symmetric someSockCalls (by decide)

/-- Without room for its descriptors `unix_socket_pair` frees its sockets and closes them then. -/
theorem socketpair_closes_freed : ¬ ∀ ops : List SockOp, ∃ s, Runs.run SockSys.step ops boot = some s ∧ s.PeersOk ∧
    ∀ i x j, s.sock i = some x → x.peer = some j → ∃ s', s.close i = some s' ∧
      (s'.sock i = none → ∀ y, s'.sock j = some y → y.peer = none) := by
  intro hclaim
  obtain ⟨s, hs, -⟩ := hclaim [.socketpair .noFd]
  have hnone : (Runs.run SockSys.step [.socketpair .noFd] boot).isNone := by decide
  rw [hs] at hnone
  cases hnone

end SockSys

end CoolPotOS
