import CoolPotOS.Net.UnixCalls

namespace CoolPotOS

open Function List Option

/-- Where a `connect` is: before the listening socket has room, after it, with its two sockets linked, or at its
end, where the listening socket is named again, and the connecting one if it is connected. -/
inductive ConnectPlace
  | waiting | found
  | linked (server : ℕ)
  | leaving (connected : Bool)
  deriving DecidableEq

structure ConnectCall where
  client : ℕ
  listener : ℕ
  place : ConnectPlace

def ConnectCall.server (e : ConnectCall) : Option ℕ :=
  match e.place with
  | .linked p => some p
  | _ => none

/-- The sockets and the calls of `connect` on their way. -/
structure ConnSys where
  sys : SockSys
  connecting : List ConnectCall

namespace ConnSys

def boot : ConnSys := ⟨.boot, []⟩

variable (x : ConnSys)

def moveTo (i : ℕ) (e : ConnectCall) (place : ConnectPlace) : ConnSys :=
  { x with connecting := x.connecting.set i { e with place := place } }

/-- The start of `socket_connect`. A socket that `unix_socket_lookup_bound` finds has, or had, a descriptor; only
its node gets a reference. -/
def connect (c l : ℕ) : ConnSys :=
  match x.sys.sock c, x.sys.sock l with
  | some y, some z =>
    if y.owner ≠ .descriptor ∨ y.backlog.connMax ≠ 0 ∨ y.peer ≠ none then x
    else if c = l ∨ z.owner ≠ .descriptor ∧ z.owner ≠ .none then x
    else { x with connecting := x.connecting ++ [⟨c, l, .waiting⟩] }
  | _, _ => x

/-- The section that looks for room. -/
def look (i : ℕ) (stay : Bool) : Option ConnSys :=
  match x.connecting[i]? with
  | some ⟨c, l, .waiting⟩ =>
    (x.sys.sock l).map fun y =>
      if y.backlog.connMax = 0 then x.moveTo i ⟨c, l, .waiting⟩ (.leaving false)
      else if y.backlog.connCurr < y.backlog.connMax then x.moveTo i ⟨c, l, .waiting⟩ .found
      else if stay then x
      else x.moveTo i ⟨c, l, .waiting⟩ (.leaving false)
  | _ => some x

/-- The new socket is made and linked, without a lock. -/
def link (i : ℕ) (alloc : Bool) : Option ConnSys :=
  match x.connecting[i]? with
  | some ⟨c, l, .found⟩ =>
    (x.sys.sock l).bind fun _ =>
      if !alloc then some (x.moveTo i ⟨c, l, .found⟩ (.leaving false))
      else ((x.sys.alloc .connect).link x.sys.next c).map fun s =>
        { x.moveTo i ⟨c, l, .found⟩ (.linked x.sys.next) with sys := s }
  | _ => some x

/-- The section that puts the new socket into the backlog, and what is done when there is no room for it. -/
def enqueue (i : ℕ) (grow : Bool) : Option ConnSys :=
  match x.connecting[i]? with
  | some ⟨c, l, .linked p⟩ =>
    (x.sys.sock l).bind fun y =>
      match (if y.backlog.connMax = 0 ∨ y.backlog.connCurr ≥ y.backlog.connMax then none
        else y.backlog.enqueueTail p grow) with
      | some b =>
        (x.sys.sock p).map fun z =>
          { x.moveTo i ⟨c, l, .linked p⟩ (.leaving true) with
            sys :=
              { (x.sys.setOwner p z (.backlog l)).setSock l (some { y with backlog := b }) with
                connected := Function.update x.sys.connected l (x.sys.connected l ++ [p]) } }
      | none =>
        (x.sys.sock c).bind fun z =>
          ((x.sys.setSock c (some { z with peer := none })).free p).map fun s =>
            { x.moveTo i ⟨c, l, .linked p⟩ (.leaving false) with sys := s }
  | _ => some x

/-- The sockets are notified, and the node of the listening one is given back. -/
def leave (i : ℕ) : Option ConnSys :=
  match x.connecting[i]? with
  | some ⟨c, l, .leaving connected⟩ =>
    (x.sys.sock l).bind fun _ =>
      if connected ∧ x.sys.sock c = none then none
      else some { x with connecting := x.connecting.eraseIdx i }
  | _ => some x

end ConnSys

/-- The steps of `connect`, and the other calls. -/
inductive ConnOp
  | call (op : SockOp)
  | connect (c l : ℕ)
  | look (i : ℕ) (stay : Bool)
  | link (i : ℕ) (alloc : Bool)
  | enqueue (i : ℕ) (grow : Bool)
  | leave (i : ℕ)

def ConnSys.step (x : ConnSys) : ConnOp → Option ConnSys
  -- a `connect` is the steps below
  | .call (.connect ..) => some x
  | .call op => (x.sys.step op).map fun s => { x with sys := s }
  | .connect c l => some (x.connect c l)
  | .look i stay => x.look i stay
  | .link i alloc => x.link i alloc
  | .enqueue i grow => x.enqueue i grow
  | .leave i => x.leave i

namespace SockSys

variable {s s' : SockSys} {i p : ℕ} {x y : PeerSock} {e : Option ℕ} {F : ℕ → Prop} {owner : SockOwner}

/-- A socket that is not in `F` keeps its owner, and its peer if that is not in `F`. -/
def Stays (F : ℕ → Prop) (s s' : SockSys) : Prop :=
  ∀ q x, s.sock q = some x → ¬ F q →
    ∃ x', s'.sock q = some x' ∧ x'.owner = x.owner ∧ ((∀ j ∈ x.peer, ¬ F j) → x'.peer = x.peer)

theorem Stays.refl (F : ℕ → Prop) (s : SockSys) : s.Stays F s := fun _ x hx _ => ⟨x, hx, rfl, fun _ => rfl⟩

theorem Stays.trans {s'' : SockSys} (h : s.Stays F s') (h' : s'.Stays F s'') : s.Stays F s'' := by
  intro q x hx hq
  obtain ⟨x', hx', howner, hpeer⟩ := h q x hx hq
  obtain ⟨x'', hx'', howner', hpeer'⟩ := h' q x' hx' hq
  refine ⟨x'', hx'', howner'.trans howner, fun hj => ?_⟩
  have hsame := hpeer hj
  rw [hpeer' (by rwa [hsame]), hsame]

theorem stays_setSock (s : SockSys) (i : ℕ) (y : Option PeerSock) (hi : F i) : s.Stays F (s.setSock i y) := by
  intro q x hx hq
  have hqi : q ≠ i := by
    rintro rfl
    exact hq hi
  exact ⟨x, (sock_setSock_of_ne _ _ hqi).trans hx, rfl, fun _ => rfl⟩

theorem stays_setSock_same (F : ℕ → Prop) (hx : s.sock i = some x) (howner : y.owner = x.owner)
    (hpeer : y.peer = x.peer) : s.Stays F (s.setSock i (some y)) := by
  intro q z hz _
  by_cases hqi : q = i
  · subst hqi
    obtain rfl := Option.some.inj (hx.symm.trans hz)
    exact ⟨y, sock_setSock_self .., howner, fun _ => hpeer⟩
  · exact ⟨z, (sock_setSock_of_ne _ _ hqi).trans hz, rfl, fun _ => rfl⟩

theorem stays_without {D : List ℕ} (s : SockSys) (hD : ∀ d ∈ D, F d) : s.Stays F (s.without D) := by
  intro q x hx hq
  refine ⟨x.unpeer D, sock_without (fun hmem => hq (hD q hmem)) hx, rfl, fun hj => ?_⟩
  rw [PeerSock.unpeer_eq_self]
  intro j hmem hpeer
  exact hj j hpeer (hD j hmem)

theorem Sound.release_stays (h : s.Sound (some i)) (hx : s.sock i = some x) (hs' : s.release i = some s')
    (hF : x.refcount = 1 → F i ∧ ∀ p ∈ s.pendingOf i, F p) : s.Stays F s' := by
  obtain ⟨s'', hs'', -, ⟨-, rfl⟩ | ⟨hlast, rfl⟩⟩ := h.release hx
  · obtain rfl := Option.some.inj (hs''.symm.trans hs')
    exact stays_setSock_same F hx rfl rfl
  · obtain rfl := Option.some.inj (hs''.symm.trans hs')
    apply stays_without
    intro d hd
    rcases mem_append.mp hd with hd | hd
    · exact (hF hlast).2 d hd
    · rw [mem_singleton.mp hd]
      exact (hF hlast).1

/-- The call closes the descriptor of the socket, or gives back the last reference to it. -/
def Ends (s : SockSys) (q : ℕ) : SockOp → Prop
  | .close i => q = i ∧ s.OwnedBy i .descriptor
  | .finish k _ _ => ∃ a ∈ s.accepting[k]?, a.1 = q ∧ ∃ x ∈ s.sock q, x.refcount = 1
  | _ => False

/-- The sockets that a call may change: new ones, those in a backlog or with an `accept`, and the one that it
ends. -/
def Touches (s : SockSys) (op : SockOp) (q : ℕ) : Prop :=
  s.next ≤ q ∨ (∃ l, s.OwnedBy q (.backlog l)) ∨ s.OwnedBy q .accept ∨ s.Ends q op

theorem Counted.stays_queued (h : s.Counted e) (op : SockOp) (l : ℕ) : ∀ p ∈ s.pendingOf l, s.Touches op p :=
  fun p hp => .inr (.inl ⟨l, h.queued l p hp⟩)

theorem Sound.close_stays (h : s.Sound none) (hs' : s.close i = some s') : s.Stays (s.Touches (.close i)) s' := by
  unfold SockSys.close at hs'
  cases hx : s.sock i with
  | none =>
    rw [hx] at hs'
    cases hs'
    exact .refl _ _
  | some x =>
    rw [hx] at hs'
    dsimp only at hs'
    split_ifs at hs' with howner
    · have hi : s.Touches (.close i) i := .inr (.inr (.inr ⟨rfl, x, hx, howner⟩))
      have hown : s.Stays (s.Touches (.close i)) (s.setOwner i x .none) := stays_setSock s i _ hi
      refine hown.trans ?_
      refine (h.unown hx howner).release_stays (sock_setSock_self ..) hs' fun _ => ⟨hi, ?_⟩
      rw [SockSys.setOwner, pendingOf_setSock (y := { x with owner := .none }) hx rfl]
      exact h.stays_queued _ i
    · cases hs'
      exact .refl _ _

theorem Sound.take_stays {k : ℕ} (h : s.Sound none) (hs' : s.take k = some s') :
    s.Stays (s.Touches (.take k)) s' := by
  unfold SockSys.take at hs'
  split at hs'
  · rename_i l hk
    obtain ⟨x, hx, hs'⟩ := Option.bind_eq_some_iff.mp hs'
    split_ifs at hs' with hcurr
    · cases hs'
      exact .refl _ _
    · have hset := stays_setSock_same (s.Touches (.take k)) (y := { x with backlog := x.backlog.takeHead.2 }) hx rfl rfl
      dsimp only at hs'
      split at hs'
      · cases hs'
        exact hset
      · rename_i p hp
        obtain ⟨y, hy, rfl⟩ := Option.map_eq_some_iff.mp hs'
        refine hset.trans (stays_setSock _ p _ ?_)
        -- the connection that is taken waited
        have hholds := h.holds l x hx
        rw [← pendingOf_eq hx] at hholds
        apply h.stays_queued _ l
        cases hpending : s.pendingOf l with
        | nil =>
          have := hholds.length_eq
          rw [hpending] at this
          exact absurd this.symm hcurr
        | cons p' rest =>
          rw [hpending] at hholds
          obtain ⟨hp', -, -⟩ := hholds.takeHead
          obtain rfl := Option.some.inj (hp.symm.trans hp')
          exact mem_cons_self
  · cases hs'
    exact .refl _ _

theorem requeue_stays {l : ℕ} {grow : Bool} (h : s.PeersOk) (hp : F p) (hs' : s.requeue l p grow = some s') :
    s.Stays F s' := by
  obtain ⟨x, hx, hs'⟩ := Option.bind_eq_some_iff.mp hs'
  dsimp only at hs'
  split at hs'
  · rename_i b _
    obtain ⟨y, hy, rfl⟩ := Option.map_eq_some_iff.mp hs'
    have hfirst : s.Stays F (s.setOwner p y (.backlog l)) := stays_setSock s p _ hp
    refine Stays.trans hfirst ?_
    by_cases hl : l = p
    · exact stays_setSock _ l _ (hl ▸ hp)
    · exact stays_setSock_same F (y := { x with backlog := b }) ((sock_setSock_of_ne _ _ hl).trans hx) rfl rfl
  · cases hy : s.sock p with
    | none =>
      unfold SockSys.drop SockSys.unlinkPeer at hs'
      dsimp only at hs'
      rw [hy] at hs'
      cases hs'
    | some y =>
      have hdrop := PeersOk.drop_eq (s := { s with
        taken := update s.taken l ((s.taken l).erase p)
        dropped := s.dropped ++ [p] }) h hy false
      obtain rfl := Option.some.inj (hdrop.symm.trans hs')
      apply stays_without s
      intro d hd
      rwa [mem_singleton.mp hd]

theorem Sound.finish_stays {k : ℕ} {ok grow : Bool} (h : s.Sound none) (hop : s.Linked (.finish k ok grow))
    (hs' : s.finish k ok grow = some s') : s.Stays (s.Touches (.finish k ok grow)) s' := by
  unfold SockSys.finish at hs'
  cases hk : s.accepting[k]? with
  | none =>
    rw [hk] at hs'
    cases hs'
    exact .refl _ _
  | some a =>
    obtain ⟨l, q⟩ := a
    rw [hk] at hs'
    have hmem := mem_of_getElem? hk
    obtain ⟨x, hx, howner⟩ := h.listener_sock hmem
    have herase := h.eraseIdx hk
    have hlast : x.refcount = 1 → s.Touches (.finish k ok grow) l := fun hrefs =>
      .inr (.inr (.inr ⟨(l, q), hk, rfl, x, hx, hrefs⟩))
    cases q with
    | none => exact herase.release_stays hx hs' fun hrefs => ⟨hlast hrefs, h.stays_queued _ l⟩
    | some p =>
      obtain ⟨y, hy, hyo⟩ := h.held l p hmem
      have hp : s.Touches (.finish k ok grow) p := .inr (.inr (.inl ⟨y, hy, hyo⟩))
      have hpl : p ≠ l := ne_of_owner hx howner hy (by simp [hyo]) (by simp [hyo])
      dsimp only at hs'
      cases ok with
      | true =>
        rw [if_pos rfl, hy, bind_some] at hs'
        have hset : ({ s with accepting := s.accepting.eraseIdx k }.setOwner p y .descriptor).Sound (some l) := by
          apply herase.setOwner hy _ (h.notMem_eraseIdx hk) (by simp [hyo]) (by simp [hyo]) (by simp)
          intro j
          exact herase.notMem_pendingOf ⟨y, hy, hyo⟩ (by simp)
        have hown : s.Stays (s.Touches (.finish k true grow)) ({ s with
            accepting := s.accepting.eraseIdx k }.setOwner p y .descriptor) := stays_setSock s p _ hp
        refine hown.trans ?_
        refine hset.release_stays ((sock_setSock_of_ne _ _ hpl.symm).trans hx) hs' fun hrefs => ⟨hlast hrefs, ?_⟩
        have hpending := pendingOf_setSock (s := { s with accepting := s.accepting.eraseIdx k })
          (y := { y with owner := .descriptor }) hy rfl
        rw [SockSys.setOwner, hpending]
        exact h.stays_queued _ l
      | false =>
        obtain ⟨x', hx', hrefs⟩ := hop (l, some p) hk (by simp)
        obtain rfl := Option.some.inj (hx.symm.trans hx')
        obtain ⟨s1, hs1, hs2⟩ := Option.bind_eq_some_iff.mp hs'
        have hfirst : s.Stays (s.Touches (.finish k false grow)) s1 :=
          herase.release_stays hx hs1 fun hone => by omega
        refine hfirst.trans ?_
        obtain ⟨s2, hs2', hsound, -⟩ := herase.release hx
        obtain rfl := Option.some.inj (hs2'.symm.trans hs1)
        exact requeue_stays hsound.peers hp hs2

theorem Sound.step_stays {op : SockOp} (h : s.Sound none) (hop : s.Linked op)
    (hconnect : ∀ c l alloc grow, op ≠ .connect c l alloc grow) (hs' : s.step op = some s') :
    s.Stays (s.Touches op) s' := by
  have hnew : ∀ {op : SockOp} (s1 : SockSys), s1.next = s.next ∨ s1.next = s.next + 1 → ∀ owner,
      s1.Stays (s.Touches op) (s1.alloc owner) := fun s1 hnext owner =>
    stays_setSock s1 s1.next _ (.inl (by omega))
  cases op with
  | socket outcome =>
    cases outcome with
    | ok =>
      cases hs'
      exact hnew s (.inl rfl) _
    | noMemory | noNode =>
      cases hs'
      exact .refl _ _
    | noFd => exact absurd rfl hop
  | socketpair outcome =>
    cases outcome with
    | ok =>
      obtain ⟨x, -, hs'⟩ := Option.bind_eq_some_iff.mp hs'
      obtain ⟨y, -, rfl⟩ := Option.map_eq_some_iff.mp hs'
      refine (hnew s (.inl rfl) .descriptor).trans ((hnew _ (.inr rfl) .descriptor).trans ?_)
      have hfst : s.Touches (.socketpair .ok) s.next := .inl le_rfl
      have hsnd : s.Touches (.socketpair .ok) (s.next + 1) := .inl (Nat.le_succ _)
      exact (stays_setSock _ s.next _ hfst).trans (stays_setSock _ (s.next + 1) _ hsnd)
    | noMemory | noNodes =>
      cases hs'
      exact .refl _ _
    | oneNode first => exact absurd rfl (hop.2 first)
    | noFd => exact absurd rfl hop.1
  | listen i backlog =>
    cases hs'
    unfold SockSys.listen
    cases hx : s.sock i with
    | none => exact .refl _ _
    | some x =>
      dsimp only
      by_cases howner : x.owner = .descriptor
      · rw [if_pos howner]
        exact stays_setSock_same _ hx rfl rfl
      · rw [if_neg howner]
        exact .refl _ _
  | connect c l alloc grow => exact absurd rfl (hconnect c l alloc grow)
  | accept l =>
    cases hs'
    unfold SockSys.accept
    cases hx : s.sock l with
    | none => exact .refl _ _
    | some x =>
      dsimp only
      split_ifs
      · exact .refl _ _
      · exact stays_setSock_same _ (y := { x with refcount := x.refcount + 1 }) hx rfl rfl
  | take i => exact h.take_stays hs'
  | finish i ok grow => exact h.finish_stays hop hs'
  | close i => exact h.close_stays hs'

end SockSys

namespace ConnSys

variable {x : ConnSys} {i : ℕ} {e : ConnectCall} {place : ConnectPlace} {op : SockOp} {s : SockSys}

/-- A `connect` on its way has its sockets, and the one that it made is in no list yet. -/
structure Sound (x : ConnSys) : Prop where
  sys : x.sys.Sound none
  kept : x.sys.history.Kept
  client : ∀ e ∈ x.connecting, x.sys.OwnedBy e.client .descriptor
  listener : ∀ e ∈ x.connecting, x.sys.OwnedBy e.listener .descriptor ∨ x.sys.OwnedBy e.listener .none
  server : ∀ e ∈ x.connecting, ∀ p ∈ e.server,
    ∃ y, x.sys.sock p = some y ∧ y.owner = .connect ∧ y.peer = some e.client
  unseen : ∀ e ∈ x.connecting, ∀ p ∈ e.server, ∀ k, p ∉ x.sys.connected k
  nodup : (x.connecting.filterMap ConnectCall.server).Nodup

/-- The call gives back the last reference to no socket that a `connect` on its way names, and closes none that
connects. -/
def Spares (x : ConnSys) : SockOp → Prop
  | .close i => ∀ e ∈ x.connecting, e.client ≠ i ∧ (e.listener = i → ∃ y ∈ x.sys.sock i, 1 < y.refcount)
  | .finish k _ _ => ∀ a ∈ x.sys.accepting[k]?, ∀ e ∈ x.connecting, e.listener = a.1 →
    ∃ y ∈ x.sys.sock a.1, 1 < y.refcount
  | _ => True

/-- A socket is not connected by another `connect` while one is on its way, and the other calls spare it. -/
def Undisturbed (x : ConnSys) : ConnOp → Prop
  | .call op => x.sys.Linked op ∧ x.sys.Ordered op ∧ x.Spares op
  | .link i true => ∀ e ∈ x.connecting[i]?, ∃ y ∈ x.sys.sock e.client, y.peer = none
  | _ => True

theorem Sound.setConnecting {es : List ConnectCall} (h : x.Sound) (hes : ∀ e ∈ es, ∃ e' ∈ x.connecting,
    e.client = e'.client ∧ e.listener = e'.listener ∧ ∀ p ∈ e.server, p ∈ e'.server)
    (hnodup : (es.filterMap ConnectCall.server).Nodup) : { x with connecting := es }.Sound where
  sys := h.sys
  kept := h.kept
  client e he := by
    obtain ⟨e', he', hc, -⟩ := hes e he
    rw [hc]
    exact h.client e' he'
  listener e he := by
    obtain ⟨e', he', -, hl, -⟩ := hes e he
    rw [hl]
    exact h.listener e' he'
  server e he p hp := by
    obtain ⟨e', he', hc, -, hserver⟩ := hes e he
    rw [hc]
    exact h.server e' he' p (hserver p hp)
  unseen e he p hp := by
    obtain ⟨e', he', -, -, hserver⟩ := hes e he
    exact h.unseen e' he' p (hserver p hp)
  nodup := hnodup

theorem Sound.moveTo (h : x.Sound) (hi : x.connecting[i]? = some e) (hplace : ∀ p, place ≠ .linked p) :
    (x.moveTo i e place).Sound := by
  have hserver : ConnectCall.server { e with place := place } = none := by
    unfold ConnectCall.server
    cases place with
    | linked p => exact absurd rfl (hplace p)
    | waiting | found | leaving => rfl
  apply h.setConnecting
  · intro e' he'
    rcases mem_or_eq_of_mem_set he' with he' | rfl
    · exact ⟨e', he', rfl, rfl, fun _ hp => hp⟩
    · refine ⟨e, mem_of_getElem? hi, rfl, rfl, fun p hp => ?_⟩
      rw [hserver] at hp
      cases hp
  · have hperm := perm_filterMap_set ConnectCall.server hi { e with place := place }
    rw [hserver] at hperm
    exact (nodup_append.mp (hperm.nodup_iff.mpr h.nodup)).2.1

theorem Sound.eraseIdx (h : x.Sound) (i : ℕ) : { x with connecting := x.connecting.eraseIdx i }.Sound := by
  apply h.setConnecting
  · intro e he
    exact ⟨e, mem_of_mem_eraseIdx he, rfl, rfl, fun _ hp => hp⟩
  · exact h.nodup.sublist ((eraseIdx_sublist _ i).filterMap _)

theorem Sound.sock_listener (h : x.Sound) (he : e ∈ x.connecting) :
    ∃ y, x.sys.sock e.listener = some y ∧ (y.owner = .descriptor ∨ y.owner = .none) := by
  rcases h.listener e he with ⟨y, hy, howner⟩ | ⟨y, hy, howner⟩
  · exact ⟨y, hy, .inl howner⟩
  · exact ⟨y, hy, .inr howner⟩

theorem Sound.connect (h : x.Sound) (c l : ℕ) : (x.connect c l).Sound := by
  unfold ConnSys.connect
  split
  · rename_i y z hy hz
    split_ifs with hclient hlistener
    · exact h
    · exact h
    · simp only [not_or, not_not] at hclient
      have howner : z.owner = .descriptor ∨ z.owner = .none := by tauto
      have hnodup : ((x.connecting ++ [(⟨c, l, .waiting⟩ : ConnectCall)]).filterMap ConnectCall.server).Nodup := by
        rw [filterMap_append, filterMap_cons_none rfl, filterMap_nil, append_nil]
        exact h.nodup
      have hmem : ∀ e : ConnectCall, e ∈ x.connecting ++ [⟨c, l, .waiting⟩] →
          e ∈ x.connecting ∨ e = ⟨c, l, .waiting⟩ := fun e he => by simpa using he
      refine ⟨h.sys, h.kept, ?_, ?_, ?_, ?_, hnodup⟩
      · intro e he
        rcases hmem e he with he | rfl
        · exact h.client e he
        · exact ⟨y, hy, hclient.1⟩
      · intro e he
        rcases hmem e he with he | rfl
        · exact h.listener e he
        · exact howner.imp (fun ho => ⟨z, hz, ho⟩) (fun ho => ⟨z, hz, ho⟩)
      · intro e he p hp
        rcases hmem e he with he | rfl
        · exact h.server e he p hp
        · cases hp
      · intro e he p hp
        rcases hmem e he with he | rfl
        · exact h.unseen e he p hp
        · cases hp
  · exact h

theorem Sound.look (h : x.Sound) (i : ℕ) (stay : Bool) : ∃ x', x.look i stay = some x' ∧ x'.Sound := by
  unfold ConnSys.look
  split
  · rename_i c l hi
    obtain ⟨y, hy, -⟩ := h.sock_listener (mem_of_getElem? hi)
    dsimp only at hy
    rw [hy, map_some]
    refine ⟨_, rfl, ?_⟩
    split_ifs
    · exact h.moveTo hi (by simp)
    · exact h.moveTo hi (by simp)
    · exact h
    · exact h.moveTo hi (by simp)
  · exact ⟨x, rfl, h⟩

theorem Sound.leave (h : x.Sound) (i : ℕ) : ∃ x', x.leave i = some x' ∧ x'.Sound := by
  unfold ConnSys.leave
  split
  · rename_i c l connected hi
    have hmem := mem_of_getElem? hi
    obtain ⟨y, hy, -⟩ := h.sock_listener hmem
    obtain ⟨z, hz, -⟩ := h.client _ hmem
    dsimp only at hy hz
    rw [hy, bind_some, if_neg (by simp [hz])]
    exact ⟨_, rfl, h.eraseIdx i⟩
  · exact ⟨x, rfl, h⟩

theorem Sound.link (h : x.Sound) {alloc : Bool} (hop : x.Undisturbed (.link i alloc)) :
    ∃ x', x.link i alloc = some x' ∧ x'.Sound := by
  unfold ConnSys.link
  split
  · rename_i c l hi
    have hmem := mem_of_getElem? hi
    obtain ⟨y, hy, hyo⟩ := h.sock_listener hmem
    have hcli : x.sys.OwnedBy c .descriptor := h.client _ hmem
    have hlis : x.sys.OwnedBy l .descriptor ∨ x.sys.OwnedBy l .none := h.listener _ hmem
    obtain ⟨z, hz, hzo⟩ := hcli
    dsimp only at hy
    rw [hy, bind_some]
    cases alloc with
    | false => exact ⟨_, rfl, h.moveTo hi (by simp)⟩
    | true =>
      have hpeer : z.peer = none := by
        obtain ⟨z', hz', hpeer⟩ := hop _ hi
        obtain rfl := Option.some.inj (hz.symm.trans hz')
        exact hpeer
      obtain ⟨s2, hlink, h2, hhistory, hserver, hclient, hsock⟩ :=
        h.sys.linkNew (by simp : SockOwner.connect ≠ .none) hz hpeer
      rw [if_neg (by simp), hlink, map_some]
      have howned : ∀ q o, x.sys.OwnedBy q o → s2.OwnedBy q o := by
        rintro q o ⟨w, hw, rfl⟩
        by_cases hqc : q = c
        · subst hqc
          obtain rfl := Option.some.inj (hz.symm.trans hw)
          exact ⟨_, hclient, rfl⟩
        · exact ⟨w, (hsock q (h.sys.lt_next hw) hqc).trans hw, rfl⟩
      have hin : ∀ e ∈ x.connecting.set i ⟨c, l, .linked x.sys.next⟩, e ∈ x.connecting ∨
          e = ⟨c, l, .linked x.sys.next⟩ := fun e he => mem_or_eq_of_mem_set he
      have hfresh : ∀ e ∈ x.connecting, ∀ p ∈ e.server, p < x.sys.next := by
        intro e he p hp
        obtain ⟨w, hw, -⟩ := h.server e he p hp
        exact h.sys.lt_next hw
      have hconnected : s2.connected = x.sys.connected := congrArg ConnHistory.connected hhistory
      refine ⟨_, rfl, h2, ?_, ?_, ?_, ?_, ?_, ?_⟩
      · change s2.history.Kept
        rw [hhistory]
        have hstep := ConnStep.quiet x.sys.history (Nat.le_succ _)
        exact h.kept.step (fun p hp => (h.sys.gone p hp).1) hstep
      · intro e he
        rcases hin e he with he | rfl
        · exact howned _ _ (h.client e he)
        · exact ⟨_, hclient, hzo⟩
      · intro e he
        rcases hin e he with he | rfl
        · exact (h.listener e he).imp (howned _ _) (howned _ _)
        · exact hlis.imp (howned _ _) (howned _ _)
      · intro e he p hp
        rcases hin e he with he | rfl
        · obtain ⟨w, hw, hwo, hwc⟩ := h.server e he p hp
          have hpc : p ≠ c := by
            rintro rfl
            obtain rfl := Option.some.inj (hz.symm.trans hw)
            rw [hzo] at hwo
            cases hwo
          exact ⟨w, (hsock p (hfresh e he p hp) hpc).trans hw, hwo, hwc⟩
        · cases hp
          exact ⟨_, hserver, rfl, rfl⟩
      · intro e he p hp k
        change p ∉ s2.connected k
        rw [hconnected]
        rcases hin e he with he | rfl
        · exact h.unseen e he p hp k
        · cases hp
          exact fun hk => (h.kept.lt_next k _ hk).false
      · have hperm := perm_filterMap_set ConnectCall.server hi ⟨c, l, .linked x.sys.next⟩
        refine hperm.nodup_iff.mpr (nodup_cons.mpr ⟨fun hnext => ?_, h.nodup⟩)
        obtain ⟨e, he, hp⟩ := mem_filterMap.mp hnext
        exact (hfresh e he _ hp).false
  · exact ⟨x, rfl, h⟩

/-- The new socket of a `connect` leaves it. -/
theorem Sound.hand {c l p : ℕ} (h : x.Sound) (hi : x.connecting[i]? = some ⟨c, l, .linked p⟩)
    (hplace : ∀ p, place ≠ .linked p) (hs : s.Sound none) (hkept : s.history.Kept)
    (howned : ∀ q o, q ≠ p → x.sys.OwnedBy q o → s.OwnedBy q o)
    (hsock : ∀ q, q ≠ p → q ≠ c → q ≠ l → s.sock q = x.sys.sock q)
    (hconnected : ∀ q k, q ≠ p → q ∈ s.connected k → q ∈ x.sys.connected k) :
    { x.moveTo i ⟨c, l, .linked p⟩ place with sys := s }.Sound := by
  have hmoved := h.moveTo hi hplace
  have hmem := mem_of_getElem? hi
  obtain ⟨y, hy, hyo, -⟩ := h.server _ hmem p rfl
  have hne : ∀ {q : ℕ} {o : SockOwner}, x.sys.OwnedBy q o → o ≠ .connect → q ≠ p := by
    rintro q o hq ho rfl
    exact ho (hq.unique ⟨y, hy, hyo⟩)
  have hother : ∀ e ∈ (x.moveTo i ⟨c, l, .linked p⟩ place).connecting, ∀ q ∈ e.server, q ≠ p := by
    rintro e he q hq rfl
    have hperm := perm_filterMap_set ConnectCall.server hi ⟨c, l, place⟩
    have hnone : ConnectCall.server ⟨c, l, place⟩ = none := by
      unfold ConnectCall.server
      cases place with
      | linked p => exact absurd rfl (hplace p)
      | waiting | found | leaving => rfl
    rw [hnone] at hperm
    have hnodup := (hperm.nodup_iff.mpr h.nodup)
    exact (nodup_cons.mp hnodup).1 (mem_filterMap.mpr ⟨e, he, hq⟩)
  refine ⟨hs, hkept, ?_, ?_, ?_, ?_, hmoved.nodup⟩
  · intro e he
    have hc := hmoved.client e he
    exact howned _ _ (hne hc (by simp)) hc
  · intro e he
    exact (hmoved.listener e he).imp (fun hl => howned _ _ (hne hl (by simp)) hl) fun hl =>
      howned _ _ (hne hl (by simp)) hl
  · intro e he q hq
    obtain ⟨w, hw, hwo, hwc⟩ := hmoved.server e he q hq
    refine ⟨w, (hsock q (hother e he q hq) ?_ ?_).trans hw, hwo, hwc⟩
    · rintro rfl
      have := (h.client _ hmem).unique ⟨w, hw, hwo⟩
      cases this
    · rintro rfl
      rcases h.listener _ hmem with hl | hl
      all_goals
        have := hl.unique ⟨w, hw, hwo⟩
        cases this
  · intro e he q hq k hk
    exact hmoved.unseen e he q hq k (hconnected q k (hother e he q hq) hk)

theorem Sound.enqueue (h : x.Sound) (i : ℕ) (grow : Bool) : ∃ x', x.enqueue i grow = some x' ∧ x'.Sound := by
  unfold ConnSys.enqueue
  split
  · rename_i c l p hi
    have hmem := mem_of_getElem? hi
    obtain ⟨y, hy, hyo⟩ := h.sock_listener hmem
    obtain ⟨z, hz, hzo, hzc⟩ := h.server _ hmem p rfl
    obtain ⟨w, hw, hwo⟩ := h.client _ hmem
    dsimp only at hy hyo hzc hw
    have hp : x.sys.OwnedBy p .connect := ⟨z, hz, hzo⟩
    have hq : ∀ k, p ∉ x.sys.pendingOf k := fun k => h.sys.notMem_pendingOf hp (by simp)
    have ha : ∀ k, (k, some p) ∉ x.sys.accepting := by
      intro k hk
      have := hp.unique (h.sys.held k p hk)
      cases this
    rw [hy, bind_some]
    cases hb : (if y.backlog.connMax = 0 ∨ y.backlog.connCurr ≥ y.backlog.connMax then none
        else y.backlog.enqueueTail p grow) with
    | some b =>
      have hb' : y.backlog.enqueueTail p grow = some b := by
        split_ifs at hb
        exact hb
      obtain ⟨hholds, -⟩ := (h.sys.holds l y hy).enqueueTail hb'
      rw [← SockSys.pendingOf_eq hy] at hholds
      obtain ⟨h2, hpending⟩ := h.sys.toBacklog hy hyo hz (.inr hzo) ha hholds (perm_append_singleton _ _)
      dsimp only
      rw [hz, map_some]
      refine ⟨_, rfl, h.hand hi (by simp) (h2.setHistory _ x.sys.taken) ?_ ?_ ?_ ?_⟩
      · have hdropped : p ∉ x.sys.dropped := by
          intro hin
          have hnone := (h.sys.gone p hin).2
          rw [hz] at hnone
          cases hnone
        have hkept := h.kept.connect le_rfl (h.sys.lt_next hz) (h.unseen _ hmem p rfl) hdropped l
        change ConnHistory.Kept ⟨_, x.sys.taken, ((x.sys.setOwner p z (.backlog l)).setSock l _).pendingOf,
          x.sys.dropped, x.sys.next⟩
        rw [hpending]
        exact hkept
      · intro q o hqp howned
        have hown1 : (x.sys.setOwner p z (.backlog l)).OwnedBy q o := howned.setSock fun heq => absurd heq hqp
        have hpl : p ≠ l := SockSys.ne_of_owner hy hyo hz (by simp [hzo]) (by simp [hzo])
        exact hown1.setSock_same ((SockSys.sock_setSock_of_ne _ _ hpl.symm).trans hy) rfl
      · intro q hqp _ hql
        exact (SockSys.sock_setSock_of_ne _ _ hql).trans (SockSys.sock_setSock_of_ne _ _ hqp)
      · intro q k hqp hin
        dsimp only at hin
        by_cases hkl : k = l
        · subst hkl
          rw [update_self, mem_append, mem_singleton] at hin
          exact hin.resolve_right hqp
        · rwa [update_of_ne hkl] at hin
    | none =>
      obtain ⟨hdrop, hsound, hpending⟩ := h.sys.drop hp (by simp) (by simp) hq ha false
      -- the peer of the new socket is the one that connects
      have hundo : (x.sys.setSock c (some { w with peer := none })).free p = some (x.sys.without [p]) := by
        rw [← hdrop]
        unfold SockSys.drop SockSys.unlinkPeer
        rw [hz, bind_some, hzc]
        dsimp only
        rw [hw, map_some, bind_some, if_neg (by simp)]
      dsimp only
      rw [hw, bind_some, hundo, map_some]
      refine ⟨_, rfl, h.hand hi (by simp) hsound ?_ ?_ ?_ ?_⟩
      · have hhistory : (x.sys.without [p]).history = x.sys.history := by
          unfold SockSys.history
          rw [hpending]
          rfl
        rw [hhistory]
        exact h.kept
      · intro q o hqp howned
        exact howned.without (by simpa using hqp)
      · intro q hqp hqc _
        cases hsock : x.sys.sock q with
        | none =>
          unfold SockSys.without
          dsimp only
          rw [hsock, map_none, ite_self]
        | some v =>
          rw [SockSys.sock_without (by simpa using hqp) hsock, PeerSock.unpeer_eq_self]
          intro j hj hvj
          obtain rfl := mem_singleton.mp hj
          obtain ⟨-, z', hz', hzq⟩ := h.sys.peers q v j hsock hvj
          obtain rfl := Option.some.inj (hz.symm.trans hz')
          exact hqc (Option.some.inj (hzq.symm.trans hzc))
      · exact fun q k _ hin => hin
  · exact ⟨x, rfl, h⟩

theorem Sound.not_touches {q : ℕ} {owner : SockOwner} (h : x.Sound) (hq : x.sys.OwnedBy q owner)
    (howner : owner = .descriptor ∨ owner = .none ∨ owner = .connect) (hends : ¬ x.sys.Ends q op) :
    ¬ x.sys.Touches op q := by
  rintro (hnew | ⟨l, hl⟩ | ha | he)
  · obtain ⟨y, hy, -⟩ := hq
    rw [h.sys.fresh q hnew] at hy
    cases hy
  · have := hq.unique hl
    simp [this] at howner
  · have := hq.unique ha
    simp [this] at howner
  · exact hends he

theorem Sound.not_ends_client (h : x.Sound) (hop : x.Spares op) (he : e ∈ x.connecting) :
    ¬ x.sys.Ends e.client op := by
  cases op with
  | close i => exact fun hend => (hop e he).1 hend.1
  | finish k ok grow =>
    rintro ⟨a, ha, hac, y, hy, hone⟩
    -- the descriptor of the socket is a second reference
    obtain ⟨y', hy', hyo⟩ := h.client e he
    obtain rfl := Option.some.inj (hy.symm.trans hy')
    have hrefs := h.sys.refs _ y hy
    have hpos : 0 < x.sys.accepting.countP (·.1 = e.client) :=
      countP_pos_iff.mpr ⟨a, mem_of_getElem? ha, by simpa using hac⟩
    rw [hone, if_neg (by simp [hyo])] at hrefs
    omega
  | socket | socketpair | listen | connect | accept | take => exact id

theorem Sound.not_ends_server {p : ℕ} (h : x.Sound) (hp : x.sys.OwnedBy p .connect) : ¬ x.sys.Ends p op := by
  cases op with
  | close i =>
    rintro ⟨rfl, hown⟩
    have := hp.unique hown
    cases this
  | finish k ok grow =>
    rintro ⟨a, ha, rfl, -⟩
    rcases h.sys.listener a (mem_of_getElem? ha) with hl | hl
    all_goals
      have := hp.unique hl
      cases this
  | socket | socketpair | listen | connect | accept | take => exact id

/-- A listening socket loses its descriptor at most, as another reference to it is left. -/
theorem Sound.listener_step (h : x.Sound) (hlinked : x.sys.Linked op) (hop : x.Spares op)
    (hconnect : ∀ c l alloc grow, op ≠ .connect c l alloc grow) (hs : x.sys.step op = some s)
    (he : e ∈ x.connecting) : s.OwnedBy e.listener .descriptor ∨ s.OwnedBy e.listener .none := by
  have hstays := h.sys.step_stays hlinked hconnect hs
  obtain ⟨y, hy, hyo⟩ := h.sock_listener he
  by_cases hend : x.sys.Ends e.listener op
  · cases op with
    | close i =>
      obtain ⟨rfl, y', hy', hyo'⟩ := hend
      obtain rfl := Option.some.inj (hy.symm.trans hy')
      obtain ⟨z, hz, hrefs⟩ := (hop e he).2 rfl
      obtain rfl := Option.some.inj (hy.symm.trans hz)
      change x.sys.close e.listener = some s at hs
      unfold SockSys.close at hs
      rw [hy] at hs
      dsimp only at hs
      rw [if_pos hyo'] at hs
      obtain ⟨s', hs', -, ⟨-, rfl⟩ | ⟨hone, -⟩⟩ := (h.sys.unown hy hyo').release (SockSys.sock_setSock_self ..)
      · obtain rfl := Option.some.inj (hs'.symm.trans hs)
        exact .inr ⟨_, SockSys.sock_setSock_self .., rfl⟩
      · dsimp only at hone
        omega
    | finish k ok grow =>
      obtain ⟨a, ha, hal, z, hz, hone⟩ := hend
      obtain ⟨z', hz', hrefs⟩ := hop a ha e he hal.symm
      rw [hal] at hz'
      obtain rfl := Option.some.inj (hz.symm.trans hz')
      omega
    | socket | socketpair | listen | connect | accept | take => exact hend.elim
  · have howner : y.owner = .descriptor ∨ y.owner = .none ∨ y.owner = .connect := by tauto
    obtain ⟨y', hy', hsame, -⟩ := hstays _ y hy (h.not_touches ⟨y, hy, rfl⟩ howner hend)
    rw [← hsame] at hyo
    exact hyo.imp (fun ho => ⟨y', hy', ho⟩) (fun ho => ⟨y', hy', ho⟩)

theorem Sound.call (h : x.Sound) (hop : x.Undisturbed (.call op))
    (hconnect : ∀ c l alloc grow, op ≠ .connect c l alloc grow) :
    ∃ s, x.sys.step op = some s ∧ { x with sys := s }.Sound := by
  obtain ⟨hlinked, hordered, hspares⟩ := hop
  obtain ⟨s, hs, hsound, hstep⟩ := h.sys.step hlinked
  have hhistory := hstep hordered
  have hstays := h.sys.step_stays hlinked hconnect hs
  have hclient : ∀ e ∈ x.connecting, ¬ x.sys.Touches op e.client := fun e he =>
    h.not_touches (h.client e he) (.inl rfl) (h.not_ends_client hspares he)
  refine ⟨s, hs, hsound, ?_, ?_, fun e he => h.listener_step hlinked hspares hconnect hs he, ?_, ?_, h.nodup⟩
  · exact h.kept.step (fun p hp => (h.sys.gone p hp).1) hhistory
  · intro e he
    obtain ⟨y, hy, hyo⟩ := h.client e he
    obtain ⟨y', hy', hsame, -⟩ := hstays _ y hy (hclient e he)
    exact ⟨y', hy', hsame.trans hyo⟩
  · intro e he p hp
    obtain ⟨y, hy, hyo, hyc⟩ := h.server e he p hp
    have hown : x.sys.OwnedBy p .connect := ⟨y, hy, hyo⟩
    obtain ⟨y', hy', hsame, hpeer⟩ :=
      hstays p y hy (h.not_touches hown (.inr (.inr rfl)) (h.not_ends_server hown))
    refine ⟨y', hy', hsame.trans hyo, (hpeer fun j hj => ?_).trans hyc⟩
    obtain rfl := Option.some.inj (hyc.symm.trans hj)
    exact hclient e he
  · intro e he p hp k
    obtain ⟨y, hy, -⟩ := h.server e he p hp
    exact ConnHistory.notMem_connected hhistory (h.sys.lt_next hy) (h.unseen e he p hp k)

theorem Sound.step {op : ConnOp} (h : x.Sound) (hop : x.Undisturbed op) : ∃ x', x.step op = some x' ∧ x'.Sound := by
  cases op with
  | call op =>
    by_cases hconnect : ∀ c l alloc grow, op ≠ .connect c l alloc grow
    · obtain ⟨s, hs, hsound⟩ := h.call hop hconnect
      refine ⟨_, ?_, hsound⟩
      cases op with
      | connect c l alloc grow => exact absurd rfl (hconnect c l alloc grow)
      | socket | socketpair | listen | accept | take | finish | close =>
        exact congrArg (Option.map fun s => { x with sys := s }) hs
    · push Not at hconnect
      obtain ⟨c, l, alloc, grow, rfl⟩ := hconnect
      exact ⟨x, rfl, h⟩
  | connect c l => exact ⟨_, rfl, h.connect c l⟩
  | look i stay => exact h.look i stay
  | link i alloc => exact h.link hop
  | enqueue i grow => exact h.enqueue i grow
  | leave i => exact h.leave i

theorem sound_boot : boot.Sound where
  sys := SockSys.sound_boot
  kept := SockSys.kept_boot
  client _ he := by cases he
  listener _ he := by cases he
  server _ he := by cases he
  unseen _ he := by cases he
  nodup := nodup_nil

end ConnSys

namespace SockSys

/-- What a listening socket does with its connections: they are taken in the order of the calls that made them,
each is taken once, waits or is dropped, and the backlog has room for those that wait. -/
structure ConnectionsKept (s : SockSys) : Prop where
  order : ∀ l, (s.taken l ++ s.pendingOf l).Sublist (s.connected l)
  nodup : ∀ l, (s.connected l).Nodup
  once : ∀ l, ∀ p ∈ s.connected l, (p ∈ s.taken l ++ s.pendingOf l ↔ p ∉ s.dropped)
  disconnected : ∀ p ∈ s.dropped, s.sock p = none ∧ ∀ i x, s.sock i = some x → x.peer ≠ some p
  room : ∀ l x, s.sock l = some x → (s.pendingOf l).length ≤ x.backlog.connMax
  entries : ∀ l x, s.sock l = some x → x.backlog.contents = (s.pendingOf l).map some
  alive : ∀ l, ∀ p ∈ s.pendingOf l, (s.sock p).isSome

end SockSys

namespace ConnSys

theorem Sound.connectionsKept {x : ConnSys} (h : x.Sound) : x.sys.ConnectionsKept := by
  refine ⟨h.kept.order, h.kept.nodup, h.kept.once, ?_, ?_, ?_, ?_⟩
  · intro p hp
    have hnone := (h.sys.gone p hp).2
    refine ⟨hnone, fun i y hy hpeer => ?_⟩
    obtain ⟨-, z, hz, -⟩ := h.sys.peers i y p hy hpeer
    rw [hnone] at hz
    cases hz
  · intro l y hy
    have hholds := h.sys.holds l y hy
    rw [SockSys.pendingOf_eq hy, hholds.length_eq]
    exact hholds.curr_le.trans hholds.cap_le
  · intro l y hy
    rw [SockSys.pendingOf_eq hy]
    exact (h.sys.holds l y hy).contents_eq
  · intro l p hp
    obtain ⟨y, hy, -⟩ := h.sys.queued l p hp
    rw [hy]
    rfl

instance decidableSpares (x : ConnSys) : ∀ op, Decidable (x.Spares op)
  | .close i => inferInstanceAs (Decidable (∀ e ∈ x.connecting, e.client ≠ i ∧
      (e.listener = i → ∃ y ∈ x.sys.sock i, 1 < y.refcount)))
  | .finish k _ _ => inferInstanceAs (Decidable (∀ a ∈ x.sys.accepting[k]?, ∀ e ∈ x.connecting,
      e.listener = a.1 → ∃ y ∈ x.sys.sock a.1, 1 < y.refcount))
  | .socket _ | .socketpair _ | .listen .. | .connect .. | .accept _ | .take _ => .isTrue trivial

instance decidableUndisturbed (x : ConnSys) : ∀ op, Decidable (x.Undisturbed op)
  | .call op => inferInstanceAs (Decidable (x.sys.Linked op ∧ x.sys.Ordered op ∧ x.Spares op))
  | .link i true => inferInstanceAs (Decidable (∀ e ∈ x.connecting[i]?, ∃ y ∈ x.sys.sock e.client, y.peer = none))
  | .link _ false | .connect .. | .look .. | .enqueue .. | .leave _ => .isTrue trivial

/-- Two sockets connect while a third waits, one finds that the backlog is full then, and an `accept` fails. -/
def someConnects : List ConnOp :=
  [.call (.socket .ok), .call (.listen 0 1), .call (.socket .ok), .call (.socket .ok), .call (.socket .ok),
    .connect 1 0, .connect 2 0, .look 0 true, .look 1 true, .link 0 true, .link 1 true, .enqueue 1 true,
    .connect 3 0, .look 2 true, .enqueue 0 true, .leave 0, .call (.accept 0), .call (.take 0), .look 1 true,
    .link 1 true, .call (.finish 0 false true), .enqueue 1 true, .leave 0, .leave 0, .call (.accept 0),
    .call (.take 0), .call (.finish 0 true true), .call (.close 2), .call (.close 0)]

/-- A listening socket that is closed is freed, also when a `connect` waits for it. -/
example : (Runs.run ConnSys.step [.call (.socket .ok), .call (.listen 0 1), .call (.socket .ok), .connect 1 0,
    .call (.close 0), .look 0 true] boot).isNone := by decide

end ConnSys

end CoolPotOS
