import CoolPotOS.Lib.Runs
import CoolPotOS.Net.UnixBacklog

namespace CoolPotOS

open Function List Option

/-- Who has a socket: the backlog of a listening one, an `accept` or a `connect` that is on its way, or a
descriptor. -/
inductive SockOwner
  | backlog (l : ℕ)
  | accept
  | connect
  | descriptor
  | none
  deriving DecidableEq

/-- The part of `socket_t` that connects sockets. A socket that is closed is freed at once. -/
structure PeerSock where
  peer : Option ℕ
  backlog : Backlog
  refcount : ℕ
  owner : SockOwner

structure SockSys where
  sock : ℕ → Option PeerSock
  next : ℕ
  /-- The calls of `accept` on their way, with their listening socket and the connection they have taken. -/
  accepting : List (ℕ × Option ℕ)
  connected : ℕ → List ℕ
  taken : ℕ → List ℕ
  dropped : List ℕ

def SockSys.boot : SockSys := ⟨fun _ => none, 0, [], fun _ => [], fun _ => [], []⟩

/-- How `socket_socket` ends. -/
inductive SocketOutcome
  | ok | noMemory | noNode | noFd
  deriving DecidableEq

/-- How `unix_socket_pair` ends. -/
inductive PairOutcome
  | ok | noMemory | noNodes | oneNode (first : Bool) | noFd
  deriving DecidableEq

def Backlog.pending (b : Backlog) : List ℕ := b.contents.reduceOption

namespace SockSys

variable (s : SockSys)

def setSock (i : ℕ) (x : Option PeerSock) : SockSys := { s with sock := Function.update s.sock i x }

def alloc (owner : SockOwner) : SockSys :=
  { s.setSock s.next (some ⟨none, .new 0, 1, owner⟩) with next := s.next + 1 }

def free (i : ℕ) : Option SockSys := (s.sock i).map fun _ => s.setSock i none

/-- The peer of a socket gets no peer; for a pending connection only if it has this one. -/
def unlinkPeer (i : ℕ) (checked : Bool) : Option SockSys :=
  (s.sock i).bind fun x =>
    match x.peer with
    | none => some s
    | some j =>
      (s.sock j).map fun y =>
        if checked ∧ y.peer ≠ some i then s else s.setSock j (some { y with peer := none })

def drop (i : ℕ) (checked : Bool) : Option SockSys := (s.unlinkPeer i checked).bind fun s => s.free i

def dropAll : List ℕ → SockSys → Option SockSys
  | [], s => some s
  | p :: ps, s => (s.drop p true).bind (dropAll ps)

/-- `socket_close` after the last reference. -/
def teardown (i : ℕ) : Option SockSys :=
  (s.sock i).bind fun x =>
    let pending :=
      if x.backlog.connMax > 0 ∧ x.backlog.backlogCap > 0 ∧ x.backlog.connCurr > 0 then x.backlog.pending
      else []
    (dropAll pending s).bind fun s => { s with dropped := s.dropped ++ pending }.drop i false

def release (i : ℕ) : Option SockSys :=
  (s.sock i).bind fun x =>
    let s := s.setSock i (some { x with refcount := x.refcount - 1 })
    if x.refcount - 1 > 0 then some s else s.teardown i

def setOwner (i : ℕ) (x : PeerSock) (owner : SockOwner) : SockSys := s.setSock i (some { x with owner := owner })

def close (i : ℕ) : Option SockSys :=
  match s.sock i with
  | none => some s
  | some x => if x.owner = .descriptor then (s.setOwner i x .none).release i else some s

def link (i j : ℕ) : Option SockSys :=
  (s.sock i).bind fun x =>
    (s.sock j).map fun y =>
      (s.setSock i (some { x with peer := some j })).setSock j (some { y with peer := some i })

/-- `socket_socket`. Without room for the descriptor the socket is freed before its node, which closes it. -/
def socket : SocketOutcome → Option SockSys
  | .ok => some (s.alloc .descriptor)
  | .noMemory => some s
  | .noNode => some { s with next := s.next + 1 }
  | .noFd => ((s.alloc .descriptor).free s.next).bind fun s' => s'.release s.next

/-- `unix_socket_pair`. Without room for the descriptors the sockets are freed before their nodes, which
close them; with one node only, the node closes its socket first. -/
def socketpair : PairOutcome → Option SockSys
  | .ok => ((s.alloc .descriptor).alloc .descriptor).link s.next (s.next + 1)
  | .noMemory => some s
  | .noNodes => some { s with next := s.next + 2 }
  | .oneNode first =>
    (((s.alloc .descriptor).alloc .descriptor).link s.next (s.next + 1)).bind fun s' =>
      (s'.release (if first then s.next else s.next + 1)).bind fun s' =>
        (s'.free s.next).bind fun s' => s'.free (s.next + 1)
  | .noFd =>
    (((s.alloc .descriptor).alloc .descriptor).link s.next (s.next + 1)).bind fun s' =>
      (s'.free s.next).bind fun s' => (s'.free (s.next + 1)).bind fun s' =>
        (s'.release s.next).bind fun s' => s'.release (s.next + 1)

def listen (i : ℕ) (backlog : ℤ) : SockSys :=
  match s.sock i with
  | none => s
  | some x =>
    if x.owner = .descriptor then
      s.setSock i (some { x with
        backlog := .new (if backlog = 0 then 16 else if backlog < 0 then 0 else backlog.toNat) })
    else s

/-- `socket_connect` of `c` to the bound socket `l`. -/
def connect (c l : ℕ) (alloc grow : Bool) : Option SockSys :=
  match s.sock c, s.sock l with
  | some x, some y =>
    if x.owner ≠ .descriptor ∨ c = l ∨ x.backlog.connMax ≠ 0 ∨ x.peer ≠ none then some s
    else if y.backlog.connMax = 0 ∨ y.backlog.connCurr ≥ y.backlog.connMax then some s
    else if !alloc then some s
    else
      ((s.alloc (.backlog l)).link s.next c).bind fun s' =>
        match y.backlog.enqueueTail s.next grow with
        | some b =>
          some { s'.setSock l (some { y with backlog := b }) with
            connected := Function.update s.connected l (s.connected l ++ [s.next]) }
        | none => s'.drop s.next false
  | _, _ => some s

/-- The start of `socket_accept`, which takes a reference to the listening socket. -/
def accept (l : ℕ) : SockSys :=
  match s.sock l with
  | none => s
  | some x =>
    if x.owner ≠ .descriptor ∨ x.backlog.connMax = 0 then s
    else
      { s.setSock l (some { x with refcount := x.refcount + 1 }) with accepting := s.accepting ++ [(l, none)] }

/-- The section of `socket_accept` that takes a connection. -/
def take (i : ℕ) : Option SockSys :=
  match s.accepting[i]? with
  | some (l, none) =>
    (s.sock l).bind fun x =>
      if x.backlog.connCurr = 0 then some s
      else
        let s' := s.setSock l (some { x with backlog := x.backlog.takeHead.2 })
        match x.backlog.takeHead.1 with
        | none => some s'
        | some p =>
          (s'.sock p).map fun y =>
            { s'.setOwner p y .accept with
              accepting := s.accepting.set i (l, some p)
              taken := Function.update s.taken l (s.taken l ++ [p]) }
  | _ => some s

/-- `unix_socket_requeue_pending_accept`, and what is done when it returns false. -/
def requeue (l p : ℕ) (grow : Bool) : Option SockSys :=
  (s.sock l).bind fun x =>
    let s := { s with taken := Function.update s.taken l ((s.taken l).erase p) }
    match (if x.backlog.connMax > 0 then x.backlog.enqueueHead p grow else none) with
    | some b =>
      (s.sock p).map fun y => (s.setOwner p y (.backlog l)).setSock l (some { x with backlog := b })
    | none => { s with dropped := s.dropped ++ [p] }.drop p false

/-- The rest of `socket_accept`: without a connection, with a node and a descriptor for it, or without. The
reference to the listening socket is given back before the connection is. -/
def finish (i : ℕ) (ok grow : Bool) : Option SockSys :=
  match s.accepting[i]? with
  | none => some s
  | some (l, none) => { s with accepting := s.accepting.eraseIdx i }.release l
  | some (l, some p) =>
    let s := { s with accepting := s.accepting.eraseIdx i }
    if ok then (s.sock p).bind fun y => (s.setOwner p y .descriptor).release l
    else (s.release l).bind fun s => s.requeue l p grow

end SockSys

inductive SockOp
  | socket (outcome : SocketOutcome)
  | socketpair (outcome : PairOutcome)
  | listen (i : ℕ) (backlog : ℤ)
  | connect (c l : ℕ) (alloc grow : Bool)
  | accept (l : ℕ)
  | take (i : ℕ)
  | finish (i : ℕ) (ok grow : Bool)
  | close (i : ℕ)

def SockSys.step (s : SockSys) : SockOp → Option SockSys
  | .socket outcome => s.socket outcome
  | .socketpair outcome => s.socketpair outcome
  | .listen i backlog => some (s.listen i backlog)
  | .connect c l alloc grow => s.connect c l alloc grow
  | .accept l => some (s.accept l)
  | .take i => s.take i
  | .finish i ok grow => s.finish i ok grow
  | .close i => s.close i

/-- Peers are peers of each other, and no socket is its own peer or has one that is freed. -/
def SockSys.PeersOk (s : SockSys) : Prop :=
  ∀ i x j, s.sock i = some x → x.peer = some j → j ≠ i ∧ ∃ y, s.sock j = some y ∧ y.peer = some i

def PeerSock.unpeer (D : List ℕ) (x : PeerSock) : PeerSock := { x with peer := x.peer.filter (· ∉ D) }

theorem PeerSock.unpeer_eq_self {D : List ℕ} {x : PeerSock} (h : ∀ j ∈ D, x.peer ≠ some j) : x.unpeer D = x := by
  have hpeer : x.peer.filter (· ∉ D) = x.peer := by
    cases hj : x.peer with
    | none => rfl
    | some j =>
      apply filter_eq_some_iff.mpr
      refine ⟨rfl, ?_⟩
      have : j ∉ D := fun hD => h j hD hj
      simpa using this
  unfold unpeer
  rw [hpeer]

variable {owner : SockOwner} {extra : Option ℕ}

namespace SockSys

variable {s : SockSys} {i p : ℕ} {x : PeerSock} {D : List ℕ}

/-- The sockets of a list are freed, and no longer peers of others. -/
def without (D : List ℕ) (s : SockSys) : SockSys :=
  { s with sock := fun i => if i ∈ D then none else (s.sock i).map (PeerSock.unpeer D) }

theorem without_nil (s : SockSys) : s.without [] = s := by
  have hsock : (fun i => if i ∈ ([] : List ℕ) then none else (s.sock i).map (PeerSock.unpeer [])) = s.sock := by
    funext i
    rw [if_neg not_mem_nil]
    cases s.sock i with
    | none => rfl
    | some x => exact congrArg some (PeerSock.unpeer_eq_self fun j hj => absurd hj not_mem_nil)
  unfold without
  rw [hsock]

theorem sock_of_without {y : PeerSock} (h : (s.without D).sock i = some y) :
    i ∉ D ∧ ∃ x, s.sock i = some x ∧ x.unpeer D = y := by
  unfold without at h
  dsimp only at h
  split_ifs at h with hi
  exact ⟨hi, map_eq_some_iff.mp h⟩

theorem sock_without (hi : i ∉ D) (hx : s.sock i = some x) : (s.without D).sock i = some (x.unpeer D) := by
  unfold without
  dsimp only
  rw [if_neg hi, hx, map_some]

theorem without_without (D D' : List ℕ) : (s.without D).without D' = s.without (D ++ D') := by
  have hunpeer : PeerSock.unpeer D' ∘ PeerSock.unpeer D = PeerSock.unpeer (D ++ D') := by
    funext x
    simp [PeerSock.unpeer, not_or]
  unfold without
  congr 1
  funext i
  rw [← hunpeer]
  by_cases hi : i ∈ D
  · simp [hi]
  · simp [hi]

theorem PeersOk.without (h : s.PeersOk) (D : List ℕ) : (s.without D).PeersOk := by
  intro i y j hy hj
  obtain ⟨hi, x, hx, rfl⟩ := sock_of_without hy
  obtain ⟨hxj, hjD⟩ := filter_eq_some_iff.mp hj
  obtain ⟨hne, z, hz, hzi⟩ := h i x j hx hxj
  refine ⟨hne, z.unpeer D, sock_without (by simpa using hjD) hz, ?_⟩
  unfold PeerSock.unpeer
  dsimp only
  rw [hzi]
  exact filter_eq_some_iff.mpr ⟨rfl, by simpa using hi⟩

theorem PeersOk.drop_eq (h : s.PeersOk) (hx : s.sock p = some x) (checked : Bool) :
    s.drop p checked = some (s.without [p]) := by
  have hback : ∀ i y, s.sock i = some y → x.peer ≠ some i → y.unpeer [p] = y := by
    intro i y hy hne
    apply PeerSock.unpeer_eq_self
    rintro j hj hp
    obtain rfl := mem_singleton.mp hj
    obtain ⟨-, z, hz, hzi⟩ := h i y j hy hp
    obtain rfl := Option.some.inj (hx.symm.trans hz)
    exact hne hzi
  unfold drop unlinkPeer
  rw [hx, bind_some]
  cases hpeer : x.peer with
  | none =>
    dsimp only
    rw [bind_some, free, hx, map_some]
    unfold SockSys.without setSock
    congr 2
    funext i
    by_cases hi : i = p
    · simp [hi]
    · rw [update_of_ne hi, if_neg (by simpa using hi)]
      cases hy : s.sock i with
      | none => rfl
      | some y =>
        rw [map_some, hback i y hy (by simp [hpeer])]
  | some j =>
    obtain ⟨hne, y, hy, hyp⟩ := h p x j hx hpeer
    dsimp only
    rw [hy, map_some, if_neg (by simp [hyp]), bind_some, free]
    unfold SockSys.without setSock
    dsimp only
    rw [update_of_ne (Ne.symm hne), hx, map_some]
    congr 2
    funext i
    by_cases hi : i = p
    · simp [hi]
    · rw [update_of_ne hi, if_neg (by simpa using hi)]
      by_cases hij : i = j
      · subst hij
        rw [update_self, hy, map_some, PeerSock.unpeer, hyp]
        simp [Option.filter]
      · rw [update_of_ne hij]
        cases hz : s.sock i with
        | none => rfl
        | some z =>
          rw [map_some, hback i z hz (by simp [hpeer, Ne.symm hij])]

theorem PeersOk.dropAll_eq (h : s.PeersOk) (hD : D.Nodup) (halive : ∀ p ∈ D, (s.sock p).isSome) :
    dropAll D s = some (s.without D) := by
  induction D generalizing s with
  | nil => rw [dropAll, without_nil]
  | cons p D ih =>
    obtain ⟨x, hx⟩ := isSome_iff_exists.mp (halive p mem_cons_self)
    rw [dropAll, h.drop_eq hx, bind_some, ih (h.without [p]) (nodup_cons.mp hD).2, without_without,
      singleton_append]
    intro q hq
    obtain ⟨y, hy⟩ := isSome_iff_exists.mp (halive q (mem_cons_of_mem p hq))
    have hqp : q ∉ [p] := by
      intro hmem
      obtain rfl := mem_singleton.mp hmem
      exact (nodup_cons.mp hD).1 hq
    rw [sock_without hqp hy]
    rfl

def pendingOf (s : SockSys) (l : ℕ) : List ℕ := ((s.sock l).map fun x => x.backlog.pending).getD []

def OwnedBy (s : SockSys) (p : ℕ) (owner : SockOwner) : Prop := ∃ x, s.sock p = some x ∧ x.owner = owner

/-- Backlogs and calls have the sockets that they own, and references are counted, where `extra` is a socket
with a reference that is to be given back. -/
structure Counted (s : SockSys) (extra : Option ℕ) : Prop where
  fresh : ∀ i, s.next ≤ i → s.sock i = none
  holds : ∀ i x, s.sock i = some x → x.backlog.Holds x.backlog.pending
  queued : ∀ l, ∀ p ∈ s.pendingOf l, s.OwnedBy p (.backlog l)
  nodup : ∀ l, (s.pendingOf l).Nodup
  held : ∀ l p, (l, some p) ∈ s.accepting → s.OwnedBy p .accept
  held_nodup : (s.accepting.filterMap Prod.snd).Nodup
  listener : ∀ e ∈ s.accepting, s.OwnedBy e.1 .descriptor ∨ s.OwnedBy e.1 .none
  refs : ∀ i x, s.sock i = some x → x.refcount =
    (if x.owner = .none then 0 else 1) + s.accepting.countP (·.1 = i) + if extra = some i then 1 else 0
  gone : ∀ p ∈ s.dropped, p < s.next ∧ s.sock p = none
  listens : ∀ i x, s.sock i = some x → x.backlog.connMax ≠ 0 → x.owner = .descriptor ∨ x.owner = .none

structure Sound (s : SockSys) (extra : Option ℕ) : Prop extends s.Counted extra where
  peers : s.PeersOk

theorem pendingOf_eq (hx : s.sock i = some x) : s.pendingOf i = x.backlog.pending := by
  unfold pendingOf
  rw [hx, map_some, getD_some]

theorem OwnedBy.unique {owner' : SockOwner} (h : s.OwnedBy p owner) (h' : s.OwnedBy p owner') :
    owner = owner' := by
  obtain ⟨x, hx, rfl⟩ := h
  obtain ⟨y, hy, rfl⟩ := h'
  obtain rfl := some.inj (hx.symm.trans hy)
  rfl

theorem Counted.notMem_pendingOf (h : s.Counted extra) (hp : s.OwnedBy p owner) {l : ℕ}
    (hl : owner ≠ .backlog l) : p ∉ s.pendingOf l := by
  intro hmem
  exact hl (hp.unique (h.queued l p hmem))

theorem pendingOf_without (hi : i ∉ D) : (s.without D).pendingOf i = s.pendingOf i := by
  unfold pendingOf without
  dsimp only
  rw [if_neg hi]
  cases s.sock i <;> rfl

theorem pendingOf_without_of_mem (hi : i ∈ D) : (s.without D).pendingOf i = [] := by
  unfold pendingOf without
  dsimp only
  rw [if_pos hi]
  rfl

theorem OwnedBy.without (h : s.OwnedBy p owner) (hp : p ∉ D) : (s.without D).OwnedBy p owner := by
  obtain ⟨x, hx, rfl⟩ := h
  exact ⟨x.unpeer D, sock_without hp hx, rfl⟩

theorem Sound.without (h : s.Sound extra) (hq : ∀ l, l ∉ D → ∀ p ∈ s.pendingOf l, p ∉ D)
    (ha : ∀ l p, (l, some p) ∈ s.accepting → p ∉ D) (hl : ∀ e ∈ s.accepting, e.1 ∉ D) :
    (s.without D).Sound extra where
  fresh i hi := by
    unfold SockSys.without
    dsimp only
    rw [h.fresh i hi, map_none, ite_self]
  peers := h.peers.without D
  holds i y hy := by
    obtain ⟨-, x, hx, rfl⟩ := sock_of_without hy
    exact h.holds i x hx
  queued l p hp := by
    by_cases hlD : l ∈ D
    · rw [pendingOf_without_of_mem hlD] at hp
      cases hp
    · rw [pendingOf_without hlD] at hp
      exact (h.queued l p hp).without (hq l hlD p hp)
  nodup l := by
    by_cases hlD : l ∈ D
    · rw [pendingOf_without_of_mem hlD]
      exact nodup_nil
    · rw [pendingOf_without hlD]
      exact h.nodup l
  held l p hp := (h.held l p hp).without (ha l p hp)
  held_nodup := h.held_nodup
  listener e he := (h.listener e he).imp (·.without (hl e he)) (·.without (hl e he))
  refs i y hy := by
    obtain ⟨-, x, hx, rfl⟩ := sock_of_without hy
    exact h.refs i x hx
  gone p hp := by
    obtain ⟨hlt, hnone⟩ := h.gone p hp
    refine ⟨hlt, ?_⟩
    unfold SockSys.without
    dsimp only
    rw [hnone, map_none, ite_self]
  listens i y hy := by
    obtain ⟨-, x, hx, rfl⟩ := sock_of_without hy
    exact h.listens i x hx

theorem Counted.lt_next (h : s.Counted extra) (hx : s.sock i = some x) : i < s.next := by
  by_contra hge
  rw [h.fresh i (by omega)] at hx
  cases hx

theorem Sound.addDropped (h : s.Sound extra) (hD : ∀ p ∈ D, p < s.next ∧ s.sock p = none) :
    { s with dropped := s.dropped ++ D }.Sound extra := by
  refine ⟨⟨h.fresh, h.holds, h.queued, h.nodup, h.held, h.held_nodup, h.listener, h.refs, ?_, h.listens⟩,
    h.peers⟩
  intro p hp
  rcases mem_append.mp hp with hp | hp
  · exact h.gone p hp
  · exact hD p hp

/-- A socket is freed, and so are the connections in its backlog. -/
def closed (s : SockSys) (i : ℕ) : SockSys :=
  { s.without (s.pendingOf i ++ [i]) with dropped := s.dropped ++ s.pendingOf i }

theorem Sound.teardown (h : s.Sound none) (hx : s.sock i = some x) (hrefs : x.refcount = 0) :
    s.teardown i = some (s.closed i) ∧ (s.closed i).Sound none := by
  have hcount := h.refs i x hx
  rw [hrefs] at hcount
  have howner : x.owner = .none := by
    by_contra hne
    rw [if_neg hne] at hcount
    omega
  have hunheld : ∀ e ∈ s.accepting, e.1 ≠ i := by
    have hzero : s.accepting.countP (·.1 = i) = 0 := by omega
    intro e he
    simpa using countP_eq_zero.mp hzero e he
  have hi : ∀ l, i ∉ s.pendingOf l := fun l => h.notMem_pendingOf ⟨x, hx, howner⟩ (by simp)
  have hpending : (if x.backlog.connMax > 0 ∧ x.backlog.backlogCap > 0 ∧ x.backlog.connCurr > 0
      then x.backlog.pending else []) = s.pendingOf i := by
    rw [pendingOf_eq hx]
    have hholds := h.holds i x hx
    have hlength := hholds.length_eq
    have := hholds.curr_le
    have := hholds.cap_le
    split_ifs with hcond
    · rfl
    · symm
      rw [← length_eq_zero_iff]
      omega
  constructor
  · unfold SockSys.teardown
    rw [hx, bind_some]
    dsimp only
    rw [hpending, h.peers.dropAll_eq (h.nodup i), bind_some]
    · have hsock : (s.without (s.pendingOf i)).sock i = some (x.unpeer (s.pendingOf i)) :=
        sock_without (hi i) hx
      have hpeers : { s.without (s.pendingOf i) with dropped := s.dropped ++ s.pendingOf i }.PeersOk :=
        h.peers.without _
      rw [show (s.without (s.pendingOf i)).dropped = s.dropped from rfl, hpeers.drop_eq hsock]
      have := without_without (s := s) (s.pendingOf i) [i]
      unfold closed
      rw [← this]
      rfl
    · intro p hp
      obtain ⟨y, hy, -⟩ := h.queued i p hp
      rw [hy]
      rfl
  · have hmem : ∀ p, p ∈ s.pendingOf i ++ [i] → s.OwnedBy p (.backlog i) ∨ p = i := by
      intro p hp
      rcases mem_append.mp hp with hp | hp
      · exact .inl (h.queued i p hp)
      · exact .inr (mem_singleton.mp hp)
    have hsound : (s.without (s.pendingOf i ++ [i])).Sound none := by
      apply h.without
      · intro l hl p hp hD
        rcases hmem p hD with hown | rfl
        · have := hown.unique (h.queued l p hp)
          simp only [SockOwner.backlog.injEq] at this
          subst this
          simp at hl
        · exact hi l hp
      · intro l p hp hD
        rcases hmem p hD with hown | rfl
        · exact absurd (hown.unique (h.held l p hp)) (by simp)
        · exact absurd ((show s.OwnedBy p .none from ⟨x, hx, howner⟩).unique (h.held l p hp)) (by simp)
      · intro e he hD
        rcases hmem e.1 hD with hown | heq
        · rcases h.listener e he with hl | hl
          · exact absurd (hown.unique hl) (by simp)
          · exact absurd (hown.unique hl) (by simp)
        · exact hunheld e he heq
    apply hsound.addDropped
    intro p hp
    obtain ⟨y, hy, -⟩ := h.queued i p hp
    exact ⟨h.lt_next hy, if_pos (mem_append_left _ hp)⟩

end SockSys

end CoolPotOS
