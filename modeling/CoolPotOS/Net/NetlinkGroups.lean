import CoolPotOS.Net.NetlinkRing

namespace CoolPotOS

open Function List Option

variable {q : List NetlinkPacket} {sock : NetlinkSock} {e : NetlinkPoolEntry}

namespace NetlinkBuffer

theorem flatMap_bytes_injective {q' : List NetlinkPacket} (hq : ∀ p ∈ q, p.payload.length < 2 ^ 32)
    (hq' : ∀ p ∈ q', p.payload.length < 2 ^ 32)
    (h : q.flatMap NetlinkPacket.bytes = q'.flatMap NetlinkPacket.bytes) : q = q' := by
  induction q generalizing q' with
  | nil =>
    cases q' with
    | nil => rfl
    | cons p' q' =>
      have hlen := congrArg length h
      rw [flatMap_nil, flatMap_cons, length_append, p'.length_bytes, length_nil] at hlen
      unfold netlinkPacketHdrSize at hlen
      omega
  | cons p q ih =>
    cases q' with
    | nil =>
      have hlen := congrArg length h
      rw [flatMap_nil, flatMap_cons, length_append, p.length_bytes, length_nil] at hlen
      unfold netlinkPacketHdrSize at hlen
      omega
    | cons p' q' =>
      rw [flatMap_cons, flatMap_cons, NetlinkPacket.bytes, NetlinkPacket.bytes, append_assoc,
        append_assoc] at h
      obtain ⟨hhdr, hrest⟩ := append_inj h (by
        rw [NetlinkPacketHdr.length_bytes, NetlinkPacketHdr.length_bytes])
      have hof := congrArg NetlinkPacketHdr.ofBytes hhdr
      rw [NetlinkPacketHdr.ofBytes_bytes, NetlinkPacketHdr.ofBytes_bytes, NetlinkPacketHdr.mk.injEq] at hof
      obtain ⟨hpid, hgroups, hlength⟩ := hof
      have hlen : p.payload.length = p'.payload.length := by
        have hnat := congrArg BitVec.toNat hlength
        rwa [BitVec.toNat_ofNat, BitVec.toNat_ofNat, Nat.mod_eq_of_lt (hq p mem_cons_self),
          Nat.mod_eq_of_lt (hq' p' mem_cons_self)] at hnat
      obtain ⟨hpayload, hflat⟩ := append_inj hrest hlen
      have htail := ih (fun r hr => hq r (mem_cons_of_mem p hr))
        (fun r hr => hq' r (mem_cons_of_mem p' hr)) hflat
      obtain ⟨pid, groups, payload⟩ := p
      obtain ⟨pid', groups', payload'⟩ := p'
      simp only at hpid hgroups hpayload
      rw [hpid, hgroups, hpayload, htail]

theorem Holds.short {b : NetlinkBuffer} (h : b.Holds q) {p : NetlinkPacket} (hp : p ∈ q) :
    p.payload.length < 2 ^ 32 := by
  have hle := h.length_le hp
  have hroom := h.room
  have hsize := h.size
  omega

theorem Holds.unique {b : NetlinkBuffer} {q' : List NetlinkPacket} (h : b.Holds q) (h' : b.Holds q') :
    q = q' := by
  apply flatMap_bytes_injective (fun p hp => h.short hp) fun p hp => h'.short hp
  rw [← h.data, ← h'.data, ← h.available_eq, ← h'.available_eq]

/-- The ring has room for a message of `n` bytes. -/
def Room (b : NetlinkBuffer) (n : ℕ) : Prop := b.available + (netlinkPacketHdrSize + n) < b.size

end NetlinkBuffer

/-- The socket gets messages of the protocol to one of the groups. -/
def NetlinkSock.Member (sock : NetlinkSock) (protocol : ℤ) (groups : BitVec 32) : Prop :=
  sock.protocol = protocol ∧ sock.groups &&& groups ≠ 0

/-- The message can be stored: its length with a header is a machine word. -/
def Addressable (buf : List (BitVec 8)) : Prop := netlinkPacketHdrSize + buf.length < 2 ^ 64

/-- The broadcast reaches each member with room, once, and no other socket. -/
def Netlink.Reaches (x : Netlink) (buf : List (BitVec 8)) (pid groups : BitVec 32) (protocol : ℤ) : Prop :=
  ∀ i < maxNetlinkSockets, ∀ sock ∈ x.sockets i, ∀ q, sock.buffer.Holds q →
    ∃ sock' ∈ (x.broadcastToGroup buf pid groups protocol).sockets i,
      (sock.Member protocol groups ∧ sock.buffer.Room buf.length →
        sock'.buffer.Holds (q ++ [⟨pid, groups, buf⟩])) ∧
      (¬(sock.Member protocol groups ∧ sock.buffer.Room buf.length) → sock'.buffer.Holds q)

section Live

variable {x : Netlink} {buf : List (BitVec 8)} {pid groups : BitVec 32} {protocol : ℤ} {sock : NetlinkSock}
  {q : List NetlinkPacket}

theorem Netlink.deliver_holds (pid groups : BitVec 32) (protocol : ℤ) (hbuf : buf ≠ []) (haddr : Addressable buf) (h : sock.buffer.Holds q) :
    (sock.protocol = protocol ∧ sock.groups = groups ∧ sock.buffer.Room buf.length →
      (deliver buf pid groups protocol sock).buffer.Holds (q ++ [⟨pid, groups, buf⟩])) ∧
    (¬(sock.protocol = protocol ∧ sock.groups = groups ∧ sock.buffer.Room buf.length) →
      (deliver buf pid groups protocol sock).buffer.Holds q) := by
  have hwrite := h.writePacket buf pid groups hbuf haddr
  unfold NetlinkBuffer.Room deliver
  rw [h.available_eq]
  by_cases hprotocol : sock.protocol = protocol
  swap
  · rw [if_pos hprotocol]
    exact ⟨fun hin => absurd hin.1 hprotocol, fun _ => h⟩
  rw [if_neg (not_not.mpr hprotocol)]
  by_cases hgroups : sock.groups = groups
  swap
  · rw [if_neg hgroups]
    exact ⟨fun hin => absurd hin.2.1 hgroups, fun _ => h⟩
  rw [if_pos hgroups]
  by_cases hfits : ringBytes q + (netlinkPacketHdrSize + buf.length) < sock.buffer.size
  · rw [if_pos hfits] at hwrite
    exact ⟨fun _ => hwrite.1, fun hout => absurd ⟨hprotocol, hgroups, hfits⟩ hout⟩
  · rw [if_neg hfits] at hwrite
    rw [hwrite]
    exact ⟨fun hin => absurd hin.2.2 hfits, fun _ => h⟩

theorem Netlink.msgPoolAdd_sockets : (x.msgPoolAdd buf pid groups protocol).sockets = x.sockets := by
  unfold msgPoolAdd
  split_ifs <;> rfl

theorem Netlink.broadcast_sockets (hbuf : buf ≠ []) {i : ℕ} (hi : i < maxNetlinkSockets) :
    (x.broadcastToGroup buf pid groups protocol).sockets i =
      (x.sockets i).map (deliver buf pid groups protocol) := by
  unfold broadcastToGroup
  rw [if_neg hbuf]
  dsimp only
  rw [if_pos hi, msgPoolAdd_sockets]

/-- A broadcast does what its groups say if and only if the sockets of the protocol that have room share a
group with it just when their groups are equal to it. -/
theorem Netlink.reaches_iff (hbuf : buf ≠ []) (haddr : Addressable buf)
    (hrings : ∀ i < maxNetlinkSockets, ∀ sock ∈ x.sockets i, ∃ q, sock.buffer.Holds q) :
    x.Reaches buf pid groups protocol ↔ ∀ i < maxNetlinkSockets, ∀ sock ∈ x.sockets i,
      sock.protocol = protocol → sock.buffer.Room buf.length →
        (sock.groups &&& groups ≠ 0 ↔ sock.groups = groups) := by
  constructor
  · intro hreaches i hi sock hsock hprotocol hroom
    obtain ⟨q, hq⟩ := hrings i hi sock hsock
    obtain ⟨sock', hsock', hin, hout⟩ := hreaches i hi sock hsock q hq
    rw [broadcast_sockets hbuf hi, hsock] at hsock'
    cases hsock'
    obtain ⟨hdeliver, hkeep⟩ := deliver_holds pid groups protocol hbuf haddr hq
    have hne : q ≠ q ++ [⟨pid, groups, buf⟩] := by simp
    constructor
    · intro hmember
      by_contra hgroups
      exact hne ((hkeep fun hc => hgroups hc.2.1).unique (hin ⟨⟨hprotocol, hmember⟩, hroom⟩))
    · intro hgroups hnone
      exact hne ((hout fun hc => hc.1.2 hnone).unique (hdeliver ⟨hprotocol, hgroups, hroom⟩))
  · intro hcond i hi sock hsock q hq
    refine ⟨deliver buf pid groups protocol sock, ?_, ?_, ?_⟩
    · rw [broadcast_sockets hbuf hi, hsock]
      rfl
    · rintro ⟨⟨hprotocol, hmember⟩, hroom⟩
      apply (deliver_holds pid groups protocol hbuf haddr hq).1
      exact ⟨hprotocol, (hcond i hi sock hsock hprotocol hroom).mp hmember, hroom⟩
    · intro hout
      apply (deliver_holds pid groups protocol hbuf haddr hq).2
      rintro ⟨hprotocol, hgroups, hroom⟩
      exact hout ⟨⟨hprotocol, (hcond i hi sock hsock hprotocol hroom).mpr hgroups⟩, hroom⟩

end Live

def NetlinkPoolEntry.packet (e : NetlinkPoolEntry) : NetlinkPacket := ⟨e.nlPid, e.nlGroups, e.message⟩

/-- What the ring holds after messages are written to it until one does not fit. -/
def replayed (size : ℕ) (q : List NetlinkPacket) : List NetlinkPoolEntry → List NetlinkPacket
  | [] => q
  | e :: es =>
    if ringBytes q + (netlinkPacketHdrSize + e.message.length) < size then replayed size (q ++ [e.packet]) es
    else q

def entryBytes (es : List NetlinkPoolEntry) : ℕ :=
  (es.map fun e => netlinkPacketHdrSize + e.message.length).sum

/-- The entries of the pool from `count` places behind `start` on. -/
def Netlink.entries (x : Netlink) (start : ℕ) : ℕ → ℕ → List NetlinkPoolEntry
  | 0, _ => []
  | n + 1, count =>
    (x.pool ((start + count) % maxNetlinkMsgPoolSize)).toList ++ entries x start n (count + 1)

section Pool

variable {x : Netlink} {sock : NetlinkSock} {q : List NetlinkPacket} {es : List NetlinkPoolEntry}

theorem replayed_eq (size : ℕ) (q : List NetlinkPacket) (es : List NetlinkPoolEntry) :
    ∃ done, done <+: es ∧ replayed size q es = q ++ done.map NetlinkPoolEntry.packet ∧
      (ringBytes q + entryBytes es < size → done = es) ∧
      (ringBytes q < size → ringBytes q + entryBytes done < size) := by
  induction es generalizing q with
  | nil => exact ⟨[], prefix_rfl, by simp [replayed], fun _ => rfl, fun h => by simpa [entryBytes] using h⟩
  | cons e es ih =>
    have hbytes : entryBytes (e :: es) = netlinkPacketHdrSize + e.message.length + entryBytes es := by
      simp [entryBytes]
    have hq : ringBytes (q ++ [e.packet]) = ringBytes q + (netlinkPacketHdrSize + e.message.length) :=
      ringBytes_append q e.packet
    by_cases hfits : ringBytes q + (netlinkPacketHdrSize + e.message.length) < size
    · obtain ⟨done, hdone, heq, hall, hroom⟩ := ih (q ++ [e.packet])
      refine ⟨e :: done, cons_prefix_cons.mpr ⟨rfl, hdone⟩, ?_, fun h => ?_, fun _ => ?_⟩
      · rw [replayed, if_pos hfits, heq, map_cons, append_assoc, singleton_append]
      · rw [hall (by omega)]
      · have hdoneroom := hroom (by omega)
        have hdonebytes : entryBytes (e :: done) =
            netlinkPacketHdrSize + e.message.length + entryBytes done := by
          simp [entryBytes]
        omega
    · refine ⟨[], nil_prefix, ?_, fun h => absurd h (by omega), fun h => by simpa [entryBytes] using h⟩
      rw [replayed, if_neg hfits, map_nil, append_nil]

def NetlinkSock.wants (sock : NetlinkSock) (e : NetlinkPoolEntry) : Bool :=
  decide (e.protocol = sock.protocol ∧ e.nlGroups = sock.groups)

/-- The entry is for the protocol and one of the groups of the socket. -/
def NetlinkSock.shares (sock : NetlinkSock) (e : NetlinkPoolEntry) : Bool :=
  decide (e.protocol = sock.protocol ∧ e.nlGroups &&& sock.groups ≠ 0)

def NetlinkSock.withGroups (sock : NetlinkSock) (groups : BitVec 32) : NetlinkSock :=
  { sock with groups := groups }

def NetlinkSock.bound (sock : NetlinkSock) (groups : BitVec 32) : NetlinkSock :=
  { sock.withGroups groups with bindAddr := true }

/-- The message has bytes, and fits into an entry of the pool. -/
def NetlinkPoolEntry.Ok (e : NetlinkPoolEntry) : Prop :=
  e.message ≠ [] ∧ e.message.length < netlinkBufferSize

theorem Netlink.replayLoop_holds (start : ℕ) {n count : ℕ} (h : sock.buffer.Holds q)
    (hok : ∀ e ∈ x.entries start n count, e.Ok) : (x.replayLoop start n count sock).buffer.Holds
      (replayed sock.buffer.size q ((x.entries start n count).filter sock.wants)) := by
  induction n generalizing count sock q with
  | zero => exact h
  | succ n ih =>
    have hrest : ∀ e ∈ x.entries start n (count + 1), e.Ok := fun e he => hok e (mem_append_right _ he)
    rw [replayLoop, entries]
    cases hpool : x.pool ((start + count) % maxNetlinkMsgPoolSize) with
    | none => exact ih h hrest
    | some entry =>
      have hentry : entry.Ok := hok entry (by
        rw [entries, hpool]
        exact mem_append_left _ (mem_singleton_self entry))
      dsimp only [toList_some]
      rw [singleton_append]
      by_cases hprotocol : entry.protocol = sock.protocol
      swap
      · rw [if_pos hprotocol, filter_cons_of_neg (by simp [NetlinkSock.wants, hprotocol])]
        exact ih h hrest
      rw [if_neg (not_not.mpr hprotocol)]
      by_cases hgroups : entry.nlGroups = sock.groups
      swap
      · rw [if_pos hgroups, filter_cons_of_neg (by simp [NetlinkSock.wants, hgroups])]
        exact ih h hrest
      rw [if_neg (not_not.mpr hgroups),
        filter_cons_of_pos (by simp [NetlinkSock.wants, hprotocol, hgroups]), replayed]
      have haddr : netlinkPacketHdrSize + entry.message.length < 2 ^ 64 := by
        have hlen := hentry.2
        unfold netlinkBufferSize at hlen
        unfold netlinkPacketHdrSize
        omega
      have hwrite := h.writePacket entry.message entry.nlPid entry.nlGroups hentry.1 haddr
      by_cases hfits : ringBytes q + (netlinkPacketHdrSize + entry.message.length) < sock.buffer.size
      · rw [if_pos hfits] at hwrite ⊢
        obtain ⟨hholds, hsize, hcount⟩ := hwrite
        rw [hcount, if_neg (by simpa using hentry.1), ← hsize]
        exact ih hholds hrest
      · rw [if_neg hfits] at hwrite ⊢
        rw [hwrite, if_pos rfl]
        exact h

end Pool

def NetlinkCall.pooled : NetlinkCall → Option NetlinkPoolEntry
  | .broadcast buf pid groups protocol =>
    if buf = [] ∨ groups = 0 then none else some ⟨buf.take (netlinkBufferSize - 1), pid, groups, protocol⟩
  | _ => none

/-- The multicast messages of a run that the pool still has, the oldest first. -/
def pooledMessages (calls : List NetlinkCall) : List NetlinkPoolEntry :=
  let history := calls.filterMap NetlinkCall.pooled
  history.drop (history.length - maxNetlinkMsgPoolSize)

def NetlinkCall.Addressable : NetlinkCall → Prop
  | .broadcast buf _ _ _ => CoolPotOS.Addressable buf
  | _ => True

/-- The rings hold packets, and the pool has the last messages of the history. -/
structure NetlinkInv (x : Netlink) (history : List NetlinkPoolEntry) : Prop where
  rings : ∀ i, ∀ sock ∈ x.sockets i, ∃ q, sock.buffer.Holds q
  next : x.poolNext = history.length % maxNetlinkMsgPoolSize
  pool : ∀ k < maxNetlinkMsgPoolSize, x.pool ((history.length + k) % maxNetlinkMsgPoolSize) =
    if history.length + k < maxNetlinkMsgPoolSize then none
    else history[history.length + k - maxNetlinkMsgPoolSize]?
  entries : ∀ e ∈ history, e.Ok ∧ e.nlGroups ≠ 0

section Runs

variable {x : Netlink} {history : List NetlinkPoolEntry}

theorem NetlinkInv.entries_eq (h : NetlinkInv x history) {n count : ℕ}
    (hn : count + n = maxNetlinkMsgPoolSize) : x.entries x.poolNext n count =
      history.drop (history.length + count - maxNetlinkMsgPoolSize) := by
  induction n generalizing count with
  | zero =>
    rw [Netlink.entries, ← hn, drop_eq_nil_of_le (by omega)]
  | succ n ih =>
    rw [Netlink.entries, ih (by omega), h.next, Nat.mod_add_mod, h.pool count (by omega)]
    split_ifs with hlt
    · have hboth : history.length + (count + 1) - maxNetlinkMsgPoolSize =
          history.length + count - maxNetlinkMsgPoolSize := by omega
      rw [toList_none, nil_append, hboth]
    · have hin : history.length + count - maxNetlinkMsgPoolSize < history.length := by omega
      have hnext : history.length + (count + 1) - maxNetlinkMsgPoolSize =
          history.length + count - maxNetlinkMsgPoolSize + 1 := by omega
      rw [List.getElem?_eq_getElem hin, toList_some, singleton_append,
        drop_eq_getElem_cons hin, hnext]

theorem netlinkInv_init : NetlinkInv .init [] := by
  refine ⟨fun _ _ h => ?_, rfl, fun k hk => ?_, fun _ h => ?_⟩
  · cases h
  · rw [if_pos (by simpa using hk)]
    rfl
  · cases h

theorem NetlinkInv.pooled_eq (h : NetlinkInv x history) : x.entries x.poolNext maxNetlinkMsgPoolSize 0 =
      history.drop (history.length - maxNetlinkMsgPoolSize) := by
  rw [h.entries_eq (Nat.zero_add _), Nat.add_zero]

theorem NetlinkInv.update (h : NetlinkInv x history) (i : ℕ) {o : Option NetlinkSock}
    (ho : ∀ sock ∈ o, ∃ q, sock.buffer.Holds q) :
    NetlinkInv { x with sockets := Function.update x.sockets i o } history := by
  refine ⟨fun j sock hsock => ?_, h.next, h.pool, h.entries⟩
  replace hsock : sock ∈ Function.update x.sockets i o j := hsock
  by_cases hj : j = i
  · subst hj
    rw [update_self] at hsock
    exact ho sock hsock
  · rw [update_of_ne hj] at hsock
    exact h.rings j sock hsock

theorem NetlinkInv.deliverHistoricalMessages (h : NetlinkInv x history) (sock : NetlinkSock)
    (hq : sock.buffer.Holds q) : (x.deliverHistoricalMessages sock).buffer.Holds (replayed sock.buffer.size q
      ((history.drop (history.length - maxNetlinkMsgPoolSize)).filter sock.wants)) := by
  have hentries := h.pooled_eq
  have hok : ∀ e ∈ history.drop (history.length - maxNetlinkMsgPoolSize), e.Ok ∧ e.nlGroups ≠ 0 :=
    fun e he => h.entries e (mem_of_mem_drop he)
  unfold Netlink.deliverHistoricalMessages
  by_cases hgroups : sock.groups = 0
  · -- no message of the pool is for no group
    have hnone : (history.drop (history.length - maxNetlinkMsgPoolSize)).filter sock.wants = [] := by
      apply filter_eq_nil_iff.mpr
      intro e he
      have hne := (hok e he).2
      simp only [NetlinkSock.wants, hgroups, Bool.decide_and, Bool.and_eq_true, decide_eq_true_eq]
      exact fun hwants => hne hwants.2
    rw [if_pos hgroups, hnone]
    exact hq
  · rw [if_neg hgroups, ← hentries]
    apply Netlink.replayLoop_holds x.poolNext hq
    rw [hentries]
    exact fun e he => (hok e he).1

theorem NetlinkInv.msgPoolAdd (h : NetlinkInv x history) {buf : List (BitVec 8)} {pid groups : BitVec 32}
    {protocol : ℤ} (hadd : ¬(buf = [] ∨ groups = 0)) : NetlinkInv (x.msgPoolAdd buf pid groups protocol)
      (history ++ [⟨buf.take (netlinkBufferSize - 1), pid, groups, protocol⟩]) := by
  set e : NetlinkPoolEntry := ⟨buf.take (netlinkBufferSize - 1), pid, groups, protocol⟩
  have hlen : (history ++ [e]).length = history.length + 1 := by simp
  unfold Netlink.msgPoolAdd
  rw [if_neg hadd]
  refine ⟨h.rings, ?_, fun k hk => ?_, fun e' he' => ?_⟩
  · show (x.poolNext + 1) % maxNetlinkMsgPoolSize = _
    rw [h.next, hlen, Nat.mod_add_mod]
  · show Function.update x.pool x.poolNext (some e) _ = _
    rw [h.next, hlen]
    by_cases hlast : k + 1 = maxNetlinkMsgPoolSize
    · -- the place that was written is now the last one of the round
      have hindex : history.length + 1 + k = history.length + maxNetlinkMsgPoolSize := by omega
      rw [hindex, Nat.add_mod_right, update_self, if_neg (by omega), Nat.add_sub_cancel,
        List.getElem?_append_right le_rfl, Nat.sub_self]
      rfl
    · have hother : (history.length + 1 + k) % maxNetlinkMsgPoolSize ≠
          history.length % maxNetlinkMsgPoolSize := by
        unfold maxNetlinkMsgPoolSize at hk hlast ⊢
        omega
      have hindex : history.length + 1 + k = history.length + (k + 1) := by omega
      rw [update_of_ne hother, hindex, h.pool (k + 1) (by omega)]
      split_ifs with hlt
      · rfl
      · rw [List.getElem?_append_left (by omega)]
  · obtain he' | he' := mem_append.mp he'
    · exact h.entries e' he'
    · obtain rfl := mem_singleton.mp he'
      rw [not_or] at hadd
      refine ⟨⟨?_, ?_⟩, hadd.2⟩
      · show buf.take (netlinkBufferSize - 1) ≠ []
        rw [ne_eq, take_eq_nil_iff, not_or]
        exact ⟨by decide, hadd.1⟩
      · show (buf.take (netlinkBufferSize - 1)).length < netlinkBufferSize
        rw [length_take]
        unfold netlinkBufferSize
        omega

theorem NetlinkInv.broadcast (h : NetlinkInv x history) {buf : List (BitVec 8)} {pid groups : BitVec 32}
    {protocol : ℤ} (haddr : Addressable buf) : NetlinkInv (x.broadcastToGroup buf pid groups protocol)
      (history ++ ((NetlinkCall.broadcast buf pid groups protocol).pooled).toList) := by
  unfold Netlink.broadcastToGroup
  dsimp only [NetlinkCall.pooled]
  by_cases hbuf : buf = []
  · rw [if_pos hbuf, if_pos (Or.inl hbuf), toList_none, append_nil]
    exact h
  rw [if_neg hbuf]
  have hpooled : NetlinkInv (x.msgPoolAdd buf pid groups protocol) (history ++
      (if buf = [] ∨ groups = 0 then none
        else some (⟨buf.take (netlinkBufferSize - 1), pid, groups, protocol⟩ : NetlinkPoolEntry)).toList) := by
    by_cases hadd : buf = [] ∨ groups = 0
    · rw [if_pos hadd, Netlink.msgPoolAdd, if_pos hadd, toList_none, append_nil]
      exact h
    · rw [if_neg hadd]
      exact h.msgPoolAdd hadd
  refine ⟨fun i sock hsock => ?_, hpooled.next, hpooled.pool, hpooled.entries⟩
  dsimp only at hsock
  split_ifs at hsock
  · obtain ⟨sock0, hsock0, rfl⟩ := Option.mem_map.mp hsock
    obtain ⟨q, hq⟩ := hpooled.rings i sock0 hsock0
    obtain ⟨hin, hout⟩ := Netlink.deliver_holds pid groups protocol hbuf haddr hq
    by_cases hreached : sock0.protocol = protocol ∧ sock0.groups = groups ∧ sock0.buffer.Room buf.length
    · exact ⟨_, hin hreached⟩
    · exact ⟨_, hout hreached⟩
  · exact hpooled.rings i sock hsock

theorem NetlinkInv.same (h : NetlinkInv x history) {call : NetlinkCall} (hcall : call.pooled = none) :
    NetlinkInv x (history ++ call.pooled.toList) := by
  rw [hcall, toList_none, append_nil]
  exact h

theorem NetlinkInv.step (h : NetlinkInv x history) {call : NetlinkCall} (hcall : call.Addressable) :
    NetlinkInv (x.step call) (history ++ call.pooled.toList) := by
  cases call with
  | socket protocol =>
    refine NetlinkInv.same ?_ rfl
    rw [Netlink.step, Netlink.socket]
    cases (range maxNetlinkSockets).find? fun i => (x.sockets i).isNone with
    | none => exact h
    | some i =>
      apply h.update i
      intro sock hsock
      cases hsock
      exact ⟨[], NetlinkBuffer.holds_init⟩
  | close i =>
    refine NetlinkInv.same (h.update i ?_) rfl
    intro sock hsock
    cases hsock
  | bind i groups heap =>
    refine NetlinkInv.same (h.update i ?_) rfl
    intro sock hsock
    obtain ⟨sock0, hsock0, rfl⟩ := Option.mem_map.mp hsock
    obtain ⟨q, hq⟩ := h.rings i sock0 hsock0
    split_ifs with hfail
    · exact ⟨q, hq⟩
    · exact ⟨_, h.deliverHistoricalMessages (sock0.bound groups) hq⟩
  | broadcast buf pid groups protocol => exact h.broadcast hcall
  | receive i out peek =>
    refine NetlinkInv.same (h.update i ?_) rfl
    intro sock hsock
    obtain ⟨sock0, hsock0, rfl⟩ := Option.mem_map.mp hsock
    obtain ⟨q, hq⟩ := h.rings i sock0 hsock0
    cases q with
    | nil =>
      refine ⟨[], ?_⟩
      show (sock0.buffer.readPacket out peek).1.Holds []
      rw [hq.readPacket_nil]
      exact hq
    | cons p q => exact ⟨_, (hq.readPacket out peek).2⟩

theorem netlinkInv_run {calls : List NetlinkCall} (hcalls : ∀ call ∈ calls, call.Addressable) :
    NetlinkInv (.run calls) (calls.filterMap NetlinkCall.pooled) := by
  induction calls using reverseRecOn with
  | nil => exact netlinkInv_init
  | append_singleton calls call ih =>
    have hprev := ih fun c hc => hcalls c (mem_append_left _ hc)
    have hlast := hprev.step (hcalls call (mem_append_right _ (mem_singleton_self call)))
    rw [filterMap_append, Netlink.run, foldl_append]
    have hone : [call].filterMap NetlinkCall.pooled = call.pooled.toList := by
      cases hc : call.pooled <;> simp [hc]
    rw [hone]
    exact hlast

/-- A socket that takes new groups is given the messages of the pool for its protocol that share a group
with it, in their order, and nothing else. -/
def Netlink.Replays (x : Netlink) (pooled : List NetlinkPoolEntry) (i : ℕ) (groups : BitVec 32) : Prop :=
  ∀ sock ∈ x.sockets i, ∀ q, sock.buffer.Holds q → ∃ sock' ∈ (x.bind i groups true).sockets i,
    sock'.buffer.Holds (q ++ (pooled.filter (sock.withGroups groups).shares).map NetlinkPoolEntry.packet)

theorem NetlinkSock.wants_iff :
    sock.wants e = true ↔ e.protocol = sock.protocol ∧ e.nlGroups = sock.groups := decide_eq_true_iff

theorem NetlinkSock.shares_iff :
    sock.shares e = true ↔ e.protocol = sock.protocol ∧ e.nlGroups &&& sock.groups ≠ 0 := decide_eq_true_iff

theorem NetlinkSock.shares_of_wants (hne : e.nlGroups ≠ 0) (h : sock.wants e = true) : sock.shares e = true := by
  rw [wants_iff] at h
  rw [shares_iff, ← h.2, BitVec.and_self]
  exact ⟨h.1, hne⟩

theorem filter_wants_sublist (sock : NetlinkSock) (es : List NetlinkPoolEntry)
    (hne : ∀ e ∈ es, e.nlGroups ≠ 0) : List.Sublist (es.filter sock.wants) (es.filter sock.shares) := by
  have hsub : es.filter sock.wants = (es.filter sock.shares).filter sock.wants := by
    rw [List.filter_filter]
    apply filter_congr
    intro e he
    cases hwants : sock.wants e with
    | false => rfl
    | true => rw [sock.shares_of_wants (hne e he) hwants, Bool.and_self]
  rw [hsub]
  exact filter_sublist

/-- A replay does what the groups of the socket say if and only if no message of the pool shares a group
with the socket without being for its groups, and the ring has room for them all. -/
theorem NetlinkInv.replays_iff (h : NetlinkInv x history) (i : ℕ) (groups : BitVec 32) :
    x.Replays (history.drop (history.length - maxNetlinkMsgPoolSize)) i groups ↔ ∀ sock ∈ x.sockets i,
      (∀ e ∈ history.drop (history.length - maxNetlinkMsgPoolSize),
        (sock.withGroups groups).shares e = true → e.nlGroups = groups) ∧
      sock.buffer.available + entryBytes ((history.drop (history.length - maxNetlinkMsgPoolSize)).filter
        (sock.withGroups groups).wants) < sock.buffer.size := by
  set pooled := history.drop (history.length - maxNetlinkMsgPoolSize) with hpooled
  have hne : ∀ e ∈ pooled, e.nlGroups ≠ 0 := fun e he => (h.entries e (mem_of_mem_drop he)).2
  have hbind : ∀ sock ∈ x.sockets i,
      (x.bind i groups true).sockets i = some (x.deliverHistoricalMessages (sock.bound groups)) := by
    intro sock hsock
    unfold Netlink.bind
    dsimp only
    rw [update_self, hsock, Option.map_some, if_neg (by simp)]
    rfl
  have hheld : ∀ (sock : NetlinkSock) q, sock.buffer.Holds q →
      (x.deliverHistoricalMessages (sock.bound groups)).buffer.Holds
        (replayed sock.buffer.size q (pooled.filter (sock.withGroups groups).wants)) :=
    fun sock q hq => h.deliverHistoricalMessages (sock.bound groups) hq
  constructor
  · intro hreplays sock hsock
    obtain ⟨q, hq⟩ := h.rings i sock hsock
    obtain ⟨sock', hsock', hholds⟩ := hreplays sock hsock q hq
    rw [hbind sock hsock] at hsock'
    cases hsock'
    have hsame := (hheld sock q hq).unique hholds
    obtain ⟨done, hprefix, heq, -, hroom⟩ := replayed_eq sock.buffer.size q
      (pooled.filter (sock.withGroups groups).wants)
    have hsub := filter_wants_sublist (sock.withGroups groups) pooled hne
    have hlen : done.length = (pooled.filter (sock.withGroups groups).shares).length := by
      have hlens := congrArg length (append_cancel_left (heq.symm.trans hsame))
      simpa using hlens
    -- what was written is a prefix of the wanted messages, and those are among the ones that share
    have hdone : done = pooled.filter (sock.withGroups groups).wants :=
      hprefix.eq_of_length_le (hsub.length_le.trans_eq hlen.symm)
    have hall : pooled.filter (sock.withGroups groups).wants = pooled.filter (sock.withGroups groups).shares :=
      hsub.eq_of_length_le (by rw [← hlen, hdone])
    constructor
    · intro e he hshares
      have hmem : e ∈ pooled.filter (sock.withGroups groups).wants := by
        rw [hall]
        exact mem_filter.mpr ⟨he, hshares⟩
      exact (NetlinkSock.wants_iff.mp (mem_filter.mp hmem).2).2
    · rw [hq.available_eq, ← hdone]
      exact hroom hq.room
  · intro hcond sock hsock q hq
    obtain ⟨hequal, hroom⟩ := hcond sock hsock
    obtain ⟨done, -, heq, hall, -⟩ := replayed_eq sock.buffer.size q
      (pooled.filter (sock.withGroups groups).wants)
    rw [hq.available_eq] at hroom
    have hfilter : pooled.filter (sock.withGroups groups).shares =
        pooled.filter (sock.withGroups groups).wants := by
      apply filter_congr
      intro e he
      rw [Bool.eq_iff_iff]
      constructor
      · intro hshares
        exact NetlinkSock.wants_iff.mpr ⟨(NetlinkSock.shares_iff.mp hshares).1, hequal e he hshares⟩
      · exact NetlinkSock.shares_of_wants (hne e he)
    refine ⟨_, hbind sock hsock, ?_⟩
    have hdone := hheld sock q hq
    rw [heq, hall hroom] at hdone
    rw [hfilter]
    exact hdone

/-- In a state that calls lead to, a broadcast reaches the members of its groups and a replay gives a socket
the messages of its groups exactly when the masks that share a group are equal. -/
theorem multicast_exact (calls : List NetlinkCall) (hcalls : ∀ call ∈ calls, call.Addressable) :
    (∀ buf pid groups protocol, buf ≠ [] → Addressable buf →
      ((Netlink.run calls).Reaches buf pid groups protocol ↔ ∀ i < maxNetlinkSockets,
        ∀ sock ∈ (Netlink.run calls).sockets i, sock.protocol = protocol → sock.buffer.Room buf.length →
          (sock.groups &&& groups ≠ 0 ↔ sock.groups = groups))) ∧
    ∀ i groups, (Netlink.run calls).Replays (pooledMessages calls) i groups ↔
      ∀ sock ∈ (Netlink.run calls).sockets i,
        (∀ e ∈ pooledMessages calls, (sock.withGroups groups).shares e = true → e.nlGroups = groups) ∧
        sock.buffer.available + entryBytes ((pooledMessages calls).filter (sock.withGroups groups).wants) <
          sock.buffer.size := by
  have hinv := netlinkInv_run hcalls
  constructor
  · intro buf pid groups protocol hbuf haddr
    exact Netlink.reaches_iff hbuf haddr fun i _ sock hsock => hinv.rings i sock hsock
  · intro i groups
    exact hinv.replays_iff i groups

/-- After every run the slots of the pool, from the next one on, hold the last multicast messages in their order. -/
theorem pool_holds_last (calls : List NetlinkCall) (hcalls : ∀ call ∈ calls, call.Addressable) :
    (Netlink.run calls).entries (Netlink.run calls).poolNext maxNetlinkMsgPoolSize 0 = pooledMessages calls :=
  (netlinkInv_run hcalls).pooled_eq

/-- One message more than the pool has room for: the first one is overwritten. -/
def wrappingMessages : List NetlinkCall :=
  .broadcast [65] 0 1 15 :: replicate maxNetlinkMsgPoolSize (.broadcast [66] 0 1 15)

theorem pool_holds_last_wrapping :
    (Netlink.run wrappingMessages).entries (Netlink.run wrappingMessages).poolNext maxNetlinkMsgPoolSize 0 =
      replicate maxNetlinkMsgPoolSize ⟨[66], 0, 1, 15⟩ := by
  have hcalls : ∀ call ∈ wrappingMessages, call.Addressable := by
    intro call hcall
    rcases mem_cons.mp hcall with rfl | hcall
    · simp [NetlinkCall.Addressable, Addressable, netlinkPacketHdrSize]
    · rw [eq_of_mem_replicate hcall]
      simp [NetlinkCall.Addressable, Addressable, netlinkPacketHdrSize]
  have hfirst : (NetlinkCall.broadcast [65] 0 1 15).pooled = some ⟨[65], 0, 1, 15⟩ := rfl
  have hlater : (NetlinkCall.broadcast [66] 0 1 15).pooled = some ⟨[66], 0, 1, 15⟩ := rfl
  have hhistory : wrappingMessages.filterMap NetlinkCall.pooled =
      ⟨[65], 0, 1, 15⟩ :: replicate maxNetlinkMsgPoolSize ⟨[66], 0, 1, 15⟩ := by
    rw [wrappingMessages, filterMap_cons_some hfirst, filterMap_replicate_of_some hlater]
  rw [pool_holds_last wrappingMessages hcalls, pooledMessages, hhistory, length_cons, length_replicate,
    Nat.add_sub_cancel_left, drop_one, tail_cons]

end Runs

def twoGroups : List NetlinkCall := [.socket 15, .bind 0 3 true]

theorem twoGroups_sockets : ∃ sock, (Netlink.run twoGroups).sockets 0 = some sock ∧ sock.protocol = 15 ∧
    sock.groups = 3 ∧ sock.buffer.Room 1 := by
  have hsocket : ((Netlink.run twoGroups).sockets 0).map (fun sock =>
      (sock.protocol, sock.groups, decide (sock.buffer.available + 13 < sock.buffer.size))) =
        some (15, 3, true) := by
    decide +kernel
  obtain ⟨sock, hsock, heq⟩ := map_eq_some_iff.mp hsocket
  simp only [Prod.mk.injEq, decide_eq_true_eq] at heq
  exact ⟨sock, hsock, heq.1, heq.2.1, heq.2.2⟩

theorem twoGroups_others {i : ℕ} (hi : i ≠ 0) : (Netlink.run twoGroups).sockets i = none := by
  show update (Netlink.init.socket 15).sockets 0 _ i = none
  rw [update_of_ne hi]
  show update (fun _ => none) 0 _ i = none
  rw [update_of_ne hi]

theorem twoGroups_addressable : ∀ call ∈ twoGroups, call.Addressable := by
  intro call hcall
  simp only [twoGroups, mem_cons, not_mem_nil, or_false] at hcall
  rcases hcall with rfl | rfl <;> trivial

/-- A message to both groups reaches the socket. -/
theorem multicast_exact_twoGroups : (Netlink.run twoGroups).Reaches [65] 0 3 15 := by
  refine ((multicast_exact twoGroups twoGroups_addressable).1 [65] 0 3 15 (by decide)
    (by unfold Addressable; decide)).mpr ?_
  intro i hi sock hsock hprotocol hroom
  by_cases hzero : i = 0
  · obtain ⟨sock', hsock', -, hgroups, -⟩ := twoGroups_sockets
    rw [hzero, hsock'] at hsock
    cases hsock
    rw [hgroups]
    decide
  · rw [twoGroups_others hzero] at hsock
    cases hsock

/-- A message to group 1 that is sent before the socket takes its groups. -/
def earlyMessage : List NetlinkCall := [.socket 15, .broadcast [65] 0 1 15]

/-- A message to one of the groups does not reach the socket, neither when it is sent nor from the pool. -/
theorem multicast_missed :
    ¬(Netlink.run twoGroups).Reaches [65] 0 1 15 ∧
      ¬(Netlink.run earlyMessage).Replays (pooledMessages earlyMessage) 0 3 := by
  constructor
  · intro hreaches
    obtain ⟨sock, hsock, hprotocol, hgroups, hroom⟩ := twoGroups_sockets
    have hcond := (Netlink.reaches_iff (by decide) (by unfold Addressable; decide)
      fun i _ sock hsock => (netlinkInv_run twoGroups_addressable).rings i sock hsock).mp hreaches
    have hiff := hcond 0 (by decide) sock hsock hprotocol hroom
    rw [hgroups] at hiff
    revert hiff
    decide
  · intro hreplays
    have hcalls : ∀ call ∈ earlyMessage, call.Addressable := by
      intro call hcall
      simp only [earlyMessage, List.mem_cons, List.not_mem_nil, or_false] at hcall
      rcases hcall with rfl | rfl
      · trivial
      · show netlinkPacketHdrSize + 1 < 2 ^ 64
        decide
    have hsocket : ((Netlink.run earlyMessage).sockets 0).map NetlinkSock.protocol = some 15 := by
      decide
    obtain ⟨sock, hsock, hprotocol⟩ := Option.map_eq_some_iff.mp hsocket
    have hcond := (((netlinkInv_run hcalls).replays_iff 0 3).mp hreplays sock hsock).1
    have hgroups : (1 : BitVec 32) = 3 := by
      refine hcond ⟨[65], 0, 1, 15⟩ (List.mem_singleton_self _) ?_
      rw [NetlinkSock.shares_iff]
      refine ⟨hprotocol.symm, ?_⟩
      show (1 : BitVec 32) &&& 3 ≠ 0
      decide
    revert hgroups
    decide

end CoolPotOS
