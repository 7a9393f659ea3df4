import CoolPotOS.Net.Netlink
import CoolPotOS.Lib.Machines

namespace CoolPotOS

open List

structure NetlinkPacket where
  nlPid : BitVec 32
  nlGroups : BitVec 32
  payload : List (BitVec 8)
  deriving DecidableEq

def NetlinkPacket.bytes (p : NetlinkPacket) : List (BitVec 8) :=
  (⟨p.nlPid, p.nlGroups, BitVec.ofNat 32 p.payload.length⟩ : NetlinkPacketHdr).bytes ++ p.payload

@[simp] theorem NetlinkPacketHdr.length_bytes (hdr : NetlinkPacketHdr) :
    hdr.bytes.length = netlinkPacketHdrSize := by
  rw [NetlinkPacketHdr.bytes, length_append, length_append, ByteStore.length_encode,
    ByteStore.length_encode, ByteStore.length_encode]
  rfl

theorem NetlinkPacketHdr.ofBytes_bytes (hdr : NetlinkPacketHdr) : .ofBytes hdr.bytes = hdr := by
  have hlast := ByteStore.takeWord_encode (k := 4) hdr.length []
  rw [append_nil] at hlast
  unfold NetlinkPacketHdr.ofBytes NetlinkPacketHdr.bytes
  rw [append_assoc, ByteStore.takeWord_encode]
  dsimp only
  rw [ByteStore.takeWord_encode]
  dsimp only
  rw [hlast]

def ringBytes (q : List NetlinkPacket) : ℕ := (q.flatMap NetlinkPacket.bytes).length

theorem NetlinkPacket.length_bytes (p : NetlinkPacket) :
    p.bytes.length = netlinkPacketHdrSize + p.payload.length := by
  rw [NetlinkPacket.bytes, length_append, NetlinkPacketHdr.length_bytes]

@[simp] theorem ringBytes_nil : ringBytes [] = 0 := rfl

theorem ringBytes_cons (p : NetlinkPacket) (q : List NetlinkPacket) :
    ringBytes (p :: q) = netlinkPacketHdrSize + p.payload.length + ringBytes q := by
  unfold ringBytes
  rw [flatMap_cons, length_append, p.length_bytes]

theorem ringBytes_append (q : List NetlinkPacket) (p : NetlinkPacket) :
    ringBytes (q ++ [p]) = ringBytes q + (netlinkPacketHdrSize + p.payload.length) := by
  unfold ringBytes
  rw [flatMap_append, length_append, flatMap_singleton, p.length_bytes]

variable {p : NetlinkPacket}

namespace NetlinkBuffer

variable {b : NetlinkBuffer} {q : List NetlinkPacket}

theorem getBytes_eq (b : NetlinkBuffer) {pos : ℕ} (hpos : pos < b.size) (n : ℕ) :
    b.getBytes pos n = (Ring.contents b.data b.size pos n, (pos + n) % b.size) := by
  induction n generalizing pos with
  | zero =>
    rw [getBytes, Nat.add_zero, Nat.mod_eq_of_lt hpos]
    rfl
  | succ n ih =>
    have hnext : (pos + 1) % b.size < b.size := Nat.mod_lt _ (by omega)
    have hone : Ring.contents b.data b.size pos 1 = [b.data pos] := by
      simp [Ring.contents, Nat.mod_eq_of_lt hpos]
    rw [getBytes, ih hnext, Nat.add_comm n 1, Ring.contents_add, hone, Nat.mod_add_mod, Nat.add_assoc]
    rfl

theorem skipBytes_eq (b : NetlinkBuffer) {pos : ℕ} (hpos : pos < b.size) (n : ℕ) :
    b.skipBytes pos n = (pos + n) % b.size := by
  induction n generalizing pos with
  | zero => rw [skipBytes, Nat.add_zero, Nat.mod_eq_of_lt hpos]
  | succ n ih =>
    have hnext : (pos + 1) % b.size < b.size := Nat.mod_lt _ (by omega)
    rw [skipBytes, ih hnext, Nat.mod_add_mod]
    congr 1
    omega

theorem putBytes_spec {n : ℕ} (xs : List (BitVec 8)) (hhead : b.head < b.size)
    (htail : b.tail = (b.head + n) % b.size) (hroom : n + xs.length ≤ b.size) :
    (b.putBytes xs).head = b.head ∧ (b.putBytes xs).size = b.size ∧
      (b.putBytes xs).tail = (b.head + (n + xs.length)) % b.size ∧
      Ring.contents (b.putBytes xs).data b.size b.head (n + xs.length) =
        Ring.contents b.data b.size b.head n ++ xs := by
  induction xs generalizing b n with
  | nil => exact ⟨rfl, rfl, htail, (append_nil _).symm⟩
  | cons x xs ih =>
    rw [length_cons] at hroom ⊢
    have hone := @Ring.contents_update _ b.data b.size b.head n x (by omega)
    let b' : NetlinkBuffer :=
      { b with data := Function.update b.data b.tail x, tail := (b.tail + 1) % b.size }
    obtain ⟨h1, h2, h3, h4⟩ := ih (n := n + 1) (b := b') hhead
      (by show (b.tail + 1) % b.size = _; rw [htail, Nat.mod_add_mod, Nat.add_assoc])
      (by show n + 1 + xs.length ≤ b.size; omega)
    rw [show n + (xs.length + 1) = n + 1 + xs.length by omega]
    refine ⟨h1, h2, h3, h4.trans ?_⟩
    show Ring.contents (Function.update b.data b.tail x) b.size b.head (n + 1) ++ xs = _
    rw [htail, hone, append_assoc, singleton_append]

theorem putBytes_size (b : NetlinkBuffer) (xs : List (BitVec 8)) : (b.putBytes xs).size = b.size := by
  induction xs generalizing b with
  | nil => rfl
  | cons x xs ih => exact ih _

/-- The ring holds the packets of the queue. One byte stays free. -/
structure Holds (b : NetlinkBuffer) (q : List NetlinkPacket) : Prop where
  head : b.head < b.size
  size : b.size ≤ 2 ^ 32
  room : ringBytes q < b.size
  tail : b.tail = (b.head + ringBytes q) % b.size
  data : Ring.contents b.data b.size b.head (ringBytes q) = q.flatMap NetlinkPacket.bytes

theorem holds_init : Holds init [] := ⟨by decide, by decide, by decide, rfl, rfl⟩

theorem Holds.available_eq (h : b.Holds q) : b.available = ringBytes q := by
  have hhead := h.head
  have hroom := h.room
  unfold available
  rw [h.tail]
  by_cases hlt : b.head + ringBytes q < b.size
  · rw [Nat.mod_eq_of_lt hlt, if_pos (by omega)]
    omega
  · rw [Nat.mod_eq_sub_mod (by omega), Nat.mod_eq_of_lt (by omega), if_neg (by omega)]
    omega

theorem Holds.length_le (h : b.Holds q) (hp : p ∈ q) :
    netlinkPacketHdrSize + p.payload.length ≤ ringBytes q := by
  obtain ⟨l1, l2, rfl⟩ := append_of_mem hp
  unfold ringBytes
  rw [flatMap_append, flatMap_cons, length_append, length_append, p.length_bytes]
  omega

theorem Holds.hdr_eq (h : b.Holds (p :: q)) :
    b.hdr = (⟨p.nlPid, p.nlGroups, BitVec.ofNat 32 p.payload.length⟩,
      (b.head + netlinkPacketHdrSize) % b.size) := by
  have hbytes : Ring.contents b.data b.size b.head netlinkPacketHdrSize =
      (⟨p.nlPid, p.nlGroups, BitVec.ofNat 32 p.payload.length⟩ : NetlinkPacketHdr).bytes := by
    have hle : netlinkPacketHdrSize ≤ ringBytes (p :: q) := by
      rw [ringBytes_cons]
      omega
    rw [← Ring.take_contents hle, h.data, flatMap_cons, NetlinkPacket.bytes, append_assoc]
    exact take_left' (NetlinkPacketHdr.length_bytes _)
  unfold hdr
  rw [getBytes_eq b h.head, hbytes]
  dsimp only
  rw [NetlinkPacketHdr.ofBytes_bytes]

theorem Holds.writePacket (h : b.Holds q) (data : List (BitVec 8)) (nlPid nlGroups : BitVec 32)
    (hdata : data ≠ []) (hlen : netlinkPacketHdrSize + data.length < 2 ^ 64) :
    if ringBytes q + (netlinkPacketHdrSize + data.length) < b.size then
      (b.writePacket (some data) nlPid nlGroups).1.Holds (q ++ [⟨nlPid, nlGroups, data⟩]) ∧
        (b.writePacket (some data) nlPid nlGroups).1.size = b.size ∧
        (b.writePacket (some data) nlPid nlGroups).2 = data.length
    else b.writePacket (some data) nlPid nlGroups = (b, 0) := by
  have hroom := h.room
  have hwrap : wrap (netlinkPacketHdrSize + data.length) = netlinkPacketHdrSize + data.length :=
    wrap_of_lt hlen
  have hspace : b.size - b.available - 1 < wrap (netlinkPacketHdrSize + data.length) ↔
      ¬ringBytes q + (netlinkPacketHdrSize + data.length) < b.size := by
    rw [hwrap, h.available_eq]
    omega
  unfold NetlinkBuffer.writePacket
  simp only [if_neg hdata, hspace]
  by_cases hfits : ringBytes q + (netlinkPacketHdrSize + data.length) < b.size
  swap
  · rw [if_neg hfits, if_pos hfits]
  rw [if_pos hfits, if_neg (not_not.mpr hfits)]
  refine ⟨?_, ?_, rfl⟩
  swap
  · exact (putBytes_size _ _).trans (putBytes_size _ _)
  set hdr : NetlinkPacketHdr := ⟨nlPid, nlGroups, BitVec.ofNat 32 data.length⟩ with hhdr
  have hhdrlen : hdr.bytes.length = netlinkPacketHdrSize := hdr.length_bytes
  obtain ⟨h1, h2, h3, h4⟩ := putBytes_spec hdr.bytes h.head h.tail (by omega)
  obtain ⟨g1, g2, g3, g4⟩ := putBytes_spec (b := b.putBytes hdr.bytes) data
    (by rw [h1, h2]; exact h.head) (by rw [h1, h2]; exact h3) (by rw [h2]; omega)
  have hbytes : ringBytes (q ++ [⟨nlPid, nlGroups, data⟩]) =
      ringBytes q + hdr.bytes.length + data.length := by
    rw [ringBytes_append, hhdrlen]
    exact (Nat.add_assoc _ _ _).symm
  refine ⟨?_, ?_, ?_, ?_, ?_⟩
  · rw [g1, g2, h1, h2]
    exact h.head
  · rw [g2, h2]
    exact h.size
  · rw [g2, h2, hbytes]
    omega
  · rw [g3, g1, g2, h1, h2, hbytes]
  · rw [g1, g2, h1, h2, hbytes]
    rw [h1, h2] at g4
    rw [g4, h4, h.data, flatMap_append, flatMap_singleton, append_assoc]
    rfl

/-- The oldest packet with the bytes that a reader asks for. -/
def readOf (p : NetlinkPacket) (out : Option ℕ) : NetlinkRead :=
  { count := if out.getD 0 > 0 then min p.payload.length (out.getD 0) else p.payload.length
    address := some (p.nlPid, p.nlGroups)
    bytes := p.payload.take (out.getD 0) }

theorem Holds.lt_hdr {q : List NetlinkPacket} (h : b.Holds q) :
    b.available < netlinkPacketHdrSize ↔ q = [] := by
  rw [h.available_eq]
  cases q with
  | nil => simp [netlinkPacketHdrSize]
  | cons p q =>
    rw [ringBytes_cons]
    simp [Nat.add_assoc]

theorem Holds.length_eq (h : b.Holds (p :: q)) : b.hdr.1.length.toNat = p.payload.length := by
  have hle := h.length_le (mem_cons_self (a := p))
  have hroom := h.room
  have hsize := h.size
  rw [h.hdr_eq, BitVec.toNat_ofNat, Nat.mod_eq_of_lt (by omega)]

theorem Holds.complete (h : b.Holds (p :: q)) :
    netlinkPacketHdrSize + b.hdr.1.length.toNat ≤ b.available := by
  rw [h.length_eq, h.available_eq]
  exact h.length_le mem_cons_self

theorem Holds.payload_eq (h : b.Holds (p :: q)) :
    Ring.contents b.data b.size ((b.head + netlinkPacketHdrSize) % b.size) p.payload.length = p.payload ∧
      Ring.contents b.data b.size ((b.head + (netlinkPacketHdrSize + p.payload.length)) % b.size)
        (ringBytes q) = q.flatMap NetlinkPacket.bytes := by
  have hdata := h.data
  rw [ringBytes_cons, flatMap_cons, Ring.contents_add, Ring.contents_add, NetlinkPacket.bytes] at hdata
  obtain ⟨h1, h2⟩ := append_inj hdata (by
    rw [length_append, length_append, Ring.length_contents, Ring.length_contents,
      NetlinkPacketHdr.length_bytes])
  obtain ⟨-, h3⟩ := append_inj h1 (by
    rw [Ring.length_contents, NetlinkPacketHdr.length_bytes])
  exact ⟨h3, h2⟩

theorem Holds.readPacket (h : b.Holds (p :: q)) (out : Option ℕ) (peek : Bool) :
    (b.readPacket out peek).2 = readOf p out ∧
      (b.readPacket out peek).1.Holds (if peek then p :: q else q) := by
  have hlen := h.length_eq
  have hpos : b.hdr.2 < b.size := by
    rw [h.hdr_eq]
    exact Nat.mod_lt _ (by have := h.head; omega)
  obtain ⟨hpayload, hrest⟩ := h.payload_eq
  unfold NetlinkBuffer.readPacket
  rw [if_neg (by rw [h.lt_hdr]; exact cons_ne_nil p q)]
  dsimp only
  rw [if_neg (not_lt.mpr h.complete), hlen]
  -- both ways around the payload end at the next packet
  have hskip : b.skipBytes (if out.getD 0 > 0 then b.getBytes b.hdr.2 (if out.getD 0 > 0 then
        min p.payload.length (out.getD 0) else p.payload.length) else ([], b.hdr.2)).2
      (if out.getD 0 > 0 then p.payload.length - (if out.getD 0 > 0 then
        min p.payload.length (out.getD 0) else p.payload.length) else p.payload.length) =
      (b.head + (netlinkPacketHdrSize + p.payload.length)) % b.size := by
    have hend : (b.hdr.2 + p.payload.length) % b.size =
        (b.head + (netlinkPacketHdrSize + p.payload.length)) % b.size := by
      rw [h.hdr_eq]
      dsimp only
      rw [Nat.mod_add_mod, Nat.add_assoc]
    rw [← hend]
    by_cases hout : out.getD 0 > 0
    · simp only [if_pos hout]
      rw [getBytes_eq b hpos, skipBytes_eq b (Nat.mod_lt _ (by omega)), Nat.mod_add_mod]
      congr 1
      omega
    · simp only [if_neg hout]
      exact skipBytes_eq b hpos _
  rw [hskip, h.hdr_eq]
  constructor
  · unfold readOf
    by_cases hout : out.getD 0 > 0
    · simp only [if_pos hout]
      rw [getBytes_eq b (Nat.mod_lt _ (by omega)), ← Ring.take_contents (Nat.min_le_left _ _), hpayload]
      dsimp only
      have htake : p.payload.take (min p.payload.length (out.getD 0)) = p.payload.take (out.getD 0) :=
        take_eq_take_iff.mpr (by omega)
      rw [htake]
    · simp only [if_neg hout]
      rw [show out.getD 0 = 0 by omega, take_zero]
  · cases peek with
    | true => exact h
    | false =>
      have hroom := h.room
      rw [ringBytes_cons] at hroom
      refine ⟨Nat.mod_lt _ (by omega), h.size, by show ringBytes q < b.size; omega, ?_, hrest⟩
      show b.tail = ((b.head + (netlinkPacketHdrSize + p.payload.length)) % b.size + ringBytes q) % b.size
      rw [h.tail, ringBytes_cons, Nat.mod_add_mod]
      congr 1
      omega

theorem Holds.readPacket_nil (h : b.Holds []) (out : Option ℕ) (peek : Bool) :
    b.readPacket out peek = (b, ⟨0, none, []⟩) := by
  unfold NetlinkBuffer.readPacket
  rw [if_pos (h.lt_hdr.mpr rfl)]

theorem readPacket_size (b : NetlinkBuffer) (out : Option ℕ) (peek : Bool) :
    (b.readPacket out peek).1.size = b.size := by
  unfold NetlinkBuffer.readPacket
  dsimp only
  split_ifs <;> rfl

theorem Holds.hasMsg (h : b.Holds q) : b.hasMsg = true ↔ q ≠ [] := by
  unfold NetlinkBuffer.hasMsg
  cases q with
  | nil =>
    rw [if_pos (h.lt_hdr.mpr rfl)]
    simp
  | cons p q =>
    rw [if_neg (by rw [h.lt_hdr]; exact cons_ne_nil p q)]
    simpa using h.complete

theorem Holds.peekMsgLen (h : b.Holds q) : b.peekMsgLen = (q.head?.map fun p => p.payload.length).getD 0 := by
  unfold NetlinkBuffer.peekMsgLen
  cases q with
  | nil => rw [if_pos (h.lt_hdr.mpr rfl)]; rfl
  | cons p q =>
    rw [if_neg (by rw [h.lt_hdr]; exact cons_ne_nil p q), if_neg (not_lt.mpr h.complete), h.length_eq]
    rfl

end NetlinkBuffer

inductive NetlinkOp
  | write (data : Option (List (BitVec 8))) (nlPid nlGroups : BitVec 32)
  | read (out : Option ℕ) (peek : Bool)
  | hasMsg
  | peekMsgLen

inductive NetlinkResult
  | count (n : ℕ)
  | packet (r : NetlinkRead)
  | flag (b : Bool)
  deriving DecidableEq

def NetlinkBuffer.step (b : NetlinkBuffer) : NetlinkOp → NetlinkBuffer × NetlinkResult
  | .write data nlPid nlGroups =>
    let r := b.writePacket data nlPid nlGroups
    (r.1, .count r.2)
  | .read out peek =>
    let r := b.readPacket out peek
    (r.1, .packet r.2)
  | .hasMsg => (b, .flag b.hasMsg)
  | .peekMsgLen => (b, .count b.peekMsgLen)

/-- The queue of packets that the ring stands for. A write fails when the bytes of the packets would
not leave one of `size` free. -/
def netlinkFifo (size : ℕ) (q : List NetlinkPacket) : NetlinkOp → List NetlinkPacket × NetlinkResult
  | .write none _ _ => (q, .count 0)
  | .write (some data) nlPid nlGroups =>
    if data ≠ [] ∧ ringBytes q + (netlinkPacketHdrSize + data.length) < size then
      (q ++ [⟨nlPid, nlGroups, data⟩], .count data.length)
    else (q, .count 0)
  | .read out peek =>
    match q with
    | [] => ([], .packet ⟨0, none, []⟩)
    | p :: q => (if peek then p :: q else q, .packet (NetlinkBuffer.readOf p out))
  | .hasMsg => (q, .flag (!q.isEmpty))
  | .peekMsgLen => (q, .count ((q.head?.map fun p => p.payload.length).getD 0))

/-- The payload of a write is shorter than `2 ^ 32`. -/
def NetlinkOp.Short : NetlinkOp → Prop
  | .write data _ _ => ∀ d ∈ data, d.length < 2 ^ 32
  | _ => True

theorem netlink_simulates (size : ℕ) :
    Machines.Simulates NetlinkBuffer.step (netlinkFifo size) (fun _ op => op.Short)
      (fun b q => b.Holds q ∧ b.size = size) := by
  rintro b q op ⟨h, rfl⟩ hop
  cases op with
  | write data nlPid nlGroups =>
    cases data with
    | none => exact ⟨⟨h, rfl⟩, rfl⟩
    | some data =>
      by_cases hdata : data = []
      · subst hdata
        exact ⟨⟨h, rfl⟩, rfl⟩
      have hlen : netlinkPacketHdrSize + data.length < 2 ^ 64 := by
        have hshort := hop data rfl
        unfold netlinkPacketHdrSize
        omega
      have hspec := h.writePacket data nlPid nlGroups hdata hlen
      by_cases hfits : ringBytes q + (netlinkPacketHdrSize + data.length) < b.size
      · rw [if_pos hfits] at hspec
        obtain ⟨hholds, hsize, hcount⟩ := hspec
        rw [netlinkFifo, if_pos ⟨hdata, hfits⟩]
        refine ⟨⟨hholds, hsize⟩, ?_⟩
        rw [NetlinkBuffer.step, hcount]
      · rw [if_neg hfits] at hspec
        rw [netlinkFifo, if_neg fun hc => hfits hc.2, NetlinkBuffer.step, hspec]
        exact ⟨⟨h, rfl⟩, rfl⟩
  | read out peek =>
    cases q with
    | nil =>
      rw [NetlinkBuffer.step, h.readPacket_nil]
      exact ⟨⟨h, rfl⟩, rfl⟩
    | cons p q =>
      obtain ⟨hread, hholds⟩ := h.readPacket out peek
      refine ⟨⟨hholds, b.readPacket_size out peek⟩, ?_⟩
      rw [NetlinkBuffer.step, netlinkFifo, hread]
  | hasMsg =>
    refine ⟨⟨h, rfl⟩, ?_⟩
    have hmsg : b.hasMsg = !q.isEmpty := by
      rw [Bool.eq_iff_iff, h.hasMsg]
      simp
    rw [NetlinkBuffer.step, netlinkFifo, hmsg]
  | peekMsgLen =>
    refine ⟨⟨h, rfl⟩, ?_⟩
    rw [NetlinkBuffer.step, netlinkFifo, h.peekMsgLen]

/-- The ring gives the results of the queue, and holds its packets after every run. -/
theorem netlink_refines_fifo (ops : List NetlinkOp) (hops : ∀ op ∈ ops, op.Short) :
    Machines.outputs NetlinkBuffer.step ops .init =
        Machines.outputs (netlinkFifo netlinkBufferSize) ops [] ∧
      (Machines.final NetlinkBuffer.step ops .init).Holds
        (Machines.final (netlinkFifo netlinkBufferSize) ops []) := by
  have haccepts : Machines.Accepts (netlinkFifo netlinkBufferSize) (fun _ op => op.Short) ops [] :=
    Machines.accepts_of_forall fun op hop _ => hops op hop
  obtain ⟨houts, hholds, -⟩ :=
    (netlink_simulates netlinkBufferSize).run ⟨NetlinkBuffer.holds_init, rfl⟩ haccepts
  exact ⟨houts, hholds⟩

/-- Two packets, of which the first one is read without its last byte. -/
theorem netlink_refines_fifo_two :
    Machines.outputs NetlinkBuffer.step
      [.write (some [1, 2, 3]) 7 1, .write (some [4]) 8 1, .read (some 2) false, .peekMsgLen] .init =
      [.count 3, .count 1, .packet ⟨2, some (7, 1), [1, 2]⟩, .count 1] := by
  refine (netlink_refines_fifo _ fun op hop => ?_).1.trans (by decide)
  simp only [List.mem_cons, List.not_mem_nil, or_false] at hop
  rcases hop with rfl | rfl | rfl | rfl
  · rintro d ⟨⟩
    decide
  · rintro d ⟨⟩
    decide
  · trivial
  · trivial

end CoolPotOS
