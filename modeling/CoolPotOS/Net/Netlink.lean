import CoolPotOS.Machine
import CoolPotOS.Lib.ByteStore
import CoolPotOS.Lib.Ring

namespace CoolPotOS

def netlinkBufferSize : ℕ := 8192

def maxNetlinkSockets : ℕ := 256

def maxNetlinkMsgPoolSize : ℕ := 1024

structure NetlinkBuffer where
  data : ℕ → BitVec 8
  head : ℕ
  tail : ℕ
  size : ℕ

structure NetlinkPacketHdr where
  nlPid : BitVec 32
  nlGroups : BitVec 32
  length : BitVec 32

def netlinkPacketHdrSize : ℕ := 12

def NetlinkPacketHdr.bytes (hdr : NetlinkPacketHdr) : List (BitVec 8) :=
  ByteStore.encode (k := 4) hdr.nlPid ++ ByteStore.encode (k := 4) hdr.nlGroups ++
    ByteStore.encode (k := 4) hdr.length

def NetlinkPacketHdr.ofBytes (l : List (BitVec 8)) : NetlinkPacketHdr :=
  let (nlPid, l) := ByteStore.takeWord 4 l
  let (nlGroups, l) := ByteStore.takeWord 4 l
  ⟨nlPid, nlGroups, (ByteStore.takeWord 4 l).1⟩

/-- What `netlink_buffer_read_packet` gives back: its value, the address when it sets it, and the bytes. -/
structure NetlinkRead where
  count : ℕ
  address : Option (BitVec 32 × BitVec 32)
  bytes : List (BitVec 8)
  deriving DecidableEq

namespace NetlinkBuffer

def init : NetlinkBuffer := ⟨fun _ => 0, 0, 0, netlinkBufferSize⟩

variable (b : NetlinkBuffer)

def available : ℕ := if b.tail ≥ b.head then b.tail - b.head else b.size - b.head + b.tail

def putBytes (b : NetlinkBuffer) : List (BitVec 8) → NetlinkBuffer
  | [] => b
  | x :: xs =>
    putBytes { b with data := Function.update b.data b.tail x, tail := (b.tail + 1) % b.size } xs

/-- The loops that read from `pos` on, with the position behind the bytes. -/
def getBytes (pos : ℕ) : ℕ → List (BitVec 8) × ℕ
  | 0 => ([], pos)
  | n + 1 =>
    let r := getBytes ((pos + 1) % b.size) n
    (b.data pos :: r.1, r.2)

def skipBytes (pos : ℕ) : ℕ → ℕ
  | 0 => pos
  | n + 1 => skipBytes ((pos + 1) % b.size) n

/-- The header at `head`, with the position behind it. -/
def hdr : NetlinkPacketHdr × ℕ :=
  let r := b.getBytes b.head netlinkPacketHdrSize
  (.ofBytes r.1, r.2)

/-- `netlink_buffer_write_packet`; `none` is a `NULL` pointer. -/
def writePacket (data : Option (List (BitVec 8))) (nlPid nlGroups : BitVec 32) : NetlinkBuffer × ℕ :=
  match data with
  | none => (b, 0)
  | some data =>
    if data = [] then (b, 0)
    else
      let availableSpace := b.size - b.available - 1
      if availableSpace < wrap (netlinkPacketHdrSize + data.length) then (b, 0)
      else
        let hdr : NetlinkPacketHdr := ⟨nlPid, nlGroups, BitVec.ofNat 32 data.length⟩
        ((b.putBytes hdr.bytes).putBytes data, data.length)

/-- `netlink_buffer_read_packet`; `out` has the size of the buffer unless that is a `NULL` pointer. -/
def readPacket (out : Option ℕ) (peek : Bool) : NetlinkBuffer × NetlinkRead :=
  if b.available < netlinkPacketHdrSize then (b, ⟨0, none, []⟩)
  else
    let (hdr, pos) := b.hdr
    let length := hdr.length.toNat
    if b.available < netlinkPacketHdrSize + length then (b, ⟨0, none, []⟩)
    else
      let outLen := out.getD 0
      let copyLen := if outLen > 0 then min length outLen else length
      let r := if outLen > 0 then b.getBytes pos copyLen else ([], pos)
      let pos := b.skipBytes r.2 (if outLen > 0 then length - copyLen else length)
      (if peek then b else { b with head := pos }, ⟨copyLen, some (hdr.nlPid, hdr.nlGroups), r.1⟩)

def hasMsg : Bool :=
  if b.available < netlinkPacketHdrSize then false
  else decide (b.available ≥ netlinkPacketHdrSize + b.hdr.1.length.toNat)

def peekMsgLen : ℕ :=
  if b.available < netlinkPacketHdrSize then 0
  else if b.available < netlinkPacketHdrSize + b.hdr.1.length.toNat then 0
  else b.hdr.1.length.toNat

end NetlinkBuffer

/-- The part of `struct netlink_sock` that deliveries read, and whether it has a `bind_addr`. -/
structure NetlinkSock where
  protocol : ℤ
  groups : BitVec 32
  bindAddr : Bool
  buffer : NetlinkBuffer

structure NetlinkPoolEntry where
  message : List (BitVec 8)
  nlPid : BitVec 32
  nlGroups : BitVec 32
  protocol : ℤ

/-- The table of sockets, and the pool with the next entry to write. -/
structure Netlink where
  sockets : ℕ → Option NetlinkSock
  pool : ℕ → Option NetlinkPoolEntry
  poolNext : ℕ

def Netlink.init : Netlink := ⟨fun _ => none, fun _ => none, 0⟩

namespace Netlink

variable (x : Netlink)

def msgPoolAdd (message : List (BitVec 8)) (nlPid nlGroups : BitVec 32) (protocol : ℤ) : Netlink :=
  if message = [] ∨ nlGroups = 0 then x
  else
    { x with
      pool := Function.update x.pool x.poolNext
        (some ⟨message.take (netlinkBufferSize - 1), nlPid, nlGroups, protocol⟩)
      poolNext := (x.poolNext + 1) % maxNetlinkMsgPoolSize }

/-- The loop of `netlink_broadcast_to_group` at one socket. -/
def deliver (buf : List (BitVec 8)) (senderPid targetGroups : BitVec 32) (protocol : ℤ)
    (sock : NetlinkSock) : NetlinkSock :=
  if sock.protocol ≠ protocol then sock
  else if sock.groups = targetGroups then
    { sock with buffer := (sock.buffer.writePacket (some buf) senderPid targetGroups).1 }
  else sock

def broadcastToGroup (buf : List (BitVec 8)) (senderPid targetGroups : BitVec 32) (protocol : ℤ) : Netlink :=
  if buf = [] then x
  else
    let x := x.msgPoolAdd buf senderPid targetGroups protocol
    { x with
      sockets := fun i =>
        if i < maxNetlinkSockets then (x.sockets i).map (deliver buf senderPid targetGroups protocol)
        else x.sockets i }

/-- The loop of `netlink_deliver_historical_messages` from `count` on. -/
def replayLoop (start : ℕ) : ℕ → ℕ → NetlinkSock → NetlinkSock
  | 0, _, sock => sock
  | fuel + 1, count, sock =>
    match x.pool ((start + count) % maxNetlinkMsgPoolSize) with
    | none => replayLoop start fuel (count + 1) sock
    | some entry =>
      if entry.protocol ≠ sock.protocol then replayLoop start fuel (count + 1) sock
      else if entry.nlGroups ≠ sock.groups then replayLoop start fuel (count + 1) sock
      else
        let r := sock.buffer.writePacket (some entry.message) entry.nlPid entry.nlGroups
        if r.2 = 0 then sock else replayLoop start fuel (count + 1) { sock with buffer := r.1 }

def deliverHistoricalMessages (sock : NetlinkSock) : NetlinkSock :=
  if sock.groups = 0 then sock else x.replayLoop x.poolNext maxNetlinkMsgPoolSize 0 sock

/-- `netlink_bind`, with the groups of its address; `heap` tells whether there is memory for the first
address of the socket. -/
def bind (i : ℕ) (groups : BitVec 32) (heap : Bool) : Netlink :=
  { x with
    sockets := Function.update x.sockets i
      ((x.sockets i).map fun sock =>
        -- the groups are changed before the call fails with ENOMEM
        if ¬ sock.bindAddr ∧ ¬ heap then { sock with groups := groups }
        else x.deliverHistoricalMessages { sock with groups := groups, bindAddr := true }) }

/-- `netlink_socket`, in the first free place of the table. -/
def socket (protocol : ℤ) : Netlink :=
  match (List.range maxNetlinkSockets).find? fun i => (x.sockets i).isNone with
  | none => x
  | some i => { x with sockets := Function.update x.sockets i (some ⟨protocol, 0, false, .init⟩) }

def freeSocket (i : ℕ) : Netlink := { x with sockets := Function.update x.sockets i none }

def receive (i : ℕ) (out : Option ℕ) (peek : Bool) : Netlink :=
  { x with
    sockets := Function.update x.sockets i
      ((x.sockets i).map fun sock => { sock with buffer := (sock.buffer.readPacket out peek).1 }) }

end Netlink

inductive NetlinkCall
  | socket (protocol : ℤ)
  | close (i : ℕ)
  | bind (i : ℕ) (groups : BitVec 32) (heap : Bool)
  | broadcast (buf : List (BitVec 8)) (pid groups : BitVec 32) (protocol : ℤ)
  | receive (i : ℕ) (out : Option ℕ) (peek : Bool)

def Netlink.step (x : Netlink) : NetlinkCall → Netlink
  | .socket protocol => x.socket protocol
  | .close i => x.freeSocket i
  | .bind i groups heap => x.bind i groups heap
  | .broadcast buf pid groups protocol => x.broadcastToGroup buf pid groups protocol
  | .receive i out peek => x.receive i out peek

def Netlink.run (calls : List NetlinkCall) : Netlink := calls.foldl Netlink.step .init

end CoolPotOS
