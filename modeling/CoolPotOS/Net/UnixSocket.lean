import CoolPotOS.Lib.Ring
import CoolPotOS.Machine

namespace CoolPotOS

def socketBufferSize : ℕ := 64 * 1024

/-- What `socket_t` has for the receiving end: the ring, the number of bytes read from it, and the
sequence numbers of the control messages in it. A step is one section under the lock of the
receiving socket, or the checks before it. -/
structure UnixSocket where
  recvBuff : ℕ → UInt8
  recvHead : ℕ
  recvPos : ℕ
  recvSize : ℕ
  recvSeq : ℕ
  ancillary : List ℕ
  shutRd : Bool

/-- A piece of the buffer of a `recvmsg`. -/
structure Iovec where
  null : Bool
  len : ℕ

/-- A piece of the data of a send; only its length counts when `iov_base` is `NULL`. -/
structure SendVec where
  null : Bool
  data : List UInt8

/-- The buffer that a call wants to receive into. -/
inductive RecvBuffer
  | recv (null : Bool) (len : ℕ)
  | recvmsg (iov : List Iovec)

def iovTotalLen (lens : List ℕ) : ℕ := lens.foldl (fun total len => wrap (total + len)) 0

def RecvBuffer.size : RecvBuffer → ℕ
  | .recv _ len => len
  | .recvmsg iov => iovTotalLen (iov.map Iovec.len)

namespace UnixSocket

def recvSpace (s : UnixSocket) : ℕ :=
  if s.recvPos ≥ s.recvSize then 0 else s.recvSize - s.recvPos

def recvWrite (s : UnixSocket) (v : SendVec) : UnixSocket × ℕ :=
  if v.null ∨ v.data = [] then (s, 0)
  else
    let toCopy := min v.data.length s.recvSpace
    if toCopy = 0 then (s, 0)
    else
      let tail := (s.recvHead + s.recvPos) % s.recvSize
      ({ s with
          recvBuff := Ring.store s.recvBuff s.recvSize tail (v.data.take toCopy)
          recvPos := s.recvPos + toCopy }, toCopy)

def recvCopyOut (s : UnixSocket) (start len : ℕ) : List UInt8 :=
  if len = 0 ∨ s.recvSize = 0 then []
  else Ring.load s.recvBuff s.recvSize ((s.recvHead + start) % s.recvSize) len

/-- The end of `unix_socket_recv_read_locked` and `unix_socket_recv_readv_locked`. -/
def consume (s : UnixSocket) (n : ℕ) : UnixSocket :=
  { s with
    recvHead := if s.recvPos - n = 0 then 0 else (s.recvHead + n) % s.recvSize
    recvPos := s.recvPos - n }

def recvRead (s : UnixSocket) (null : Bool) (len : ℕ) (peek : Bool) : UnixSocket × List UInt8 :=
  if null ∨ len = 0 then (s, [])
  else
    let toCopy := min len s.recvPos
    if toCopy = 0 then (s, [])
    else (if peek then s else s.consume toCopy, s.recvCopyOut 0 toCopy)

/-- The loop of `unix_socket_recv_readv_locked`, with the bytes it copies and their number. -/
def readvLoop (s : UnixSocket) : List Iovec → ℕ → ℕ → List UInt8 × ℕ
  | [], _, consumed => ([], consumed)
  | v :: iov, remaining, consumed =>
    if remaining = 0 then ([], consumed)
    else if v.null ∨ v.len = 0 then s.readvLoop iov remaining consumed
    else
      let copyLen := min v.len remaining
      let r := s.readvLoop iov (remaining - copyLen) (consumed + copyLen)
      (s.recvCopyOut consumed copyLen ++ r.1, r.2)

def recvReadv (s : UnixSocket) (iov : List Iovec) (lenTotal : ℕ) (peek : Bool) :
    UnixSocket × List UInt8 :=
  if iov = [] ∨ lenTotal = 0 then (s, [])
  else
    let r := s.readvLoop iov (min lenTotal s.recvPos) 0
    (if !peek ∧ r.2 > 0 then s.consume r.2 else s, r.1)

def streamReadLimit (s : UnixSocket) (requested : ℕ) : ℕ :=
  let limit := min requested s.recvPos
  if limit = 0 then limit
  else
    match s.ancillary.dropWhile (· < s.recvSeq) with
    | [] => limit
    | seq :: _ => if seq < wrap (s.recvSeq + limit) then seq - s.recvSeq + 1 else limit

def ancillaryDropBefore (s : UnixSocket) (seqLimit : ℕ) : UnixSocket :=
  { s with ancillary := s.ancillary.dropWhile (· < seqLimit) }

/-- The bytes that a receive copies, before the sequence number goes on. -/
def recvBytes (s : UnixSocket) (buf : RecvBuffer) (peek : Bool) : UnixSocket × List UInt8 :=
  match buf with
  | .recv null len => s.recvRead null (s.streamReadLimit len) peek
  | .recvmsg iov => s.recvReadv iov (s.streamReadLimit (iovTotalLen (iov.map Iovec.len))) peek

/-- The section of `unix_socket_recv_from_self` and of `unix_socket_recvmsg_from_self`. -/
def receive (s : UnixSocket) (buf : RecvBuffer) (peek : Bool) : UnixSocket × List UInt8 :=
  if s.recvPos = 0 then (s, [])
  else
    let r := s.recvBytes buf peek
    if peek then r
    else
      let s := { r.1 with recvSeq := wrap (r.1.recvSeq + r.2.length) }
      (s.ancillaryDropBefore s.recvSeq, r.2)

end UnixSocket

inductive SocketError
  | epipe | ewouldblock | eintr | einval
  deriving DecidableEq

/-- Where a thread is in its call. A send has the data that it has not stored yet and the number of
bytes it has stored; `message` is a `sendmsg`, which goes on until all is stored, and `checked` says
that `unix_socket_send_to_peer` has made its first checks. -/
inductive SocketCall
  | idle
  | sending (id : ℕ) (rest : List SendVec) (cnt : ℕ) (ancillary nonblock message checked : Bool)
  | receiving (buf : RecvBuffer) (peek nonblock : Bool)
  | collecting (endSeq : ℕ) (peek : Bool)

/-- The receiving socket, the flags of the sending one, the calls, and the history: the data of each
send, the pieces stored with the number of the send, the return values of the sends, the bytes that
receives have returned, and what the last receive of each thread has returned. -/
structure StreamState where
  sock : UnixSocket
  shutWr : Bool
  calls : ℕ → SocketCall
  sends : List (List UInt8)
  accepted : List (ℕ × List UInt8)
  returned : ℕ → Option (Except SocketError ℕ)
  delivered : List UInt8
  got : ℕ → List UInt8

def StreamState.new : StreamState where
  sock := ⟨fun _ => 0, 0, 0, socketBufferSize, 0, [], false⟩
  shutWr := false
  calls := fun _ => .idle
  sends := []
  accepted := []
  returned := fun _ => none
  delivered := []
  got := fun _ => []

namespace StreamState

def setCall (x : StreamState) (thread : ℕ) (call : SocketCall) : StreamState :=
  { x with calls := Function.update x.calls thread call }

def endSend (x : StreamState) (thread id : ℕ) (r : Except SocketError ℕ) : StreamState :=
  { x.setCall thread .idle with returned := Function.update x.returned id (some r) }

/-- The loop of `unix_socket_sendmsg` finds its next piece. -/
def nextSend (x : StreamState) (thread id : ℕ) (rest : List SendVec) (cnt : ℕ)
    (ancillary nonblock : Bool) : StreamState :=
  match rest.dropWhile (·.data = []) with
  | [] => x.endSend thread id (.ok cnt)
  | rest => x.setCall thread (.sending id rest cnt ancillary nonblock true false)

/-- `unix_socket_send_to_peer` returns an error, or zero. -/
def stopSend (x : StreamState) (thread id cnt : ℕ) (message : Bool) (r : Except SocketError ℕ) :
    StreamState :=
  if !message then x.endSend thread id r
  else
    match r with
    | .error e => x.endSend thread id (if cnt > 0 then .ok cnt else .error e)
    | .ok _ => x.endSend thread id (.ok cnt)

/-- The section of `unix_socket_send_to_peer`. -/
def passSend (x : StreamState) (thread id : ℕ) (v : SendVec) (rest : List SendVec) (cnt : ℕ)
    (ancillary nonblock message : Bool) : StreamState :=
  if x.sock.shutRd then x.stopSend thread id cnt message (.error .epipe)
  else if x.sock.recvSpace > 0 then
    let sock := if ancillary then
        { x.sock with ancillary := x.sock.ancillary ++ [wrap (x.sock.recvSeq + x.sock.recvPos)] }
      else x.sock
    let r := sock.recvWrite v
    let x := { x with sock := r.1, accepted := x.accepted ++ [(id, v.data.take r.2)] }
    if r.2 = 0 then x.stopSend thread id cnt message (.ok 0)
    -- the number of bytes fits into the `int` that `unix_socket_sendto` puts it into
    else if !message then x.endSend thread id (.ok r.2)
    else x.nextSend thread id ({ v with data := v.data.drop r.2 } :: rest) (cnt + r.2) false nonblock
  else if nonblock then x.stopSend thread id cnt message (.error .ewouldblock)
  else x

/-- The section of a receive, with the bytes that it returns. -/
def received (x : StreamState) (thread : ℕ) (buf : RecvBuffer) (peek : Bool) : StreamState :=
  let r := x.sock.receive buf peek
  { x with
    sock := r.1
    delivered := if peek then x.delivered else x.delivered ++ r.2
    got := Function.update x.got thread r.2 }

/-- The next step of the call that a thread is in. The receiver finds `eof` when the sending end is
shut. -/
def pass (x : StreamState) (thread : ℕ) : Option StreamState :=
  match x.calls thread with
  | .idle => none
  | .sending _ [] _ _ _ _ _ => none
  | .sending id (v :: rest) cnt ancillary nonblock message false =>
    if x.shutWr then some (x.stopSend thread id cnt message (.error .epipe))
    else if x.sock.shutRd then some (x.stopSend thread id cnt message (.error .epipe))
    else if v.data = [] then some (x.stopSend thread id cnt message (.ok 0))
    else some (x.setCall thread (.sending id (v :: rest) cnt ancillary nonblock message true))
  | .sending id (v :: rest) cnt ancillary nonblock message true =>
    some (x.passSend thread id v rest cnt ancillary nonblock message)
  | .receiving buf peek nonblock =>
    let x' := x.received thread buf peek
    if x.sock.recvPos > 0 then
      match buf with
      | .recv _ _ => some (x'.setCall thread .idle)
      | .recvmsg _ =>
        some (x'.setCall thread
          (.collecting (wrap (x.sock.recvSeq + (x'.got thread).length)) peek))
    else if x.shutWr then some (x'.setCall thread .idle)
    else if nonblock then some (x'.setCall thread .idle)
    else some x'
  | .collecting endSeq peek =>
    let x := x.setCall thread .idle
    some (if peek then x else { x with sock := x.sock.ancillaryDropBefore endSeq })

end StreamState

/-- The steps. `ancillary` of a send says that it has a control message. -/
inductive SocketOp
  | send (thread : ℕ) (v : SendVec) (ancillary nonblock : Bool)
  | sendmsg (thread : ℕ) (iov : List SendVec) (ancillary nonblock : Bool)
  | receive (thread : ℕ) (buf : RecvBuffer) (peek nonblock : Bool)
  | pass (thread : ℕ)
  | interrupt (thread : ℕ)
  | shutdownRd
  | shutdownWr

namespace StreamState

def beginSend (x : StreamState) (data : List UInt8) : StreamState :=
  { x with sends := x.sends ++ [data] }

def step (x : StreamState) : SocketOp → Option StreamState
  | .send thread v ancillary nonblock =>
    match x.calls thread with
    | .idle => some ((x.beginSend v.data).setCall thread
        (.sending x.sends.length [v] 0 ancillary nonblock false false))
    | _ => none
  | .sendmsg thread iov ancillary nonblock =>
    match x.calls thread with
    | .idle =>
      let x' := x.beginSend (iov.map SendVec.data).flatten
      if ancillary ∧ iovTotalLen (iov.map fun v => v.data.length) = 0 then
        some (x'.endSend thread x.sends.length (.error .einval))
      else some (x'.nextSend thread x.sends.length iov 0 ancillary nonblock)
    | _ => none
  | .receive thread buf peek nonblock =>
    match x.calls thread with
    | .idle =>
      if x.sock.shutRd ∨ buf.size = 0 then some { x with got := Function.update x.got thread [] }
      else some (x.setCall thread (.receiving buf peek nonblock))
    | _ => none
  | .pass thread => x.pass thread
  | .interrupt thread =>
    match x.calls thread with
    | .sending id _ cnt _ _ message true =>
      some (x.stopSend thread id cnt message (.error .eintr))
    | .receiving _ _ _ => some (x.setCall thread .idle)
    | _ => none
  | .shutdownRd => some { x with sock := { x.sock with shutRd := true } }
  | .shutdownWr => some { x with shutWr := true }

end StreamState

end CoolPotOS
