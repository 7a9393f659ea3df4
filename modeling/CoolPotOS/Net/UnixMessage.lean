import CoolPotOS.Lib.Runs
import CoolPotOS.Net.UnixStream

namespace CoolPotOS

open List

inductive MessageKind
  | dgram (connected : Bool)
  | seqpacket
  deriving DecidableEq

/-- What a call has returned: of a send with its message, of a receive with the room in its buffer and the
message that is next. -/
inductive MessageReport
  | sent (message : List UInt8) (r : Except SocketError ℕ)
  | received (room : ℕ) (r : Except SocketError (List UInt8)) (message : Option (List UInt8))

/-- A send takes its whole message or fails, a receive returns the next message, cut to the buffer. -/
def MessageReport.Right : MessageReport → Prop
  | .sent message (.ok n) => n = message.length
  | .sent _ (.error _) => True
  | .received room (.ok bytes) (some message) => bytes = message.take room
  | .received _ (.ok _) none => False
  | .received _ (.error _) _ => True

/-- Shutting and closing an end and bad addresses are left out. -/
structure MessageSocket where
  kind : MessageKind
  sock : UnixSocket
  queue : List (List UInt8)
  reports : List MessageReport

def MessageSocket.new (kind : MessageKind) : MessageSocket :=
  ⟨kind, ⟨fun _ => 0, 0, 0, socketBufferSize, 0, [], false⟩, [], []⟩

def RecvBuffer.room : RecvBuffer → ℕ
  | .recv null len => if null then 0 else len
  | .recvmsg iov =>
    min (iovTotalLen (iov.map Iovec.len)) ((iov.filter fun v => !v.null).map Iovec.len).sum

namespace UnixSocket

def attach (s : UnixSocket) (ancillary : Bool) : UnixSocket :=
  if ancillary then { s with ancillary := s.ancillary ++ [wrap (s.recvSeq + s.recvPos)] } else s

/-- `unix_socket_send_to_peer`, or `none` where it waits for room. -/
def sendToPeer (s : UnixSocket) (data : List UInt8) (ancillary nonblock : Bool) :
    Option (UnixSocket × Except SocketError ℕ) :=
  if data = [] then some (s, .ok 0)
  else if s.recvSpace > 0 then
    let r := (s.attach ancillary).recvWrite ⟨false, data⟩
    some (r.1, .ok r.2)
  else if nonblock then some (s, .error .ewouldblock)
  else none

/-- The loop of `unix_socket_sendmsg`. A piece that is not taken whole has filled the ring. -/
def sendPieces (nonblock : Bool) :
    List (List UInt8) → ℕ → Bool → UnixSocket → Option (UnixSocket × Except SocketError ℕ)
  | [], cnt, _, s => some (s, .ok cnt)
  | v :: rest, cnt, ancillary, s =>
    if v = [] then sendPieces nonblock rest cnt ancillary s
    else if s.recvSpace > 0 then
      let r := (s.attach ancillary).recvWrite ⟨false, v⟩
      if r.2 = v.length then sendPieces nonblock rest (cnt + r.2) false r.1
      else if nonblock then some (r.1, .ok (cnt + r.2))
      else none
    else if nonblock then some (s, if cnt > 0 then .ok cnt else .error .ewouldblock)
    else none

/-- The bytes of a receive of at most `limit` bytes. -/
def recvUpTo (s : UnixSocket) (buf : RecvBuffer) (limit : ℕ) (peek : Bool) : UnixSocket × List UInt8 :=
  match buf with
  | .recv null _ => s.recvRead null limit peek
  | .recvmsg iov => s.recvReadv iov limit peek

end UnixSocket

inductive MessageOp
  | send (data : List UInt8) (ancillary nonblock : Bool)
  | sendmsg (iov : List (List UInt8)) (ancillary nonblock : Bool)
  | receive (buf : RecvBuffer) (peek nonblock : Bool)

namespace MessageSocket

variable (s : MessageSocket)

def sent (message : List UInt8) (r : UnixSocket × Except SocketError ℕ) : MessageSocket :=
  { s with
    sock := r.1
    queue := match r.2 with
      | .ok _ => s.queue ++ [message]
      | .error _ => s.queue
    reports := s.reports ++ [.sent message r.2] }

/-- How much a receive asks of the ring: only the stream types stop at a control message. -/
def readLimit (len : ℕ) : ℕ :=
  match s.kind with
  | .dgram _ => len
  | .seqpacket => s.sock.streamReadLimit len

/-- The test for the end of the data: `unix_socket_recvmsg` hands over no peer. -/
def atEnd (buf : RecvBuffer) : Bool :=
  match s.kind, buf with
  | .dgram connected, .recv _ _ => !connected
  | .dgram _, .recvmsg _ => true
  | .seqpacket, _ => false

/-- `unix_socket_recv_from_self` and `unix_socket_recvmsg_from_self`, or `none` where they wait. -/
def receive (buf : RecvBuffer) (peek nonblock : Bool) :
    Option (UnixSocket × Except SocketError (List UInt8)) :=
  if buf.size = 0 then some (s.sock, .ok [])
  else if s.sock.recvPos > 0 then
    let r := s.sock.recvUpTo buf (s.readLimit buf.size) peek
    if peek then some (r.1, .ok r.2)
    else
      let sock := { r.1 with recvSeq := wrap (r.1.recvSeq + r.2.length) }
      some (sock.ancillaryDropBefore sock.recvSeq, .ok r.2)
  else if s.atEnd buf then some (s.sock, .ok [])
  else if nonblock then some (s.sock, .error .ewouldblock)
  else none

def step : MessageOp → Option MessageSocket
  | .send data ancillary nonblock => (s.sock.sendToPeer data ancillary nonblock).map (s.sent data)
  | .sendmsg iov ancillary nonblock =>
    if ancillary ∧ iovTotalLen (iov.map List.length) = 0 then
      some (s.sent iov.flatten (s.sock, .error .einval))
    else (s.sock.sendPieces nonblock iov 0 ancillary).map (s.sent iov.flatten)
  | .receive buf peek nonblock =>
    (s.receive buf peek nonblock).map fun r =>
      { s with
        sock := r.1
        queue := match r.2 with
          | .ok _ => if peek then s.queue else s.queue.tail
          | .error _ => s.queue
        reports := s.reports ++ [.received buf.room r.2 s.queue.head?] }

end MessageSocket

/-- The message is not empty, and it finds room for all of it or none at all. -/
def Sendable (s : MessageSocket) (message : List UInt8) : Prop :=
  message ≠ [] ∧ (message.length ≤ s.sock.recvSpace ∨ s.sock.recvSpace = 0)

/-- No control message stops a receive of `len` bytes before its end. -/
def Uncut (s : MessageSocket) (len : ℕ) : Prop :=
  s.kind = .seqpacket → ∀ seq ∈ (s.sock.ancillary.dropWhile (· < s.sock.recvSeq)).head?,
    seq < wrap (s.sock.recvSeq + min len s.sock.recvPos) →
      min len s.sock.recvPos ≤ seq - s.sock.recvSeq + 1

/-- With the messages of `queue` to be received, the buffer is for the first one alone. -/
def Receivable (s : MessageSocket) (buf : RecvBuffer) (peek : Bool) : List (List UInt8) → Prop
  | [] => buf.size ≠ 0 ∧ s.atEnd buf = false
  | message :: rest =>
    Uncut s buf.size ∧
      if peek then buf.room ≤ message.length ∨ rest = []
      else buf.room = message.length ∨ message.length ≤ buf.room ∧ rest = []

def MessageOp.Ok (s : MessageSocket) : MessageOp → Prop
  | .send data _ _ => Sendable s data
  | .sendmsg iov _ _ => Sendable s iov.flatten
  | .receive buf peek _ => Receivable s buf peek s.queue

instance (s : MessageSocket) (message : List UInt8) : Decidable (Sendable s message) :=
  inferInstanceAs (Decidable (_ ∧ _))

instance (s : MessageSocket) (len : ℕ) : Decidable (Uncut s len) :=
  inferInstanceAs (Decidable (_ → _))

instance (s : MessageSocket) (buf : RecvBuffer) (peek : Bool) :
    ∀ queue, Decidable (Receivable s buf peek queue)
  | [] => inferInstanceAs (Decidable (_ ∧ _))
  | message :: rest =>
    inferInstanceAs (Decidable (Uncut s buf.size ∧
      if peek then buf.room ≤ message.length ∨ rest = []
      else buf.room = message.length ∨ message.length ≤ buf.room ∧ rest = []))

instance decidableMessageOk (s : MessageSocket) : ∀ op : MessageOp, Decidable (op.Ok s)
  | .send data _ _ => inferInstanceAs (Decidable (Sendable s data))
  | .sendmsg iov _ _ => inferInstanceAs (Decidable (Sendable s iov.flatten))
  | .receive buf peek _ => inferInstanceAs (Decidable (Receivable s buf peek s.queue))

variable {data : List UInt8}

namespace UnixSocket

variable {s s' : UnixSocket}

structure Stored (s s' : UnixSocket) (data : List UInt8) : Prop where
  ring : RingOk s'
  content : s'.content = s.content ++ data
  size : s'.recvSize = s.recvSize

theorem recvSpace_eq (s : UnixSocket) : s.recvSpace = s.recvSize - s.recvPos := by
  unfold recvSpace
  split_ifs
  · omega
  · rfl

theorem Stored.space (h : Stored s s' data) : s'.recvSpace = s.recvSpace - data.length := by
  have hpos := congrArg length h.content
  rw [length_append, length_content, length_content] at hpos
  rw [recvSpace_eq, recvSpace_eq, h.size]
  omega

theorem Stored.trans {s'' : UnixSocket} {data' : List UInt8} (h : Stored s s' data) (h' : Stored s' s'' data') :
    Stored s s'' (data ++ data') := by
  refine ⟨h'.ring, ?_, h'.size.trans h.size⟩
  rw [h'.content, h.content, append_assoc]

theorem stored_attach (h : RingOk s) (ancillary : Bool) : Stored s (s.attach ancillary) [] := by
  rw [attach]
  split_ifs
  · exact ⟨⟨h.head, h.pos⟩, (append_nil _).symm, rfl⟩
  · exact ⟨h, (append_nil _).symm, rfl⟩

theorem stored_recvWrite (h : RingOk s) (hne : data ≠ []) (hfits : data.length ≤ s.recvSpace) :
    (s.recvWrite ⟨false, data⟩).2 = data.length ∧ Stored s (s.recvWrite ⟨false, data⟩).1 data := by
  have hlen : data.length ≠ 0 := by rwa [ne_eq, length_eq_zero_iff]
  have hcount : (s.recvWrite ⟨false, data⟩).2 = data.length := by
    unfold recvWrite
    dsimp only
    rw [if_neg (by simpa using hne), min_eq_left hfits, if_neg hlen]
  have hwrote := recvWrite_wrote h ⟨false, data⟩
  refine ⟨hcount, hwrote.ring, ?_, hwrote.size⟩
  rw [hwrote.content, hcount, take_length]

theorem stored_attach_recvWrite (h : RingOk s) (hne : data ≠ []) (hfits : data.length ≤ s.recvSpace)
    (ancillary : Bool) : ((s.attach ancillary).recvWrite ⟨false, data⟩).2 = data.length ∧
      Stored s ((s.attach ancillary).recvWrite ⟨false, data⟩).1 data := by
  have hattach := stored_attach h ancillary
  obtain ⟨hcount, hstored⟩ := stored_recvWrite hattach.ring hne (by rw [hattach.space]; simpa using hfits)
  exact ⟨hcount, hattach.trans hstored⟩

theorem recvSpace_pos (hne : data ≠ []) (hfits : data.length ≤ s.recvSpace) : s.recvSpace > 0 :=
  (length_pos_of_ne_nil hne).trans_le hfits

theorem sendToPeer_stored (h : RingOk s) (hne : data ≠ []) (hfits : data.length ≤ s.recvSpace)
    (ancillary nonblock : Bool) :
    ∃ s', s.sendToPeer data ancillary nonblock = some (s', .ok data.length) ∧ Stored s s' data := by
  obtain ⟨hcount, hstored⟩ := stored_attach_recvWrite h hne hfits ancillary
  refine ⟨_, ?_, hstored⟩
  unfold sendToPeer
  rw [if_neg hne, if_pos (recvSpace_pos hne hfits)]
  dsimp only
  rw [hcount]

theorem sendPieces_stored (h : RingOk s) (nonblock : Bool) (iov : List (List UInt8)) (cnt : ℕ)
    (ancillary : Bool) (hfits : iov.flatten.length ≤ s.recvSpace) :
    ∃ s', s.sendPieces nonblock iov cnt ancillary = some (s', .ok (cnt + iov.flatten.length)) ∧
      Stored s s' iov.flatten := by
  induction iov generalizing s cnt ancillary with
  | nil => exact ⟨s, rfl, h, (append_nil _).symm, rfl⟩
  | cons v rest ih =>
    rw [flatten_cons, length_append] at hfits
    unfold sendPieces
    by_cases hv : v = []
    · rw [if_pos hv, hv, flatten_cons, nil_append]
      exact ih h cnt ancillary (by omega)
    · obtain ⟨hcount, hstored⟩ := stored_attach_recvWrite h hv (by omega) ancillary
      obtain ⟨s', hs', hrest⟩ := ih hstored.ring (cnt + v.length) false (by rw [hstored.space]; omega)
      refine ⟨s', ?_, hstored.trans hrest⟩
      rw [if_neg hv, if_pos (recvSpace_pos hv (by omega))]
      dsimp only
      rw [if_pos hcount, hcount, hs', flatten_cons, length_append, Nat.add_assoc]

theorem sendPieces_full (hfull : s.recvSpace = 0) (nonblock : Bool) (iov : List (List UInt8))
    (ancillary : Bool) (hne : iov.flatten ≠ []) {r : UnixSocket × Except SocketError ℕ}
    (hr : s.sendPieces nonblock iov 0 ancillary = some r) : r = (s, .error .ewouldblock) := by
  induction iov with
  | nil => exact absurd rfl hne
  | cons v rest ih =>
    unfold sendPieces at hr
    by_cases hv : v = []
    · rw [if_pos hv] at hr
      apply ih _ hr
      rwa [hv, flatten_cons, nil_append] at hne
    · rw [if_neg hv, if_neg (by omega), if_neg (Nat.lt_irrefl 0)] at hr
      split_ifs at hr with hnonblock
      exact (Option.some.inj hr).symm

theorem sendToPeer_full (hfull : s.recvSpace = 0) (hne : data ≠ []) {ancillary nonblock : Bool}
    {r : UnixSocket × Except SocketError ℕ} (hr : s.sendToPeer data ancillary nonblock = some r) :
    r = (s, .error .ewouldblock) := by
  unfold sendToPeer at hr
  rw [if_neg hne, if_neg (by omega)] at hr
  split_ifs at hr with hnonblock
  exact (Option.some.inj hr).symm

theorem readvLoop_count (s : UnixSocket) (iov : List Iovec) (remaining consumed : ℕ) :
    (s.readvLoop iov remaining consumed).2 =
      consumed + min ((iov.filter fun v => !v.null).map Iovec.len).sum remaining := by
  induction iov generalizing remaining consumed with
  | nil => simp [readvLoop]
  | cons v iov ih =>
    rw [readvLoop]
    split_ifs with hzero hskip
    · simp [hzero]
    · rw [ih]
      by_cases hnull : v.null = true
      · simp [hnull]
      · have hlen : v.len = 0 := hskip.resolve_left hnull
        simp [hnull, hlen]
    · have hnull : v.null = false := by
        by_contra hne
        exact hskip (.inl (by simpa using hne))
      dsimp only
      rw [ih, filter_cons_of_pos (by simp [hnull]), map_cons, sum_cons]
      omega

theorem recvUpTo_eq (h : RingOk s) (buf : RecvBuffer) {limit : ℕ}
    (hl : min limit s.recvPos = min buf.size s.recvPos) (peek : Bool) : s.recvUpTo buf limit peek =
      (if peek = true ∨ min buf.room s.recvPos = 0 then s else s.consume (min buf.room s.recvPos),
        s.content.take (min buf.room s.recvPos)) := by
  cases buf with
  | recv null len =>
    change min limit s.recvPos = min len s.recvPos at hl
    change s.recvRead null limit peek = _
    unfold recvRead RecvBuffer.room
    dsimp only
    cases null with
    | true => simp
    | false =>
      simp only [Bool.false_eq_true, false_or, if_false]
      rw [← hl]
      by_cases hlimit : limit = 0
      · simp [hlimit]
      · rw [if_neg hlimit]
        by_cases hzero : min limit s.recvPos = 0
        · rw [if_pos hzero, if_pos (.inr hzero), hzero, take_zero]
        · rw [if_neg hzero, recvCopyOut_eq h (by omega), drop_zero]
          simp only [hzero, or_false]
  | recvmsg iov =>
    change min limit s.recvPos = min (iovTotalLen (iov.map Iovec.len)) s.recvPos at hl
    change s.recvReadv iov limit peek = _
    have hroom : min (RecvBuffer.recvmsg iov).room s.recvPos =
        min ((iov.filter fun v => !v.null).map Iovec.len).sum (min limit s.recvPos) := by
      rw [hl, RecvBuffer.room]
      omega
    rw [hroom]
    unfold recvReadv
    dsimp only
    by_cases hnull : iov = [] ∨ limit = 0
    · rw [if_pos hnull]
      have hzero : min ((iov.filter fun v => !v.null).map Iovec.len).sum (min limit s.recvPos) = 0 := by
        rcases hnull with rfl | hlimit
        · simp
        · simp [hlimit]
      rw [hzero, if_pos (.inr rfl), take_zero]
    · obtain ⟨m, -, hloop⟩ := readvLoop_eq h iov (min limit s.recvPos) 0 (by omega)
      have hcount := readvLoop_count s iov (min limit s.recvPos) 0
      rw [hloop] at hcount
      dsimp only at hcount
      rw [if_neg hnull, hloop, drop_zero, Nat.zero_add,
        show m = min ((iov.filter fun v => !v.null).map Iovec.len).sum (min limit s.recvPos) by omega]
      generalize min ((iov.filter fun v => !v.null).map Iovec.len).sum (min limit s.recvPos) = n
      cases peek with
      | true => simp
      | false =>
        by_cases hn : n = 0
        · simp [hn]
        · simp [hn, Nat.pos_of_ne_zero hn]

theorem room_le_size (buf : RecvBuffer) : buf.room ≤ buf.size := by
  cases buf with
  | recv null len =>
    change (if null = true then 0 else len) ≤ len
    split_ifs <;> omega
  | recvmsg iov => exact min_le_left _ _

end UnixSocket

open UnixSocket Runs

/-- The messages that are to be received are in the ring one behind the other. -/
structure MessageInv (s : MessageSocket) : Prop where
  ring : RingOk s.sock
  content : s.sock.content = s.queue.flatten
  nonempty : ∀ m ∈ s.queue, m ≠ []
  right : ∀ r ∈ s.reports, r.Right

variable {s s' : MessageSocket}

theorem messageInv_new (kind : MessageKind) : MessageInv (.new kind) :=
  ⟨⟨Nat.succ_pos _, Nat.zero_le _⟩, rfl, fun _ hm => absurd hm not_mem_nil,
    fun _ hr => absurd hr not_mem_nil⟩

theorem forall_right_concat {reports : List MessageReport} (h : ∀ r ∈ reports, r.Right)
    {report : MessageReport} (hreport : report.Right) : ∀ r ∈ reports ++ [report], r.Right := by
  intro r hr
  rcases mem_append.mp hr with hr | hr
  · exact h r hr
  · rw [mem_singleton.mp hr]
    exact hreport

theorem MessageInv.sent_ok (h : MessageInv s) {message : List UInt8} {sock : UnixSocket}
    (hne : message ≠ []) (hstored : Stored s.sock sock message) :
    MessageInv (s.sent message (sock, .ok message.length)) := by
  refine ⟨hstored.ring, ?_, fun m hm => ?_, forall_right_concat h.right rfl⟩
  · change sock.content = (s.queue ++ [message]).flatten
    rw [hstored.content, h.content]
    simp
  · rcases mem_append.mp hm with hm | hm
    · exact h.nonempty m hm
    · rw [mem_singleton.mp hm]
      exact hne

theorem MessageInv.sent_error (h : MessageInv s) (message : List UInt8) (e : SocketError) :
    MessageInv (s.sent message (s.sock, .error e)) :=
  ⟨h.ring, h.content, h.nonempty, forall_right_concat h.right trivial⟩

theorem min_readLimit {len : ℕ} (h : Uncut s len) :
    min (s.readLimit len) s.sock.recvPos = min len s.sock.recvPos := by
  unfold MessageSocket.readLimit
  cases hkind : s.kind with
  | dgram connected => rfl
  | seqpacket =>
    have hcut := h hkind
    dsimp only
    unfold streamReadLimit
    dsimp only
    split_ifs with hzero
    · omega
    · cases hdrop : s.sock.ancillary.dropWhile (· < s.sock.recvSeq) with
      | nil =>
        dsimp only
        omega
      | cons seq rest =>
        rw [hdrop] at hcut
        have hle := hcut seq rfl
        dsimp only
        split_ifs with hseq
        · have hle := hle hseq
          have hwrap : wrap (s.sock.recvSeq + min len s.sock.recvPos) ≤
              s.sock.recvSeq + min len s.sock.recvPos := Nat.mod_le _ _
          omega
        · omega

theorem receive_eq (h : MessageInv s) {buf : RecvBuffer} (hsize : buf.size ≠ 0)
    (hpos : s.sock.recvPos > 0) (hcut : Uncut s buf.size) (peek nonblock : Bool) :
    ∃ sock, s.receive buf peek nonblock =
        some (sock, .ok (s.sock.content.take (min buf.room s.sock.recvPos))) ∧ RingOk sock ∧
      sock.content = if peek then s.sock.content else s.sock.content.drop (min buf.room s.sock.recvPos) := by
  unfold MessageSocket.receive
  rw [if_neg hsize, if_pos hpos]
  dsimp only
  rw [recvUpTo_eq h.ring buf (min_readLimit hcut)]
  have hn : min buf.room s.sock.recvPos ≤ s.sock.recvPos := min_le_right _ _
  generalize min buf.room s.sock.recvPos = n at hn
  cases peek with
  | true => exact ⟨s.sock, by simp, h.ring, by simp⟩
  | false =>
    obtain ⟨hring, hcontent⟩ := h.ring.consume hn
    by_cases hzero : n = 0
    · refine ⟨_, if_neg Bool.false_ne_true, ?_, ?_⟩
      · simp only [hzero, or_true, if_true]
        exact ⟨h.ring.head, h.ring.pos⟩
      · simp only [hzero, or_true, if_true, Bool.false_eq_true, if_false, drop_zero]
        rfl
    · refine ⟨_, if_neg Bool.false_ne_true, ?_, ?_⟩
      · simp only [hzero, Bool.false_eq_true, or_self, if_false]
        exact ⟨hring.head, hring.pos⟩
      · simp only [hzero, Bool.false_eq_true, or_self, if_false]
        exact hcontent

theorem MessageInv.receive (h : MessageInv s) {buf : RecvBuffer} {peek nonblock : Bool}
    (hok : Receivable s buf peek s.queue) (hstep : s.step (.receive buf peek nonblock) = some s') :
    MessageInv s' := by
  obtain ⟨r, hr, rfl⟩ := Option.map_eq_some_iff.mp hstep
  have hpos := congrArg length h.content
  rw [length_content] at hpos
  cases hqueue : s.queue with
  | nil =>
    rw [hqueue] at hok hpos
    rw [flatten_nil, length_nil] at hpos
    unfold MessageSocket.receive at hr
    rw [if_neg hok.1, if_neg (by omega), if_neg (by simp [hok.2])] at hr
    split_ifs at hr
    cases hr
    refine ⟨h.ring, ?_, fun m hm => absurd hm not_mem_nil, forall_right_concat h.right trivial⟩
    rw [← hqueue]
    exact h.content
  | cons message rest =>
    rw [hqueue] at hok hpos
    obtain ⟨hcut, hroom⟩ := hok
    have hmessage : message.length ≠ 0 := by
      rw [ne_eq, length_eq_zero_iff]
      apply h.nonempty
      rw [hqueue]
      exact mem_cons_self
    rw [flatten_cons, length_append] at hpos
    have hcontent : s.sock.content = message ++ rest.flatten := by
      rw [h.content, hqueue, flatten_cons]
    have hle := room_le_size buf
    have hrest : ∀ m ∈ rest, m ≠ [] := fun m hm => by
      apply h.nonempty
      rw [hqueue]
      exact mem_cons_of_mem _ hm
    cases peek with
    | true =>
      have hbytes : r = (r.1, .ok (message.take buf.room)) ∧ RingOk r.1 ∧ r.1.content = s.sock.content := by
        by_cases hsize : buf.size = 0
        · unfold MessageSocket.receive at hr
          rw [if_pos hsize] at hr
          cases hr
          rw [show buf.room = 0 by omega, take_zero]
          exact ⟨rfl, h.ring, rfl⟩
        · obtain ⟨sock, hsock, hring, hsame⟩ := receive_eq h hsize (by omega) hcut true nonblock
          obtain rfl := Option.some.inj (hsock.symm.trans hr)
          refine ⟨?_, hring, hsame⟩
          have htake : s.sock.content.take (min buf.room s.sock.recvPos) = message.take buf.room := by
            rw [hcontent]
            rcases hroom with hroom | rfl
            · rw [min_eq_left (by omega), take_append_of_le_length hroom]
            · rw [flatten_nil, append_nil, hpos]
              simp
          rw [htake]
      obtain ⟨hr', hring, hsame⟩ := hbytes
      rw [hr']
      refine ⟨hring, ?_, ?_, forall_right_concat h.right rfl⟩
      · change r.1.content = (message :: rest).flatten
        rw [hsame, hcontent, flatten_cons]
      · intro m hm
        rcases mem_cons.mp hm with rfl | hm
        · rwa [ne_eq, ← length_eq_zero_iff]
        · exact hrest m hm
    | false =>
      have hwhole : min buf.room s.sock.recvPos = message.length := by
        rcases hroom with hroom | ⟨hroom, rfl⟩
        · omega
        · rw [flatten_nil, length_nil] at hpos
          omega
      obtain ⟨sock, hsock, hring, hdrop⟩ := receive_eq h (by omega) (by omega) hcut false nonblock
      rw [hwhole, hcontent, take_left] at hsock
      rw [hwhole, hcontent, if_neg Bool.false_ne_true, drop_left] at hdrop
      obtain rfl := Option.some.inj (hsock.symm.trans hr)
      refine ⟨hring, hdrop, hrest, forall_right_concat h.right ?_⟩
      change message = message.take buf.room
      rw [take_of_length_le (by omega)]

theorem MessageInv.step (h : MessageInv s) {op : MessageOp} (hok : op.Ok s)
    (hstep : s.step op = some s') : MessageInv s' := by
  cases op with
  | send data ancillary nonblock =>
    obtain ⟨r, hr, rfl⟩ := Option.map_eq_some_iff.mp hstep
    obtain ⟨hne, hfits | hfull⟩ := hok
    · obtain ⟨sock, hsock, hstored⟩ := sendToPeer_stored h.ring hne hfits ancillary nonblock
      obtain rfl := Option.some.inj (hsock.symm.trans hr)
      exact h.sent_ok hne hstored
    · rw [sendToPeer_full hfull hne hr]
      exact h.sent_error data _
  | sendmsg iov ancillary nonblock =>
    rw [MessageSocket.step] at hstep
    split_ifs at hstep
    · cases hstep
      exact h.sent_error _ _
    · obtain ⟨r, hr, rfl⟩ := Option.map_eq_some_iff.mp hstep
      obtain ⟨hne, hfits | hfull⟩ := hok
      · obtain ⟨sock, hsock, hstored⟩ := sendPieces_stored h.ring nonblock iov 0 ancillary hfits
        rw [Nat.zero_add] at hsock
        obtain rfl := Option.some.inj (hsock.symm.trans hr)
        exact h.sent_ok hne hstored
      · rw [sendPieces_full hfull nonblock iov ancillary hne hr]
        exact h.sent_error _ _
  | receive buf peek nonblock => exact h.receive hok hstep

/-- In a run whose sends find room for their whole message and whose receives have a buffer for the next
message alone, each send takes its message or fails, and each receive returns the next message. -/
theorem messages_kept_apart (kind : MessageKind) (ops : List MessageOp) (s : MessageSocket)
    (hok : Meets MessageSocket.step (fun s op => op.Ok s) ops (.new kind))
    (hrun : run MessageSocket.step ops (.new kind) = some s) : ∀ r ∈ s.reports, r.Right :=
  (run_keeps (fun _ _ _ hinv hop hstep => hinv.step hop hstep) (messageInv_new kind) hok hrun).right

def someMessages : List MessageOp :=
  [.send [1, 2, 3] false true, .receive (.recv false 2) true true, .sendmsg [[4], [], [5, 6]] false true,
    .receive (.recv false 3) false true, .receive (.recvmsg [⟨false, 2⟩, ⟨false, 8⟩]) false true,
    .receive (.recv false 4) false true]

theorem messages_kept_apart_someMessages :
    ∃ s, run MessageSocket.step someMessages (.new (.dgram true)) = some s ∧ s.reports.length = 6 ∧
      ∀ r ∈ s.reports, r.Right := by
  have hrun : ((run MessageSocket.step someMessages (.new (.dgram true))).map fun s => s.reports.length) =
      some 6 := by
    decide
  obtain ⟨s, hs, hlength⟩ := Option.map_eq_some_iff.mp hrun
  exact ⟨s, hs, hlength, messages_kept_apart (.dgram true) someMessages s (by decide) hs⟩

/-- Two datagrams are sent, and the first receive returns both of them as one. -/
theorem datagrams_run_together :
    ¬ ∀ (kind : MessageKind) (ops : List MessageOp) (s : MessageSocket),
      run MessageSocket.step ops (.new kind) = some s → ∀ r ∈ s.reports, r.Right := by
  intro h
  have hrun : ((run MessageSocket.step
      [.send [1] false true, .send [2] false true, .receive (.recv false 8) false true]
      (.new (.dgram true))).map fun s => s.reports.getLast?) =
      some (some (.received 8 (.ok [1, 2]) (some [1]))) := by
    rfl
  obtain ⟨s, hs, hlast⟩ := Option.map_eq_some_iff.mp hrun
  have hright : ([1, 2] : List UInt8) = [1].take 8 := h _ _ s hs _ (List.mem_of_getLast? hlast)
  revert hright
  decide

end CoolPotOS
