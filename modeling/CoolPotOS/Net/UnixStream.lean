import CoolPotOS.Fs.Pipefs
import CoolPotOS.Net.UnixSocket

namespace CoolPotOS

open Function List StreamState

namespace UnixSocket

def content (s : UnixSocket) : List UInt8 :=
  Ring.contents s.recvBuff s.recvSize s.recvHead s.recvPos

structure RingOk (s : UnixSocket) : Prop where
  head : s.recvHead < s.recvSize
  pos : s.recvPos ≤ s.recvSize

section Ring

variable {s : UnixSocket}

@[simp] theorem length_content (s : UnixSocket) : s.content.length = s.recvPos :=
  Ring.length_contents _ _ _ _

/-- What `unix_socket_recv_write_locked` does. -/
structure Wrote (s : UnixSocket) (v : SendVec) (r : UnixSocket × ℕ) : Prop where
  ring : RingOk r.1
  content : r.1.content = s.content ++ v.data.take r.2
  le : r.2 ≤ v.data.length
  size : r.1.recvSize = s.recvSize
  seq : r.1.recvSeq = s.recvSeq

theorem recvWrite_wrote (h : RingOk s) (v : SendVec) : Wrote s v (s.recvWrite v) := by
  have hnone : Wrote s v (s, 0) := ⟨h, by simp, Nat.zero_le _, rfl, rfl⟩
  unfold recvWrite
  dsimp only
  split_ifs with hv hcopy
  · exact hnone
  · exact hnone
  · have hspace : s.recvSpace = s.recvSize - s.recvPos := by
      unfold recvSpace
      split_ifs with hfull
      · omega
      · rfl
    have hlen : (v.data.take (min v.data.length s.recvSpace)).length =
        min v.data.length s.recvSpace := by simp
    have hpos := h.pos
    refine ⟨⟨h.head, ?_⟩, ?_, Nat.min_le_left _ _, rfl, rfl⟩
    · show s.recvPos + min v.data.length s.recvSpace ≤ s.recvSize
      omega
    · have hfits : s.recvPos + (v.data.take (min v.data.length s.recvSpace)).length ≤ s.recvSize := by
        omega
      have hstore : Ring.contents (Ring.store s.recvBuff s.recvSize
          ((s.recvHead + s.recvPos) % s.recvSize) _) _ _ _ = _ := Ring.contents_store h.head hfits
      rw [hlen] at hstore
      exact hstore

theorem recvCopyOut_eq (h : RingOk s) {start len : ℕ} (hle : start + len ≤ s.recvPos) :
    s.recvCopyOut start len = (s.content.drop start).take len := by
  have hhead := h.head
  have hpos := h.pos
  unfold recvCopyOut
  split_ifs with hzero
  · have hlen : len = 0 := by omega
    rw [hlen, take_zero]
  · rw [Ring.load_eq_contents (Nat.mod_lt _ (by omega)) (by omega), content,
      Ring.drop_contents (by omega), Ring.take_contents (by omega)]

theorem RingOk.consume (h : RingOk s) {n : ℕ} (hn : n ≤ s.recvPos) :
    RingOk (s.consume n) ∧ (s.consume n).content = s.content.drop n := by
  have hhead := h.head
  have hpos := h.pos
  refine ⟨⟨?_, ?_⟩, ?_⟩
  · show (if s.recvPos - n = 0 then 0 else (s.recvHead + n) % s.recvSize) < s.recvSize
    split_ifs
    · omega
    · exact Nat.mod_lt _ (by omega)
  · show s.recvPos - n ≤ s.recvSize
    omega
  · show Ring.contents s.recvBuff s.recvSize
      (if s.recvPos - n = 0 then 0 else (s.recvHead + n) % s.recvSize) (s.recvPos - n) = _
    rw [content, Ring.drop_contents hn]
    split_ifs with hempty
    · rw [hempty, Ring.contents_zero, Ring.contents_zero]
    · rfl

theorem readvLoop_eq (h : RingOk s) (iov : List Iovec) (remaining consumed : ℕ)
    (hle : consumed + remaining ≤ s.recvPos) : ∃ m ≤ remaining,
      s.readvLoop iov remaining consumed = ((s.content.drop consumed).take m, consumed + m) := by
  induction iov generalizing remaining consumed with
  | nil => exact ⟨0, Nat.zero_le _, by simp [readvLoop]⟩
  | cons v iov ih =>
    rw [readvLoop]
    split_ifs with hzero hskip
    · exact ⟨0, Nat.zero_le _, by simp⟩
    · exact ih remaining consumed hle
    · obtain ⟨m, hm, hloop⟩ := ih (remaining - min v.len remaining)
        (consumed + min v.len remaining) (by omega)
      refine ⟨min v.len remaining + m, by omega, ?_⟩
      dsimp only
      rw [hloop, recvCopyOut_eq h (by omega)]
      refine Prod.ext ?_ (by dsimp only; omega)
      dsimp only
      rw [take_add, drop_drop]

theorem recvBytes_eq (h : RingOk s) (buf : RecvBuffer) : ∃ n ≤ s.recvPos, ∀ peek,
    s.recvBytes buf peek = (if peek = true ∨ n = 0 then s else s.consume n, s.content.take n) := by
  cases buf with
  | recv null len =>
    unfold recvBytes recvRead
    dsimp only
    generalize s.streamReadLimit len = limit
    by_cases hnull : null = true ∨ limit = 0
    · refine ⟨0, Nat.zero_le _, fun peek => ?_⟩
      rw [if_pos hnull, if_pos (.inr rfl), take_zero]
    · refine ⟨min limit s.recvPos, Nat.min_le_right _ _, fun peek => ?_⟩
      rw [if_neg hnull]
      by_cases hzero : min limit s.recvPos = 0
      · rw [if_pos hzero, if_pos (.inr hzero), hzero, take_zero]
      · rw [if_neg hzero, recvCopyOut_eq h (by omega), drop_zero]
        simp only [hzero, or_false]
  | recvmsg iov =>
    unfold recvBytes recvReadv
    dsimp only
    generalize s.streamReadLimit (iovTotalLen (iov.map Iovec.len)) = limit
    by_cases hnull : iov = [] ∨ limit = 0
    · refine ⟨0, Nat.zero_le _, fun peek => ?_⟩
      rw [if_pos hnull, if_pos (.inr rfl), take_zero]
    · obtain ⟨m, hm, hloop⟩ := readvLoop_eq h iov (min limit s.recvPos) 0 (by omega)
      refine ⟨m, by omega, fun peek => ?_⟩
      rw [if_neg hnull, hloop, drop_zero, Nat.zero_add]
      cases peek with
      | true => simp
      | false =>
        by_cases hm0 : m = 0
        · simp [hm0]
        · simp [hm0, Nat.pos_of_ne_zero hm0]

/-- What the section of a receive does, with and without a peek. -/
structure Received (s : UnixSocket) (buf : RecvBuffer) (n : ℕ) : Prop where
  le : n ≤ s.recvPos
  peek : s.receive buf true = (s, s.content.take n)
  bytes : (s.receive buf false).2 = s.content.take n
  ring : RingOk (s.receive buf false).1
  content : (s.receive buf false).1.content = s.content.drop n
  seq : (s.receive buf false).1.recvSeq = wrap (s.recvSeq + n)
  size : (s.receive buf false).1.recvSize = s.recvSize

theorem receive_received (h : RingOk s) (hseq : s.recvSeq < 2 ^ 64) (buf : RecvBuffer) :
    ∃ n, Received s buf n := by
  obtain ⟨n, hn, hbytes⟩ := recvBytes_eq h buf
  by_cases hempty : s.recvPos = 0
  · have hnone : ∀ peek, s.receive buf peek = (s, []) := fun peek => by
      rw [receive, if_pos hempty]
    refine ⟨0, Nat.zero_le _, hnone true, ?_, ?_, ?_, ?_, ?_⟩ <;> rw [hnone]
    · rfl
    · exact h
    · rfl
    · exact (Nat.mod_eq_of_lt hseq).symm
  · have hlen : (s.content.take n).length = n := by simpa using hn
    have hpeek : s.receive buf true = (s, s.content.take n) := by
      simp [receive, hempty, hbytes]
    -- a receive of no bytes leaves the ring as it is
    obtain ⟨s', hs', hring, hcontent, hseq', hsize⟩ : ∃ s',
        s.recvBytes buf false = (s', s.content.take n) ∧ RingOk s' ∧
          s'.content = s.content.drop n ∧ s'.recvSeq = s.recvSeq ∧ s'.recvSize = s.recvSize := by
      by_cases hn0 : n = 0
      · exact ⟨s, by rw [hbytes, if_pos (.inr hn0)], h, by rw [hn0, drop_zero], rfl, rfl⟩
      · obtain ⟨hring, hcontent⟩ := h.consume hn
        exact ⟨s.consume n, by rw [hbytes, if_neg (by simpa using hn0)], hring, hcontent, rfl, rfl⟩
    have htake : s.receive buf false = (({ s' with recvSeq := wrap (s'.recvSeq + n) } :
        UnixSocket).ancillaryDropBefore (wrap (s'.recvSeq + n)), s.content.take n) := by
      rw [receive, if_neg hempty]
      simp only [hs', Bool.false_eq_true, if_false, hlen]
    refine ⟨n, hn, hpeek, ?_, ?_, ?_, ?_, ?_⟩ <;> rw [htake]
    · exact ⟨hring.head, hring.pos⟩
    · exact hcontent
    · rw [← hseq']
      rfl
    · exact hsize

end Ring

end UnixSocket

def SocketCall.sendId : SocketCall → Option ℕ
  | .sending id _ _ _ _ _ _ => some id
  | _ => none

/-- The number of bytes that a send has accepted, by its return value. -/
def sentBytes : Except SocketError ℕ → ℕ
  | .ok n => n
  | .error _ => 0

namespace StreamState

/-- A send under way has stored the first bytes of its data and has the others left. -/
def SendOk (x : StreamState) : SocketCall → Prop
  | .sending id rest cnt _ _ message _ => ∃ data, x.sends[id]? = some data ∧
      x.returned id = none ∧ pieces x.accepted id = data.take cnt ∧
      data.drop cnt = (rest.map SendVec.data).flatten ∧ (message = false → cnt = 0)
  | _ => True

end StreamState

structure StreamInv (x : StreamState) : Prop where
  ring : x.sock.RingOk
  size : x.sock.recvSize = socketBufferSize
  stream : x.delivered ++ x.sock.content = (x.accepted.map Prod.snd).flatten
  seq : x.sock.recvSeq = wrap x.delivered.length
  id_lt : ∀ e ∈ x.accepted, e.1 < x.sends.length
  fresh : ∀ id, x.sends.length ≤ id → x.returned id = none
  sending : ∀ t, x.SendOk (x.calls t)
  one : ∀ t t' id, (x.calls t).sendId = some id → (x.calls t').sendId = some id → t = t'
  returned : ∀ id data r, x.sends[id]? = some data → x.returned id = some r →
    pieces x.accepted id = data.take (sentBytes r)
  stored : ∀ id data, x.sends[id]? = some data → pieces x.accepted id <+: data

section Sends

variable {x : StreamState} {thread id cnt : ℕ} {rest : List SendVec} {ancillary nonblock message
  checked : Bool}

theorem streamInv_new : StreamInv new where
  ring := ⟨by norm_num [new, socketBufferSize], Nat.zero_le _⟩
  size := rfl
  stream := rfl
  seq := rfl
  id_lt := fun e he => (by cases he)
  fresh := fun _ _ => rfl
  sending := fun _ => trivial
  one := fun _ _ _ ht => (by cases ht)
  returned := fun _ _ _ hdata => (by simp [new] at hdata)
  stored := fun _ _ hdata => (by simp [new] at hdata)

theorem pieces_eq_nil (h : StreamInv x) (hid : x.sends.length ≤ id) : pieces x.accepted id = [] := by
  have hnone : x.accepted.filter (fun e => e.1 = id) = [] := by
    rw [filter_eq_nil_iff]
    intro e he heq
    have hlt := h.id_lt e he
    simp only [decide_eq_true_eq] at heq
    omega
  rw [pieces, hnone]
  rfl

theorem StreamInv.setCall (h : StreamInv x) {call : SocketCall} (hok : x.SendOk call)
    (hid : ∀ id, call.sendId = some id → (x.calls thread).sendId = some id) :
    StreamInv (x.setCall thread call) where
  ring := h.ring
  size := h.size
  stream := h.stream
  seq := h.seq
  id_lt := h.id_lt
  fresh := h.fresh
  sending := by
    intro t
    show x.SendOk (update x.calls thread call t)
    by_cases ht : t = thread
    · rw [ht, update_self]
      exact hok
    · rw [update_of_ne ht]
      exact h.sending t
  one := by
    have hsame : ∀ t id, ((x.setCall thread call).calls t).sendId = some id →
        (x.calls t).sendId = some id := by
      intro t id ht
      replace ht : (update x.calls thread call t).sendId = some id := ht
      by_cases hthread : t = thread
      · rw [hthread, update_self] at ht
        rw [hthread]
        exact hid id ht
      · rwa [update_of_ne hthread] at ht
    exact fun t t' id ht ht' => h.one t t' id (hsame t id ht) (hsame t' id ht')
  returned := h.returned
  stored := h.stored

theorem StreamInv.receive (h : StreamInv x) (sock : UnixSocket) {delivered : List UInt8}
    (hring : sock.RingOk) (hsize : sock.recvSize = x.sock.recvSize)
    (hstream : delivered ++ sock.content = x.delivered ++ x.sock.content)
    (hseq : sock.recvSeq = wrap delivered.length) (shutWr : Bool) (got : ℕ → List UInt8) :
    StreamInv { x with sock := sock, delivered := delivered, shutWr := shutWr, got := got } :=
  ⟨hring, hsize.trans h.size, hstream.trans h.stream, hseq, h.id_lt, h.fresh, h.sending, h.one,
    h.returned, h.stored⟩

theorem StreamInv.endSend (h : StreamInv x) {r : Except SocketError ℕ}
    (hcall : x.calls thread = .sending id rest cnt ancillary nonblock message checked)
    (hsent : sentBytes r = cnt) : StreamInv (x.endSend thread id r) := by
  have hself := h.sending thread
  rw [hcall] at hself
  obtain ⟨data, hdata, hnone, hpieces, -⟩ := hself
  have hid : (x.calls thread).sendId = some id := by
    rw [hcall]
    rfl
  have hlt : id < x.sends.length := (List.getElem?_eq_some_iff.mp hdata).1
  have hother : ∀ t, ((x.setCall thread .idle).calls t).sendId = some id → False := by
    intro t ht
    replace ht : (update x.calls thread .idle t).sendId = some id := ht
    by_cases hthread : t = thread
    · rw [hthread, update_self] at ht
      cases ht
    · rw [update_of_ne hthread] at ht
      exact hthread (h.one t thread id ht hid)
  have hidle : StreamInv (x.setCall thread .idle) := h.setCall trivial fun id hid => (by cases hid)
  refine ⟨hidle.ring, hidle.size, hidle.stream, hidle.seq, hidle.id_lt, fun id' hid' => ?_,
    fun t => ?_, hidle.one, fun id' data' r' hdata' hr' => ?_, hidle.stored⟩
  · show update x.returned id (some r) id' = none
    rw [update_of_ne (by rintro rfl; exact absurd hlt (not_lt.mpr hid'))]
    exact h.fresh id' hid'
  · have hok := hidle.sending t
    show StreamState.SendOk _ ((x.setCall thread .idle).calls t)
    cases hc : (x.setCall thread .idle).calls t with
    | sending id' rest' cnt' a' n' m' c' =>
      rw [hc] at hok
      obtain ⟨data', hdata', hnone', hrest⟩ := hok
      refine ⟨data', hdata', ?_, hrest⟩
      have hne : id' ≠ id := by
        rintro rfl
        refine hother t ?_
        rw [hc]
        rfl
      show update x.returned id (some r) id' = none
      rw [update_of_ne hne]
      exact hnone'
    | idle => trivial
    | receiving => trivial
    | collecting => trivial
  · replace hr' : update x.returned id (some r) id' = some r' := hr'
    by_cases hne : id' = id
    · rw [hne, update_self] at hr'
      cases hr'
      rw [hne] at hdata' ⊢
      obtain rfl := Option.some.inj (hdata.symm.trans hdata')
      rw [hsent]
      exact hpieces
    · rw [update_of_ne hne] at hr'
      exact h.returned id' data' r' hdata' hr'

theorem StreamInv.stopSend (h : StreamInv x) {r : Except SocketError ℕ}
    (hcall : x.calls thread = .sending id rest cnt ancillary nonblock message checked)
    (hr : sentBytes r = 0) : StreamInv (x.stopSend thread id cnt message r) := by
  have hself := h.sending thread
  rw [hcall] at hself
  obtain ⟨data, -, -, -, -, hcnt⟩ := hself
  unfold StreamState.stopSend
  cases message with
  | false =>
    refine h.endSend hcall ?_
    rw [hr, hcnt rfl]
  | true =>
    cases r with
    | ok n => exact h.endSend hcall rfl
    | error e =>
      refine h.endSend hcall ?_
      split_ifs with hpos
      · rfl
      · show 0 = cnt
        omega

theorem StreamInv.nextSend (h : StreamInv x)
    (hcall : x.calls thread = .sending id rest cnt ancillary nonblock message checked)
    (ancillary' nonblock' : Bool) : StreamInv (x.nextSend thread id rest cnt ancillary' nonblock') := by
  have hself := h.sending thread
  rw [hcall] at hself
  obtain ⟨data, hdata, hnone, hpieces, hrest, -⟩ := hself
  have hskip : ∀ vs : List SendVec, ((vs.dropWhile (·.data = [])).map SendVec.data).flatten =
      (vs.map SendVec.data).flatten := by
    intro vs
    induction vs with
    | nil => rfl
    | cons v vs ih =>
      rw [dropWhile_cons]
      split_ifs with hv
      · rw [ih, map_cons, flatten_cons, of_decide_eq_true hv, nil_append]
      · rfl
  unfold StreamState.nextSend
  split
  · exact h.endSend hcall rfl
  · refine h.setCall ⟨data, hdata, hnone, hpieces, ?_, fun hfalse => (by cases hfalse)⟩ fun id' hid => ?_
    · rw [hrest, hskip]
    · rw [hcall]
      exact hid

theorem StreamState.endSend_setCall (x : StreamState) (thread id : ℕ) (call : SocketCall)
    (r : Except SocketError ℕ) : (x.setCall thread call).endSend thread id r = x.endSend thread id r := by
  unfold endSend setCall
  simp

theorem StreamState.nextSend_setCall (x : StreamState) (thread id : ℕ) (call : SocketCall)
    (rest : List SendVec) (cnt : ℕ) (ancillary nonblock : Bool) :
    (x.setCall thread call).nextSend thread id rest cnt ancillary nonblock =
      x.nextSend thread id rest cnt ancillary nonblock := by
  unfold nextSend
  split
  · exact x.endSend_setCall thread id call _
  · unfold setCall
    simp

theorem StreamState.stopSend_setCall (x : StreamState) (thread id : ℕ) (call : SocketCall)
    (cnt : ℕ) (message : Bool) (r : Except SocketError ℕ) :
    (x.setCall thread call).stopSend thread id cnt message r = x.stopSend thread id cnt message r := by
  unfold stopSend
  split
  · exact x.endSend_setCall thread id call r
  · split <;> exact x.endSend_setCall thread id call _

theorem StreamInv.store (h : StreamInv x) {v : SendVec} {sock : UnixSocket} {n : ℕ}
    (hcall : x.calls thread = .sending id (v :: rest) cnt ancillary nonblock message checked)
    (hwrote : UnixSocket.Wrote x.sock v (sock, n)) :
    StreamInv (({ x with
      sock := sock
      accepted := x.accepted ++ [(id, v.data.take n)] } : StreamState).setCall thread
        (.sending id ({ v with data := v.data.drop n } :: rest) (cnt + n) false nonblock
          (message || decide (0 < n)) checked)) := by
  have hself := h.sending thread
  rw [hcall] at hself
  obtain ⟨data, hdata, hnone, hpieces, hrest, hcnt⟩ := hself
  have hlt : id < x.sends.length := (List.getElem?_eq_some_iff.mp hdata).1
  have hid : (x.calls thread).sendId = some id := by
    rw [hcall]
    rfl
  rw [map_cons, flatten_cons] at hrest
  have htake : data.take cnt ++ v.data.take n = data.take (cnt + n) := by
    rw [take_add, hrest, take_append_of_le_length hwrote.le]
  have hdrop : data.drop (cnt + n) = v.data.drop n ++ (rest.map SendVec.data).flatten := by
    rw [← drop_drop, hrest, drop_append_of_le_length hwrote.le]
  refine
    { ring := hwrote.ring, size := hwrote.size.trans h.size, stream := ?_,
      seq := hwrote.seq.trans h.seq, id_lt := fun e he => ?_, fresh := h.fresh,
      sending := fun t => ?_, one := fun t t' id' ht ht' => ?_,
      returned := fun id' data' r hdata' hr => ?_, stored := fun id' data' hdata' => ?_ }
  · show x.delivered ++ sock.content = ((x.accepted ++ [(id, v.data.take n)]).map Prod.snd).flatten
    have hcontent : sock.content = x.sock.content ++ v.data.take n := hwrote.content
    rw [hcontent, ← append_assoc, h.stream, map_append, flatten_append]
    simp
  · obtain he | he := mem_append.mp he
    · exact h.id_lt e he
    · rw [mem_singleton.mp he]
      exact hlt
  · show StreamState.SendOk _ (update x.calls thread _ t)
    by_cases ht : t = thread
    · rw [ht, update_self]
      refine ⟨data, hdata, hnone, ?_, ?_, ?_⟩
      · show pieces (x.accepted ++ [(id, v.data.take n)]) id = _
        rw [pieces_concat, if_pos rfl, hpieces, htake]
      · rw [hdrop]
        rfl
      · intro hmessage
        obtain ⟨hm, hn⟩ := Bool.or_eq_false_iff.mp hmessage
        have hn0 : ¬0 < n := of_decide_eq_false hn
        rw [hcnt hm]
        omega
    · rw [update_of_ne ht]
      have hok := h.sending t
      cases hc : x.calls t with
      | sending id' rest' cnt' a' n' m' c' =>
        rw [hc] at hok
        obtain ⟨data', hdata', hnone', hpieces', hrest'⟩ := hok
        refine ⟨data', hdata', hnone', ?_, hrest'⟩
        have hne : id ≠ id' := by
          rintro rfl
          refine ht (h.one t thread id ?_ hid)
          rw [hc]
          rfl
        show pieces (x.accepted ++ [(id, v.data.take n)]) id' = _
        rw [pieces_concat, if_neg hne, hpieces']
      | idle => trivial
      | receiving => trivial
      | collecting => trivial
  · have hsame : ∀ t, (update x.calls thread (SocketCall.sending id
        ({ v with data := v.data.drop n } :: rest) (cnt + n) false nonblock
          (message || decide (0 < n)) checked) t).sendId = some id' →
        (x.calls t).sendId = some id' := by
      intro t ht
      by_cases hthread : t = thread
      · rw [hthread, update_self] at ht
        rw [hthread, hid]
        exact ht
      · rwa [update_of_ne hthread] at ht
    exact h.one t t' id' (hsame t ht) (hsame t' ht')
  · have hne : id ≠ id' := by
      rintro rfl
      exact absurd (hnone.symm.trans hr) (by simp)
    show pieces (x.accepted ++ [(id, v.data.take n)]) id' = _
    rw [pieces_concat, if_neg hne]
    exact h.returned id' data' r hdata' hr
  · show pieces (x.accepted ++ [(id, v.data.take n)]) id' <+: data'
    rw [pieces_concat]
    split_ifs with heq
    · rw [← heq] at hdata' ⊢
      obtain rfl := Option.some.inj (hdata.symm.trans hdata')
      rw [hpieces, htake]
      exact take_prefix _ _
    · exact h.stored id' data' hdata'

theorem StreamInv.passSend (h : StreamInv x) {v : SendVec}
    (hcall : x.calls thread = .sending id (v :: rest) cnt ancillary nonblock message checked) :
    StreamInv (x.passSend thread id v rest cnt ancillary nonblock message) := by
  unfold StreamState.passSend
  by_cases hshut : x.sock.shutRd = true
  · rw [if_pos hshut]
    exact h.stopSend hcall rfl
  rw [if_neg hshut]
  by_cases hspace : x.sock.recvSpace > 0
  · rw [if_pos hspace]
    dsimp only
    generalize hsock : (if ancillary = true then ({ x.sock with
      ancillary := x.sock.ancillary ++ [wrap (x.sock.recvSeq + x.sock.recvPos)] } : UnixSocket)
      else x.sock) = sock
    -- the control message is beside the ring
    have hwrote : UnixSocket.Wrote x.sock v (sock.recvWrite v) := by
      cases ancillary with
      | true =>
        rw [if_pos rfl] at hsock
        rw [← hsock]
        obtain ⟨hring, hcontent, hle, hsize, hseq⟩ := UnixSocket.recvWrite_wrote
          (s := { x.sock with
            ancillary := x.sock.ancillary ++ [wrap (x.sock.recvSeq + x.sock.recvPos)] })
          ⟨h.ring.head, h.ring.pos⟩ v
        exact ⟨hring, hcontent, hle, hsize, hseq⟩
      | false =>
        rw [if_neg Bool.false_ne_true] at hsock
        rw [← hsock]
        exact UnixSocket.recvWrite_wrote h.ring v
    generalize sock.recvWrite v = r at hwrote
    obtain ⟨sock', n⟩ := r
    have hstored := h.store hcall hwrote
    split_ifs with hn hmessage
    · obtain rfl : n = 0 := hn
      rw [← stopSend_setCall _ thread id (.sending id
        ({ v with data := v.data.drop 0 } :: rest) (cnt + 0) false nonblock
          (message || decide (0 < 0)) checked)]
      have hor : (message || decide (0 < 0)) = message := by simp
      rw [hor] at hstored ⊢
      exact hstored.stopSend (update_self _ _ _) rfl
    · rw [← endSend_setCall _ thread id (.sending id
        ({ v with data := v.data.drop n } :: rest) (cnt + n) false nonblock
          (message || decide (0 < n)) checked)]
      refine hstored.endSend (update_self _ _ _) ?_
      have hself := h.sending thread
      rw [hcall] at hself
      obtain ⟨-, -, -, -, -, hcnt⟩ := hself
      show n = cnt + n
      rw [hcnt (by simpa using hmessage), Nat.zero_add]
    · rw [← nextSend_setCall _ thread id (.sending id
        ({ v with data := v.data.drop n } :: rest) (cnt + n) false nonblock
          (message || decide (0 < n)) checked)]
      exact hstored.nextSend (update_self _ _ _) false nonblock
  · rw [if_neg hspace]
    split_ifs
    · exact h.stopSend hcall rfl
    · exact h

theorem getElem?_sends_concat {sends : List (List UInt8)} {data data' : List UInt8} {id : ℕ}
    (h : sends[id]? = some data) : (sends ++ [data'])[id]? = some data := by
  rw [List.getElem?_append_left (List.getElem?_eq_some_iff.mp h).1, h]

theorem StreamInv.beginSend (h : StreamInv x) (thread : ℕ) (rest : List SendVec)
    (ancillary nonblock message checked : Bool) :
    StreamInv ((x.beginSend (rest.map SendVec.data).flatten).setCall thread
      (.sending x.sends.length rest 0 ancillary nonblock message checked)) := by
  have hlt : ∀ t id, (x.calls t).sendId = some id → id < x.sends.length := by
    intro t id ht
    have hok := h.sending t
    cases hc : x.calls t with
    | sending id' rest' cnt' a' n' m' c' =>
      rw [hc] at hok ht
      obtain ⟨data, hdata, -⟩ := hok
      cases ht
      exact (List.getElem?_eq_some_iff.mp hdata).1
    | idle => simp [hc, SocketCall.sendId] at ht
    | receiving => simp [hc, SocketCall.sendId] at ht
    | collecting => simp [hc, SocketCall.sendId] at ht
  have hids : ∀ t id, (update x.calls thread
      (.sending x.sends.length rest 0 ancillary nonblock message checked) t).sendId = some id →
      t = thread ∧ id = x.sends.length ∨ t ≠ thread ∧ (x.calls t).sendId = some id := by
    intro t id ht
    by_cases hthread : t = thread
    · rw [hthread, update_self] at ht
      exact .inl ⟨hthread, (Option.some.inj ht).symm⟩
    · rw [update_of_ne hthread] at ht
      exact .inr ⟨hthread, ht⟩
  refine
    { ring := h.ring, size := h.size, stream := h.stream, seq := h.seq,
      id_lt := fun e he => ?_, fresh := fun id hid => ?_, sending := fun t => ?_,
      one := fun t t' id ht ht' => ?_, returned := fun id data r hdata hr => ?_,
      stored := fun id data hdata => ?_ }
  · show e.1 < (x.sends ++ [_]).length
    have he' := h.id_lt e he
    rw [length_append, length_singleton]
    omega
  · replace hid : (x.sends ++ [_]).length ≤ id := hid
    rw [length_append, length_singleton] at hid
    exact h.fresh id (by omega)
  · show StreamState.SendOk _ (update x.calls thread _ t)
    by_cases ht : t = thread
    · rw [ht, update_self]
      refine ⟨(rest.map SendVec.data).flatten, ?_, h.fresh _ le_rfl, ?_, rfl, fun _ => rfl⟩
      · show (x.sends ++ [_])[x.sends.length]? = _
        simp
      · show pieces x.accepted x.sends.length = []
        exact pieces_eq_nil h le_rfl
    · rw [update_of_ne ht]
      have hok := h.sending t
      cases hc : x.calls t with
      | sending id' rest' cnt' a' n' m' c' =>
        rw [hc] at hok
        obtain ⟨data, hdata, hrest⟩ := hok
        exact ⟨data, getElem?_sends_concat hdata, hrest⟩
      | idle => trivial
      | receiving => trivial
      | collecting => trivial
  · obtain ⟨hthread, hid⟩ | ⟨-, hold⟩ := hids t id ht
    · obtain ⟨hthread', -⟩ | ⟨-, hold'⟩ := hids t' id ht'
      · rw [hthread, hthread']
      · exact absurd (hlt t' id hold') (by omega)
    · obtain ⟨-, hid⟩ | ⟨-, hold'⟩ := hids t' id ht'
      · exact absurd (hlt t id hold) (by omega)
      · exact h.one t t' id hold hold'
  · replace hdata : (x.sends ++ [_])[id]? = some data := hdata
    by_cases hid : id < x.sends.length
    · rw [List.getElem?_append_left hid] at hdata
      exact h.returned id data r hdata hr
    · exact absurd ((h.fresh id (by omega)).symm.trans hr) (by simp)
  · replace hdata : (x.sends ++ [_])[id]? = some data := hdata
    show pieces x.accepted id <+: data
    by_cases hid : id < x.sends.length
    · rw [List.getElem?_append_left hid] at hdata
      exact h.stored id data hdata
    · rw [pieces_eq_nil h (by omega)]
      exact nil_prefix

theorem StreamInv.seq_lt (h : StreamInv x) : x.sock.recvSeq < 2 ^ 64 := by
  rw [h.seq]
  exact Nat.mod_lt _ (by norm_num)

theorem StreamInv.received (h : StreamInv x) (thread : ℕ) (buf : RecvBuffer) (peek : Bool) :
    StreamInv (x.received thread buf peek) := by
  obtain ⟨n, hr⟩ := UnixSocket.receive_received h.ring h.seq_lt buf
  unfold StreamState.received
  dsimp only
  cases peek with
  | true =>
    rw [hr.peek, if_pos rfl]
    exact h.receive x.sock h.ring rfl rfl h.seq x.shutWr _
  | false =>
    rw [if_neg Bool.false_ne_true, hr.bytes]
    refine h.receive _ hr.ring hr.size ?_ ?_ x.shutWr _
    · rw [hr.content, append_assoc, take_append_drop]
    · rw [hr.seq, h.seq, length_append, length_take, UnixSocket.length_content,
        Nat.min_eq_left hr.le, wrap, wrap, wrap, Nat.mod_add_mod]

theorem StreamInv.pass (h : StreamInv x) {x' : StreamState} (hstep : x.pass thread = some x') :
    StreamInv x' := by
  unfold StreamState.pass at hstep
  split at hstep
  · cases hstep
  · cases hstep
  · rename_i id v rest cnt ancillary nonblock message hcall
    split_ifs at hstep <;> obtain rfl := Option.some.inj hstep
    · exact h.stopSend hcall rfl
    · exact h.stopSend hcall rfl
    · exact h.stopSend hcall rfl
    · have hself := h.sending thread
      rw [hcall] at hself
      refine h.setCall hself fun id hid => ?_
      rw [hcall]
      exact hid
  · rename_i id v rest cnt ancillary nonblock message hcall
    cases hstep
    exact h.passSend hcall
  · rename_i buf peek nonblock hcall
    have hreceived := h.received thread buf peek
    dsimp only at hstep
    generalize x.received thread buf peek = x₁ at hstep hreceived
    have hidle : StreamInv (x₁.setCall thread .idle) :=
      hreceived.setCall trivial fun _ hid => (by cases hid)
    split_ifs at hstep
    · split at hstep
      · cases hstep
        exact hidle
      · cases hstep
        refine hreceived.setCall ?_ fun _ hid => ?_
        · trivial
        · cases hid
    · cases hstep
      exact hidle
    · cases hstep
      exact hidle
    · cases hstep
      exact hreceived
  · cases hstep
    have hidle : StreamInv (x.setCall thread .idle) :=
      h.setCall trivial fun _ hid => (by cases hid)
    split_ifs
    · exact hidle
    · exact hidle.receive (x.sock.ancillaryDropBefore _) ⟨h.ring.head, h.ring.pos⟩ rfl rfl h.seq _ _

theorem StreamInv.step (h : StreamInv x) {op : SocketOp} {x' : StreamState}
    (hstep : x.step op = some x') : StreamInv x' := by
  cases op with
  | send thread v ancillary nonblock =>
    simp only [StreamState.step] at hstep
    split at hstep
    · cases hstep
      have hbegin := h.beginSend thread [v] ancillary nonblock false false
      rwa [map_singleton, flatten_singleton] at hbegin
    · cases hstep
  | sendmsg thread iov ancillary nonblock =>
    simp only [StreamState.step] at hstep
    split at hstep
    · have hbegin := h.beginSend thread iov ancillary nonblock true false
      split_ifs at hstep
      · cases hstep
        rw [← endSend_setCall _ thread _
          (.sending x.sends.length iov 0 ancillary nonblock true false)]
        exact hbegin.endSend (update_self _ _ _) rfl
      · cases hstep
        rw [← nextSend_setCall _ thread _
          (.sending x.sends.length iov 0 ancillary nonblock true false)]
        exact hbegin.nextSend (update_self _ _ _) ancillary nonblock
    · cases hstep
  | receive thread buf peek nonblock =>
    simp only [StreamState.step] at hstep
    split at hstep
    · split_ifs at hstep
      · cases hstep
        exact h.receive x.sock h.ring rfl rfl h.seq _ _
      · cases hstep
        exact h.setCall trivial fun _ hid => (by cases hid)
    · cases hstep
  | pass thread => exact h.pass hstep
  | interrupt thread =>
    simp only [StreamState.step] at hstep
    split at hstep
    · rename_i id rest cnt ancillary nonblock message hcall
      cases hstep
      exact h.stopSend hcall rfl
    · cases hstep
      exact h.setCall trivial fun _ hid => (by cases hid)
    · cases hstep
  | shutdownRd =>
    cases hstep
    exact h.receive { x.sock with shutRd := true } ⟨h.ring.head, h.ring.pos⟩ rfl rfl h.seq _ _
  | shutdownWr =>
    cases hstep
    exact h.receive x.sock h.ring rfl rfl h.seq true x.got

end Sends

def SocketOp.Alone (x : StreamState) : SocketOp → Prop
  | .send _ _ _ _ => ∀ t, (x.calls t).sendId = none
  | .sendmsg _ _ _ _ => ∀ t, (x.calls t).sendId = none
  | _ => True

/-- The pieces are stored in the order of the sends. -/
structure OneByOne (x : StreamState) : Prop where
  flat : (x.accepted.map Prod.snd).flatten =
    ((List.range x.sends.length).map (pieces x.accepted)).flatten
  last : ∀ t id, (x.calls t).sendId = some id → id + 1 = x.sends.length

/-- Nothing is stored, and the sends under way are those of before and those of `ids`. -/
structure NoStore (ids : Set ℕ) (x x' : StreamState) : Prop where
  accepted : x'.accepted = x.accepted
  sends : x'.sends = x.sends
  calls : ∀ t id, (x'.calls t).sendId = some id → id ∈ ids ∨ (x.calls t).sendId = some id

section OneByOne

variable {x x' : StreamState} {thread id cnt : ℕ} {rest : List SendVec} {ancillary nonblock message
  checked : Bool}

theorem OneByOne.noStore (h : OneByOne x) {ids : Set ℕ} (hx : NoStore ids x x')
    (hids : ∀ id ∈ ids, id + 1 = x.sends.length) : OneByOne x' where
  flat := by
    rw [hx.accepted, hx.sends]
    exact h.flat
  last := by
    intro t id ht
    rw [hx.sends]
    obtain hid | hold := hx.calls t id ht
    · exact hids id hid
    · exact h.last t id hold

theorem OneByOne.append (h : OneByOne x) (hid : id + 1 = x.sends.length) (sock : UnixSocket)
    (bytes : List UInt8) :
    OneByOne { x with sock := sock, accepted := x.accepted ++ [(id, bytes)] } where
  flat := by
    show ((x.accepted ++ [(id, bytes)]).map Prod.snd).flatten =
      ((range x.sends.length).map (pieces (x.accepted ++ [(id, bytes)]))).flatten
    have hold : (range id).map (pieces (x.accepted ++ [(id, bytes)])) =
        (range id).map (pieces x.accepted) := by
      apply map_congr_left
      intro id' hid'
      have hlt := mem_range.mp hid'
      rw [pieces_concat, if_neg (by omega)]
    have hflat := h.flat
    rw [← hid, range_succ, map_append, flatten_append] at hflat
    rw [← hid, range_succ, map_append, map_append, flatten_append,
      flatten_append, hold, hflat]
    simp [pieces_concat]
  last := h.last

theorem noStore_setCall (x : StreamState) (thread : ℕ) {call : SocketCall} (ids : Set ℕ)
    (hcall : ∀ id, call.sendId = some id → id ∈ ids) : NoStore ids x (x.setCall thread call) := by
  refine ⟨rfl, rfl, fun t id ht => ?_⟩
  replace ht : (update x.calls thread call t).sendId = some id := ht
  by_cases hthread : t = thread
  · rw [hthread, update_self] at ht
    exact .inl (hcall id ht)
  · rw [update_of_ne hthread] at ht
    exact .inr ht

theorem noStore_endSend (x : StreamState) (thread id : ℕ) (r : Except SocketError ℕ)
    (ids : Set ℕ) : NoStore ids x (x.endSend thread id r) := by
  have hidle : NoStore ids x (x.setCall thread .idle) :=
    noStore_setCall x thread _ fun _ hid => (by cases hid)
  exact ⟨hidle.accepted, hidle.sends, hidle.calls⟩

theorem noStore_stopSend (x : StreamState) (thread id cnt : ℕ) (message : Bool)
    (r : Except SocketError ℕ) (ids : Set ℕ) : NoStore ids x (x.stopSend thread id cnt message r) := by
  unfold stopSend
  split
  · exact noStore_endSend x thread id r ids
  · split <;> exact noStore_endSend x thread id _ ids

theorem noStore_nextSend (x : StreamState) (thread id : ℕ) (rest : List SendVec) (cnt : ℕ)
    (ancillary nonblock : Bool) : NoStore {id} x (x.nextSend thread id rest cnt ancillary nonblock) := by
  unfold nextSend
  split
  · exact noStore_endSend x thread id _ _
  · exact noStore_setCall x thread _ fun _ hid => (Option.some.inj hid).symm

theorem OneByOne.passSend (h : OneByOne x) {v : SendVec}
    (hcall : x.calls thread = .sending id (v :: rest) cnt ancillary nonblock message checked) :
    OneByOne (x.passSend thread id v rest cnt ancillary nonblock message) := by
  have hid : id + 1 = x.sends.length := by
    apply h.last thread id
    rw [hcall]
    rfl
  unfold StreamState.passSend
  by_cases hshut : x.sock.shutRd = true
  · rw [if_pos hshut]
    exact h.noStore (noStore_stopSend x thread id cnt message _ ∅) fun _ hid => hid.elim
  rw [if_neg hshut]
  by_cases hspace : x.sock.recvSpace > 0
  · rw [if_pos hspace]
    dsimp only
    generalize UnixSocket.recvWrite _ v = r
    have hstored := h.append hid r.1 (v.data.take r.2)
    split_ifs
    · exact hstored.noStore (noStore_stopSend _ thread id cnt message _ ∅) fun _ hid => hid.elim
    · exact hstored.noStore (noStore_endSend _ thread id _ ∅) fun _ hid => hid.elim
    · refine hstored.noStore (noStore_nextSend _ thread id _ _ _ _) fun id' hid' => ?_
      rw [Set.mem_singleton_iff.mp hid']
      exact hid
  · rw [if_neg hspace]
    split_ifs
    · exact h.noStore (noStore_stopSend x thread id cnt message _ ∅) fun _ hid => hid.elim
    · exact h

theorem OneByOne.pass (h : OneByOne x) (hstep : x.pass thread = some x') : OneByOne x' := by
  have hidle : ∀ x₁ : StreamState, OneByOne x₁ → OneByOne (x₁.setCall thread .idle) := by
    intro x₁ h₁
    exact h₁.noStore (noStore_setCall x₁ thread ∅ fun _ hid => (by cases hid))
      fun _ hid => hid.elim
  unfold StreamState.pass at hstep
  split at hstep
  · cases hstep
  · cases hstep
  · rename_i id v rest cnt ancillary nonblock message hcall
    have hid : id + 1 = x.sends.length := by
      apply h.last thread id
      rw [hcall]
      rfl
    have hstop : ∀ r, OneByOne (x.stopSend thread id cnt message r) := fun r =>
      h.noStore (noStore_stopSend x thread id cnt message r ∅) fun _ hid => hid.elim
    split_ifs at hstep <;> obtain rfl := Option.some.inj hstep
    · exact hstop _
    · exact hstop _
    · exact hstop _
    · refine h.noStore (noStore_setCall x thread {id} fun _ hid' => ?_) fun id' hid' => ?_
      · exact (Option.some.inj hid').symm
      · rw [Set.mem_singleton_iff.mp hid']
        exact hid
  · rename_i id v rest cnt ancillary nonblock message hcall
    cases hstep
    exact h.passSend hcall
  · rename_i buf peek nonblock hcall
    have hreceived : OneByOne (x.received thread buf peek) := ⟨h.flat, h.last⟩
    dsimp only at hstep
    generalize x.received thread buf peek = x₁ at hstep hreceived
    split_ifs at hstep
    · split at hstep
      · cases hstep
        exact hidle x₁ hreceived
      · cases hstep
        refine hreceived.noStore (noStore_setCall x₁ thread ∅ fun _ hid => ?_)
          fun _ hid => hid.elim
        cases hid
    · cases hstep
      exact hidle x₁ hreceived
    · cases hstep
      exact hidle x₁ hreceived
    · cases hstep
      exact hreceived
  · cases hstep
    have hset := hidle x h
    split_ifs
    · exact hset
    · exact ⟨hset.flat, hset.last⟩

theorem OneByOne.beginSend (h : OneByOne x) (hinv : StreamInv x)
    (halone : ∀ t, (x.calls t).sendId = none) (data : List UInt8) : OneByOne (x.beginSend data) where
  flat := by
    show (x.accepted.map Prod.snd).flatten =
      ((range (x.sends ++ [data]).length).map (pieces x.accepted)).flatten
    rw [length_append, length_singleton, range_succ, map_append,
      flatten_append, ← h.flat, map_singleton, pieces_eq_nil hinv le_rfl]
    simp
  last := by
    intro t id ht
    have hnone : (x.calls t).sendId = some id := ht
    rw [halone t] at hnone
    cases hnone

theorem OneByOne.step (h : OneByOne x) (hinv : StreamInv x) {op : SocketOp} (halone : op.Alone x)
    (hstep : x.step op = some x') : OneByOne x' := by
  cases op with
  | send thread v ancillary nonblock =>
    simp only [StreamState.step] at hstep
    split at hstep
    · cases hstep
      refine (h.beginSend hinv halone v.data).noStore
        (noStore_setCall _ thread {x.sends.length} fun _ hid => (Option.some.inj hid).symm)
        fun id hid => ?_
      rw [Set.mem_singleton_iff.mp hid]
      simp [StreamState.beginSend]
    · cases hstep
  | sendmsg thread iov ancillary nonblock =>
    simp only [StreamState.step] at hstep
    have hbegin := h.beginSend hinv halone (iov.map SendVec.data).flatten
    split at hstep
    · split_ifs at hstep
      · cases hstep
        exact hbegin.noStore (noStore_endSend _ thread _ _ ∅) fun _ hid => hid.elim
      · cases hstep
        refine hbegin.noStore (noStore_nextSend _ thread _ _ _ _ _) fun id hid => ?_
        rw [Set.mem_singleton_iff.mp hid]
        simp [StreamState.beginSend]
    · cases hstep
  | receive thread buf peek nonblock =>
    simp only [StreamState.step] at hstep
    split at hstep
    · split_ifs at hstep
      · cases hstep
        exact ⟨h.flat, h.last⟩
      · cases hstep
        refine h.noStore (noStore_setCall x thread ∅ fun _ hid => ?_) fun _ hid => hid.elim
        cases hid
    · cases hstep
  | pass thread => exact h.pass hstep
  | interrupt thread =>
    simp only [StreamState.step] at hstep
    split at hstep
    · cases hstep
      exact h.noStore (noStore_stopSend x thread _ _ _ _ ∅) fun _ hid => hid.elim
    · cases hstep
      refine h.noStore (noStore_setCall x thread ∅ fun _ hid => ?_) fun _ hid => hid.elim
      cases hid
    · cases hstep
  | shutdownRd =>
    cases hstep
    exact ⟨h.flat, h.last⟩
  | shutdownWr =>
    cases hstep
    exact ⟨h.flat, h.last⟩

end OneByOne

/-- What the sends have accepted so far: of each one the first bytes, as many as it has returned
or, while it is under way, stored. -/
def StreamState.acceptedData (x : StreamState) : List UInt8 :=
  ((List.range x.sends.length).map fun id => (x.sends[id]?.getD []).take
    ((x.returned id).elim (pieces x.accepted id).length sentBytes)).flatten

/-- A connected stream socket is a reliable byte stream. -/
structure SocketStream (x : StreamState) : Prop where
  /-- What has been received is a first part of what has been stored. -/
  stream : x.delivered <+: (x.accepted.map Prod.snd).flatten
  /-- A send that has returned has stored as many bytes of its data as it says. -/
  sent : ∀ id data r, x.sends[id]? = some data → x.returned id = some r →
    pieces x.accepted id = data.take (sentBytes r)
  /-- A peek returns what a receive would return, and changes nothing. -/
  peek : ∀ t buf, (x.received t buf true).sock = x.sock ∧
    (x.received t buf true).delivered = x.delivered ∧
    (x.received t buf true).got t = (x.received t buf false).got t ∧
    (x.received t buf false).delivered = x.delivered ++ (x.received t buf true).got t
  seq : x.sock.recvSeq = wrap x.delivered.length
  fill : x.sock.recvPos ≤ x.sock.recvSize ∧ x.sock.recvSize = socketBufferSize

theorem StreamInv.socketStream {x : StreamState} (h : StreamInv x) : SocketStream x where
  stream := ⟨x.sock.content, h.stream⟩
  sent := h.returned
  peek := by
    intro t buf
    obtain ⟨n, hr⟩ := UnixSocket.receive_received h.ring h.seq_lt buf
    simp [StreamState.received, hr.peek, hr.bytes]
  seq := h.seq
  fill := ⟨h.ring.pos, h.size⟩

theorem OneByOne.acceptedData {x : StreamState} (h : OneByOne x) (hinv : StreamInv x) :
    x.acceptedData = (x.accepted.map Prod.snd).flatten := by
  rw [h.flat, StreamState.acceptedData]
  congr 1
  apply map_congr_left
  intro id hid
  have hlt := mem_range.mp hid
  rw [List.getElem?_eq_getElem hlt, Option.getD_some]
  cases hr : x.returned id with
  | some r =>
    rw [Option.elim_some, hinv.returned id _ r (List.getElem?_eq_getElem hlt) hr]
  | none =>
    rw [Option.elim_none]
    exact (prefix_iff_eq_take.mp (hinv.stored id _ (List.getElem?_eq_getElem hlt))).symm

/-- Every run of a new pair of sockets: the stream is reliable, and when the sends come one after
the other, what has been received is a first part of what the sends have accepted. -/
theorem unix_socket_stream (ops : List SocketOp) {done : List SocketOp} {x : StreamState}
    (hdone : done <+: ops) (hrun : Runs.run StreamState.step done .new = some x) :
    SocketStream x ∧
      (Runs.Meets StreamState.step (fun x op => op.Alone x) ops .new →
        x.delivered <+: x.acceptedData) := by
  have hinv : StreamInv x := by
    apply Runs.run_keeps (fun x op x' h _ hstep => StreamInv.step h hstep) streamInv_new
      (Runs.meets_true done _) hrun
  refine ⟨hinv.socketStream, fun halone => ?_⟩
  have hone : StreamInv x ∧ OneByOne x := by
    have hkeeps : ∀ (x : StreamState) (op : SocketOp) (x' : StreamState),
        StreamInv x ∧ OneByOne x → op.Alone x → x.step op = some x' →
        StreamInv x' ∧ OneByOne x' :=
      fun x op x' h hop hstep => ⟨h.1.step hstep, h.2.step h.1 hop hstep⟩
    apply Runs.run_keeps hkeeps ⟨streamInv_new, ?_⟩ (halone.of_isPrefix hdone) hrun
    exact ⟨rfl, fun _ _ ht => (by cases ht)⟩
  rw [hone.2.acceptedData hinv]
  exact hinv.socketStream.stream

/-- A `sendmsg` of two pieces with a control message, a peek after the first of them, and two
`recvmsg`s. -/
def sendAndReceive : List SocketOp :=
  [.sendmsg 1 [⟨false, [10, 11, 12]⟩, ⟨false, [13, 14]⟩] true false,
    .receive 2 (.recv false 4) true false, .pass 1, .pass 1, .pass 2, .pass 1, .pass 1,
    .receive 2 (.recvmsg [⟨true, 3⟩, ⟨false, 2⟩, ⟨false, 1⟩]) false false, .pass 2, .pass 2,
    .receive 2 (.recvmsg [⟨true, 3⟩, ⟨false, 2⟩, ⟨false, 1⟩]) false false, .pass 2, .pass 2]

theorem unix_socket_stream_sendAndReceive :
    ∃ x, Runs.run StreamState.step sendAndReceive .new = some x ∧
      x.delivered = [10, 11, 12, 13] ∧ x.acceptedData = [10, 11, 12, 13, 14] ∧ SocketStream x ∧
      x.delivered <+: x.acceptedData := by
  obtain ⟨x, hx⟩ := Option.isSome_iff_exists.mp
    (show (Runs.run StreamState.step sendAndReceive .new).isSome = true by decide)
  have hdata : ∀ x ∈ Runs.run StreamState.step sendAndReceive .new,
      x.delivered = [10, 11, 12, 13] ∧ x.acceptedData = [10, 11, 12, 13, 14] := by decide
  obtain ⟨hdelivered, haccepted⟩ := hdata x hx
  obtain ⟨hstream, hone⟩ := unix_socket_stream sendAndReceive List.prefix_rfl hx
  refine ⟨x, hx, hdelivered, haccepted, hstream, hone ⟨fun _ => rfl, fun x' _ => ?_⟩⟩
  -- the other steps start no send
  refine Runs.meets_of_forall fun op hop s => ?_
  fin_cases hop <;> trivial

end CoolPotOS
