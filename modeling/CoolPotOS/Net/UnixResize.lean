import CoolPotOS.Net.UnixStream

namespace CoolPotOS

inductive SockoptError
  | einval | enomem
  deriving DecidableEq

/-- The size of the new buffer, from the `int` of the option. -/
def socketBufferSizeFor (optval : BitVec 32) : ℕ :=
  if optval.toInt < socketBufferSize then socketBufferSize else optval.toNat

namespace UnixSocket

/-- The options `SO_SNDBUF` and `SO_RCVBUF`. `frames` is what `alloc_frames_bytes` gives. -/
def setsockoptBuf (s : UnixSocket) (optlen : ℕ) (optval : BitVec 32) (frames : Option (ℕ → UInt8)) :
    UnixSocket × Except SockoptError Unit :=
  if optlen < 4 then (s, .error .einval)
  else
    match frames with
    | none => (s, .error .enomem)
    | some newBuff =>
      let newSize := socketBufferSizeFor optval
      let preserved := min newSize s.recvPos
      let filled := if preserved = 0 then newBuff else Bytes.overwrite newBuff 0 (s.recvCopyOut 0 preserved)
      ({ s with recvBuff := filled, recvSize := newSize, recvHead := 0, recvPos := preserved }, .ok ())

/-- The unread byte that a control message is attached to. Sequence numbers are 64-bit words. -/
def attachedByte (s : UnixSocket) (seq : ℕ) : Option UInt8 :=
  s.content[wrap (seq + (2 ^ 64 - s.recvSeq))]?

/-- The unread bytes are the same, and the control messages at the same ones of them. -/
structure KeepsUnread (s s' : UnixSocket) : Prop where
  content : s'.content = s.content
  ancillary : s'.ancillary = s.ancillary
  attached : ∀ seq ∈ s.ancillary, s'.attachedByte seq = s.attachedByte seq

theorem socketBufferSize_le (optval : BitVec 32) : socketBufferSize ≤ socketBufferSizeFor optval := by
  unfold socketBufferSizeFor
  split
  · exact le_refl _
  · rename_i hlarge
    rw [BitVec.toInt_eq_toNat_cond] at hlarge
    split at hlarge <;> omega

variable {s s' : UnixSocket} {optlen : ℕ} {optval : BitVec 32} {frames : Option (ℕ → UInt8)}

theorem setsockoptBuf_accepted (hs : RingOk s) (h : s.setsockoptBuf optlen optval frames = (s', .ok ())) :
    RingOk s' ∧ s'.content = s.content.take (socketBufferSizeFor optval) ∧ s'.recvSeq = s.recvSeq ∧
      s'.ancillary = s.ancillary := by
  have hsize := socketBufferSize_le optval
  unfold setsockoptBuf at h
  split at h
  · cases (Prod.mk.inj h).2
  · cases frames with
    | none => cases (Prod.mk.inj h).2
    | some newBuff =>
      rw [← (Prod.mk.inj h).1]
      have hpos : 0 < socketBufferSizeFor optval := lt_of_lt_of_le (by decide) hsize
      have hle : min (socketBufferSizeFor optval) s.recvPos ≤ socketBufferSizeFor optval := Nat.min_le_left _ _
      have htake : s.content.take (socketBufferSizeFor optval) =
          Ring.contents s.recvBuff s.recvSize s.recvHead (min (socketBufferSizeFor optval) s.recvPos) := by
        rcases le_total (socketBufferSizeFor optval) s.recvPos with hshrink | hgrow
        · rw [Nat.min_eq_left hshrink]
          exact Ring.take_contents hshrink
        · rw [Nat.min_eq_right hgrow, List.take_of_length_le (by rw [length_content]; exact hgrow)]
          rfl
      have hold : min (socketBufferSizeFor optval) s.recvPos ≤ s.recvSize := (Nat.min_le_right _ _).trans hs.pos
      refine ⟨⟨hpos, hle⟩, ?_, rfl, rfl⟩
      rw [htake]
      generalize min (socketBufferSizeFor optval) s.recvPos = preserved at hle hold
      change Ring.contents (if preserved = 0 then newBuff else _) (socketBufferSizeFor optval) 0 preserved = _
      by_cases hzero : preserved = 0
      · rw [hzero]
        rfl
      · have hcopy : s.recvCopyOut 0 preserved = Ring.contents s.recvBuff s.recvSize s.recvHead preserved := by
          have hhead := hs.head
          unfold recvCopyOut
          rw [if_neg (by omega), Nat.add_zero, Nat.mod_eq_of_lt hhead, Ring.load_eq_contents hhead hold]
        have hlen : (s.recvCopyOut 0 preserved).length = preserved := by
          rw [hcopy, Ring.length_contents]
        rw [if_neg hzero, Ring.contents_eq_slice (by omega), ← hcopy]
        nth_rewrite 2 [← hlen]
        exact Bytes.slice_overwrite_self _ _ _

theorem setsockoptBuf_keeps_iff (hs : RingOk s) (h : s.setsockoptBuf optlen optval frames = (s', .ok ())) :
    KeepsUnread s s' ↔ s.recvPos ≤ socketBufferSizeFor optval := by
  obtain ⟨-, hcontent, hseq, hancillary⟩ := setsockoptBuf_accepted hs h
  constructor
  · intro hkeeps
    have hlen := congrArg List.length (hcontent.symm.trans hkeeps.content)
    rw [List.length_take, length_content] at hlen
    exact min_eq_right_iff.mp hlen
  · intro hfits
    have hsame : s'.content = s.content := by
      rw [hcontent, List.take_of_length_le (by rw [length_content]; exact hfits)]
    refine ⟨hsame, hancillary, fun seq _ => ?_⟩
    unfold attachedByte
    rw [hsame, hseq]

theorem setsockoptBuf_keeps_iff_small :
    ∃ s', (UnixSocket.mk (fun _ => 7) 65534 4 65536 9 [11] false).setsockoptBuf 4 0 (some fun _ => 0) = (s', .ok ()) ∧
      (KeepsUnread ⟨fun _ => 7, 65534, 4, 65536, 9, [11], false⟩ s' ↔ 4 ≤ socketBufferSizeFor 0) := by
  have hcall : (UnixSocket.mk (fun _ => 7) 65534 4 65536 9 [11] false).setsockoptBuf 4 0 (some fun _ => 0) =
      (_, .ok ()) := rfl
  exact ⟨_, hcall, setsockoptBuf_keeps_iff ⟨by decide, by decide⟩ hcall⟩

/-- A buffer that has been made larger is made smaller again while its last byte, with a control message, is unread. -/
theorem setsockoptBuf_loses : ∃ s s' : UnixSocket, RingOk s ∧
    s.setsockoptBuf 4 0 (some fun _ => 0) = (s', .ok ()) ∧ 65536 ∈ s'.ancillary ∧ ¬ KeepsUnread s s' := by
  refine ⟨⟨fun _ => 7, 0, 65537, 131072, 0, [65536], false⟩, _, ⟨by decide, by decide⟩, rfl, by decide, fun hkeeps => ?_⟩
  have hlen := congrArg List.length hkeeps.content
  rw [length_content, length_content] at hlen
  exact absurd hlen (by decide)

end UnixSocket

end CoolPotOS
