import CoolPotOS.Lib.Ring

namespace CoolPotOS

open List

structure PtyRingbuf where
  buf : Option (ℕ → BitVec 8)
  capacity : ℕ
  head : ℕ
  tail : ℕ
  count : ℕ

/-- `pty_ringbuf_init`; the buffer is missing when there is no memory for it. -/
def ptyRingbufInit (buf : Option (ℕ → BitVec 8)) (capacity : ℕ) : PtyRingbuf := ⟨buf, capacity, 0, 0, 0⟩

/-- One turn of the loop of `pty_ringbuf_write`. -/
def PtyRingbuf.put (rb : PtyRingbuf) (byte : BitVec 8) : PtyRingbuf :=
  { rb with
    buf := rb.buf.map fun mem => Function.update mem rb.tail byte
    tail := (rb.tail + 1) % rb.capacity
    count := rb.count + 1 }

def ptyRingbufWrite (rb : PtyRingbuf) (src : List (BitVec 8)) : PtyRingbuf × ℕ :=
  if rb.buf = none then (rb, 0)
  else
    let space := rb.capacity - rb.count
    let toWrite := if src.length < space then src.length else space
    ((src.take toWrite).foldl PtyRingbuf.put rb, toWrite)

/-- One turn of the loop of `pty_ringbuf_read`. -/
def PtyRingbuf.drop (rb : PtyRingbuf) : PtyRingbuf :=
  { rb with head := (rb.head + 1) % rb.capacity, count := rb.count - 1 }

def ptyReadLoop (mem : ℕ → BitVec 8) : ℕ → PtyRingbuf → PtyRingbuf × List (BitVec 8)
  | 0, rb => (rb, [])
  | n + 1, rb =>
    let (rb', bytes) := ptyReadLoop mem n rb.drop
    (rb', mem rb.head :: bytes)

def ptyRingbufRead (rb : PtyRingbuf) (len : ℕ) : PtyRingbuf × List (BitVec 8) :=
  match rb.buf with
  | none => (rb, [])
  | some mem => ptyReadLoop mem (if len < rb.count then len else rb.count) rb

def opost : BitVec 32 := 1

def onlcr : BitVec 32 := 4

/-- `pty_pair_t`, without what writing to the slave leaves alone. -/
structure PtyPair where
  slaveToMaster : PtyRingbuf
  slaveOpen : ℤ
  oflag : BitVec 32

structure PtySpecific where
  active : Bool
  pair : Option PtyPair

def carriageReturn : BitVec 8 := 13

def newline : BitVec 8 := 10

/-- The loop of `pts_write` over the input: the ring, and the number of bytes that were
accepted. -/
def ptsWriteLoop : List (BitVec 8) → PtyRingbuf → PtyRingbuf × ℕ
  | [], rb => (rb, 0)
  | c :: input, rb =>
    if c = newline then
      let (rb, n) := ptyRingbufWrite rb [carriageReturn, newline]
      if n < 2 then (rb, 0)
      else
        let (rb, nwritten) := ptsWriteLoop input rb
        (rb, nwritten + 1)
    else
      let (rb, n) := ptyRingbufWrite rb [c]
      if n = 0 then (rb, 0)
      else
        let (rb, nwritten) := ptsWriteLoop input rb
        (rb, nwritten + 1)

def PtyPair.mapsNewlines (pair : PtyPair) : Bool := pair.oflag &&& opost ≠ 0 ∧ pair.oflag &&& onlcr ≠ 0

def PtyPair.write (pair : PtyPair) (addr : List (BitVec 8)) : Except ℤ ℕ × PtyPair :=
  if pair.slaveOpen ≤ 0 then (.error (-5), pair)
  else
    let (rb, nwritten) :=
      if pair.mapsNewlines then ptsWriteLoop addr pair.slaveToMaster
      else ptyRingbufWrite pair.slaveToMaster addr
    (.ok nwritten, { pair with slaveToMaster := rb })

/-- `pts_write`; the file may be `NULL`. -/
def ptsWrite (file : Option PtySpecific) (addr : List (BitVec 8)) :
    Except ℤ ℕ × Option PtySpecific :=
  match file with
  | none => (.error (-9), none)
  | some spec =>
    match spec.active, spec.pair with
    | true, some pair =>
      let (result, pair) := pair.write addr
      (result, some { spec with pair := some pair })
    | _, _ => (.error (-9), some spec)

namespace PtyRingbuf

def contents (rb : PtyRingbuf) : List (BitVec 8) :=
  match rb.buf with
  | none => []
  | some mem => Ring.contents mem rb.capacity rb.head rb.count

/-- The tail stands behind the last byte, and an absent buffer holds nothing. -/
structure Ok (rb : PtyRingbuf) : Prop where
  count_le : rb.count ≤ rb.capacity
  head_mod : rb.head % rb.capacity = rb.head
  tail_eq : rb.tail = (rb.head + rb.count) % rb.capacity
  absent : rb.buf = none → rb.count = 0

theorem ok_init (buf : Option (ℕ → BitVec 8)) (capacity : ℕ) : (ptyRingbufInit buf capacity).Ok where
  count_le := Nat.zero_le capacity
  head_mod := Nat.zero_mod capacity
  tail_eq := (Nat.zero_mod capacity).symm
  absent := fun _ => rfl

def space (rb : PtyRingbuf) : ℕ := rb.capacity - rb.count

variable {rb : PtyRingbuf}

theorem put_spec (h : rb.Ok) (hbuf : rb.buf ≠ none) (hspace : 0 < rb.space) (byte : BitVec 8) :
    (rb.put byte).Ok ∧ (rb.put byte).buf ≠ none ∧ (rb.put byte).space = rb.space - 1 ∧
      (rb.put byte).contents = rb.contents ++ [byte] := by
  obtain ⟨mem, hmem⟩ := Option.ne_none_iff_exists'.mp hbuf
  have hcount : rb.count < rb.capacity := by
    unfold space at hspace
    omega
  refine ⟨⟨hcount, h.head_mod, ?_, ?_⟩, ?_, ?_, ?_⟩
  · simp only [put]
    rw [h.tail_eq, Nat.mod_add_mod, Nat.add_assoc]
  · simp [put, hmem]
  · simp [put, hmem]
  · simp only [put, space]
    omega
  · simp only [contents, put, hmem, Option.map_some, h.tail_eq]
    exact Ring.contents_update byte hcount

theorem puts_spec (h : rb.Ok) (hbuf : rb.buf ≠ none) {src : List (BitVec 8)}
    (hspace : src.length ≤ rb.space) :
    (src.foldl put rb).Ok ∧ (src.foldl put rb).buf ≠ none ∧ (src.foldl put rb).space = rb.space - src.length ∧
      (src.foldl put rb).contents = rb.contents ++ src := by
  induction src generalizing rb with
  | nil => exact ⟨h, hbuf, rfl, (append_nil _).symm⟩
  | cons c src ih =>
    rw [length_cons] at hspace
    obtain ⟨hok, hbuf', hspace', hput⟩ := put_spec h hbuf (by omega) c
    obtain ⟨hok', hbuf'', hspace'', hputs⟩ := ih hok hbuf' (by omega)
    refine ⟨hok', hbuf'', ?_, ?_⟩
    · rw [foldl_cons, hspace'', hspace', length_cons]
      omega
    · rw [foldl_cons, hputs, hput, append_assoc, singleton_append]

theorem write_spec (h : rb.Ok) (hbuf : rb.buf ≠ none) (src : List (BitVec 8)) :
    (ptyRingbufWrite rb src).2 = min src.length rb.space ∧ (ptyRingbufWrite rb src).1.Ok ∧
      (ptyRingbufWrite rb src).1.buf ≠ none ∧
      (ptyRingbufWrite rb src).1.space = rb.space - min src.length rb.space ∧
      (ptyRingbufWrite rb src).1.contents = rb.contents ++ src.take (min src.length rb.space) := by
  have hwrite : ptyRingbufWrite rb src =
      ((src.take (min src.length rb.space)).foldl put rb, min src.length rb.space) := by
    have hmin : (if src.length < rb.space then src.length else rb.space) =
        min src.length rb.space := by
      split <;> omega
    unfold ptyRingbufWrite
    rw [if_neg hbuf, ← hmin]
    rfl
  have hlen : (src.take (min src.length rb.space)).length = min src.length rb.space := by
    rw [length_take]
    omega
  obtain ⟨hok, hbuf', hspace, hcontents⟩ := puts_spec h hbuf (hlen.trans_le (min_le_right _ _))
  rw [hlen] at hspace
  rw [hwrite]
  exact ⟨rfl, hok, hbuf', hspace, hcontents⟩

theorem write_none (h : rb.buf = none) (src : List (BitVec 8)) : ptyRingbufWrite rb src = (rb, 0) := if_pos h

theorem readLoop_spec {mem : ℕ → BitVec 8} {n : ℕ} (h : rb.Ok) (hbuf : rb.buf = some mem)
    (hn : n ≤ rb.count) : (ptyReadLoop mem n rb).1.Ok ∧
      rb.contents = (ptyReadLoop mem n rb).2 ++ (ptyReadLoop mem n rb).1.contents := by
  induction n generalizing rb with
  | zero => exact ⟨h, rfl⟩
  | succ n ih =>
    have hdrop : rb.drop.Ok := by
      refine ⟨?_, Nat.mod_mod _ _, ?_, fun hnone => ?_⟩
      · have := h.count_le
        simp only [drop]
        omega
      · simp only [drop]
        rw [h.tail_eq, Nat.mod_add_mod]
        congr 1
        omega
      · rw [drop, hbuf] at hnone
        simp at hnone
    obtain ⟨hok, hread⟩ := ih hdrop hbuf (by simp only [drop]; omega)
    refine ⟨hok, ?_⟩
    have hfirst : rb.contents = mem rb.head :: rb.drop.contents := by
      have hadd := Ring.contents_add mem rb.capacity rb.head 1 (rb.count - 1)
      rw [show 1 + (rb.count - 1) = rb.count by omega] at hadd
      simp only [contents, drop, hbuf]
      rw [hadd]
      simp [Ring.contents, h.head_mod]
    rw [hfirst, hread]
    rfl

end PtyRingbuf

def onlcrExpand (bytes : List (BitVec 8)) : List (BitVec 8) :=
  bytes.flatMap fun c => if c = newline then [carriageReturn, newline] else [c]

def PtyPair.expand (pair : PtyPair) (bytes : List (BitVec 8)) : List (BitVec 8) :=
  if pair.mapsNewlines then onlcrExpand bytes else bytes

@[simp] theorem onlcrExpand_nil : onlcrExpand [] = [] := rfl

theorem onlcrExpand_cons (c : BitVec 8) (bytes : List (BitVec 8)) : onlcrExpand (c :: bytes) =
      (if c = newline then [carriageReturn, newline] else [c]) ++ onlcrExpand bytes := rfl

theorem onlcrExpand_append (bytes bytes' : List (BitVec 8)) :
    onlcrExpand (bytes ++ bytes') = onlcrExpand bytes ++ onlcrExpand bytes' := flatMap_append

/-- What comes before some newline leaves room for one byte only. -/
def Squeezed (space : ℕ) (bytes : List (BitVec 8)) : Prop :=
  ∃ pre rest, bytes = pre ++ newline :: rest ∧ (onlcrExpand pre).length + 1 = space

theorem not_squeezed_nil (space : ℕ) : ¬Squeezed space [] := by
  rintro ⟨pre, rest, h, -⟩
  simp at h

theorem squeezed_cons {space : ℕ} {c : BitVec 8} {bytes : List (BitVec 8)} :
    Squeezed space (c :: bytes) ↔ c = newline ∧ space = 1 ∨
      ∃ left, space = (onlcrExpand [c]).length + left ∧ Squeezed left bytes := by
  constructor
  · rintro ⟨pre, rest, h, hspace⟩
    cases pre with
    | nil =>
      obtain ⟨hc, -⟩ := List.cons.inj h
      exact .inl ⟨hc, hspace.symm⟩
    | cons c' pre =>
      obtain ⟨rfl, hrest⟩ := List.cons.inj h
      refine .inr ⟨(onlcrExpand pre).length + 1, ?_, pre, rest, hrest, rfl⟩
      have happend := onlcrExpand_append [c] pre
      rw [singleton_append] at happend
      rw [← hspace, happend, length_append]
      omega
  · rintro (⟨rfl, rfl⟩ | ⟨left, rfl, pre, rest, rfl, hspace⟩)
    · exact ⟨[], bytes, rfl, rfl⟩
    · refine ⟨c :: pre, rest, rfl, ?_⟩
      have happend := onlcrExpand_append [c] pre
      rw [singleton_append] at happend
      rw [happend, length_append]
      omega

/-- The loop appends the expansion of what it accepts, and a carriage return when the ring has one
place for a newline. -/
theorem ptsWriteLoop_spec {rb : PtyRingbuf} (h : rb.Ok) (hbuf : rb.buf ≠ none) (input : List (BitVec 8)) :
    (ptsWriteLoop input rb).2 ≤ input.length ∧ (ptsWriteLoop input rb).1.Ok ∧
      ∃ extra, (ptsWriteLoop input rb).1.contents =
          rb.contents ++ onlcrExpand (input.take (ptsWriteLoop input rb).2) ++ extra ∧
        (extra = [] ↔ ¬Squeezed rb.space input) := by
  induction input generalizing rb with
  | nil =>
    refine ⟨le_rfl, h, [], ?_, iff_of_true rfl (not_squeezed_nil _)⟩
    simp [ptsWriteLoop]
  | cons c input ih =>
    obtain ⟨hn, hok, hbuf', hspace, hcontents⟩ := PtyRingbuf.write_spec h hbuf (onlcrExpand [c])
    -- the bytes that stand for `c` all go into the ring
    have hgo : (onlcrExpand [c]).length ≤ rb.space →
        (ptsWriteLoop input (ptyRingbufWrite rb (onlcrExpand [c])).1).2 + 1 ≤ (c :: input).length ∧
        (ptsWriteLoop input (ptyRingbufWrite rb (onlcrExpand [c])).1).1.Ok ∧
        ∃ extra, (ptsWriteLoop input (ptyRingbufWrite rb (onlcrExpand [c])).1).1.contents =
            rb.contents ++ onlcrExpand ((c :: input).take
              ((ptsWriteLoop input (ptyRingbufWrite rb (onlcrExpand [c])).1).2 + 1)) ++ extra ∧
          (extra = [] ↔ ¬Squeezed rb.space (c :: input)) := by
      intro hfits
      obtain ⟨hle, hok', extra, hrest, hiff⟩ := ih hok hbuf'
      rw [Nat.min_eq_left hfits, take_length] at hcontents
      rw [Nat.min_eq_left hfits] at hspace
      refine ⟨Nat.succ_le_succ hle, hok', extra, ?_, ?_⟩
      · have happend := onlcrExpand_append [c]
          (input.take (ptsWriteLoop input (ptyRingbufWrite rb (onlcrExpand [c])).1).2)
        rw [singleton_append] at happend
        rw [hrest, hcontents, take_succ_cons, happend, append_assoc rb.contents]
      · rw [hiff, squeezed_cons, hspace, not_iff_not]
        constructor
        · intro hsq
          exact .inr ⟨_, by omega, hsq⟩
        · rintro (⟨rfl, hone⟩ | ⟨left, hleft, hsq⟩)
          · rw [hone] at hfits
            exact absurd hfits (by decide)
          · rwa [hleft, Nat.add_sub_cancel_left]
    by_cases hc : c = newline
    · have hpair : onlcrExpand [c] = [carriageReturn, newline] := by
        subst hc
        rfl
      rw [hpair] at hn hok hbuf' hspace hcontents hgo
      change _ = min 2 rb.space at hn
      unfold ptsWriteLoop
      rw [if_pos hc]
      dsimp only
      by_cases hfits : 2 ≤ rb.space
      · rw [if_neg (by omega)]
        exact hgo hfits
      · rw [if_pos (by omega)]
        refine ⟨Nat.zero_le _, hok, [carriageReturn, newline].take (min 2 rb.space), ?_, ?_⟩
        · rw [take_zero, onlcrExpand_nil, append_nil]
          exact hcontents
        · rw [squeezed_cons]
          by_cases hone : rb.space = 1
          · rw [hone]
            exact iff_of_false (by simp) (not_not.mpr (.inl ⟨hc, rfl⟩))
          · rw [show rb.space = 0 by omega]
            refine iff_of_true (by simp) ?_
            rintro (⟨-, habs⟩ | ⟨left, hleft, -⟩)
            · simp at habs
            · rw [hpair] at hleft
              simp at hleft
              omega
    · have hsingle : onlcrExpand [c] = [c] := by
        rw [onlcrExpand_cons, if_neg hc]
        rfl
      rw [hsingle] at hn hok hbuf' hspace hcontents hgo
      change _ = min 1 rb.space at hn
      unfold ptsWriteLoop
      rw [if_neg hc]
      dsimp only
      by_cases hfits : 1 ≤ rb.space
      · rw [if_neg (by omega)]
        exact hgo hfits
      · rw [if_pos (by omega)]
        refine ⟨Nat.zero_le _, hok, [], ?_, iff_of_true rfl ?_⟩
        · rw [show min [c].length rb.space = 0 by simp; omega, take_zero] at hcontents
          rw [take_zero, onlcrExpand_nil, append_nil, append_nil, hcontents, append_nil]
        · rw [squeezed_cons, show rb.space = 0 by omega]
          rintro (⟨habs, -⟩ | ⟨left, hleft, -⟩)
          · exact hc habs
          · rw [hsingle] at hleft
            simp at hleft
            omega

def accepted : Except ℤ ℕ → ℕ
  | .ok n => n
  | .error _ => 0

def ptyPending (file : Option PtySpecific) : List (BitVec 8) :=
  match file.bind PtySpecific.pair with
  | none => []
  | some pair => pair.slaveToMaster.contents

def ptyExpand (file : Option PtySpecific) (bytes : List (BitVec 8)) : List (BitVec 8) :=
  match file.bind PtySpecific.pair with
  | none => bytes
  | some pair => pair.expand bytes

/-- A write appends the expansion of the prefix that it accepts. -/
def PtsExact (file : Option PtySpecific) (addr : List (BitVec 8)) : Prop :=
  accepted (ptsWrite file addr).1 ≤ addr.length ∧
    ptyPending (ptsWrite file addr).2 =
      ptyPending file ++ ptyExpand file (addr.take (accepted (ptsWrite file addr).1))

/-- A newline of the string comes to a ring with one free place, in a terminal that maps newlines. -/
def PtyPair.Squeezes (pair : PtyPair) (addr : List (BitVec 8)) : Prop :=
  0 < pair.slaveOpen ∧ pair.mapsNewlines = true ∧ pair.slaveToMaster.buf ≠ none ∧
    Squeezed pair.slaveToMaster.space addr

theorem PtyPair.write_spec {pair : PtyPair} (h : pair.slaveToMaster.Ok) (addr : List (BitVec 8)) :
    accepted (pair.write addr).1 ≤ addr.length ∧ (pair.write addr).2.slaveToMaster.Ok ∧
      (pair.write addr).2.mapsNewlines = pair.mapsNewlines ∧
      ((pair.write addr).2.slaveToMaster.contents = pair.slaveToMaster.contents ++
          pair.expand (addr.take (accepted (pair.write addr).1)) ↔ ¬pair.Squeezes addr) := by
  have hempty : pair.expand [] = [] := by
    unfold expand
    split <;> rfl
  unfold write
  split
  · rename_i hclosed
    refine ⟨Nat.zero_le _, h, rfl, iff_of_true ?_ fun hsq => ?_⟩
    · simp [accepted, hempty]
    · exact absurd hsq.1 (not_lt.mpr hclosed)
  · rename_i hopen
    dsimp only
    by_cases hbuf : pair.slaveToMaster.buf = none
    · -- nothing is accepted
      have hloop : (ptsWriteLoop addr pair.slaveToMaster).1 = pair.slaveToMaster ∧
          (ptsWriteLoop addr pair.slaveToMaster).2 = 0 := by
        cases addr with
        | nil => exact ⟨rfl, rfl⟩
        | cons c addr =>
          unfold ptsWriteLoop
          rw [PtyRingbuf.write_none hbuf, PtyRingbuf.write_none hbuf]
          split <;> exact ⟨rfl, rfl⟩
      have hnot : ¬pair.Squeezes addr := fun hsq => hsq.2.2.1 hbuf
      rw [PtyRingbuf.write_none hbuf]
      split
      · rw [hloop.1, hloop.2]
        exact ⟨Nat.zero_le _, h, rfl, iff_of_true (by simp [accepted, hempty]) hnot⟩
      · exact ⟨Nat.zero_le _, h, rfl, iff_of_true (by simp [accepted, hempty]) hnot⟩
    · split
      · rename_i hmaps
        obtain ⟨hle, hok, extra, hcontents, hiff⟩ := ptsWriteLoop_spec h hbuf addr
        refine ⟨hle, hok, rfl, ?_⟩
        have hsq : pair.Squeezes addr ↔ Squeezed pair.slaveToMaster.space addr :=
          ⟨fun h => h.2.2.2, fun h => ⟨not_le.mp hopen, hmaps, hbuf, h⟩⟩
        unfold expand
        rw [if_pos hmaps, hsq, ← hiff]
        dsimp only [accepted]
        rw [hcontents]
        exact append_right_eq_self
      · rename_i hmaps
        obtain ⟨hn, hok, -, -, hcontents⟩ := PtyRingbuf.write_spec h hbuf addr
        refine ⟨?_, hok, rfl, iff_of_true ?_ fun hsq => hmaps hsq.2.1⟩
        · dsimp only [accepted]
          omega
        · unfold expand
          rw [if_neg hmaps]
          dsimp only [accepted]
          rw [hcontents, hn]

def PtyFileOk (file : Option PtySpecific) : Prop :=
  ∀ pair, file.bind PtySpecific.pair = some pair → pair.slaveToMaster.Ok

def PtsSqueezed (file : Option PtySpecific) (addr : List (BitVec 8)) : Prop :=
  ∃ spec pair, file = some spec ∧ spec.active = true ∧ spec.pair = some pair ∧ pair.Squeezes addr

theorem ptsExact_iff {file : Option PtySpecific} (h : PtyFileOk file) (addr : List (BitVec 8)) :
    PtsExact file addr ↔ ¬PtsSqueezed file addr := by
  have hrefused : ptsWrite file addr = (.error (-9), file) → PtsExact file addr := by
    intro hwrite
    unfold PtsExact
    rw [hwrite]
    refine ⟨Nat.zero_le _, ?_⟩
    dsimp only [accepted]
    rw [take_zero]
    unfold ptyExpand PtyPair.expand
    split
    · simp
    · split <;> simp
  cases file with
  | none =>
    refine iff_of_true (hrefused rfl) ?_
    rintro ⟨spec, pair, hfile, -⟩
    simp at hfile
  | some spec =>
    obtain ⟨active, pair⟩ := spec
    cases active with
    | false =>
      refine iff_of_true (hrefused rfl) ?_
      rintro ⟨spec, pair, hfile, hactive, -⟩
      rw [← Option.some.inj hfile] at hactive
      simp at hactive
    | true =>
      cases pair with
      | none =>
        refine iff_of_true (hrefused rfl) ?_
        rintro ⟨spec, pair, hfile, -, hpair, -⟩
        rw [← Option.some.inj hfile] at hpair
        simp at hpair
      | some pair =>
        obtain ⟨hle, -, -, hiff⟩ := PtyPair.write_spec (h pair rfl) addr
        have hsq : PtsSqueezed (some ⟨true, some pair⟩) addr ↔ pair.Squeezes addr := by
          constructor
          · rintro ⟨spec, pair', hfile, -, hpair, hsq⟩
            rw [← Option.some.inj hfile] at hpair
            rwa [Option.some.inj hpair]
          · exact fun hsq => ⟨_, pair, rfl, rfl, rfl, hsq⟩
        rw [hsq, ← hiff]
        exact and_iff_right hle

/-- A caller that writes the rest again and again, while before each of its writes the master reads
some bytes: what the master has read, the pair, and what is still to be written. -/
def ptyRetry (pair : PtyPair) (input : List (BitVec 8)) :
    List ℕ → List (BitVec 8) × PtyPair × List (BitVec 8)
  | [] => ([], pair, input)
  | len :: reads =>
    let (rb, bytes) := ptyRingbufRead pair.slaveToMaster len
    let (result, pair) := { pair with slaveToMaster := rb }.write input
    let (out, pair, rest) := ptyRetry pair (input.drop (accepted result)) reads
    (bytes ++ out, pair, rest)

def PtyPair.Unsqueezed (pair : PtyPair) (input : List (BitVec 8)) : List ℕ → Prop
  | [] => True
  | len :: reads =>
    let pair' := { pair with slaveToMaster := (ptyRingbufRead pair.slaveToMaster len).1 }
    ¬pair'.Squeezes input ∧
      (pair'.write input).2.Unsqueezed (input.drop (accepted (pair'.write input).1)) reads

theorem PtyRingbuf.read_spec {rb : PtyRingbuf} (h : rb.Ok) (len : ℕ) : (ptyRingbufRead rb len).1.Ok ∧
      rb.contents = (ptyRingbufRead rb len).2 ++ (ptyRingbufRead rb len).1.contents := by
  unfold ptyRingbufRead
  cases hbuf : rb.buf with
  | none => exact ⟨h, rfl⟩
  | some mem => exact PtyRingbuf.readLoop_spec h hbuf (by split <;> omega)

theorem PtyPair.expand_append (pair : PtyPair) (bytes bytes' : List (BitVec 8)) :
    pair.expand (bytes ++ bytes') = pair.expand bytes ++ pair.expand bytes' := by
  unfold expand
  split
  · exact onlcrExpand_append bytes bytes'
  · rfl

theorem PtyPair.expand_congr {pair pair' : PtyPair} (h : pair'.mapsNewlines = pair.mapsNewlines)
    (bytes : List (BitVec 8)) : pair'.expand bytes = pair.expand bytes := by
  unfold expand
  rw [h]

theorem ptyRetry_spec {pair : PtyPair} (h : pair.slaveToMaster.Ok) {input : List (BitVec 8)}
    {reads : List ℕ} (hsq : pair.Unsqueezed input reads) :
    ∃ done, input = done ++ (ptyRetry pair input reads).2.2 ∧
      (ptyRetry pair input reads).1 ++ (ptyRetry pair input reads).2.1.slaveToMaster.contents =
        pair.slaveToMaster.contents ++ pair.expand done := by
  induction reads generalizing pair input with
  | nil =>
    refine ⟨[], rfl, ?_⟩
    unfold PtyPair.expand
    simp [ptyRetry]
  | cons len reads ih =>
    obtain ⟨hrbok, hread⟩ := PtyRingbuf.read_spec h len
    obtain ⟨hnot, hrest⟩ := hsq
    unfold ptyRetry
    dsimp only at hnot hrest ⊢
    revert hnot hrest
    generalize hp : ({ pair with slaveToMaster := (ptyRingbufRead pair.slaveToMaster len).1 } :
      PtyPair) = pair'
    intro hnot hrest
    have hring : pair'.slaveToMaster = (ptyRingbufRead pair.slaveToMaster len).1 := by rw [← hp]
    have hringok : pair'.slaveToMaster.Ok := hring ▸ hrbok
    have hmaps' : pair'.mapsNewlines = pair.mapsNewlines := by
      rw [← hp]
      rfl
    obtain ⟨hle, hok, hmaps, hiff⟩ := PtyPair.write_spec hringok input
    obtain ⟨done, hsplit, hout⟩ := ih hok hrest
    have hwritten := hiff.mpr hnot
    refine ⟨input.take (accepted (pair'.write input).1) ++ done, ?_, ?_⟩
    · rw [append_assoc, ← hsplit, take_append_drop]
    · rw [append_assoc, hout, hwritten, hring, hread, PtyPair.expand_append,
        PtyPair.expand_congr (hmaps.trans hmaps'), PtyPair.expand_congr hmaps']
      simp only [append_assoc]

/-- A write appends the expansion of the prefix that it accepts if and only if no newline comes to
a ring with one free place; and a caller that writes the rest again, none of its writes being
squeezed so, has the master read the expansion of all that it has written. -/
theorem ptsWrite_exact_iff {file : Option PtySpecific} (hfile : PtyFileOk file) (addr : List (BitVec 8))
    {pair : PtyPair} (hpair : pair.slaveToMaster.Ok) (input : List (BitVec 8)) (reads : List ℕ) :
    (PtsExact file addr ↔ ¬PtsSqueezed file addr) ∧
      (pair.Unsqueezed input reads →
        ∃ done, input = done ++ (ptyRetry pair input reads).2.2 ∧
          (ptyRetry pair input reads).1 ++ (ptyRetry pair input reads).2.1.slaveToMaster.contents =
            pair.slaveToMaster.contents ++ pair.expand done) :=
  ⟨ptsExact_iff hfile addr, ptyRetry_spec hpair⟩

/-- A terminal with an empty ring of the given capacity, which maps newlines. -/
def freshPty (capacity : ℕ) : PtyPair := ⟨ptyRingbufInit (some fun _ => 0) capacity, 1, 5⟩

theorem ptsWrite_exact_two :
    PtsExact (some ⟨true, some (freshPty 2)⟩) [newline] ∧
      ∃ done, [newline] = done ++ (ptyRetry (freshPty 2) [newline] [0]).2.2 ∧
        (ptyRetry (freshPty 2) [newline] [0]).1 ++
            (ptyRetry (freshPty 2) [newline] [0]).2.1.slaveToMaster.contents =
          (freshPty 2).slaveToMaster.contents ++ (freshPty 2).expand done := by
  have hok : (freshPty 2).slaveToMaster.Ok := PtyRingbuf.ok_init _ 2
  have hspace : ¬Squeezed 2 [newline] := by
    rw [squeezed_cons]
    rintro (⟨-, h⟩ | ⟨left, -, h⟩)
    · simp at h
    · exact not_squeezed_nil left h
  have hfile : PtyFileOk (some ⟨true, some (freshPty 2)⟩) := by
    intro pair hpair
    rw [← Option.some.inj hpair]
    exact hok
  obtain ⟨hexact, hretry⟩ := ptsWrite_exact_iff hfile [newline] hok [newline] [0]
  constructor
  · rw [hexact]
    rintro ⟨spec, pair, hspec, -, hpair, -, -, -, hsq⟩
    rw [← Option.some.inj hspec] at hpair
    rw [← Option.some.inj hpair] at hsq
    exact hspace hsq
  · exact hretry ⟨fun hsq => hspace hsq.2.2.2, trivial⟩

/-- A newline and one free place: the carriage return goes into the ring, and nothing is accepted. -/
theorem ptsWrite_not_exact : ¬PtsExact (some ⟨true, some (freshPty 1)⟩) [newline] := by
  rintro ⟨-, h⟩
  exact absurd h (by decide)

end CoolPotOS
