import CoolPotOS.Fs.ReadvPipe

namespace CoolPotOS

open Bytes List Prod IoOut

variable {M : Memory}

inductive NodeView
  | regular (bytes : List UInt8) (size : ℕ)
  | pipe (contents : List UInt8) (p : PipeEnd)

def IoNode.view : IoNode → NodeView
  | .regular n => .regular (slice n.file.data 0 n.file.size) n.size
  | .pipe p => .pipe p.info.contents { p with info := { p.info with buf := fun _ => 0 } }

def IoFd.view (fd : IoFd) : ℕ × Bool × ℕ × NodeView :=
  (fd.offset, fd.nonblock, fd.signals, fd.node.view)

def Same (plain vec : IoFd × IoOut) : Prop := plain.1.view = vec.1.view ∧ plain.2 = vec.2

/-- Two calls with or without a descriptor come to the same. -/
def SameEnd (plain vec : Option IoFd × IoOut) : Prop :=
  plain.1.map IoFd.view = vec.1.map IoFd.view ∧ plain.2 = vec.2

def IoFd.withSignals (fd : IoFd) (signals : ℕ) : IoFd := { fd with signals := signals }

def ReadAgrees (M : Memory) (handle : Option IoFd) (lens : List ℕ) :
    Prop :=
  ∀ signals,
    SameEnd
      (Prod.map id (IoOut.scatter lens)
        (sysRead (handle.map fun fd => fd.withSignals signals) lens.sum))
      (sysReadv M (handle.map fun fd => fd.withSignals signals) lens)

def WriteAgrees (M : Memory) (handle : Option IoFd)
    (entries : List (List UInt8)) : Prop :=
  ∀ signals,
    SameEnd
      (Prod.map id IoOut.blind
        (sysWrite M (handle.map fun fd => fd.withSignals signals) entries.flatten))
      (sysWritev M (handle.map fun fd => fd.withSignals signals) entries)

/-- The condition for a `readv` of a pipe that asks for bytes. -/
def PipeEnd.ReadMeets (p : PipeEnd) (nonblock : Bool) (lens : List ℕ) : Prop :=
  if p.write then ¬ (p.info.ptr = 0 ∧ nonblock = true)
  else if p.info.ptr ≠ 0 then p.info.writeFds = 0 ∨ StopsInside p.info.ptr lens
  else if nonblock then p.info.writeFds ≠ 0 ∧ p.nonblock = true ∧ used lens ≤ 1
  else p.info.writeFds = 0 ∨ used lens ≤ 1

/-- The condition for a `writev` to a pipe. -/
def PipeEnd.WriteMeets (p : PipeEnd) (entries : List (List UInt8)) : Prop :=
  p.write = false ∨ used (entries.map List.length) ≤ 1 ∨
    (p.info.readFds ≠ 0 ∧ FirstShort (pipeBuff - p.info.ptr) (entries.map List.length))

variable {fd : IoFd} {entries : List (List UInt8)}

theorem scatter_take (lens : List ℕ) (bytes : List UInt8) :
    scatter lens (bytes.take lens.sum) = scatter lens bytes := by
  induction lens generalizing bytes with
  | nil => rfl
  | cons len lens ih =>
    unfold scatter
    rw [sum_cons, take_take, Nat.min_eq_left (Nat.le_add_right _ _), drop_take,
      Nat.add_sub_cancel_left, ih]

theorem StopsInside.of_sum_le {n : ℕ} {lens : List ℕ} (h : lens.sum ≤ n) : StopsInside n lens := by
  induction lens generalizing n with
  | nil => trivial
  | cons len lens ih =>
    rw [sum_cons] at h
    unfold StopsInside
    rw [if_neg (by omega)]
    exact ih (by omega)

theorem wrap_counts {t k : ℕ} (ht : t ≤ pipeBuff) (hpos : 0 < k) (hlt : k < 2 ^ 31) :
    wrap (t + k * errWord codeEwouldblock) = if codeEwouldblock * k ≤ t then t - codeEwouldblock * k
      else 2 ^ 64 + t - codeEwouldblock * k := by
  unfold wrap errWord codeEwouldblock
  unfold pipeBuff at ht
  split_ifs <;> omega

section Pipe

variable {fd : IoFd} {p : PipeEnd} {lens : List ℕ}

theorem view_setPipe (fd : IoFd) (p : PipeEnd) {info info' : PipeInfo}
    (hcontents : info.contents = info'.contents)
    (hinfo : { info with buf := fun _ => 0 } = { info' with buf := fun _ => (0 : UInt8) }) :
    (fd.setPipe p info).view = (fd.setPipe p info').view := by
  unfold IoFd.view IoFd.setPipe IoNode.view
  dsimp only
  rw [hcontents, hinfo]

theorem readvLoop_wrong (hnode : fd.node = .pipe p) (hw : p.write = true) (hsum : lens.sum ≠ 0)
    (stored : List (List UInt8)) :
    readvLoop lens fd 0 stored = (fd, .ret (errWord codeEio) (stored ++ untouched lens)) := by
  induction lens generalizing stored with
  | nil => exact absurd rfl hsum
  | cons len lens ih =>
    rw [sum_cons] at hsum
    unfold readvLoop
    by_cases hlen : len = 0
    · rw [if_pos hlen, ih (by omega), untouched_cons, append_assoc]
      rfl
    have hsize : min len pipeBuff ≠ 0 := by
      unfold pipeBuff
      omega
    rw [if_neg hlen, vfsRead_pipe hnode]
    unfold IoFd.pipefsRead
    dsimp only
    rw [if_neg hsize, if_pos hw]
    dsimp only
    rw [if_pos rfl]
    rfl

theorem fdRead_pipe (hnode : fd.node = .pipe p) (size : ℕ) : fdRead fd size =
      if p.info.ptr = 0 ∧ fd.nonblock then (fd, .ret (errWord codeEwouldblock) [[]])
      else plainOut (fd.pipefsRead p size) := by
  unfold fdRead
  rw [hnode]
  dsimp only
  rw [vfsRead_pipe hnode]

theorem fdReadv_pipe (hnode : fd.node = .pipe p) (lens : List ℕ) :
    fdReadv M fd lens = readvLoop lens fd 0 [] := by
  unfold fdReadv
  rw [hnode]

theorem same_readEnd_wrong (hnode : fd.node = .pipe p) (hw : p.write = true) (hsum : lens.sum ≠ 0) :
    Same (map id (IoOut.scatter lens) (fdRead fd lens.sum)) (fdReadv M fd lens) ↔
      ¬ (p.info.ptr = 0 ∧ fd.nonblock = true) := by
  rw [fdRead_pipe hnode, fdReadv_pipe hnode, readvLoop_wrong hnode hw hsum]
  by_cases hempty : p.info.ptr = 0 ∧ fd.nonblock = true
  · rw [if_pos hempty]
    refine ⟨fun h => ?_, fun h => absurd hempty h⟩
    have hne : errWord codeEwouldblock = errWord codeEio := (ret.inj h.2).1
    exact absurd hne (by decide)
  · have hsize : min lens.sum pipeBuff ≠ 0 := by
      unfold pipeBuff
      omega
    rw [if_neg hempty]
    unfold IoFd.pipefsRead
    dsimp only
    rw [if_neg hsize, if_pos hw]
    refine ⟨fun _ => hempty, fun _ => ⟨rfl, ?_⟩⟩
    unfold plainOut IoOut.scatter eioOf
    simp [scatter_nil]

theorem same_readEnd_some (hnode : fd.node = .pipe p) (hw : p.write = false)
    (hle : p.info.ptr ≤ pipeBuff) (hptr : 0 < p.info.ptr) (hsum : lens.sum ≠ 0)
    (hlt : lens.sum < 2 ^ 63) (hstop : p.info.writeFds = 0 ∨ StopsInside p.info.ptr lens) :
    Same (map id (IoOut.scatter lens) (fdRead fd lens.sum)) (fdReadv M fd lens) := by
  obtain ⟨buf, hread, hbuf⟩ := pipefsRead_some fd hw (Nat.pos_of_ne_zero hsum) hptr hle
  obtain ⟨buf', hloop, hbuf'⟩ := readvLoop_pipe hnode hw hle hstop 0 (by rwa [Nat.zero_add]) []
  have hne : min lens.sum p.info.ptr ≠ errWord 1 := by
    unfold errWord
    omega
  rw [fdRead_pipe hnode, if_neg (fun h => hptr.ne' h.1), fdReadv_pipe hnode, hread, hloop]
  unfold plainOut eioOf
  dsimp only [Prod.map, id_eq]
  rw [if_neg hne]
  constructor
  · apply view_setPipe
    · have hmin : p.info.ptr - min lens.sum p.info.ptr = p.info.ptr - lens.sum := by omega
      unfold PipeInfo.contents at hbuf hbuf' ⊢
      rw [hmin] at hbuf ⊢
      exact hbuf.trans hbuf'.symm
    · dsimp only
      congr 1
      omega
  · unfold IoOut.scatter
    dsimp only
    rw [Nat.zero_add, nil_append, flatten_singleton, scatter_take]

theorem not_same_readEnd_some (hnode : fd.node = .pipe p) (hw : p.write = false)
    (hle : p.info.ptr ≤ pipeBuff) (hptr : 0 < p.info.ptr) (hsum : lens.sum ≠ 0)
    (hlt : lens.sum < 2 ^ 63) (hlength : lens.length < 2 ^ 31) (hsignals : fd.signals = 0)
    (hwriters : p.info.writeFds ≠ 0) (hstop : ¬ StopsInside p.info.ptr lens) :
    ¬ Same (map id (IoOut.scatter lens) (fdRead fd lens.sum)) (fdReadv M fd lens) := by
  obtain ⟨buf, hread, -⟩ := pipefsRead_some fd hw (Nat.pos_of_ne_zero hsum) hptr hle
  have hne : min lens.sum p.info.ptr ≠ errWord 1 := by
    unfold errWord
    omega
  have hplain : (map id (IoOut.scatter lens) (fdRead fd lens.sum)).2 =
      .ret p.info.ptr (scatter lens (p.info.contents.take lens.sum)) := by
    have hmin : min lens.sum p.info.ptr = p.info.ptr := by
      apply Nat.min_eq_right
      by_contra hsum_le
      exact hstop (StopsInside.of_sum_le (not_le.mp hsum_le).le)
    rw [fdRead_pipe hnode, if_neg (fun h => hptr.ne' h.1), hread]
    unfold plainOut eioOf IoOut.scatter
    dsimp only [Prod.map, id_eq]
    rw [if_neg hne, hmin, flatten_singleton]
  rintro ⟨-, hout⟩
  rw [hplain, fdReadv_pipe hnode] at hout
  obtain hsleep | ⟨k, stored, hk, hkl, hret⟩ := readvLoop_runs_out hnode hw hle hwriters
    hstop hsignals 0 (by rwa [Nat.zero_add]) []
  · rw [hsleep] at hout
    cases hout
  · rw [hret, Nat.zero_add, wrap_counts hle hk (by omega)] at hout
    have hvalue := (ret.inj hout).1
    unfold codeEwouldblock at hvalue
    split_ifs at hvalue <;> omega

theorem wrap_used_eq (hsum : lens.sum ≠ 0) (hlength : lens.length < 2 ^ 31) :
    wrap (0 + used lens * errWord codeEwouldblock) = errWord codeEwouldblock ↔ used lens ≤ 1 := by
  have hpos := used_pos_of_sum hsum
  have hle := used_le_length lens
  rw [wrap_counts (Nat.zero_le _) hpos (by omega)]
  unfold errWord codeEwouldblock
  split_ifs <;> omega

theorem same_readEnd_nonblock (hnode : fd.node = .pipe p) (hw : p.write = false)
    (hptr : p.info.ptr = 0) (hnb : fd.nonblock = true) (hsum : lens.sum ≠ 0)
    (hlt : lens.sum < 2 ^ 63) (hlength : lens.length < 2 ^ 31)
    (hsignals : p.nonblock = false → fd.signals = 0) :
    Same (map id (IoOut.scatter lens) (fdRead fd lens.sum)) (fdReadv M fd lens) ↔
      p.info.writeFds ≠ 0 ∧ p.nonblock = true ∧ used lens ≤ 1 := by
  have hplain : map id (IoOut.scatter lens) (fdRead fd lens.sum) =
      (fd, .ret (errWord codeEwouldblock) (untouched lens)) := by
    rw [fdRead_pipe hnode, if_pos ⟨hptr, hnb⟩]
    unfold IoOut.scatter
    dsimp only [Prod.map, id_eq]
    rw [flatten_singleton, scatter_nil]
  rw [hplain, fdReadv_pipe hnode]
  by_cases hwriters : p.info.writeFds = 0
  · obtain ⟨buf, hloop, -⟩ := readvLoop_pipe hnode hw (hptr.trans_le (Nat.zero_le _))
      (.inl hwriters) 0 (by rwa [Nat.zero_add]) []
    rw [hloop, hptr, Nat.min_zero]
    refine ⟨fun h => ?_, fun h => absurd hwriters h.1⟩
    have hvalue : errWord codeEwouldblock = 0 := (ret.inj h.2).1
    exact absurd hvalue (by decide)
  cases hpnb : p.nonblock with
  | false =>
    have hsleep := readvLoop_asleep hnode hw hptr hwriters hpnb
      (by rw [hsignals hpnb]; exact used_pos_of_sum hsum) hlt 0 []
    refine ⟨fun h => ?_, fun h => absurd h.2.1 Bool.false_ne_true⟩
    have hout := h.2
    rw [hsleep] at hout
    cases hout
  | true =>
    rw [readvLoop_wouldblock hnode hw hptr hwriters hpnb hlt 0 (by norm_num), ← wrap_used_eq hsum hlength]
    constructor
    · intro h
      exact ⟨hwriters, rfl, (ret.inj h.2).1.symm⟩
    · intro h
      refine ⟨rfl, ?_⟩
      rw [h.2.2]
      rfl

theorem pipefsRead_fits (hw : p.write = false) (hptr : p.info.ptr = 0) (fd : IoFd) {size : ℕ}
    (hsize : 0 < size) : (fd.pipefsRead p size).2.Fits size := by
  rw [pipefsRead_none fd hw hsize hptr]
  split_ifs
  · exact ⟨by norm_num, Nat.zero_le _⟩
  · exact ⟨by decide, Nat.zero_le _⟩
  · unfold IoFd.wait
    cases fd.signals with
    | zero => trivial
    | succ signals => exact ⟨by decide, Nat.zero_le _⟩

theorem same_readEnd_single (hnode : fd.node = .pipe p) (hw : p.write = false)
    (hptr : p.info.ptr = 0) (hnb : fd.nonblock = false) (hused : used lens = 1) (hsum : lens.sum ≠ 0) :
    Same (map id (IoOut.scatter lens) (fdRead fd lens.sum)) (fdReadv M fd lens) := by
  have hfits : (fd.vfsRead 0 lens.sum).2.Fits lens.sum := by
    rw [vfsRead_pipe hnode]
    exact pipefsRead_fits hw hptr fd (Nat.pos_of_ne_zero hsum)
  rw [fdRead_pipe hnode, if_neg (fun h => absurd (hnb.symm.trans h.2) Bool.false_ne_true),
    fdReadv_pipe hnode, readvLoop_single hused hfits, vfsRead_pipe hnode]
  generalize plainOut (fd.pipefsRead p lens.sum) = r
  obtain ⟨fd', out⟩ := r
  cases out <;> exact ⟨rfl, rfl⟩

theorem same_readEnd_over (hnode : fd.node = .pipe p) (hw : p.write = false)
    (hptr : p.info.ptr = 0) (hnb : fd.nonblock = false) (hsum : lens.sum ≠ 0)
    (hlt : lens.sum < 2 ^ 63) (hwriters : p.info.writeFds = 0) :
    Same (map id (IoOut.scatter lens) (fdRead fd lens.sum)) (fdReadv M fd lens) := by
  obtain ⟨buf, hloop, hbuf⟩ := readvLoop_pipe hnode hw (hptr.trans_le (Nat.zero_le _))
    (.inl hwriters) 0 (by rwa [Nat.zero_add]) []
  have hnil : p.info.contents = [] := by
    unfold PipeInfo.contents
    rw [hptr]
    rfl
  have hne : (0 : ℕ) ≠ errWord 1 := by
    unfold errWord
    omega
  rw [fdRead_pipe hnode, if_neg (fun h => absurd (hnb.symm.trans h.2) Bool.false_ne_true),
    pipefsRead_none fd hw (Nat.pos_of_ne_zero hsum) hptr, if_pos hwriters, fdReadv_pipe hnode, hloop,
    hptr, hnil, Nat.min_zero, scatter_nil]
  unfold plainOut eioOf IoOut.scatter
  dsimp only [Prod.map, id_eq]
  rw [if_neg hne]
  constructor
  · conv_lhs => rw [← IoFd.setPipe_self hnode]
    apply view_setPipe
    · rw [hnil]
      unfold PipeInfo.contents
      rw [Nat.zero_sub]
      rfl
    · dsimp only
      rw [hptr, Nat.zero_sub]
  · rw [flatten_singleton, scatter_nil]
    rfl

theorem not_same_readEnd_pair (hnode : fd.node = .pipe p) (hw : p.write = false)
    (hptr : p.info.ptr = 0) (hnb : fd.nonblock = false) (hsum : lens.sum ≠ 0)
    (hlt : lens.sum < 2 ^ 63) (hlength : lens.length < 2 ^ 31) (hsignals : fd.signals = 1)
    (hwriters : p.info.writeFds ≠ 0) (hused : ¬ used lens ≤ 1) :
    ¬ Same (map id (IoOut.scatter lens) (fdRead fd lens.sum)) (fdReadv M fd lens) := by
  rw [fdRead_pipe hnode, if_neg (fun h => absurd (hnb.symm.trans h.2) Bool.false_ne_true),
    pipefsRead_none fd hw (Nat.pos_of_ne_zero hsum) hptr, if_neg hwriters, fdReadv_pipe hnode]
  rintro ⟨-, hout⟩
  cases hpnb : p.nonblock with
  | false =>
    rw [readvLoop_asleep hnode hw hptr hwriters hpnb (by omega) hlt 0 []] at hout
    unfold IoFd.wait at hout
    rw [hpnb, hsignals] at hout
    cases hout
  | true =>
    rw [readvLoop_wouldblock hnode hw hptr hwriters hpnb hlt 0 (by norm_num), if_pos hpnb] at hout
    unfold plainOut eioOf IoOut.scatter at hout
    dsimp only [Prod.map, id_eq] at hout
    rw [if_neg (errWord_ne (by decide) (by decide))] at hout
    exact hused ((wrap_used_eq hsum hlength).mp (ret.inj hout).1.symm)

theorem same_read_pipe (hnode : fd.node = .pipe p) (hle : p.info.ptr ≤ pipeBuff)
    (hsum : lens.sum ≠ 0) (hlt : lens.sum < 2 ^ 63) (hlength : lens.length < 2 ^ 31) :
    (∀ signals, Same (map id (IoOut.scatter lens) (fdRead (fd.withSignals signals) lens.sum))
      (fdReadv M (fd.withSignals signals) lens)) ↔ p.ReadMeets fd.nonblock lens := by
  have hnode' : ∀ signals, (fd.withSignals signals).node = .pipe p := fun _ => hnode
  unfold PipeEnd.ReadMeets
  cases hw : p.write with
  | true =>
    rw [if_pos rfl]
    constructor
    · exact fun h => (same_readEnd_wrong (hnode' 0) hw hsum).mp (h 0)
    · exact fun h signals => (same_readEnd_wrong (hnode' signals) hw hsum).mpr h
  | false =>
    rw [if_neg Bool.false_ne_true]
    by_cases hptr : p.info.ptr = 0
    · rw [if_neg (not_not.mpr hptr)]
      cases hnb : fd.nonblock with
      | true =>
        rw [if_pos rfl]
        constructor
        · exact fun h => (same_readEnd_nonblock (hnode' 0) hw hptr hnb hsum hlt hlength fun _ => rfl).mp (h 0)
        · exact fun h signals => (same_readEnd_nonblock (hnode' signals) hw hptr hnb hsum hlt hlength
            fun hpnb => absurd (hpnb.symm.trans h.2.1) Bool.false_ne_true).mpr h
      | false =>
        rw [if_neg Bool.false_ne_true]
        constructor
        · intro h
          by_contra hmeets
          rw [not_or] at hmeets
          exact not_same_readEnd_pair (hnode' 1) hw hptr hnb hsum hlt hlength rfl hmeets.1 hmeets.2 (h 1)
        · rintro (hwriters | hused) signals
          · exact same_readEnd_over (hnode' signals) hw hptr hnb hsum hlt hwriters
          · have hpos := used_pos_of_sum hsum
            exact same_readEnd_single (hnode' signals) hw hptr hnb (by omega) hsum
    · rw [if_pos hptr]
      constructor
      · intro h
        by_contra hmeets
        rw [not_or] at hmeets
        exact not_same_readEnd_some (hnode' 0) hw hle (Nat.pos_of_ne_zero hptr) hsum hlt hlength rfl
          hmeets.1 hmeets.2 (h 0)
      · exact fun h signals =>
          same_readEnd_some (hnode' signals) hw hle (Nat.pos_of_ne_zero hptr) hsum hlt h

theorem fdWrite_pipe (hnode : fd.node = .pipe p) (data : List UInt8) :
    fdWrite M fd data = plainOut (fd.pipefsWrite p data) := by
  unfold fdWrite
  rw [hnode]
  dsimp only
  rw [vfsWrite_pipe hnode]

theorem writevLoop_wrong (hnode : fd.node = .pipe p) (hw : p.write = false) (hsum : entries.flatten.length ≠ 0) :
    writevLoop M entries fd 0 = (fd, .ret (errWord codeEio) []) := by
  induction entries with
  | nil => exact absurd rfl hsum
  | cons entry entries ih =>
    rw [flatten_cons, length_append] at hsum
    unfold writevLoop
    by_cases hempty : entry.length = 0
    · rw [if_pos hempty]
      exact ih (by omega)
    rw [if_neg hempty, hnode]
    dsimp only
    rw [vfsWrite_pipe hnode]
    unfold IoFd.pipefsWrite
    rw [if_neg (by rw [hw]; exact Bool.false_ne_true)]
    dsimp only
    rw [if_pos rfl]
    rfl

theorem same_writeEnd_wrong (hnode : fd.node = .pipe p) (hw : p.write = false)
    (hsum : entries.flatten.length ≠ 0) :
    Same (map id blind (fdWrite M fd entries.flatten)) (writevLoop M entries fd 0) := by
  rw [fdWrite_pipe hnode, writevLoop_wrong hnode hw hsum]
  unfold IoFd.pipefsWrite
  rw [if_neg (by rw [hw]; exact Bool.false_ne_true)]
  exact ⟨rfl, rfl⟩

theorem same_writeEnd_first (hnode : fd.node = .pipe p) (hw : p.write = true) (hread : p.info.readFds ≠ 0)
    (hfirst : FirstShort (pipeBuff - p.info.ptr) (entries.map length)) (hsum : entries.flatten.length ≠ 0)
    (hlt : entries.flatten.length < 2 ^ 63) :
    Same (map id blind (fdWrite M fd entries.flatten)) (writevLoop M entries fd 0) := by
  have hne : entries.flatten ≠ [] := fun h => hsum (length_eq_zero_iff.mpr h)
  have haccepts := hfirst.accepts_sum
  rw [← length_flatten] at haccepts
  obtain ⟨room, hroom⟩ : ∃ room, pipeBuff - p.info.ptr = room := ⟨_, rfl⟩
  have hplain := pipefsWrite_eq hnode hw hread hne hroom
  rw [hroom] at hfirst haccepts
  have hpos := hfirst.room_pos (by rwa [← length_flatten])
  have htake : entries.flatten.take (min room entries.flatten.length) = entries.flatten.take room := by
    rw [← take_take, take_length]
  have hwritten : pipeWritten (min room entries.flatten.length) =
      .value (min room entries.flatten.length) [] := by
    unfold pipeWritten
    rw [if_pos (by omega)]
  have hne' : min room entries.flatten.length ≠ errWord 1 := by
    unfold errWord
    omega
  rw [fdWrite_pipe hnode, hplain, haccepts, htake, hwritten,
    writevLoop_pipe hnode hw hread hroom hfirst 0 (by omega), Nat.zero_add]
  generalize fd.push p (entries.flatten.take room) = fd'
  unfold afterWait
  by_cases hwait : room < entries.flatten.length ∧ p.nonblock = false
  · rw [if_pos hwait, if_neg (fun h => h.elim (not_le.mpr hwait.1) (by simp [hwait.2]))]
    unfold IoFd.wait
    cases fd'.signals with
    | zero => exact ⟨rfl, rfl⟩
    | succ signals =>
      unfold plainOut eioOf
      dsimp only
      rw [if_neg hne']
      exact ⟨rfl, rfl⟩
  · have hends : entries.flatten.length ≤ room ∨ p.nonblock = true := by
      rw [not_and_or, not_lt, Bool.not_eq_false] at hwait
      exact hwait
    rw [if_neg hwait, if_pos hends]
    unfold plainOut eioOf
    dsimp only
    rw [if_neg hne']
    exact ⟨rfl, rfl⟩

theorem same_writeEnd_single (hnode : fd.node = .pipe p) (hw : p.write = true)
    (hsum : entries.flatten.length ≠ 0) (hlt : entries.flatten.length < 2 ^ 63)
    (hused : used (entries.map length) = 1) :
    Same (map id blind (fdWrite M fd entries.flatten)) (writevLoop M entries fd 0) := by
  have hne : entries.flatten ≠ [] := fun h => hsum (length_eq_zero_iff.mpr h)
  have hvfs : fd.vfsWrite M 0 entries.flatten = fd.pipefsWrite p entries.flatten := vfsWrite_pipe hnode 0 _
  have hadvance : ∀ ret, (fd.vfsWrite M 0 entries.flatten).1.advance ret =
      (fd.vfsWrite M 0 entries.flatten).1 := by
    intro ret
    obtain ⟨p', hp'⟩ := pipefsWrite_node hnode entries.flatten
    rw [hvfs]
    exact advance_pipe hp' ret
  have hfits : (fd.vfsWrite M 0 entries.flatten).2.Fits 0 := by
    rw [hvfs]
    obtain hsleep | ⟨heq, -⟩ | ⟨signals, heq⟩ | ⟨signals, heq, -, hroom, -⟩ :=
      pipefsWrite_cases hnode hw hne rfl
    · rw [hsleep]
      trivial
    · rw [heq]
      exact ⟨by omega, le_rfl⟩
    · rw [heq]
      exact ⟨by decide, le_rfl⟩
    · rw [heq]
      exact ⟨by omega, le_rfl⟩
  rw [fdWrite_pipe hnode, writevLoop_single hused (fun n h => by rw [hnode] at h; cases h) hadvance
    hfits, hvfs]
  exact ⟨rfl, rfl⟩

theorem pipefsWrite_returns (hnode : fd.node = .pipe p) (hw : p.write = true)
    (hsignals : fd.signals = 1) {data : List UInt8} (hdata : data ≠ []) :
    ∃ fd' m, fd.pipefsWrite p data = (fd', pipeWritten m) ∧
      fd'.node = .pipe { p with info := p.info.push (data.take m) } ∧ m ≤ data.length ∧
      m ≤ pipeBuff - p.info.ptr ∧ (m ≠ 0 → p.info.readFds ≠ 0) := by
  by_cases hread : p.info.readFds = 0
  · refine ⟨fd, 0, pipefsWrite_nobody hw hread fd hdata, ?_, Nat.zero_le _, Nat.zero_le _,
      fun h => absurd rfl h⟩
    rw [take_zero, PipeInfo.push_nil]
    exact hnode
  have heq := pipefsWrite_eq hnode hw hread hdata rfl
  have hlen := accepts_le (pipeBuff - p.info.ptr) data.length
  have hroom := accepts_le_room (pipeBuff - p.info.ptr) data.length
  by_cases hends : data.length ≤ pipeBuff - p.info.ptr ∨ p.nonblock = true
  · rw [if_pos hends] at heq
    exact ⟨_, _, heq, rfl, hlen, hroom, fun _ => hread⟩
  · rw [if_neg hends] at heq
    unfold IoFd.wait at heq
    have hs : ∀ bytes, (fd.push p bytes).signals = 1 := fun _ => hsignals
    rw [hs] at heq
    exact ⟨_, _, heq, rfl, hlen, hroom, fun _ => hread⟩

theorem not_same_writeEnd (hnode : fd.node = .pipe p) (hw : p.write = true) (hle : p.info.ptr ≤ pipeBuff)
    (hsum : entries.flatten.length ≠ 0) (hlt : entries.flatten.length < 2 ^ 63)
    (hlength : entries.length < 2 ^ 31) (hsignals : fd.signals = 1) (hused : ¬ used (entries.map length) ≤ 1)
    (hfirst : ¬ (p.info.readFds ≠ 0 ∧ FirstShort (pipeBuff - p.info.ptr) (entries.map length))) :
    ¬ Same (map id blind (fdWrite M fd entries.flatten)) (writevLoop M entries fd 0) := by
  have hne : entries.flatten ≠ [] := fun h => hsum (length_eq_zero_iff.mpr h)
  obtain ⟨fd', m, hplain, hnode', hm, hmroom, hread⟩ := pipefsWrite_returns hnode hw hsignals hne
  have hcounts := writevLoop_pipe_counts (M := M) hnode hw rfl hlt 0 (by norm_num)
  have hlen := used_le_length (entries.map length)
  rw [length_map] at hlen
  rw [fdWrite_pipe hnode, hplain]
  rintro ⟨hview, hout⟩
  obtain hsleep | ⟨t, f, p', hp', hptr, ht, hf, hall, hfail, hret⟩ := hcounts
  · rw [hsleep] at hout
    unfold pipeWritten plainOut blind at hout
    cases hout
  -- as many bytes are stored
  have hmt : m = t := by
    unfold IoFd.view IoNode.view pipeWritten plainOut at hview
    dsimp only [Prod.map, id_eq] at hview
    rw [hnode', hp'] at hview
    have hp := (NodeView.pipe.inj (mk.inj (mk.inj (mk.inj hview).2).2).2).2
    have hptrs := congrArg (fun p => p.info.ptr) hp
    unfold PipeInfo.push at hptrs
    dsimp only at hptrs
    rw [length_take] at hptrs
    omega
  rw [hret, Nat.zero_add] at hout
  unfold pipeWritten plainOut blind eioOf at hout
  dsimp only [Prod.map] at hout
  have hvalue := (ret.inj hout).1
  have hpos : 0 < f := by
    by_cases hzero : t = 0
    · have := hall hzero
      omega
    · exact hfail fun h => hfirst ⟨hread (hmt ▸ hzero), h⟩
  rw [wrap_counts (by omega) hpos (by omega)] at hvalue
  by_cases hzero : m = 0
  · have hused' := hall (hmt ▸ hzero)
    rw [if_neg (not_not.mpr hzero), if_neg (errWord_ne (by decide) (by decide))] at hvalue
    unfold errWord codeEwouldblock at hvalue
    split_ifs at hvalue <;> omega
  · have hne' : m ≠ errWord 1 := by
      unfold errWord
      omega
    rw [if_pos hzero, if_neg hne'] at hvalue
    unfold codeEwouldblock at hvalue
    split_ifs at hvalue <;> omega

theorem same_write_pipe (hnode : fd.node = .pipe p) (hle : p.info.ptr ≤ pipeBuff)
    (hsum : entries.flatten.length ≠ 0) (hlt : entries.flatten.length < 2 ^ 63)
    (hlength : entries.length < 2 ^ 31) :
    (∀ signals, Same (map id blind (fdWrite M (fd.withSignals signals) entries.flatten))
      (writevLoop M entries (fd.withSignals signals) 0)) ↔ p.WriteMeets entries := by
  have hnode' : ∀ signals, (fd.withSignals signals).node = .pipe p := fun _ => hnode
  unfold PipeEnd.WriteMeets
  cases hw : p.write with
  | false => exact ⟨fun _ => .inl rfl, fun _ signals => same_writeEnd_wrong (hnode' signals) hw hsum⟩
  | true =>
    constructor
    · intro h
      by_contra hmeets
      rw [not_or, not_or] at hmeets
      exact not_same_writeEnd (hnode' 1) hw hle hsum hlt hlength rfl hmeets.2.1 hmeets.2.2 (h 1)
    · rintro (hwrong | hused | hfirst) signals
      · exact absurd hwrong Bool.true_eq_false.mp
      · have hpos : 0 < used (entries.map length) := by
          apply used_pos_of_sum
          rwa [← length_flatten]
        exact same_writeEnd_single (hnode' signals) hw hsum hlt (by omega)
      · exact same_writeEnd_first (hnode' signals) hw hfirst.1 hfirst.2 hsum hlt

end Pipe

theorem sameEnd_some {plain vec : IoFd × IoOut} :
    SameEnd (map some id plain) (map some id vec) ↔ Same plain vec := by
  unfold SameEnd Same
  simp

theorem sysRead_nothing (handle : Option IoFd) (lens : List ℕ) :
    map id (IoOut.scatter lens) (sysRead handle 0) = (handle, .ret 0 (untouched lens)) := by
  unfold sysRead IoOut.scatter
  dsimp only [Prod.map, id_eq]
  rw [if_pos rfl]
  dsimp only
  rw [flatten_singleton, scatter_nil]

theorem readAgrees_iff {p : PipeEnd} (hnode : fd.node = .pipe p) (hle : p.info.ptr ≤ pipeBuff) {lens : List ℕ}
    (hlength : lens.length < 2 ^ 31) (hsum : lens.sum < 2 ^ 47) :
    ReadAgrees M (some fd) lens ↔ lens.sum = 0 ∨ p.ReadMeets fd.nonblock lens := by
  have hvec : ∀ signals, sysReadv M (some (fd.withSignals signals)) lens =
      map some id (fdReadv M (fd.withSignals signals) lens) := by
    intro signals
    unfold sysReadv
    split_ifs with hlens
    · rw [hlens, fdReadv_pipe (by exact hnode)]
      rfl
    · rfl
  have hplain : ∀ signals, lens.sum ≠ 0 →
      map id (IoOut.scatter lens) (sysRead (some (fd.withSignals signals)) lens.sum) =
        map some id (map id (IoOut.scatter lens) (fdRead (fd.withSignals signals) lens.sum)) := by
    intro signals hne
    unfold sysRead
    rw [if_neg hne]
    rfl
  unfold ReadAgrees
  simp only [Option.map_some, hvec]
  by_cases hzero : lens.sum = 0
  · refine ⟨fun _ => .inl hzero, fun _ signals => ?_⟩
    rw [fdReadv_pipe (by exact hnode), readvLoop_zero _ hzero, hzero, sysRead_nothing]
    exact ⟨rfl, rfl⟩
  · rw [or_iff_right hzero, ← same_read_pipe (M := M) hnode hle hzero (by omega) hlength]
    simp only [hplain _ hzero, sameEnd_some]

theorem writeAgrees_iff {p : PipeEnd} (hnode : fd.node = .pipe p) (hle : p.info.ptr ≤ pipeBuff)
    (hlength : entries.length < 2 ^ 31) (hsum : entries.flatten.length < 2 ^ 47) :
    WriteAgrees M (some fd) entries ↔ entries.flatten.length = 0 ∨ p.WriteMeets entries := by
  have hvec : ∀ signals, sysWritev M (some (fd.withSignals signals)) entries =
      map some id (writevLoop M entries (fd.withSignals signals) 0) := by
    intro signals
    unfold sysWritev
    split_ifs with hentries
    · rw [hentries]
      rfl
    · rfl
  have hplain : ∀ signals, entries.flatten.length ≠ 0 →
      map id blind (sysWrite M (some (fd.withSignals signals)) entries.flatten) =
        map some id (map id blind (fdWrite M (fd.withSignals signals) entries.flatten)) := by
    intro signals hne
    unfold sysWrite
    rw [if_neg hne]
    rfl
  unfold WriteAgrees
  simp only [Option.map_some, hvec]
  by_cases hzero : entries.flatten.length = 0
  · refine ⟨fun _ => .inl hzero, fun _ signals => ?_⟩
    unfold sysWrite
    rw [if_pos hzero, writevLoop_zero _ hzero]
    exact ⟨rfl, rfl⟩
  · rw [or_iff_right hzero, ← same_write_pipe (M := M) hnode hle hzero (by omega) hlength]
    simp only [hplain _ hzero, sameEnd_some]

/-- The vectored calls on an end of a pipe agree with the plain ones exactly under their conditions. The total
length is that of a buffer in the half of the user. -/
theorem vectored_agrees (M : Memory) (fd : IoFd) (p : PipeEnd) (hnode : fd.node = .pipe p)
    (hle : p.info.ptr ≤ pipeBuff) :
    (∀ lens : List ℕ, lens.length < 2 ^ 31 → lens.sum < 2 ^ 47 →
      (ReadAgrees M (some fd) lens ↔ lens.sum = 0 ∨ p.ReadMeets fd.nonblock lens)) ∧
    ∀ entries : List (List UInt8), entries.length < 2 ^ 31 → entries.flatten.length < 2 ^ 47 →
      (WriteAgrees M (some fd) entries ↔ entries.flatten.length = 0 ∨ p.WriteMeets entries) :=
  ⟨fun _ => readAgrees_iff hnode hle, fun _ => writeAgrees_iff hnode hle⟩

/-- The end of a pipe that is written to without waiting, with so many bytes in the pipe. -/
def writeEnd (ptr : ℕ) : PipeEnd := ⟨⟨fun _ => 0, ptr, 1, 1, 0, false, false⟩, true, true⟩

theorem vectored_agrees_writeEnd :
    WriteAgrees ⟨fun _ => true, fun _ _ => true⟩ (some ⟨0, true, .pipe (writeEnd 5), 0⟩) [[1, 2], [3]] := by
  have hmeets : (writeEnd 5).WriteMeets [[1, 2], [3]] := .inr (.inr ⟨by decide, by decide⟩)
  exact ((vectored_agrees ⟨fun _ => true, fun _ _ => true⟩ ⟨0, true, .pipe (writeEnd 5), 0⟩ (writeEnd 5) rfl
    (by decide)).2 [[1, 2], [3]] (by decide) (by decide)).mpr (.inr hmeets)

/-- Two entries for a full pipe give `-22`, where one buffer gives `-EWOULDBLOCK`. -/
example : (sysWritev ⟨fun _ => true, fun _ _ => true⟩ (some ⟨0, true, .pipe (writeEnd pipeBuff), 0⟩) [[1], [2]]).2 =
      .ret (errWord 22) [] ∧
    (sysWrite ⟨fun _ => true, fun _ _ => true⟩ (some ⟨0, true, .pipe (writeEnd pipeBuff), 0⟩) [1, 2]).2 =
      .ret (errWord codeEwouldblock) [[]] := by decide

end CoolPotOS
