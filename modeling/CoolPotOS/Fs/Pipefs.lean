import CoolPotOS.Machine
import CoolPotOS.Lib.Bytes
import CoolPotOS.Lib.Runs

namespace CoolPotOS

open Bytes Function List

def pipeBuff : ℕ := 64 * 1024

def pipeAtomicMax : ℕ := min pipeBuff pageSize

structure PipeInfo where
  buf : ℕ → UInt8
  ptr : ℕ
  writeFds : ℕ
  readFds : ℕ
  active : ℕ
  freePending : Bool
  freed : Bool

/-- One of the two ends, `pipe_specific_t`. -/
structure PipeSpecific where
  active : ℕ
  freePending : Bool
  freed : Bool

/-- What a pass through the loop of a call ends with: it transfers bytes, it gives up, or it
sleeps. -/
inductive PipePass
  | moved (bytes : List UInt8)
  | over
  | sleep

def pipefsRead (pipe : PipeInfo) (size : ℕ) (nonblock : Bool) : PipeInfo × PipePass :=
  if pipe.ptr > 0 then
    let toRead := min size pipe.ptr
    ({ pipe with
        buf := overwrite pipe.buf 0 (slice pipe.buf toRead (pipe.ptr - toRead))
        ptr := pipe.ptr - toRead },
      .moved (slice pipe.buf 0 toRead))
  else if pipe.writeFds = 0 then (pipe, .over)
  else if nonblock then (pipe, .over)
  else (pipe, .sleep)

def pipeWriteInner (pipe : PipeInfo) (data : List UInt8) (atomic allowWait : Bool) :
    PipeInfo × PipePass :=
  if pipe.readFds = 0 then (pipe, .over)
  else
    let available := pipeBuff - pipe.ptr
    if available > 0 ∧ (¬ atomic ∨ available ≥ data.length) then
      let toWrite := if atomic then data.length else min data.length available
      ({ pipe with
          buf := overwrite pipe.buf pipe.ptr (data.take toWrite)
          ptr := pipe.ptr + toWrite },
        .moved (data.take toWrite))
    else if allowWait then (pipe, .sleep)
    else (pipe, .over)

inductive PipeCall
  | idle
  | reading (size : ℕ)
  | writing (id : ℕ) (data : List UInt8) (written : ℕ) (nonblock : Bool)
  | leaving (write : Bool)

/-- A pipe, its two ends, the calls of the threads, and the history: the bytes returned by reads,
the pieces stored by writes with the number of the write, and the data of each write. A step is one
critical section of one thread; a call that waits comes back with the next step of its thread. -/
structure PipeState where
  info : PipeInfo
  readSpec : PipeSpecific
  writeSpec : PipeSpecific
  calls : ℕ → PipeCall
  delivered : List UInt8
  accepted : List (ℕ × List UInt8)
  writes : List (List UInt8)

def PipeState.new : PipeState where
  info := ⟨fun _ => 0, 0, 1, 1, 0, false, false⟩
  readSpec := ⟨0, false, false⟩
  writeSpec := ⟨0, false, false⟩
  calls := fun _ => .idle
  delivered := []
  accepted := []
  writes := []

def PipeState.fds (x : PipeState) (write : Bool) : ℕ :=
  if write then x.info.writeFds else x.info.readFds

def PipeState.enter (x : PipeState) (write : Bool) : PipeState :=
  let x := { x with info := { x.info with active := x.info.active + 1 } }
  if write then { x with writeSpec := { x.writeSpec with active := x.writeSpec.active + 1 } }
  else { x with readSpec := { x.readSpec with active := x.readSpec.active + 1 } }

/-- The end of `pipefs_leave` for the end it leaves. -/
def PipeSpecific.leave (spec : PipeSpecific) : PipeSpecific :=
  { spec with
    active := spec.active - 1
    freed := spec.freed || (spec.freePending && (spec.active - 1 = 0 : Bool)) }

def PipeState.leave (x : PipeState) (write : Bool) : PipeState :=
  let info : PipeInfo := { x.info with
    active := x.info.active - 1
    freed := x.info.freed || (x.info.freePending && (x.info.active - 1 = 0 : Bool) &&
      (x.info.readFds = 0 : Bool) && (x.info.writeFds = 0 : Bool)) }
  if write then { x with info := info, writeSpec := x.writeSpec.leave }
  else { x with info := info, readSpec := x.readSpec.leave }

/-- What `pipefs_close` does to the end whose last descriptor it closes. -/
def PipeSpecific.close (spec : PipeSpecific) (fds : ℕ) : PipeSpecific :=
  if fds = 0 then
    if spec.active = 0 then { spec with freed := true } else { spec with freePending := true }
  else spec

def PipeState.close (x : PipeState) (write : Bool) : PipeState :=
  let writeFds := if write then x.info.writeFds - 1 else x.info.writeFds
  let readFds := if write then x.info.readFds else x.info.readFds - 1
  let info : PipeInfo := { x.info with writeFds := writeFds, readFds := readFds }
  let info : PipeInfo :=
    if writeFds = 0 ∧ readFds = 0 then
      if info.active = 0 then { info with freed := true } else { info with freePending := true }
    else info
  if write then { x with info := info, writeSpec := x.writeSpec.close writeFds }
  else { x with info := info, readSpec := x.readSpec.close readFds }

def PipeState.dup (x : PipeState) (write : Bool) : PipeState :=
  if write then { x with info := { x.info with writeFds := x.info.writeFds + 1 } }
  else { x with info := { x.info with readFds := x.info.readFds + 1 } }

/-- The steps. A call is begun by a thread that has a descriptor of the end. -/
inductive PipeOp
  | beginRead (thread size : ℕ)
  | beginWrite (thread : ℕ) (data : List UInt8) (nonblock : Bool)
  | pass (thread : ℕ) (nonblock : Bool)
  | interrupt (thread : ℕ)
  | leave (thread : ℕ)
  | close (write : Bool)
  | dup (write : Bool)

/-- The loop of `pipefs_write` goes on while there is something left to write. -/
def nextWriteCall (id : ℕ) (data : List UInt8) (written : ℕ) (nonblock : Bool) : PipeCall :=
  if written < data.length then .writing id data written nonblock else .leaving true

def PipeState.pass (x : PipeState) (thread : ℕ) (nonblock : Bool) : Option PipeState :=
  match x.calls thread with
  | .reading size =>
    match pipefsRead x.info size nonblock with
    | (info, .moved bytes) =>
      some { x with
        info := info
        delivered := x.delivered ++ bytes
        calls := Function.update x.calls thread (.leaving false) }
    | (info, .over) =>
      some { x with info := info, calls := Function.update x.calls thread (.leaving false) }
    | (info, .sleep) => some { x with info := info }
  | .writing id data written nonblock =>
    let atomic : Bool := data.length ≤ pipeAtomicMax
    match pipeWriteInner x.info (data.drop written) atomic (!nonblock) with
    | (info, .moved bytes) =>
      some { x with
        info := info
        accepted := x.accepted ++ [(id, bytes)]
        calls := Function.update x.calls thread
          (if bytes.length = 0 then .leaving true
          else nextWriteCall id data (written + bytes.length) nonblock) }
    | (info, .over) =>
      some { x with info := info, calls := Function.update x.calls thread (.leaving true) }
    | (info, .sleep) => some { x with info := info }
  | _ => none

def PipeState.step (x : PipeState) : PipeOp → Option PipeState
  | .beginRead thread size =>
    match x.calls thread with
    | .idle =>
      if x.fds false = 0 then none
      else if min size pipeBuff = 0 then some x
      else
        some { x.enter false with
          calls := Function.update x.calls thread (.reading (min size pipeBuff)) }
    | _ => none
  | .beginWrite thread data nonblock =>
    match x.calls thread with
    | .idle =>
      if x.fds true = 0 then none
      else
        some { x.enter true with
          calls := Function.update x.calls thread (nextWriteCall x.writes.length data 0 nonblock)
          writes := x.writes ++ [data] }
    | _ => none
  | .pass thread nonblock => x.pass thread nonblock
  | .interrupt thread =>
    match x.calls thread with
    | .reading _ => some { x with calls := Function.update x.calls thread (.leaving false) }
    | .writing _ _ _ _ => some { x with calls := Function.update x.calls thread (.leaving true) }
    | _ => none
  | .leave thread =>
    match x.calls thread with
    | .leaving write => some { x.leave write with calls := Function.update x.calls thread .idle }
    | _ => none
  | .close write => if x.fds write = 0 then none else some (x.close write)
  | .dup write => if x.fds write = 0 then none else some (x.dup write)

def pieces (accepted : List (ℕ × List UInt8)) (id : ℕ) : List UInt8 :=
  ((accepted.filter fun e => e.1 = id).map Prod.snd).flatten

theorem pieces_concat (accepted : List (ℕ × List UInt8)) (id id' : ℕ) (bytes : List UInt8) :
    pieces (accepted ++ [(id, bytes)]) id' =
      if id = id' then pieces accepted id' ++ bytes else pieces accepted id' := by
  unfold pieces
  rw [filter_append]
  by_cases h : id = id'
  · simp [h]
  · simp [h]

/-- What was delivered and what the buffer holds is what was accepted; each write has stored a first
part of its data, and a short write all of it at once. -/
structure PipeInv (x : PipeState) : Prop where
  stream : x.delivered ++ slice x.info.buf 0 x.info.ptr = (x.accepted.map Prod.snd).flatten
  ptr_le : x.info.ptr ≤ pipeBuff
  id_lt : ∀ e ∈ x.accepted, e.1 < x.writes.length
  writing : ∀ t id data written nonblock, x.calls t = .writing id data written nonblock →
    x.writes[id]? = some data ∧ written < data.length ∧ pieces x.accepted id = data.take written
  one : ∀ t t' id data data' written written' nonblock nonblock',
    x.calls t = .writing id data written nonblock →
    x.calls t' = .writing id data' written' nonblock' → t = t'
  stored : ∀ id data, x.writes[id]? = some data → pieces x.accepted id <+: data
  atomic : ∀ id data, x.writes[id]? = some data → data.length ≤ pipeAtomicMax →
    x.accepted.filter (fun e => e.1 = id) = [] ∨
      x.accepted.filter (fun e => e.1 = id) = [(id, data)]

theorem pipeInv_new : PipeInv PipeState.new where
  stream := rfl
  ptr_le := Nat.zero_le _
  id_lt := by simp [PipeState.new]
  writing := by simp [PipeState.new]
  one := by simp [PipeState.new]
  stored := by simp [PipeState.new]
  atomic := by simp [PipeState.new]

variable {x x' : PipeState} {call : PipeCall} {thread : ℕ} {nonblock : Bool}

theorem PipeInv.congr (h : PipeInv x) (hbuf : x'.info.buf = x.info.buf) (hptr : x'.info.ptr = x.info.ptr)
    (hdelivered : x'.delivered = x.delivered) (haccepted : x'.accepted = x.accepted)
    (hwrites : x'.writes = x.writes)
    (hcalls : ∀ t id data written nonblock, x'.calls t = .writing id data written nonblock → x.calls t = .writing id data written nonblock) :
    PipeInv x' where
  stream := by rw [hbuf, hptr, hdelivered, haccepted, h.stream]
  ptr_le := hptr ▸ h.ptr_le
  id_lt := by rw [haccepted, hwrites]; exact h.id_lt
  writing := by
    intro t id data written nonblock hcall
    rw [haccepted, hwrites]
    exact h.writing t id data written nonblock (hcalls t _ _ _ _ hcall)
  one := fun t t' id data data' written written' nonblock nonblock' hcall hcall' =>
    h.one t t' id data data' written written' nonblock nonblock' (hcalls t _ _ _ _ hcall)
      (hcalls t' _ _ _ _ hcall')
  stored := by rw [haccepted, hwrites]; exact h.stored
  atomic := by rw [haccepted, hwrites]; exact h.atomic

theorem calls_update (calls : ℕ → PipeCall) (thread : ℕ)
    (hcall : ∀ id data written nonblock, call ≠ .writing id data written nonblock) :
    ∀ t id data written nonblock, update calls thread call t = .writing id data written nonblock →
      calls t = .writing id data written nonblock := by
  intro t id data written nonblock ht
  by_cases heq : t = thread
  · rw [heq, update_self] at ht
    exact absurd ht (hcall id data written nonblock)
  · rwa [update_of_ne heq] at ht

theorem pipefsRead_cases (pipe : PipeInfo) (size : ℕ) (nonblock : Bool) :
    (∃ buf n, pipefsRead pipe size nonblock =
        ({ pipe with buf := buf, ptr := pipe.ptr - n }, .moved (slice pipe.buf 0 n)) ∧ n ≤ pipe.ptr ∧
      slice pipe.buf 0 pipe.ptr = slice pipe.buf 0 n ++ slice buf 0 (pipe.ptr - n)) ∨
    pipefsRead pipe size nonblock = (pipe, .over) ∨
    pipefsRead pipe size nonblock = (pipe, .sleep) := by
  unfold pipefsRead
  by_cases hptr : pipe.ptr > 0
  · left
    simp only [if_pos hptr]
    refine ⟨_, min size pipe.ptr, rfl, Nat.min_le_right _ _, ?_⟩
    obtain ⟨rest, hrest⟩ := Nat.exists_eq_add_of_le (Nat.min_le_right size pipe.ptr)
    generalize min size pipe.ptr = n at hrest ⊢
    have hmoved : slice (overwrite pipe.buf 0 (slice pipe.buf n rest)) 0 rest =
        slice pipe.buf n rest := by
      have hself := slice_overwrite_self pipe.buf 0 (slice pipe.buf n rest)
      rwa [length_slice] at hself
    rw [hrest, Nat.add_sub_cancel_left, slice_add, Nat.zero_add, hmoved]
  · right
    simp only [if_neg hptr]
    split_ifs
    · exact .inl rfl
    · exact .inl rfl
    · exact .inr rfl

/-- A pass of a write puts a first part of the bytes behind those in the buffer, and all of them when
it is atomic, or it leaves the pipe as it is. -/
theorem pipeWriteInner_cases (pipe : PipeInfo) (data : List UInt8) (atomic allowWait : Bool)
    (hptr : pipe.ptr ≤ pipeBuff) :
    (∃ buf n, pipeWriteInner pipe data atomic allowWait =
        ({ pipe with buf := buf, ptr := pipe.ptr + n }, .moved (data.take n)) ∧ n ≤ data.length ∧
      pipe.ptr + n ≤ pipeBuff ∧ (atomic = true → n = data.length) ∧
      slice buf 0 (pipe.ptr + n) = slice pipe.buf 0 pipe.ptr ++ data.take n) ∨
    pipeWriteInner pipe data atomic allowWait = (pipe, .over) ∨
    pipeWriteInner pipe data atomic allowWait = (pipe, .sleep) := by
  unfold pipeWriteInner
  by_cases hread : pipe.readFds = 0
  · rw [if_pos hread]
    exact .inr (.inl rfl)
  rw [if_neg hread]
  by_cases hroom : pipeBuff - pipe.ptr > 0 ∧ (¬ atomic ∨ pipeBuff - pipe.ptr ≥ data.length)
  · left
    simp only [if_pos hroom]
    refine ⟨_, if atomic then data.length else min data.length (pipeBuff - pipe.ptr), rfl, ?_, ?_, ?_,
      ?_⟩
    · split_ifs
      · exact le_rfl
      · exact Nat.min_le_left _ _
    · split_ifs with hatomic
      · rcases hroom.2 with hno | hfits
        · exact absurd hatomic hno
        · omega
      · omega
    · intro hatomic
      rw [if_pos hatomic]
    · generalize hn : (if atomic then data.length else min data.length (pipeBuff - pipe.ptr)) = n
      have hle : n ≤ data.length := by
        rw [← hn]
        split_ifs
        · exact le_rfl
        · exact Nat.min_le_left _ _
      have hlen : (data.take n).length = n := by simpa using hle
      have hself := slice_overwrite_self pipe.buf pipe.ptr (data.take n)
      rw [hlen] at hself
      rw [slice_add, Nat.zero_add, hself]
      congr 1
      apply slice_congr
      intro i hi
      exact overwrite_of_lt _ _ (by omega)
  · right
    simp only [if_neg hroom]
    split_ifs
    · exact .inr rfl
    · exact .inl rfl

theorem PipeInv.passRead (h : PipeInv x) {size : ℕ} (nonblock : Bool) (hcall : x.calls thread = .reading size) :
    ∃ x', x.pass thread nonblock = some x' ∧ PipeInv x' := by
  unfold PipeState.pass
  rw [hcall]
  have hleave : ∀ id data written nonblock,
      PipeCall.leaving false ≠ .writing id data written nonblock := by simp
  rcases pipefsRead_cases x.info size nonblock with ⟨buf, n, hread, hn, hsplit⟩ | hover | hsleep
  · simp only [hread]
    refine ⟨_, rfl, ?_⟩
    have hcalls := calls_update x.calls thread hleave
    exact
      { stream := by
          rw [← h.stream, hsplit, append_assoc]
        ptr_le := (Nat.sub_le _ _).trans h.ptr_le
        id_lt := h.id_lt
        writing := fun t id data written nonblock ht =>
          h.writing t id data written nonblock (hcalls t _ _ _ _ ht)
        one := fun t t' id data data' written written' nonblock nonblock' ht ht' =>
          h.one t t' id data data' written written' nonblock nonblock' (hcalls t _ _ _ _ ht)
            (hcalls t' _ _ _ _ ht')
        stored := h.stored
        atomic := h.atomic }
  · simp only [hover]
    exact ⟨_, rfl, h.congr rfl rfl rfl rfl rfl (calls_update _ _ hleave)⟩
  · simp only [hsleep]
    exact ⟨_, rfl, h.congr rfl rfl rfl rfl rfl fun _ _ _ _ _ ht => ht⟩

theorem PipeInv.passWrite (h : PipeInv x) {id written : ℕ} {data : List UInt8} (nonblock' : Bool)
    (hcall : x.calls thread = .writing id data written nonblock) :
    ∃ x', x.pass thread nonblock' = some x' ∧ PipeInv x' := by
  obtain ⟨hdata, hlt, hpieces⟩ := h.writing thread id data written nonblock hcall
  unfold PipeState.pass
  rw [hcall]
  have hleave : ∀ id data written nonblock,
      PipeCall.leaving true ≠ .writing id data written nonblock := by simp
  rcases pipeWriteInner_cases x.info (data.drop written) (data.length ≤ pipeAtomicMax : Bool)
      (!nonblock) h.ptr_le with ⟨buf, n, hwrite, hn, hroom, hall, hsplit⟩ | hover | hsleep
  · simp only [hwrite]
    refine ⟨_, rfl, ?_⟩
    rw [length_drop] at hn hall
    have hlen : ((data.drop written).take n).length = n := by
      rw [length_take, length_drop]
      omega
    have htake : data.take written ++ (data.drop written).take n = data.take (written + n) :=
      take_add.symm
    simp only [hlen]
    generalize hnext : (if n = 0 then PipeCall.leaving true
      else nextWriteCall id data (written + n) nonblock) = next
    -- if the call goes on, it does so as the same write
    have hcont : ∀ id' data' written' nonblock', next = .writing id' data' written' nonblock' →
        id' = id ∧ data' = data ∧ written' = written + n ∧ written + n < data.length := by
      intro id' data' written' nonblock' heq
      rw [← hnext] at heq
      unfold nextWriteCall at heq
      split_ifs at heq with hzero hmore
      cases heq
      exact ⟨rfl, rfl, rfl, hmore⟩
    have hother : ∀ t, t ≠ thread → ∀ id' data' written' nonblock',
        x.calls t = .writing id' data' written' nonblock' → id ≠ id' := by
      intro t ht id' data' written' nonblock' hcall' heq
      subst heq
      exact ht (h.one t thread id data' data written' written nonblock' nonblock hcall' hcall)
    refine ⟨?_, hroom, ?_, ?_, ?_, ?_, ?_⟩
    · simp only [map_append, flatten_append, ← h.stream, hsplit]
      simp
    · intro e he
      rw [mem_append, mem_singleton] at he
      rcases he with he | rfl
      · exact h.id_lt e he
      · exact (List.getElem?_eq_some_iff.mp hdata).1
    · intro t id' data' written' nonblock' ht
      simp only at ht ⊢
      by_cases heq : t = thread
      · rw [heq, update_self] at ht
        obtain ⟨rfl, rfl, rfl, hmore⟩ := hcont _ _ _ _ ht
        rw [pieces_concat, if_pos rfl, hpieces]
        exact ⟨hdata, hmore, htake⟩
      · rw [update_of_ne heq] at ht
        rw [pieces_concat, if_neg (hother t heq _ _ _ _ ht)]
        exact h.writing t id' data' written' nonblock' ht
    · intro t t' id' data' data'' written' written'' nonblock' nonblock'' ht ht'
      simp only at ht ht'
      by_cases heq : t = thread
      · by_cases heq' : t' = thread
        · rw [heq, heq']
        · rw [heq, update_self] at ht
          rw [update_of_ne heq'] at ht'
          exact absurd (hcont _ _ _ _ ht).1.symm (hother t' heq' _ _ _ _ ht')
      · rw [update_of_ne heq] at ht
        by_cases heq' : t' = thread
        · rw [heq', update_self] at ht'
          exact absurd (hcont _ _ _ _ ht').1.symm (hother t heq _ _ _ _ ht)
        · rw [update_of_ne heq'] at ht'
          exact h.one t t' id' data' data'' written' written'' nonblock' nonblock'' ht ht'
    · intro id' data' hdata'
      simp only at hdata' ⊢
      rw [pieces_concat]
      by_cases heq : id = id'
      · subst heq
        obtain rfl := Option.some.inj (hdata.symm.trans hdata')
        rw [if_pos rfl, hpieces, htake]
        exact take_prefix _ _
      · rw [if_neg heq]
        exact h.stored id' data' hdata'
    · intro id' data' hdata' hshort
      simp only at hdata' ⊢
      rw [filter_append]
      by_cases heq : id = id'
      · subst heq
        obtain rfl := Option.some.inj (hdata.symm.trans hdata')
        -- a short write has stored nothing before, and stores all of its data now
        have hnone : x.accepted.filter (fun e => e.1 = id) = [] := by
          rcases h.atomic id data hdata hshort with hnil | hone
          · exact hnil
          · have hfull : pieces x.accepted id = data := by simp [pieces, hone]
            have := congrArg length (hpieces.symm.trans hfull)
            rw [length_take] at this
            omega
        have hzero : written = 0 := by
          have := congrArg length hpieces
          rw [length_take, pieces, hnone] at this
          simp at this
          omega
        have hn' : n = data.length - written := hall (by simpa using hshort)
        right
        rw [hnone, hzero, hn', hzero]
        simp
      · have hskip : [(id, (data.drop written).take n)].filter (fun e => e.1 = id') = [] := by
          simp [heq]
        rw [hskip, append_nil]
        exact h.atomic id' data' hdata' hshort
  · simp only [hover]
    exact ⟨_, rfl, h.congr rfl rfl rfl rfl rfl (calls_update _ _ hleave)⟩
  · simp only [hsleep]
    exact ⟨_, rfl, h.congr rfl rfl rfl rfl rfl fun _ _ _ _ _ ht => ht⟩

theorem PipeInv.beginWrite (h : PipeInv x) {data : List UInt8} (hbuf : x'.info.buf = x.info.buf)
    (hptr : x'.info.ptr = x.info.ptr) (hdelivered : x'.delivered = x.delivered)
    (haccepted : x'.accepted = x.accepted) (hwrites : x'.writes = x.writes ++ [data])
    (hcalls : x'.calls = update x.calls thread (nextWriteCall x.writes.length data 0 nonblock)) :
    PipeInv x' := by
  have hnone : x.accepted.filter (fun e => e.1 = x.writes.length) = [] := by
    rw [filter_eq_nil_iff]
    intro e he
    simpa using (h.id_lt e he).ne
  have hpieces : pieces x.accepted x.writes.length = [] := by simp [pieces, hnone]
  have hnew : ∀ id data' written nonblock', nextWriteCall x.writes.length data 0 nonblock =
      .writing id data' written nonblock' →
      id = x.writes.length ∧ data' = data ∧ written = 0 ∧ 0 < data.length := by
    intro id data' written nonblock' heq
    unfold nextWriteCall at heq
    split_ifs at heq with hpos
    cases heq
    exact ⟨rfl, rfl, rfl, hpos⟩
  have hold : ∀ t id data' written nonblock', x.calls t = .writing id data' written nonblock' →
      id < x.writes.length := fun t id data' written nonblock' ht =>
    (List.getElem?_eq_some_iff.mp (h.writing t id data' written nonblock' ht).1).1
  refine ⟨?_, hptr ▸ h.ptr_le, ?_, ?_, ?_, ?_, ?_⟩
  · rw [hbuf, hptr, hdelivered, haccepted, h.stream]
  · rw [haccepted, hwrites]
    intro e he
    rw [length_append]
    exact Nat.lt_add_right _ (h.id_lt e he)
  · rw [haccepted, hwrites, hcalls]
    intro t id data' written nonblock' ht
    by_cases heq : t = thread
    · rw [heq, update_self] at ht
      obtain ⟨rfl, rfl, rfl, hpos⟩ := hnew _ _ _ _ ht
      refine ⟨?_, hpos, by rw [hpieces, take_zero]⟩
      simp
    · rw [update_of_ne heq] at ht
      obtain ⟨hdata, hrest⟩ := h.writing t id data' written nonblock' ht
      refine ⟨?_, hrest⟩
      rw [List.getElem?_append_left (hold t _ _ _ _ ht), hdata]
  · rw [hcalls]
    intro t t' id data' data'' written written' nonblock' nonblock'' ht ht'
    by_cases heq : t = thread
    · by_cases heq' : t' = thread
      · rw [heq, heq']
      · rw [heq, update_self] at ht
        rw [update_of_ne heq'] at ht'
        exact absurd (hnew _ _ _ _ ht).1 (hold t' _ _ _ _ ht').ne
    · rw [update_of_ne heq] at ht
      by_cases heq' : t' = thread
      · rw [heq', update_self] at ht'
        exact absurd (hnew _ _ _ _ ht').1 (hold t _ _ _ _ ht).ne
      · rw [update_of_ne heq'] at ht'
        exact h.one t t' id data' data'' written written' nonblock' nonblock'' ht ht'
  · rw [haccepted, hwrites]
    intro id data' hdata
    by_cases hlt : id < x.writes.length
    · rw [List.getElem?_append_left hlt] at hdata
      exact h.stored id data' hdata
    · have hid : id = x.writes.length := by
        have := (List.getElem?_eq_some_iff.mp hdata).1
        simp at this
        omega
      rw [hid, hpieces]
      exact nil_prefix
  · rw [haccepted, hwrites]
    intro id data' hdata hshort
    by_cases hlt : id < x.writes.length
    · rw [List.getElem?_append_left hlt] at hdata
      exact h.atomic id data' hdata hshort
    · have hid : id = x.writes.length := by
        have := (List.getElem?_eq_some_iff.mp hdata).1
        simp at this
        omega
      exact .inl (hid ▸ hnone)

theorem PipeInv.step (h : PipeInv x) {op : PipeOp} (hstep : x.step op = some x') : PipeInv x' := by
  cases op with
  | beginRead thread size =>
    simp only [PipeState.step] at hstep
    split at hstep
    · split_ifs at hstep
      · exact Option.some.inj hstep ▸ h
      · cases hstep
        exact h.congr rfl rfl rfl rfl rfl (calls_update _ _ (by simp))
    · cases hstep
  | beginWrite thread data nonblock =>
    simp only [PipeState.step] at hstep
    split at hstep
    · split_ifs at hstep
      cases hstep
      exact h.beginWrite rfl rfl rfl rfl rfl rfl
    · cases hstep
  | pass thread nonblock =>
    cases hcall : x.calls thread with
    | reading size =>
      obtain ⟨x'', hpass, h'⟩ := h.passRead nonblock hcall
      exact Option.some.inj (hpass.symm.trans hstep) ▸ h'
    | writing id data written nonblock' =>
      obtain ⟨x'', hpass, h'⟩ := h.passWrite nonblock hcall
      exact Option.some.inj (hpass.symm.trans hstep) ▸ h'
    | idle => simp [PipeState.step, PipeState.pass, hcall] at hstep
    | leaving write => simp [PipeState.step, PipeState.pass, hcall] at hstep
  | interrupt thread =>
    simp only [PipeState.step] at hstep
    split at hstep
    · cases hstep
      exact h.congr rfl rfl rfl rfl rfl (calls_update _ _ (by simp))
    · cases hstep
      exact h.congr rfl rfl rfl rfl rfl (calls_update _ _ (by simp))
    · cases hstep
  | leave thread =>
    simp only [PipeState.step] at hstep
    split at hstep
    case h_1 write hcall =>
      cases hstep
      cases write <;> exact h.congr rfl rfl rfl rfl rfl (calls_update _ _ (by simp))
    · cases hstep
  | close write =>
    simp only [PipeState.step] at hstep
    split_ifs at hstep
    cases hstep
    cases write <;> simp only [PipeState.close] <;> split_ifs <;>
      exact h.congr rfl rfl rfl rfl rfl fun _ _ _ _ _ ht => ht
  | dup write =>
    simp only [PipeState.step] at hstep
    split_ifs at hstep
    cases hstep
    cases write <;> exact h.congr rfl rfl rfl rfl rfl fun _ _ _ _ _ ht => ht

/-- `active` counts the threads in a call, and a pipe that has been freed has no descriptor and no
call. -/
structure PipeLive (x : PipeState) : Prop where
  busy : ∃ threads : Finset ℕ, (∀ t, t ∈ threads ↔ x.calls t ≠ .idle) ∧
    threads.card = x.info.active
  freed : x.info.freed = true → x.info.active = 0 ∧ x.info.readFds = 0 ∧ x.info.writeFds = 0

theorem PipeLive.congr (h : PipeLive x) (hactive : x'.info.active = x.info.active)
    (hcalls : ∀ t, x'.calls t = .idle ↔ x.calls t = .idle)
    (hfreed : x'.info.freed = true → x'.info.active = 0 ∧ x'.info.readFds = 0 ∧ x'.info.writeFds = 0) :
    PipeLive x' := by
  obtain ⟨threads, hmem, hcard⟩ := h.busy
  refine ⟨⟨threads, fun t => ?_, hactive ▸ hcard⟩, hfreed⟩
  rw [hmem t, ne_eq, ne_eq, hcalls t]

theorem calls_idle_update {calls : ℕ → PipeCall} (hold : calls thread ≠ .idle) (hnew : call ≠ .idle) (t : ℕ) :
    update calls thread call t = .idle ↔ calls t = .idle := by
  by_cases heq : t = thread
  · rw [heq, update_self]
    exact ⟨fun h => absurd h hnew, fun h => absurd h hold⟩
  · rw [update_of_ne heq]

theorem PipeLive.enter (h : PipeLive x) (hidle : x.calls thread = .idle) (hcall : call ≠ .idle)
    (hcalls : x'.calls = update x.calls thread call) (hactive : x'.info.active = x.info.active + 1)
    (hfreed : x'.info.freed = x.info.freed) (hfds : x.info.readFds ≠ 0 ∨ x.info.writeFds ≠ 0) : PipeLive x' := by
  obtain ⟨threads, hmem, hcard⟩ := h.busy
  have hnew : thread ∉ threads := fun hin => (hmem thread).mp hin hidle
  refine ⟨⟨insert thread threads, fun t => ?_, ?_⟩, fun hdead => ?_⟩
  · rw [Finset.mem_insert, hcalls]
    by_cases heq : t = thread
    · rw [heq, update_self]
      simp [hcall]
    · rw [update_of_ne heq, hmem t]
      simp [heq]
  · rw [Finset.card_insert_of_notMem hnew, hcard, hactive]
  · have := h.freed (hfreed ▸ hdead)
    omega

theorem PipeLive.leave (h : PipeLive x) {write : Bool} (hcall : x.calls thread = .leaving write) :
    PipeLive { x.leave write with calls := update x.calls thread .idle } := by
  obtain ⟨threads, hmem, hcard⟩ := h.busy
  have hin : thread ∈ threads := (hmem thread).mpr (by rw [hcall]; simp)
  have hpos := Finset.card_pos.mpr ⟨thread, hin⟩
  have hidle : ∀ t, t ∈ threads.erase thread ↔ update x.calls thread .idle t ≠ .idle := by
    intro t
    rw [Finset.mem_erase]
    by_cases heq : t = thread
    · simp [heq]
    · rw [update_of_ne heq, hmem t]
      simp [heq]
  have herase : (threads.erase thread).card = x.info.active - 1 := by
    rw [Finset.card_erase_of_mem hin, hcard]
  have hnot : x.info.freed = false := by
    by_contra hdead
    have := (h.freed (by simpa using hdead)).1
    omega
  cases write with
  | true =>
    refine ⟨⟨threads.erase thread, hidle, herase⟩, fun hdead => ?_⟩
    have hlast : x.info.freePending = true ∧ x.info.active - 1 = 0 ∧ x.info.readFds = 0 ∧
        x.info.writeFds = 0 := by simpa [PipeState.leave, hnot, and_assoc] using hdead
    exact hlast.2
  | false =>
    refine ⟨⟨threads.erase thread, hidle, herase⟩, fun hdead => ?_⟩
    have hlast : x.info.freePending = true ∧ x.info.active - 1 = 0 ∧ x.info.readFds = 0 ∧
        x.info.writeFds = 0 := by simpa [PipeState.leave, hnot, and_assoc] using hdead
    exact hlast.2

theorem PipeLive.close (h : PipeLive x) (write : Bool) (hfds : x.fds write ≠ 0) :
    PipeLive (x.close write) := by
  have hnot : x.info.freed = false := by
    by_contra hdead
    have := h.freed (by simpa using hdead)
    unfold PipeState.fds at hfds
    split_ifs at hfds <;> omega
  have hkeep : ∀ {y : PipeState}, y.info.active = x.info.active → y.calls = x.calls →
      y.info.freed = false → PipeLive y := fun {y} hactive hcalls hfreed =>
    h.congr hactive (fun t => by rw [hcalls]) fun hdead => absurd hdead (by simp [hfreed])
  have hfree : ∀ {y : PipeState}, y.info.active = x.info.active → y.calls = x.calls →
      y.info.active = 0 → y.info.writeFds = 0 ∧ y.info.readFds = 0 → PipeLive y :=
    fun {y} hactive hcalls hzero hlast =>
      h.congr hactive (fun t => by rw [hcalls]) fun _ => ⟨hzero, hlast.2, hlast.1⟩
  cases write with
  | true =>
    simp only [PipeState.close, if_true]
    split_ifs with hlast hactive
    · exact hfree rfl rfl hactive hlast
    · exact hkeep rfl rfl hnot
    · exact hkeep rfl rfl hnot
  | false =>
    simp only [PipeState.close, Bool.false_eq_true, if_false]
    split_ifs with hlast hactive
    · exact hfree rfl rfl hactive hlast
    · exact hkeep rfl rfl hnot
    · exact hkeep rfl rfl hnot

theorem nextWriteCall_ne_idle (id : ℕ) (data : List UInt8) (written : ℕ) (nonblock : Bool) :
    nextWriteCall id data written nonblock ≠ .idle := by
  unfold nextWriteCall
  split_ifs <;> simp

theorem PipeLive.pass (h : PipeLive x) (hstep : x.pass thread nonblock = some x') : PipeLive x' := by
  -- a pass changes neither the descriptors nor `active`, and the thread stays in its call
  have hkeep : ∀ {y : PipeState}, y.info.active = x.info.active ∧ y.info.readFds = x.info.readFds ∧
      y.info.writeFds = x.info.writeFds ∧ y.info.freed = x.info.freed →
      (∀ t, y.calls t = .idle ↔ x.calls t = .idle) → PipeLive y := by
    rintro y ⟨hactive, hread, hwrite, hfreed⟩ hcalls
    refine h.congr hactive hcalls fun hdead => ?_
    rw [hactive, hread, hwrite]
    exact h.freed (hfreed ▸ hdead)
  unfold PipeState.pass at hstep
  split at hstep
  case h_1 size hcall =>
    have hbusy : x.calls thread ≠ .idle := by simp [hcall]
    have hframe : (pipefsRead x.info size nonblock).1.active = x.info.active ∧
        (pipefsRead x.info size nonblock).1.readFds = x.info.readFds ∧
        (pipefsRead x.info size nonblock).1.writeFds = x.info.writeFds ∧
        (pipefsRead x.info size nonblock).1.freed = x.info.freed := by
      unfold pipefsRead
      split_ifs <;> exact ⟨rfl, rfl, rfl, rfl⟩
    split at hstep <;> rename_i hpass <;> rw [hpass] at hframe <;> obtain rfl := Option.some.inj hstep
    · exact hkeep hframe (calls_idle_update hbusy (by simp))
    · exact hkeep hframe (calls_idle_update hbusy (by simp))
    · exact hkeep hframe fun t => Iff.rfl
  case h_2 id data written nonblock' hcall =>
    have hbusy : x.calls thread ≠ .idle := by simp [hcall]
    generalize (data.length ≤ pipeAtomicMax : Bool) = atomic at hstep
    have hframe : (pipeWriteInner x.info (data.drop written) atomic (!nonblock')).1.active =
          x.info.active ∧
        (pipeWriteInner x.info (data.drop written) atomic (!nonblock')).1.readFds = x.info.readFds ∧
        (pipeWriteInner x.info (data.drop written) atomic (!nonblock')).1.writeFds =
          x.info.writeFds ∧
        (pipeWriteInner x.info (data.drop written) atomic (!nonblock')).1.freed = x.info.freed := by
      unfold pipeWriteInner
      simp only
      split_ifs <;> exact ⟨rfl, rfl, rfl, rfl⟩
    simp only at hstep
    split at hstep <;> rename_i hpass <;> rw [hpass] at hframe <;> obtain rfl := Option.some.inj hstep
    · refine hkeep hframe (calls_idle_update hbusy ?_)
      split_ifs
      · simp
      · exact nextWriteCall_ne_idle _ _ _ _
    · exact hkeep hframe (calls_idle_update hbusy (by simp))
    · exact hkeep hframe fun t => Iff.rfl
  · cases hstep

theorem PipeLive.step (h : PipeLive x) {op : PipeOp} (hstep : x.step op = some x') : PipeLive x' := by
  cases op with
  | beginRead thread size =>
    simp only [PipeState.step] at hstep
    split at hstep
    case h_1 hidle =>
      split_ifs at hstep with hfds hzero
      · exact Option.some.inj hstep ▸ h
      · cases hstep
        exact h.enter hidle (by simp) rfl rfl rfl (.inl hfds)
    · cases hstep
  | beginWrite thread data nonblock =>
    simp only [PipeState.step] at hstep
    split at hstep
    case h_1 hidle =>
      split_ifs at hstep with hfds
      cases hstep
      exact h.enter hidle (nextWriteCall_ne_idle _ _ _ _) rfl rfl rfl (.inr hfds)
    · cases hstep
  | pass thread nonblock => exact h.pass hstep
  | interrupt thread =>
    have hcongr : ∀ write, x.calls thread ≠ .idle →
        PipeLive { x with calls := update x.calls thread (.leaving write) } :=
      fun write hbusy => h.congr rfl (calls_idle_update hbusy (by simp)) h.freed
    simp only [PipeState.step] at hstep
    split at hstep
    case h_1 hcall =>
      cases hstep
      exact hcongr false (by simp [hcall])
    case h_2 hcall =>
      cases hstep
      exact hcongr true (by simp [hcall])
    · cases hstep
  | leave thread =>
    simp only [PipeState.step] at hstep
    split at hstep
    case h_1 write hcall =>
      cases hstep
      exact h.leave hcall
    · cases hstep
  | close write =>
    simp only [PipeState.step] at hstep
    split_ifs at hstep with hfds
    cases hstep
    exact h.close write hfds
  | dup write =>
    simp only [PipeState.step] at hstep
    split_ifs at hstep with hfds
    cases hstep
    have hnot : x.info.freed ≠ true := by
      intro hdead
      have := h.freed hdead
      unfold PipeState.fds at hfds
      split_ifs at hfds <;> omega
    cases write <;> exact h.congr rfl (fun t => Iff.rfl) fun hdead => absurd hdead hnot

/-- After every interleaving of the critical sections of reads, writes and closes: the bytes read are
a prefix of the bytes accepted; a short write has been accepted in one piece or not at all, and every
write has stored a first part of its data; the fill level is within the buffer; and the pipe is not
freed under a call. -/
theorem pipe_fifo (ops : List PipeOp) (x : PipeState)
    (hrun : Runs.run PipeState.step ops PipeState.new = some x) :
    x.delivered <+: (x.accepted.map Prod.snd).flatten ∧
    (∀ id data, x.writes[id]? = some data →
      pieces x.accepted id <+: data ∧
      (data.length ≤ pipeAtomicMax → x.accepted.filter (fun e => e.1 = id) = [] ∨
        x.accepted.filter (fun e => e.1 = id) = [(id, data)])) ∧
    x.info.ptr ≤ pipeBuff ∧ ∀ t, x.calls t ≠ .idle → x.info.freed = false := by
  have hmeets : Runs.Meets PipeState.step (fun _ _ => True) ops PipeState.new :=
    Runs.meets_true ops _
  have hinv : PipeInv x ∧ PipeLive x :=
    Runs.run_keeps (fun x op x' (h : PipeInv x ∧ PipeLive x) _ hstep =>
      ⟨h.1.step hstep, h.2.step hstep⟩)
      ⟨pipeInv_new, ⟨∅, by simp [PipeState.new], rfl⟩, by simp [PipeState.new]⟩ hmeets hrun
  obtain ⟨hinv, hlive⟩ := hinv
  refine ⟨⟨slice x.info.buf 0 x.info.ptr, hinv.stream⟩, fun id data hdata =>
    ⟨hinv.stored id data hdata, hinv.atomic id data hdata⟩, hinv.ptr_le, fun t ht => ?_⟩
  by_contra hdead
  obtain ⟨threads, hmem, hcard⟩ := hlive.busy
  have hzero := (hlive.freed (by simpa using hdead)).1
  rw [← hcard, Finset.card_eq_zero] at hzero
  exact absurd ((hmem t).mpr ht) (by simp [hzero])

theorem pipe_fifo_write_read :
    ∃ x, Runs.run PipeState.step [.beginWrite 1 [7, 8] false, .pass 1 false, .beginRead 2 1,
        .pass 2 false] PipeState.new = some x ∧ x.delivered = [7] ∧
      x.delivered <+: (x.accepted.map Prod.snd).flatten := by
  obtain ⟨x, hx⟩ : ∃ x, Runs.run PipeState.step [.beginWrite 1 [7, 8] false, .pass 1 false,
      .beginRead 2 1, .pass 2 false] PipeState.new = some x := by
    apply Option.isSome_iff_exists.mp
    decide
  refine ⟨x, hx, ?_, (pipe_fifo _ x hx).1⟩
  revert x
  decide

end CoolPotOS
