import CoolPotOS.Fs.FdLifetime
import CoolPotOS.Fs.Readv

namespace CoolPotOS

open Bool Function List Option PipeState

def codeEpipe : ℕ := 32

def oCloexec : BitVec 32 := 0o2000000#32

/-- What `read` and `write` return. -/
inductive PipeRet
  | count (n : ℕ)
  | error (code : ℕ)
  deriving DecidableEq

/-- What `pipefs_read` returns if this pass is its last one. -/
def pipeReadRet (pipe : PipeInfo) (size : ℕ) (nonblock : Bool) : Option PipeRet :=
  match pipefsRead pipe size nonblock with
  | (_, .moved bytes) => some (.count bytes.length)
  | (_, .over) => some (if pipe.writeFds = 0 then .count 0 else .error codeEwouldblock)
  | (_, .sleep) => none

def pipeWriteEnd (written : ℕ) : PipeRet :=
  if written ≠ 0 then .count written else .error codeEwouldblock

/-- What `pipefs_write` returns if this pass is its last one. -/
def pipeWriteRet (pipe : PipeInfo) (data : List UInt8) (written : ℕ) (nonblock : Bool) :
    Option PipeRet :=
  let atomic : Bool := data.length ≤ pipeAtomicMax
  match pipeWriteInner pipe (data.drop written) atomic (!nonblock) with
  | (_, .moved bytes) =>
    if bytes.length = 0 then some (pipeWriteEnd written)
    else if written + bytes.length < data.length then none
    else some (pipeWriteEnd (written + bytes.length))
  | (_, .over) => some (pipeWriteEnd written)
  | (_, .sleep) => none

/-- The history: what the passes of reads and writes have returned, whether the pipe was empty or how much
the write had stored before, and the descriptors that the other end had. -/
inductive PipeReport
  | read (ret : PipeRet) (empty : Bool) (writers : ℕ)
  | write (ret : PipeRet) (stored readers : ℕ)
  deriving DecidableEq

/-- The nodes. `spec` tells which end of which pipe a node is, and `released` that it has been freed. -/
structure PipeVfs where
  spec : ℕ → Option (ℕ × Bool)
  refcount : ℕ → ℕ
  released : ℕ → Bool
  nextNode : ℕ
  pipe : ℕ → PipeState

/-- A pipe has the number of the node of its read end, and the node of its write end is the next
one. -/
structure PipeFiles where
  vfs : PipeVfs
  fdts : List (List (Option ℕ))
  reports : List PipeReport

def endNode (k : ℕ) (write : Bool) : ℕ := k + write.toNat

def PipeState.spec (x : PipeState) (write : Bool) : PipeSpecific :=
  if write then x.writeSpec else x.readSpec

def PipeState.pend (x : PipeState) (write : Bool) : PipeState :=
  if write then { x with writeSpec := { x.writeSpec with freePending := true } }
  else { x with readSpec := { x.readSpec with freePending := true } }

namespace PipeVfs

variable (v : PipeVfs)

def alloc (spec : Option (ℕ × Bool)) : PipeVfs :=
  { v with
    spec := Function.update v.spec v.nextNode spec
    refcount := Function.update v.refcount v.nextNode 1
    nextNode := v.nextNode + 1 }

def dup (n : ℕ) : Option PipeVfs :=
  if v.released n then none
  else
    let v := { v with refcount := Function.update v.refcount n (v.refcount n + 1) }
    match v.spec n with
    | none => some v
    | some (k, write) => some { v with pipe := Function.update v.pipe k ((v.pipe k).dup write) }

/-- `vfs_close`. A file that is not a pipe only loses a reference. -/
def close (n : ℕ) : Option PipeVfs :=
  if v.released n then none
  else
    let v := { v with refcount := Function.update v.refcount n (v.refcount n - 1) }
    match v.spec n with
    | none => some v
    | some (k, write) =>
      let spec := (v.pipe k).spec write
      if spec.freed then some v
      else
        let x := (v.pipe k).close write
        if v.refcount n ≠ 0 then some { v with pipe := Function.update v.pipe k x }
        else if spec.active > 0 then
          some { v with pipe := Function.update v.pipe k (x.pend write) }
        else
          some { v with
            pipe := Function.update v.pipe k x
            released := Function.update v.released n true }

/-- The end of a call on a pipe, `pipefs_leave`, which may be the end of the node. -/
def leave (k thread : ℕ) (write : Bool) : PipeVfs :=
  let x := v.pipe k
  let spec := x.spec write
  { v with
    pipe := Function.update v.pipe k
      { x.leave write with calls := Function.update x.calls thread .idle }
    released :=
      if spec.freePending ∧ spec.active - 1 = 0 ∧ v.refcount (endNode k write) = 0 then
        Function.update v.released (endNode k write) true
      else v.released }

def IsPipe (k : ℕ) : Prop := v.spec k = some (k, false)

instance (k : ℕ) : Decidable (v.IsPipe k) := inferInstanceAs (Decidable (_ = _))

def setPipe (k : ℕ) (x : PipeState) : PipeVfs := { v with pipe := Function.update v.pipe k x }

end PipeVfs

/-- The loop of `copy_fdt` over the nodes. -/
def pipeCopyFdt : List (Option ℕ) → PipeVfs → Option PipeVfs
  | [], v => some v
  | none :: fdt, v => pipeCopyFdt fdt v
  | some n :: fdt, v => (v.dup n).bind (pipeCopyFdt fdt)

def processCloseFds : List (Option ℕ) → PipeVfs → Option PipeVfs
  | [], v => some v
  | none :: fdt, v => processCloseFds fdt v
  | some n :: fdt, v => (v.close n).bind (processCloseFds fdt)

/-- The search of `dup_with_minfd`, which goes on behind the end of a full table. -/
def freeFdFrom (fdt : List (Option ℕ)) (minFd : ℕ) : ℕ :=
  minFd + (fdt.drop minFd).findIdx Option.isNone

/-- The calls, with the process or the thread that makes them. `alloc` tells whether the table can
grow. -/
inductive PipeFdOp
  | openFile (pid : ℕ) (alloc : Bool)
  | pipe2 (pid : ℕ) (alloc alloc' : Bool)
  | dup (pid fd : ℕ) (alloc : Bool)
  | dup2 (pid fd newfd : ℕ) (alloc : Bool)
  | dup3 (pid oldfd newfd : ℕ) (flags : BitVec 32) (alloc : Bool)
  | dupfd (pid fd minFd : ℕ) (alloc alloc' : Bool)
  | fork (pid : ℕ) (alloc : Bool)
  | close (pid fd : ℕ)
  | exit (pid : ℕ)
  | read (pid fd thread size : ℕ) (nonblock : Bool)
  | write (pid fd thread : ℕ) (data : List UInt8) (nonblock : Bool)
  | pass (k thread : ℕ) (nonblock : Bool)
  | interrupt (k thread : ℕ)
  | leave (k thread : ℕ)

namespace PipeFiles

variable (s : PipeFiles)

/-- A new descriptor of a node, or none at all when the table cannot grow. -/
def addFd (v : PipeVfs) (pid : ℕ) (fdt : List (Option ℕ)) (n : ℕ) (alloc : Bool) : PipeFiles :=
  match CoolPotOS.addFd fdt n alloc with
  | some (fdt, _) => { s with vfs := v, fdts := s.fdts.set pid fdt }
  | none => { s with vfs := v }

def fdNode (pid fd : ℕ) : Option ℕ := s.fdts[pid]?.bind fun fdt => getFd fdt fd

/-- The end of `sys_open`, for a file that is not a pipe. -/
def openFile (pid : ℕ) (alloc : Bool) : Option PipeFiles :=
  match s.fdts[pid]? with
  | none => some s
  | some fdt =>
    let n := s.vfs.nextNode
    match CoolPotOS.addFd fdt n alloc with
    | some (fdt, _) => some { s with vfs := s.vfs.alloc none, fdts := s.fdts.set pid fdt }
    | none => ((s.vfs.alloc none).close n).map fun v => { s with vfs := v }

/-- `sys_pipe2`: the two nodes, and a descriptor for each of them. -/
def pipe2 (pid : ℕ) (alloc alloc' : Bool) : PipeFiles :=
  match s.fdts[pid]? with
  | none => s
  | some fdt =>
    let k := s.vfs.nextNode
    let v := ((s.vfs.alloc (some (k, false))).alloc (some (k, true))).setPipe k PipeState.new
    let s := s.addFd v pid fdt (endNode k false) alloc
    s.addFd v pid (s.fdts[pid]?.getD []) (endNode k true) alloc'

def dup (pid fd : ℕ) (alloc : Bool) : Option PipeFiles :=
  match s.fdts[pid]?, s.fdNode pid fd with
  | some fdt, some n => (s.vfs.dup n).map fun v => s.addFd v pid fdt n alloc
  | _, _ => some s

def dup2 (pid fd newfd : ℕ) (alloc : Bool) : Option PipeFiles :=
  match s.fdts[pid]?, s.fdNode pid fd with
  | some fdt, some n =>
    if fd = newfd then some s
    else
      match ensureFdtCapacity fdt newfd alloc with
      | none => some s
      | some fdt =>
        let closed :=
          match getFd fdt newfd with
          | none => some s.vfs
          | some old => s.vfs.close old
        closed.bind fun v =>
          (v.dup n).map fun v => { s with vfs := v, fdts := s.fdts.set pid (fdt.set newfd (some n)) }
  | _, _ => some s

def dup3 (pid oldfd newfd : ℕ) (flags : BitVec 32) (alloc : Bool) : Option PipeFiles :=
  if flags &&& ~~~oCloexec ≠ 0 then some s
  else if oldfd = newfd then some s
  else s.dup2 pid oldfd newfd alloc

def dupWithMinfd (pid fd minFd : ℕ) (alloc alloc' : Bool) : Option PipeFiles :=
  match s.fdts[pid]?, s.fdNode pid fd with
  | some fdt, some n =>
    match ensureFdtCapacity fdt minFd alloc with
    | none => some s
    | some fdt =>
      match ensureFdtCapacity fdt (freeFdFrom fdt minFd) alloc' with
      | none => some { s with fdts := s.fdts.set pid fdt }
      | some fdt' =>
        (s.vfs.dup n).map fun v =>
          { s with vfs := v, fdts := s.fdts.set pid (fdt'.set (freeFdFrom fdt minFd) (some n)) }
  | _, _ => some s

def fork (pid : ℕ) (alloc : Bool) : Option PipeFiles :=
  match s.fdts[pid]? with
  | none => some s
  | some fdt =>
    if alloc then (pipeCopyFdt fdt s.vfs).map fun v => { s with vfs := v, fdts := s.fdts ++ [fdt] }
    else some { s with fdts := s.fdts ++ [[]] }

def close (pid fd : ℕ) : Option PipeFiles :=
  match s.fdts[pid]?, s.fdNode pid fd with
  | some fdt, some n =>
    (s.vfs.close n).map fun v => { s with vfs := v, fdts := s.fdts.set pid (fdt.set fd none) }
  | _, _ => some s

def exit (pid : ℕ) : Option PipeFiles :=
  match s.fdts[pid]? with
  | none => some s
  | some fdt => (processCloseFds fdt s.vfs).map fun v => { s with vfs := v, fdts := s.fdts.set pid [] }

/-- The begin of a call on a pipe by a thread that is in none. -/
def beginCall (k thread : ℕ) (op : PipeOp) : Option PipeFiles :=
  match (s.vfs.pipe k).calls thread with
  | .idle => ((s.vfs.pipe k).step op).map fun x => { s with vfs := s.vfs.setPipe k x }
  | _ => some s

/-- `sys_read` of a pipe up to its loop. `nonblock` is the bit of the flags of the descriptor. -/
def read (pid fd thread size : ℕ) (nonblock : Bool) : Option PipeFiles :=
  if size = 0 then some s
  else
    match s.fdNode pid fd with
    | none => some s
    | some n =>
      if s.vfs.released n then none
      else
        match s.vfs.spec n with
        | none => some s
        | some (k, write) =>
          if (s.vfs.pipe k).info.ptr = 0 ∧ nonblock then
            if write then some s
            else
              some { s with
                reports := s.reports ++
                  [.read (.error codeEwouldblock) true (fdCount s.fdts (endNode k true))] }
          else if write then some s
          else s.beginCall k thread (.beginRead thread size)

/-- `sys_write` of a pipe up to its loop. -/
def write (pid fd thread : ℕ) (data : List UInt8) (nonblock : Bool) : Option PipeFiles :=
  if data = [] then some s
  else
    match s.fdNode pid fd with
    | none => some s
    | some n =>
      if s.vfs.released n then none
      else
        match s.vfs.spec n with
        | some (k, true) => s.beginCall k thread (.beginWrite thread data nonblock)
        | _ => some s

/-- What a pass of a call on a pipe returns, if it ends the loop. -/
def report (k thread : ℕ) (nonblock : Bool) : List PipeReport :=
  let x := s.vfs.pipe k
  match x.calls thread with
  | .reading size =>
    ((pipeReadRet x.info size nonblock).map fun ret =>
      .read ret (x.info.ptr = 0 : Bool) (fdCount s.fdts (endNode k true))).toList
  | .writing _ data written nonblock =>
    ((pipeWriteRet x.info data written nonblock).map fun ret =>
      .write ret written (fdCount s.fdts (endNode k false))).toList
  | _ => []

def pass (k thread : ℕ) (nonblock : Bool) : PipeFiles :=
  match (s.vfs.pipe k).pass thread nonblock with
  | none => s
  | some x => { s with vfs := s.vfs.setPipe k x, reports := s.reports ++ s.report k thread nonblock }

def interrupt (k thread : ℕ) : PipeFiles :=
  match (s.vfs.pipe k).step (.interrupt thread) with
  | none => s
  | some x => { s with vfs := s.vfs.setPipe k x }

def leave (k thread : ℕ) : PipeFiles :=
  match (s.vfs.pipe k).calls thread with
  | .leaving write => { s with vfs := s.vfs.leave k thread write }
  | _ => s

/-- The steps; `none` when a node is used that has been freed. -/
def step (s : PipeFiles) : PipeFdOp → Option PipeFiles
  | .openFile pid alloc => s.openFile pid alloc
  | .pipe2 pid alloc alloc' => some (s.pipe2 pid alloc alloc')
  | .dup pid fd alloc => s.dup pid fd alloc
  | .dup2 pid fd newfd alloc => s.dup2 pid fd newfd alloc
  | .dup3 pid oldfd newfd flags alloc => s.dup3 pid oldfd newfd flags alloc
  | .dupfd pid fd minFd alloc alloc' => s.dupWithMinfd pid fd minFd alloc alloc'
  | .fork pid alloc => s.fork pid alloc
  | .close pid fd => s.close pid fd
  | .exit pid => s.exit pid
  | .read pid fd thread size nonblock => s.read pid fd thread size nonblock
  | .write pid fd thread data nonblock => s.write pid fd thread data nonblock
  | .pass k thread nonblock => some (if s.vfs.IsPipe k then s.pass k thread nonblock else s)
  | .interrupt k thread => some (if s.vfs.IsPipe k then s.interrupt k thread else s)
  | .leave k thread => some (if s.vfs.IsPipe k then s.leave k thread else s)

def boot : PipeFiles where
  vfs := ⟨fun _ => none, fun _ => 0, fun _ => false, 0, fun _ => .new⟩
  fdts := [List.replicate fdInitialCapacity none]
  reports := []

end PipeFiles

/-- The counts of a pipe are these, an end without descriptors is on its way out, and so is a pipe
without any. -/
structure PipeExact (readers writers : ℕ) (x : PipeState) : Prop where
  readFds : x.info.readFds = readers
  writeFds : x.info.writeFds = writers
  live : PipeLive x
  settled : readers = 0 → writers = 0 → x.info.freed = true ∨
    x.info.freePending = true ∧ x.info.active ≠ 0
  readSpec : x.readSpec.freed = true ∨ x.readSpec.freePending = true → readers = 0
  writeSpec : x.writeSpec.freed = true ∨ x.writeSpec.freePending = true → writers = 0
  reading : ∀ t size, x.calls t = .reading size → size ≠ 0

theorem pipeExact_new : PipeExact 1 1 new where
  readFds := rfl
  writeFds := rfl
  live := ⟨⟨∅, by simp [new], rfl⟩, by simp [new]⟩
  settled := by simp
  readSpec := by simp [new]
  writeSpec := by simp [new]
  reading := by simp [new]

variable {thread n k : ℕ} {nonblock : Bool} {x : PipeState}

section Pipe

variable {readers writers : ℕ} {x x' : PipeState}

theorem PipeExact.fds_eq (h : PipeExact readers writers x) (write : Bool) :
    x.fds write = if write then writers else readers := by
  cases write with
  | true => exact h.writeFds
  | false => exact h.readFds

theorem PipeExact.freed_iff (h : PipeExact readers writers x) :
    x.info.freed = true ↔ readers = 0 ∧ writers = 0 ∧ ∀ t, x.calls t = .idle := by
  obtain ⟨threads, hmem, hcard⟩ := h.live.busy
  constructor
  · intro hfreed
    obtain ⟨hactive, hr, hw⟩ := h.live.freed hfreed
    refine ⟨h.readFds ▸ hr, h.writeFds ▸ hw, fun t => ?_⟩
    rw [← hcard, Finset.card_eq_zero] at hactive
    by_contra hbusy
    simpa [hactive] using (hmem t).mpr hbusy
  · rintro ⟨hr, hw, hidle⟩
    refine (h.settled hr hw).resolve_right fun hpending => hpending.2 ?_
    rw [← hcard, Finset.card_eq_zero]
    apply Finset.eq_empty_of_forall_notMem
    exact fun t ht => (hmem t).mp ht (hidle t)

theorem PipeExact.dup (h : PipeExact readers writers x) {write : Bool} (hfds : x.fds write ≠ 0) :
    PipeExact (readers + (!write).toNat) (writers + write.toNat) (x.dup write) := by
  have hstep : x.step (.dup write) = some (x.dup write) := by
    simp only [step, if_neg hfds]
  have hlive := h.live.step hstep
  rw [h.fds_eq] at hfds
  cases write with
  | true =>
    refine ⟨h.readFds, congrArg (· + 1) h.writeFds, hlive, ?_, h.readSpec, ?_, h.reading⟩
    · exact fun _ hw => absurd hw (Nat.succ_ne_zero _)
    · exact fun hspec => absurd (h.writeSpec hspec) hfds
  | false =>
    refine ⟨congrArg (· + 1) h.readFds, h.writeFds, hlive, ?_, ?_, h.writeSpec, h.reading⟩
    · exact fun hr _ => absurd hr (Nat.succ_ne_zero _)
    · exact fun hspec => absurd (h.readSpec hspec) hfds

theorem PipeSpecific.close_gone (spec : PipeSpecific) (fds : ℕ)
    (h : (spec.close fds).freed = true ∨ (spec.close fds).freePending = true) :
    fds = 0 ∨ spec.freed = true ∨ spec.freePending = true := by
  unfold PipeSpecific.close at h
  split_ifs at h with hfds
  · exact .inl hfds
  · exact .inl hfds
  · exact .inr h

theorem PipeExact.close (h : PipeExact readers writers x) {write : Bool} (hfds : x.fds write ≠ 0) :
    PipeExact (readers - (!write).toNat) (writers - write.toNat) (x.close write) := by
  have hlive := h.live.close write hfds
  have hinfo : (x.close write).info.readFds = readers - (!write).toNat ∧
      (x.close write).info.writeFds = writers - write.toNat ∧
      (readers - (!write).toNat = 0 → writers - write.toNat = 0 → (x.close write).info.freed = true ∨
          (x.close write).info.freePending = true ∧ (x.close write).info.active ≠ 0) := by
    rw [← h.readFds, ← h.writeFds]
    cases write with
    | true =>
      simp only [PipeState.close, if_true]
      split_ifs with hlast hactive
      · exact ⟨rfl, rfl, fun _ _ => .inl rfl⟩
      · exact ⟨rfl, rfl, fun _ _ => .inr ⟨rfl, hactive⟩⟩
      · exact ⟨rfl, rfl, fun hr hw => absurd ⟨hw, hr⟩ hlast⟩
    | false =>
      simp only [PipeState.close, false_eq_true, if_false]
      split_ifs with hlast hactive
      · exact ⟨rfl, rfl, fun _ _ => .inl rfl⟩
      · exact ⟨rfl, rfl, fun _ _ => .inr ⟨rfl, hactive⟩⟩
      · exact ⟨rfl, rfl, fun hr hw => absurd ⟨hw, hr⟩ hlast⟩
  refine ⟨hinfo.1, hinfo.2.1, hlive, hinfo.2.2, ?_, ?_, ?_⟩
  · cases write with
    | true => exact h.readSpec
    | false =>
      intro hspec
      rcases PipeSpecific.close_gone x.readSpec _ hspec with hzero | hspec
      · exact h.readFds ▸ hzero
      · exact Nat.sub_eq_zero_of_le ((h.readSpec hspec).trans_le (Nat.zero_le _))
  · cases write with
    | false => exact h.writeSpec
    | true =>
      intro hspec
      rcases PipeSpecific.close_gone x.writeSpec _ hspec with hzero | hspec
      · exact h.writeFds ▸ hzero
      · exact Nat.sub_eq_zero_of_le ((h.writeSpec hspec).trans_le (Nat.zero_le _))
  · cases write <;> exact h.reading

theorem PipeExact.pend (h : PipeExact readers writers x) {write : Bool}
    (hgone : x.fds write = 0) : PipeExact readers writers (x.pend write) := by
  rw [h.fds_eq] at hgone
  cases write with
  | true => exact ⟨h.readFds, h.writeFds, h.live.congr rfl (fun _ => Iff.rfl) h.live.freed, h.settled, h.readSpec, fun _ => hgone, h.reading⟩
  | false => exact ⟨h.readFds, h.writeFds, h.live.congr rfl (fun _ => Iff.rfl) h.live.freed, h.settled, fun _ => hgone, h.writeSpec, h.reading⟩

theorem PipeExact.enter (h : PipeExact readers writers x) {write : Bool} {call : PipeCall}
    (hidle : x.calls thread = .idle) (hcall : call ≠ .idle) (hsize : ∀ size, call = .reading size → size ≠ 0)
    (hfds : x.fds write ≠ 0) {writes : List (List UInt8)} : PipeExact readers writers
      { x.enter write with calls := update x.calls thread call, writes := writes } := by
  have hopen : x.info.readFds ≠ 0 ∨ x.info.writeFds ≠ 0 := by
    cases write with
    | true => exact .inr hfds
    | false => exact .inl hfds
  have hreading : ∀ t size, update x.calls thread call t = .reading size → size ≠ 0 := by
    intro t size ht
    by_cases heq : t = thread
    · rw [heq, update_self] at ht
      exact hsize size ht
    · rw [update_of_ne heq] at ht
      exact h.reading t size ht
  cases write with
  | true =>
    refine ⟨h.readFds, h.writeFds, h.live.enter hidle hcall rfl rfl rfl hopen, fun hr hw => ?_, h.readSpec,
      h.writeSpec, hreading⟩
    rw [h.readFds, h.writeFds, hr, hw] at hopen
    simp at hopen
  | false =>
    refine ⟨h.readFds, h.writeFds, h.live.enter hidle hcall rfl rfl rfl hopen, fun hr hw => ?_, h.readSpec,
      h.writeSpec, hreading⟩
    rw [h.readFds, h.writeFds, hr, hw] at hopen
    simp at hopen

theorem PipeExact.congr (h : PipeExact readers writers x) (hlive : PipeLive x')
    (hinfo : x'.info.readFds = x.info.readFds ∧ x'.info.writeFds = x.info.writeFds ∧
      x'.info.active = x.info.active ∧ x'.info.freed = x.info.freed ∧
      x'.info.freePending = x.info.freePending)
    (hspec : x'.readSpec = x.readSpec ∧ x'.writeSpec = x.writeSpec)
    (hcalls : ∀ t size, x'.calls t = .reading size → x.calls t = .reading size) :
    PipeExact readers writers x' where
  readFds := hinfo.1.trans h.readFds
  writeFds := hinfo.2.1.trans h.writeFds
  live := hlive
  settled := by
    rw [hinfo.2.2.1, hinfo.2.2.2.1, hinfo.2.2.2.2]
    exact h.settled
  readSpec := hspec.1 ▸ h.readSpec
  writeSpec := hspec.2 ▸ h.writeSpec
  reading := fun t size ht => h.reading t size (hcalls t size ht)

theorem calls_reading_update {calls : ℕ → PipeCall} {call : PipeCall} (hcall : ∀ size, call ≠ .reading size)
    (t size : ℕ) (ht : update calls thread call t = .reading size) : calls t = .reading size := by
  by_cases heq : t = thread
  · rw [heq, update_self] at ht
    exact absurd ht (hcall size)
  · rwa [update_of_ne heq] at ht

theorem pipefsRead_frame (pipe : PipeInfo) (size : ℕ) (nonblock : Bool) :
    (pipefsRead pipe size nonblock).1.readFds = pipe.readFds ∧
      (pipefsRead pipe size nonblock).1.writeFds = pipe.writeFds ∧
      (pipefsRead pipe size nonblock).1.active = pipe.active ∧
      (pipefsRead pipe size nonblock).1.freed = pipe.freed ∧
      (pipefsRead pipe size nonblock).1.freePending = pipe.freePending := by
  unfold pipefsRead
  split_ifs <;> exact ⟨rfl, rfl, rfl, rfl, rfl⟩

theorem pipeWriteInner_frame (pipe : PipeInfo) (data : List UInt8) (atomic allowWait : Bool) :
    (pipeWriteInner pipe data atomic allowWait).1.readFds = pipe.readFds ∧
      (pipeWriteInner pipe data atomic allowWait).1.writeFds = pipe.writeFds ∧
      (pipeWriteInner pipe data atomic allowWait).1.active = pipe.active ∧
      (pipeWriteInner pipe data atomic allowWait).1.freed = pipe.freed ∧
      (pipeWriteInner pipe data atomic allowWait).1.freePending = pipe.freePending := by
  unfold pipeWriteInner
  dsimp only
  split_ifs <;> exact ⟨rfl, rfl, rfl, rfl, rfl⟩

theorem PipeExact.pass (h : PipeExact readers writers x) (hpass : x.pass thread nonblock = some x') :
    PipeExact readers writers x' := by
  have hlive := h.live.pass hpass
  unfold PipeState.pass at hpass
  split at hpass
  case h_1 size hcall =>
    have hframe := pipefsRead_frame x.info size nonblock
    split at hpass <;> rename_i hread <;> rw [hread] at hframe <;>
      cases hpass
    · exact h.congr hlive hframe ⟨rfl, rfl⟩ (calls_reading_update nofun)
    · exact h.congr hlive hframe ⟨rfl, rfl⟩ (calls_reading_update nofun)
    · exact h.congr hlive hframe ⟨rfl, rfl⟩ fun _ _ => id
  case h_2 id data written nonblock' hcall =>
    have hframe := pipeWriteInner_frame x.info (data.drop written)
      (data.length ≤ pipeAtomicMax : Bool) (!nonblock')
    dsimp only at hpass
    split at hpass <;> rename_i hwrite <;> rw [hwrite] at hframe <;>
      cases hpass
    · refine h.congr hlive hframe ⟨rfl, rfl⟩ (calls_reading_update fun size => ?_)
      unfold nextWriteCall
      split_ifs <;> nofun
    · exact h.congr hlive hframe ⟨rfl, rfl⟩ (calls_reading_update nofun)
    · exact h.congr hlive hframe ⟨rfl, rfl⟩ fun _ _ => fun hc => hc
  · cases hpass

theorem PipeExact.interrupt (h : PipeExact readers writers x) (hstep : x.step (.interrupt thread) = some x') :
    PipeExact readers writers x' := by
  have hlive := h.live.step hstep
  simp only [step] at hstep
  split at hstep
  · cases hstep
    exact h.congr hlive ⟨rfl, rfl, rfl, rfl, rfl⟩ ⟨rfl, rfl⟩ (calls_reading_update (by simp))
  · cases hstep
    exact h.congr hlive ⟨rfl, rfl, rfl, rfl, rfl⟩ ⟨rfl, rfl⟩ (calls_reading_update (by simp))
  · cases hstep

theorem PipeExact.leave (h : PipeExact readers writers x) {write : Bool}
    (hcall : x.calls thread = .leaving write) :
    PipeExact readers writers { x.leave write with calls := update x.calls thread .idle } := by
  have hlive := h.live.leave hcall
  have hsettled : readers = 0 → writers = 0 → (x.leave write).info.freed = true ∨
      (x.leave write).info.freePending = true ∧ (x.leave write).info.active ≠ 0 := by
    intro hr hw
    have hrfds := h.readFds.trans hr
    have hwfds := h.writeFds.trans hw
    have hlast : (x.leave write).info.freed =
          (x.info.freed || (x.info.freePending && (x.info.active - 1 = 0 : Bool))) ∧
        (x.leave write).info.freePending = x.info.freePending ∧
        (x.leave write).info.active = x.info.active - 1 := by
      cases write <;> simp [PipeState.leave, hrfds, hwfds]
    obtain ⟨hfreed, hpending, hactive⟩ := hlast
    rw [hfreed, hpending, hactive]
    rcases h.settled hr hw with hfreed | ⟨hpending, -⟩
    · exact .inl (by rw [hfreed, Bool.true_or])
    · by_cases hzero : x.info.active - 1 = 0
      · exact .inl (by simp [hpending, hzero])
      · exact .inr ⟨hpending, hzero⟩
  have hspec : ∀ spec : PipeSpecific, spec.leave.freed = true ∨ spec.leave.freePending = true →
      spec.freed = true ∨ spec.freePending = true := by
    intro spec hgone
    simp only [PipeSpecific.leave, or_eq_true, and_eq_true] at hgone
    tauto
  have hreading : ∀ t size, update x.calls thread .idle t = .reading size → size ≠ 0 := by
    intro t size ht
    have hidle : ∀ size, PipeCall.idle ≠ .reading size := by simp
    exact h.reading t size (calls_reading_update hidle t size ht)
  cases write with
  | true => exact ⟨h.readFds, h.writeFds, hlive, hsettled, h.readSpec, fun hgone => h.writeSpec (hspec _ hgone), hreading⟩
  | false => exact ⟨h.readFds, h.writeFds, hlive, hsettled, fun hgone => h.readSpec (hspec _ hgone), h.writeSpec, hreading⟩

end Pipe

/-- With `count n` descriptors of each node `n`, the reference counts and the counts of the pipes are the
numbers of descriptors, and no node that was freed has one. -/
structure PipeHeld (count : ℕ → ℕ) (v : PipeVfs) : Prop where
  fresh : ∀ n, v.nextNode ≤ n → v.spec n = none ∧ v.released n = false ∧ count n = 0
  refcount : ∀ n e, v.spec n = some e → v.refcount n = count n
  released : ∀ n, v.released n = true → count n = 0
  ends : ∀ n k write, v.spec n = some (k, write) → n = endNode k write ∧ v.spec k = some (k, false) ∧
    v.spec (endNode k true) = some (k, true)
  exact : ∀ k, v.spec k = some (k, false) → PipeExact (count k) (count (endNode k true)) (v.pipe k)

theorem pipeHeld_boot : PipeHeld (fun _ => 0) PipeFiles.boot.vfs where
  fresh := fun _ _ => ⟨rfl, rfl, rfl⟩
  refcount := nofun
  released := nofun
  ends := nofun
  exact := nofun

section Nodes

variable {count count' : ℕ → ℕ} {v : PipeVfs} {n k : ℕ} {write : Bool}

theorem PipeHeld.fds_eq (h : PipeHeld count v) (hn : v.spec n = some (k, write)) :
    (v.pipe k).fds write = count n := by
  obtain ⟨rfl, hk, -⟩ := h.ends n k write hn
  rw [(h.exact k hk).fds_eq]
  cases write <;> rfl

theorem PipeHeld.change (h : PipeHeld count v) (hn : v.spec n = some (k, write))
    (hsame : ∀ m, m ≠ n → count' m = count m) {released : ℕ → Bool}
    (hreleased : ∀ m, released m = true → m < v.nextNode ∧ count' m = 0)
    (hx : PipeExact (count' k) (count' (endNode k true)) x) :
    PipeHeld count' { v with
      refcount := update v.refcount n (count' n)
      released := released
      pipe := update v.pipe k x } where
  fresh m hm := by
    obtain ⟨hspec, -, hzero⟩ := h.fresh m hm
    have hne : m ≠ n := by
      rintro rfl
      rw [hn] at hspec
      cases hspec
    refine ⟨hspec, ?_, (hsame m hne).trans hzero⟩
    by_contra hrel
    exact absurd (hreleased m (by simpa using hrel)).1 (not_lt.mpr hm)
  refcount m e hm := by
    dsimp only
    by_cases heq : m = n
    · rw [heq, update_self]
    · rw [update_of_ne heq, hsame m heq]
      exact h.refcount m e hm
  released m hm := (hreleased m hm).2
  ends := h.ends
  exact k' hk' := by
    dsimp only
    by_cases heq : k' = k
    · rw [heq, update_self]
      exact hx
    · -- the ends of another pipe are other nodes
      have hread : k' ≠ n := by
        rintro rfl
        rw [hn] at hk'
        exact heq (congrArg Prod.fst (Option.some.inj hk')).symm
      have hwrite : endNode k' true ≠ n := by
        rintro rfl
        have hend := (h.ends k' k' false hk').2.2
        rw [hn] at hend
        exact heq (congrArg Prod.fst (Option.some.inj hend)).symm
      rw [update_of_ne heq, hsame k' hread, hsame _ hwrite]
      exact h.exact k' hk'

theorem PipeHeld.change_file (h : PipeHeld count v) (hn : v.spec n = none) (hlt : n < v.nextNode)
    (hsame : ∀ m, m ≠ n → count' m = count m) (hreleased : v.released n = false)
    (refcount : ℕ) : PipeHeld count' { v with refcount := update v.refcount n refcount } := by
  have hother : ∀ m e, v.spec m = some e → m ≠ n := by
    rintro m e hm rfl
    rw [hn] at hm
    cases hm
  constructor
  · intro m hm
    obtain ⟨hspec, hrel, hzero⟩ := h.fresh m hm
    exact ⟨hspec, hrel, (hsame m (hlt.trans_le hm).ne').trans hzero⟩
  · intro m e hm
    dsimp only
    rw [update_of_ne (hother m e hm), hsame m (hother m e hm)]
    exact h.refcount m e hm
  · intro m hm
    rw [hsame m]
    · exact h.released m hm
    · rintro rfl
      exact absurd hm (by simp [hreleased])
  · exact h.ends
  · intro k' hk'
    rw [hsame k' (hother k' _ hk'), hsame _ (hother _ _ (h.ends k' k' false hk').2.2)]
    exact h.exact k' hk'

theorem PipeHeld.lt (h : PipeHeld count v) (hn : count n ≠ 0) : n < v.nextNode := by
  by_contra hle
  exact hn (h.fresh n (not_lt.mp hle)).2.2

theorem PipeHeld.not_released (h : PipeHeld count v) (hn : count n ≠ 0) : v.released n = false := by
  by_contra hrel
  exact hn (h.released n (by simpa using hrel))

theorem PipeHeld.released_lt (h : PipeHeld count v) (hn : v.released n = true) : n < v.nextNode := by
  by_contra hle
  rw [(h.fresh n (not_lt.mp hle)).2.1] at hn
  cases hn

theorem PipeHeld.dup (h : PipeHeld count v) (hn : count n ≠ 0)
    (hcount : ∀ m, count' m = count m + if m = n then 1 else 0) :
    ∃ v', v.dup n = some v' ∧ PipeHeld count' v' := by
  have hsame : ∀ m, m ≠ n → count' m = count m := fun m hm => by rw [hcount, if_neg hm, add_zero]
  have hself : count' n = count n + 1 := by rw [hcount, if_pos rfl]
  have hlive := h.not_released hn
  unfold PipeVfs.dup
  simp only [hlive, false_eq_true, if_false]
  cases hspec : v.spec n with
  | none => exact ⟨_, rfl, h.change_file hspec (h.lt hn) hsame hlive _⟩
  | some e =>
    obtain ⟨k, write⟩ := e
    obtain ⟨rfl, hk, -⟩ := h.ends n k write hspec
    refine ⟨_, rfl, ?_⟩
    have hfds : (v.pipe k).fds write ≠ 0 := by rwa [h.fds_eq hspec]
    have hx := (h.exact k hk).dup hfds
    rw [h.refcount _ _ hspec, ← hself]
    apply h.change hspec hsame
    · intro m hm
      refine ⟨h.released_lt hm, ?_⟩
      rw [hsame m]
      · exact h.released m hm
      · rintro rfl
        exact absurd hm (by simp [hlive])
    · rw [hcount k, hcount (endNode k true)]
      cases write with
      | true => simpa [endNode] using hx
      | false => simpa [endNode] using hx

theorem PipeHeld.close (h : PipeHeld count v) (hcount : ∀ m, count' m + (if m = n then 1 else 0) = count m) :
    ∃ v', v.close n = some v' ∧ PipeHeld count' v' := by
  have hsame : ∀ m, m ≠ n → count' m = count m := fun m hm => by rw [← hcount, if_neg hm, add_zero]
  have hself : count n - 1 = count' n := by rw [← hcount, if_pos rfl, Nat.add_sub_cancel]
  have hn : count n ≠ 0 := by
    rw [← hcount, if_pos rfl]
    exact Nat.succ_ne_zero _
  have hlive := h.not_released hn
  have hreleased : ∀ m, v.released m = true → m < v.nextNode ∧ count' m = 0 := by
    intro m hm
    refine ⟨h.released_lt hm, ?_⟩
    rw [hsame m]
    · exact h.released m hm
    · rintro rfl
      exact absurd hm (by simp [hlive])
  unfold PipeVfs.close
  simp only [hlive, false_eq_true, if_false]
  cases hspec : v.spec n with
  | none => exact ⟨_, rfl, h.change_file hspec (h.lt hn) hsame hlive _⟩
  | some e =>
    obtain ⟨k, write⟩ := e
    obtain ⟨rfl, hk, -⟩ := h.ends n k write hspec
    have hfds : (v.pipe k).fds write ≠ 0 := by rwa [h.fds_eq hspec]
    have hpipe := h.exact k hk
    have hkept : ((v.pipe k).spec write).freed = false := by
      by_contra hfreed
      cases write with
      | true => exact hn (hpipe.writeSpec (.inl (by simpa [spec] using hfreed)))
      | false => exact hn (hpipe.readSpec (.inl (by simpa [spec] using hfreed)))
    have hx : PipeExact (count' k) (count' (endNode k true)) ((v.pipe k).close write) := by
      have hclosed := hpipe.close hfds
      have hk' := hcount k
      have hend := hcount (endNode k true)
      cases write with
      | true =>
        simp only [endNode, toNat_true, Nat.left_eq_add, one_ne_zero, if_false, add_zero, if_true] at hk' hend
        simpa [endNode, ← hk', ← hend] using hclosed
      | false =>
        simp only [endNode, toNat_true, toNat_false, add_zero, Nat.add_eq_left, one_ne_zero, if_false, if_true] at hk' hend
        simpa [endNode, ← hk', ← hend] using hclosed
    simp only [hkept, false_eq_true, if_false, update_self, h.refcount _ _ hspec, hself]
    split_ifs with hzero hactive
    · exact ⟨_, rfl, h.change hspec hsame hreleased hx⟩
    · refine ⟨_, rfl, h.change hspec hsame hreleased (hx.pend ?_)⟩
      rw [hx.fds_eq]
      cases write with
      | true => exact not_not.mp hzero
      | false => exact not_not.mp hzero
    · refine ⟨_, rfl, h.change hspec hsame (fun m hm => ?_) hx⟩
      by_cases heq : m = endNode k write
      · exact heq ▸ ⟨h.lt hn, not_not.mp hzero⟩
      · rw [update_of_ne heq] at hm
        exact hreleased m hm

theorem PipeHeld.allocFile (h : PipeHeld count v)
    (hcount : ∀ m, count' m = count m + if m = v.nextNode then 1 else 0) :
    PipeHeld count' (v.alloc none) := by
  have hfresh := h.fresh v.nextNode le_rfl
  have hsame : ∀ m, m ≠ v.nextNode → count' m = count m := fun m hm => by
    rw [hcount, if_neg hm, add_zero]
  have hspec : (v.alloc none).spec = v.spec := by
    funext m
    unfold PipeVfs.alloc
    dsimp only
    by_cases heq : m = v.nextNode
    · rw [heq, update_self, hfresh.1]
    · exact update_of_ne heq _ _
  have hother : ∀ m e, v.spec m = some e → m ≠ v.nextNode := by
    rintro m e hm rfl
    rw [hfresh.1] at hm
    cases hm
  constructor
  · intro m hm
    have hm : v.nextNode + 1 ≤ m := hm
    obtain ⟨hm', hrel, hzero⟩ := h.fresh m (by omega)
    exact ⟨hspec ▸ hm', hrel, (hsame m (by omega)).trans hzero⟩
  · intro m e hm
    rw [hspec] at hm
    unfold PipeVfs.alloc
    dsimp only
    rw [update_of_ne (hother m e hm), hsame m (hother m e hm)]
    exact h.refcount m e hm
  · intro m hm
    rw [hsame m]
    · exact h.released m hm
    · rintro rfl
      exact absurd hm (by simp [PipeVfs.alloc, hfresh.2.1])
  · rw [hspec]
    exact h.ends
  · intro k hk
    rw [hspec] at hk
    rw [hsame k (hother k _ hk), hsame _ (hother _ _ (h.ends k k false hk).2.2)]
    exact h.exact k hk

theorem PipeHeld.allocPipe (h : PipeHeld count v)
    (hcount : ∀ m, count' m = count m + (if m = v.nextNode then 1 else 0) +
      if m = endNode v.nextNode true then 1 else 0) :
    PipeHeld count' (((v.alloc (some (v.nextNode, false))).alloc (some (v.nextNode, true))).setPipe
      v.nextNode new) := by
  have hread := h.fresh v.nextNode le_rfl
  have hwrite := h.fresh (v.nextNode + 1) (Nat.le_succ _)
  have hsame : ∀ m, m ≠ v.nextNode → m ≠ v.nextNode + 1 → count' m = count m := by
    intro m hm hm'
    rw [hcount, if_neg hm, if_neg (show m ≠ endNode v.nextNode true from hm'), add_zero, add_zero]
  have hnew : count' v.nextNode = 1 ∧ count' (v.nextNode + 1) = 1 := by
    rw [hcount, hcount, hread.2.2, hwrite.2.2]
    simp [endNode]
  have hspec : ∀ m, (((v.alloc (some (v.nextNode, false))).alloc (some (v.nextNode, true))).setPipe
      v.nextNode new).spec m = if m = v.nextNode + 1 then some (v.nextNode, true)
        else if m = v.nextNode then some (v.nextNode, false) else v.spec m := by
    intro m
    simp only [PipeVfs.alloc, PipeVfs.setPipe, update_apply]
  have hold : ∀ m e, v.spec m = some e → m ≠ v.nextNode ∧ m ≠ v.nextNode + 1 := by
    intro m e hm
    constructor
    · rintro rfl
      rw [hread.1] at hm
      cases hm
    · rintro rfl
      rw [hwrite.1] at hm
      cases hm
  constructor
  · intro m hm
    have hm : v.nextNode + 1 + 1 ≤ m := hm
    obtain ⟨hm', hrel, hzero⟩ := h.fresh m (by omega)
    rw [hspec, if_neg (by omega), if_neg (by omega), hsame m (by omega) (by omega)]
    exact ⟨hm', hrel, hzero⟩
  · intro m e hm
    rw [hspec] at hm
    have hrc : (((v.alloc (some (v.nextNode, false))).alloc (some (v.nextNode, true))).setPipe
        v.nextNode new).refcount m = if m = v.nextNode + 1 then 1
          else if m = v.nextNode then 1 else v.refcount m := by
      simp only [PipeVfs.alloc, PipeVfs.setPipe, update_apply]
    rw [hrc]
    split_ifs at hm ⊢ with hw hr
    · rw [hw, hnew.2]
    · rw [hr, hnew.1]
    · rw [hsame m hr hw]
      exact h.refcount m e hm
  · intro m hm
    have hm : v.released m = true := hm
    rw [hsame m]
    · exact h.released m hm
    · rintro rfl
      exact absurd hm (by simp [hread.2.1])
    · rintro rfl
      exact absurd hm (by simp [hwrite.2.1])
  · intro m k write hm
    rw [hspec] at hm
    simp only [hspec]
    split_ifs at hm with hw hr
    · cases hm
      simp [endNode, hw]
    · cases hm
      simp [endNode, hr]
    · obtain ⟨hm', hk, hend⟩ := h.ends m k write hm
      have hk' := hold k _ hk
      have hend' := hold _ _ hend
      rw [if_neg hk'.2, if_neg hk'.1, if_neg hend'.2, if_neg hend'.1]
      exact ⟨hm', hk, hend⟩
  · intro k hk
    rw [hspec] at hk
    unfold PipeVfs.setPipe
    dsimp only
    split_ifs at hk with hw hr
    · cases hk
    · rw [hr, update_self, hnew.1, show endNode v.nextNode true = v.nextNode + 1 from rfl, hnew.2]
      exact pipeExact_new
    · have hk' := hold k _ hk
      have hend' := hold _ _ (h.ends k k false hk).2.2
      rw [update_of_ne hk'.1, hsame k hk'.1 hk'.2, hsame _ hend'.1 hend'.2]
      exact h.exact k hk

theorem PipeHeld.setPipe (h : PipeHeld count v) {released : ℕ → Bool}
    (hreleased : ∀ m, released m = true → m < v.nextNode ∧ count m = 0)
    (hx : v.spec k = some (k, false) → PipeExact (count k) (count (endNode k true)) x) :
    PipeHeld count { v.setPipe k x with released := released } where
  fresh m hm := by
    obtain ⟨hspec, -, hzero⟩ := h.fresh m hm
    refine ⟨hspec, ?_, hzero⟩
    by_contra hrel
    exact absurd (hreleased m (by simpa using hrel)).1 (not_lt.mpr hm)
  refcount := h.refcount
  released m hm := (hreleased m hm).2
  ends := h.ends
  exact k' hk' := by
    unfold PipeVfs.setPipe
    dsimp only
    by_cases heq : k' = k
    · rw [heq, update_self]
      exact hx (heq ▸ hk')
    · rw [update_of_ne heq]
      exact h.exact k' hk'

theorem PipeHeld.leave (h : PipeHeld count v) (hcall : (v.pipe k).calls thread = .leaving write)
    (hk : v.IsPipe k) : PipeHeld count (v.leave k thread write) := by
  have hend : v.spec (endNode k write) = some (k, write) := by
    cases write with
    | true => exact (h.ends k k false hk).2.2
    | false => exact hk
  have hreleased : ∀ m, v.released m = true → m < v.nextNode ∧ count m = 0 :=
    fun m hm => ⟨h.released_lt hm, h.released m hm⟩
  apply h.setPipe
  · intro m hm
    split_ifs at hm with hlast
    · by_cases heq : m = endNode k write
      · refine ⟨?_, ?_⟩
        · by_contra hle
          rw [heq] at hle
          rw [(h.fresh _ (not_lt.mp hle)).1] at hend
          cases hend
        · rw [heq, ← h.refcount _ _ hend]
          exact hlast.2.2
      · rw [update_of_ne heq] at hm
        exact hreleased m hm
    · exact hreleased m hm
  · exact fun _ => (h.exact k hk).leave hcall

end Nodes

def HasRoom (fdt : List (Option ℕ)) (alloc : Bool) : Prop := findFreeFd fdt = none → alloc = true

instance (fdt : List (Option ℕ)) (alloc : Bool) : Decidable (HasRoom fdt alloc) :=
  inferInstanceAs (Decidable (_ → _))

theorem HasRoom.addFd {fdt : List (Option ℕ)} {alloc : Bool} (h : HasRoom fdt alloc) (n : ℕ) :
    ∃ fdt' fd, addFd fdt n alloc = some (fdt', fd) := by
  unfold CoolPotOS.addFd
  cases hfree : findFreeFd fdt with
  | some fd => exact ⟨_, fd, rfl⟩
  | none =>
    obtain ⟨k, hk⟩ : ∃ k, expandFdsTable fdt alloc = some (fdt ++ replicate (k + 1) none) := by
      unfold expandFdsTable
      dsimp only
      rw [if_pos (h hfree)]
      by_cases hzero : fdt.length * 2 = 0
      · rw [if_pos hzero, show fdt.length = 0 by omega]
        exact ⟨4, rfl⟩
      · rw [if_neg hzero]
        exact ⟨fdt.length - 1, by congr; omega⟩
    obtain ⟨fd, hfd⟩ : ∃ fd, findFreeFd (fdt ++ replicate (k + 1) none) = some fd := by
      apply isSome_iff_exists.mp
      unfold findFreeFd
      rw [findIdx?_isSome, List.any_eq_true]
      exact ⟨none, by simp, rfl⟩
    simp only [hk, bind_some, hfd, map_some]
    exact ⟨_, fd, rfl⟩

section Tables

variable {fdts : List (List (Option ℕ))} {pid : ℕ} {fdt fdt' : List (Option ℕ)}

theorem fdCount_addFd {fd : ℕ} {alloc : Bool} (hfdt : fdts[pid]? = some fdt)
    (hadd : addFd fdt n alloc = some (fdt', fd)) (m : ℕ) :
    fdCount (fdts.set pid fdt') m = fdCount fdts m + if m = n then 1 else 0 := by
  have hset := fdCount_set hfdt fdt' m
  have hcount := count_addFd hadd m
  omega

theorem fdCount_place {fd : ℕ} (hfdt : fdts[pid]? = some fdt)
    (hsame : ∀ m, fdt'.count (some m) = fdt.count (some m)) (hplace : fdt'[fd]? = some none) (m : ℕ) :
    fdCount (fdts.set pid (fdt'.set fd (some n))) m = fdCount fdts m + if m = n then 1 else 0 := by
  have hset := fdCount_set hfdt (fdt'.set fd (some n)) m
  have hcount := count_set hplace (some n) (some m)
  have hm := hsame m
  rw [if_neg nofun, add_zero] at hcount
  simp only [Option.some.injEq, eq_comm (a := n)] at hcount
  omega

theorem fdCount_ne_zero (hfdt : fdts[pid]? = some fdt) (hn : some n ∈ fdt) :
    fdCount fdts n ≠ 0 := (fdCount_pos (mem_of_getElem? hfdt) hn).ne'

end Tables

section Loops

variable {count count' : ℕ → ℕ} {v : PipeVfs}

theorem PipeHeld.copyFdt (h : PipeHeld count v) (fdt : List (Option ℕ))
    (hfdt : ∀ n, some n ∈ fdt → count n ≠ 0) (hcount : ∀ n, count' n = count n + fdt.count (some n)) :
    ∃ v', pipeCopyFdt fdt v = some v' ∧ PipeHeld count' v' := by
  induction fdt generalizing count v with
  | nil =>
    obtain rfl : count' = count := by
      funext n
      simpa using hcount n
    exact ⟨v, rfl, h⟩
  | cons entry fdt ih =>
    cases entry with
    | none =>
      apply ih h fun n hn => hfdt n (mem_cons_of_mem _ hn)
      intro n
      rw [hcount n, count_cons_of_ne (by simp)]
    | some n =>
      obtain ⟨v1, hdup, h1⟩ := h.dup (hfdt n mem_cons_self) fun m => rfl
      have hrest : ∃ v', pipeCopyFdt fdt v1 = some v' ∧ PipeHeld count' v' := by
        apply ih h1
        · intro m hm hzero
          exact hfdt m (mem_cons_of_mem _ hm) (Nat.eq_zero_of_add_eq_zero_right hzero)
        · intro m
          rw [hcount m, count_cons]
          simp only [beq_iff_eq, Option.some.injEq, eq_comm (a := n)]
          omega
      obtain ⟨v', hcopy, h'⟩ := hrest
      refine ⟨v', ?_, h'⟩
      rw [pipeCopyFdt, hdup, bind_some, hcopy]

theorem PipeHeld.closeFds (h : PipeHeld count v) (fdt : List (Option ℕ))
    (hcount : ∀ n, count' n + fdt.count (some n) = count n) :
    ∃ v', processCloseFds fdt v = some v' ∧ PipeHeld count' v' := by
  induction fdt generalizing count v with
  | nil =>
    obtain rfl : count' = count := by
      funext n
      simpa using hcount n
    exact ⟨v, rfl, h⟩
  | cons entry fdt ih =>
    cases entry with
    | none =>
      apply ih h
      intro n
      rw [← hcount n, count_cons_of_ne (by simp)]
    | some n =>
      have hn : ∀ m, count' m + fdt.count (some m) + (if m = n then 1 else 0) = count m := by
        intro m
        rw [← hcount m, count_cons]
        simp only [beq_iff_eq, Option.some.injEq, eq_comm (a := n)]
        omega
      obtain ⟨v1, hclose, h1⟩ := h.close hn
      obtain ⟨v', hrest, h'⟩ := ih h1 fun m => rfl
      refine ⟨v', ?_, h'⟩
      rw [processCloseFds, hclose, bind_some, hrest]

end Loops

/-- A read ends with 0 if the pipe is empty and its other end has no descriptor; a write that has stored
nothing fails with `EPIPE` if the other end has none. -/
def PipeReport.Right : PipeReport → Prop
  | .read ret empty writers => ret = .count 0 ↔ empty = true ∧ writers = 0
  | .write ret stored readers => stored = 0 → (ret = .error codeEpipe ↔ readers = 0)

section Reports

variable {readers writers : ℕ} {x : PipeState} {nonblock : Bool} {ret : PipeRet}

theorem PipeExact.read_right (h : PipeExact readers writers x) {size : ℕ} (hsize : size ≠ 0)
    (hret : pipeReadRet x.info size nonblock = some ret) :
    (PipeReport.read ret (x.info.ptr = 0 : Bool) writers).Right := by
  unfold pipeReadRet pipefsRead at hret
  unfold PipeReport.Right
  by_cases hptr : x.info.ptr > 0
  · rw [if_pos hptr] at hret
    cases hret
    have hmoved : min size x.info.ptr ≠ 0 := by omega
    simp [hmoved, hptr.ne']
  · have hempty : x.info.ptr = 0 := by omega
    rw [if_neg hptr, h.writeFds] at hret
    split_ifs at hret with hw hnb
    · cases hret
      simp [hempty, hw]
    · cases hret
      simp [hw]

theorem pipeWriteEnd_ne (written : ℕ) : pipeWriteEnd written ≠ .error codeEpipe := by
  unfold pipeWriteEnd
  split_ifs <;> simp [codeEpipe, codeEwouldblock]

theorem pipeWriteRet_ne {pipe : PipeInfo} {data : List UInt8} {written : ℕ}
    (hret : pipeWriteRet pipe data written nonblock = some ret) : ret ≠ .error codeEpipe := by
  unfold pipeWriteRet at hret
  dsimp only at hret
  split at hret
  · split_ifs at hret
    · exact Option.some.inj hret ▸ pipeWriteEnd_ne _
    · exact Option.some.inj hret ▸ pipeWriteEnd_ne _
  · exact Option.some.inj hret ▸ pipeWriteEnd_ne _
  · cases hret

end Reports

def PipeCall.unstored : PipeCall → Bool
  | .writing _ _ written _ => written = 0
  | _ => false

/-- The calls that the code does right: the descriptors of `pipe` and `dup` find a place, no read with
`O_NONBLOCK` is made of an empty pipe whose write end is closed, and no write to a pipe whose read end is
closed. -/
def PipeFdOp.Ok (s : PipeFiles) : PipeFdOp → Prop
  | .pipe2 pid alloc alloc' => ∀ fdt ∈ s.fdts[pid]?, HasRoom fdt alloc ∧
      ∀ r ∈ addFd fdt s.vfs.nextNode alloc, HasRoom r.1 alloc'
  | .dup pid fd alloc => ∀ fdt ∈ s.fdts[pid]?, (getFd fdt fd).isSome → HasRoom fdt alloc
  | .read pid fd _ size nonblock => size ≠ 0 → nonblock = true → ∀ n ∈ s.fdNode pid fd,
      ∀ e ∈ s.vfs.spec n, e.2 = false → (s.vfs.pipe e.1).info.ptr = 0 →
        fdCount s.fdts (endNode e.1 true) ≠ 0
  | .pass k thread _ => ((s.vfs.pipe k).calls thread).unstored = true → fdCount s.fdts k ≠ 0
  | _ => True

instance (s : PipeFiles) : ∀ op : PipeFdOp, Decidable (op.Ok s)
  | .pipe2 pid alloc alloc' => inferInstanceAs (Decidable (∀ fdt ∈ s.fdts[pid]?, HasRoom fdt alloc ∧
      ∀ r ∈ addFd fdt s.vfs.nextNode alloc, HasRoom r.1 alloc'))
  | .dup pid fd alloc => inferInstanceAs (Decidable (∀ fdt ∈ s.fdts[pid]?, (getFd fdt fd).isSome →
      HasRoom fdt alloc))
  | .read _ _ _ _ _ => inferInstanceAs (Decidable (_ → _ → ∀ n ∈ _, ∀ e ∈ s.vfs.spec n, e.2 = false →
      (s.vfs.pipe e.1).info.ptr = 0 → fdCount s.fdts (endNode e.1 true) ≠ 0))
  | .pass _ _ _ => inferInstanceAs (Decidable (_ → _))
  | .openFile _ _ | .dup2 _ _ _ _ | .dup3 _ _ _ _ _ | .dupfd _ _ _ _ _ | .fork _ _ | .close _ _ | .exit _
  | .write _ _ _ _ _ | .interrupt _ _ | .leave _ _ => .isTrue trivial

def PipeFilesHeld (s : PipeFiles) : Prop :=
  PipeHeld (fdCount s.fdts) s.vfs ∧ ∀ r ∈ s.reports, r.Right

section Steps

variable {s : PipeFiles} {pid fd n : ℕ} {fdt : List (Option ℕ)} {alloc : Bool}

theorem PipeFiles.fdNode_eq_some (hfdt : s.fdts[pid]? = some fdt) (hn : s.fdNode pid fd = some n) :
    fdt[fd]? = some (some n) := by
  unfold PipeFiles.fdNode at hn
  rw [hfdt, bind_some] at hn
  exact getFd_eq_some hn

theorem PipeFiles.fdNode_pos (hn : s.fdNode pid fd = some n) : fdCount s.fdts n ≠ 0 := by
  obtain ⟨fdt, hfdt, hget⟩ := bind_eq_some_iff.mp hn
  exact fdCount_ne_zero hfdt (mem_of_getElem? (getFd_eq_some hget))

theorem PipeFilesHeld.openFile (h : PipeFilesHeld s) (pid : ℕ) (alloc : Bool) :
    ∃ s', s.openFile pid alloc = some s' ∧ PipeFilesHeld s' := by
  unfold PipeFiles.openFile
  cases hfdt : s.fdts[pid]? with
  | none => exact ⟨s, rfl, h⟩
  | some fdt =>
    dsimp only
    cases hadd : CoolPotOS.addFd fdt s.vfs.nextNode alloc with
    | some r => exact ⟨_, rfl, h.1.allocFile (fdCount_addFd hfdt hadd), h.2⟩
    | none =>
      have halloc := h.1.allocFile fun m => rfl
      obtain ⟨v, hclose, hv⟩ := halloc.close fun m => rfl
      refine ⟨{ s with vfs := v }, ?_, hv, h.2⟩
      dsimp only
      rw [hclose, map_some]

theorem PipeFilesHeld.pipe2 {alloc' : Bool} (h : PipeFilesHeld s)
    (hok : (PipeFdOp.pipe2 pid alloc alloc').Ok s) : PipeFilesHeld (s.pipe2 pid alloc alloc') := by
  unfold PipeFiles.pipe2
  cases hfdt : s.fdts[pid]? with
  | none => exact h
  | some fdt =>
    obtain ⟨hroom, hroom'⟩ := hok fdt hfdt
    obtain ⟨fdt1, fd1, hadd1⟩ := hroom.addFd s.vfs.nextNode
    obtain ⟨fdt2, fd2, hadd2⟩ := (hroom' _ hadd1).addFd (endNode s.vfs.nextNode true)
    have hlen : pid < s.fdts.length := (List.getElem?_eq_some_iff.mp hfdt).1
    have hfdt1 : (s.fdts.set pid fdt1)[pid]? = some fdt1 := List.getElem?_set_self hlen
    unfold PipeFiles.addFd
    dsimp only
    rw [show endNode s.vfs.nextNode false = s.vfs.nextNode from rfl, hadd1]
    dsimp only
    rw [hfdt1, getD_some, hadd2]
    refine ⟨h.1.allocPipe fun m => ?_, h.2⟩
    rw [fdCount_addFd hfdt1 hadd2, fdCount_addFd hfdt hadd1]

theorem PipeFilesHeld.dup (h : PipeFilesHeld s) (hok : (PipeFdOp.dup pid fd alloc).Ok s) :
    ∃ s', s.dup pid fd alloc = some s' ∧ PipeFilesHeld s' := by
  unfold PipeFiles.dup
  split
  case h_1 fdt n hfdt hn =>
    have hget := PipeFiles.fdNode_eq_some hfdt hn
    have hroom : HasRoom fdt alloc := by
      apply hok fdt hfdt
      unfold getFd
      rw [hget]
      rfl
    obtain ⟨fdt', fd', hadd⟩ := hroom.addFd n
    obtain ⟨v, hdup, hv⟩ := h.1.dup (PipeFiles.fdNode_pos hn) (fdCount_addFd hfdt hadd)
    refine ⟨{ s with vfs := v, fdts := s.fdts.set pid fdt' }, ?_, hv, h.2⟩
    rw [hdup, map_some]
    unfold PipeFiles.addFd
    rw [hadd]
  · exact ⟨s, rfl, h⟩

theorem PipeFilesHeld.close (h : PipeFilesHeld s) (pid fd : ℕ) :
    ∃ s', s.close pid fd = some s' ∧ PipeFilesHeld s' := by
  unfold PipeFiles.close
  split
  case h_1 fdt n hfdt hn =>
    obtain ⟨v, hclose, hv⟩ := h.1.close (fdCount_close hfdt (PipeFiles.fdNode_eq_some hfdt hn))
    refine ⟨{ s with vfs := v, fdts := s.fdts.set pid (fdt.set fd none) }, ?_, hv, h.2⟩
    rw [hclose, map_some]
  · exact ⟨s, rfl, h⟩

theorem PipeFilesHeld.dup2 (h : PipeFilesHeld s) (pid fd newfd : ℕ) (alloc : Bool) :
    ∃ s', s.dup2 pid fd newfd alloc = some s' ∧ PipeFilesHeld s' := by
  unfold PipeFiles.dup2
  split
  case h_1 fdt n hfdt hn =>
    have hfd := PipeFiles.fdNode_eq_some hfdt hn
    by_cases heq : fd = newfd
    · rw [if_pos heq]
      exact ⟨s, rfl, h⟩
    rw [if_neg heq]
    cases hensure : ensureFdtCapacity fdt newfd alloc with
    | none => exact ⟨s, rfl, h⟩
    | some fdt1 =>
      obtain ⟨hsame, hlt, hkept⟩ := count_ensureFdtCapacity hensure
      have hpid : pid < s.fdts.length := (List.getElem?_eq_some_iff.mp hfdt).1
      have hfdt1 : (s.fdts.set pid fdt1)[pid]? = some fdt1 := List.getElem?_set_self hpid
      have hgrown : fdCount (s.fdts.set pid fdt1) = fdCount s.fdts := by
        funext m
        have hset := fdCount_set hfdt fdt1 m
        have hm := hsame m
        omega
      -- the old descriptor in that place is closed first
      obtain ⟨v, hclosed, hv⟩ : ∃ v, (match getFd fdt1 newfd with
            | none => some s.vfs
            | some old => s.vfs.close old) = some v ∧
          PipeHeld (fdCount (s.fdts.set pid (fdt1.set newfd none))) v := by
        cases hold : getFd fdt1 newfd with
        | none =>
          have hempty : fdt1.set newfd none = fdt1 := by
            unfold getFd at hold
            rw [List.getElem?_eq_getElem hlt, join_some] at hold
            rw [← hold]
            exact set_getElem_self hlt
          refine ⟨s.vfs, rfl, ?_⟩
          rw [hempty, hgrown]
          exact h.1
        | some old =>
          have hclose := fdCount_close hfdt1 (getFd_eq_some hold)
          rw [set_set, hgrown] at hclose
          exact h.1.close hclose
      have hstill : fdCount (s.fdts.set pid (fdt1.set newfd none)) n ≠ 0 := by
        have hfdt2 : (s.fdts.set pid (fdt1.set newfd none))[pid]? = some (fdt1.set newfd none) :=
          List.getElem?_set_self hpid
        apply fdCount_ne_zero hfdt2
        apply mem_of_getElem? (i := fd)
        rw [List.getElem?_set_ne (Ne.symm heq)]
        exact hkept fd n hfd
      have hplace : ∀ m, fdCount (s.fdts.set pid (fdt1.set newfd (some n))) m =
          fdCount (s.fdts.set pid (fdt1.set newfd none)) m + if m = n then 1 else 0 := by
        intro m
        have hset := fdCount_set hfdt1 (fdt1.set newfd none) m
        have hset' := fdCount_set hfdt1 (fdt1.set newfd (some n)) m
        have hempty : (fdt1.set newfd none)[newfd]? = some none := List.getElem?_set_self hlt
        have hcount := count_set hempty (some n) (some m)
        rw [set_set] at hset hset' hcount
        rw [if_neg nofun, add_zero] at hcount
        simp only [Option.some.injEq, eq_comm (a := n)] at hcount
        omega
      obtain ⟨v', hdup, hv'⟩ := hv.dup hstill hplace
      refine ⟨{ s with vfs := v', fdts := s.fdts.set pid (fdt1.set newfd (some n)) }, ?_, hv', h.2⟩
      dsimp only
      rw [hclosed, bind_some, hdup, map_some]
  · exact ⟨s, rfl, h⟩

theorem freeFdFrom_empty (fdt : List (Option ℕ)) (minFd : ℕ) (hlt : freeFdFrom fdt minFd < fdt.length) :
    fdt[freeFdFrom fdt minFd]? = some none := by
  unfold freeFdFrom at hlt ⊢
  have hfound : (fdt.drop minFd).findIdx isNone < (fdt.drop minFd).length := by
    rw [length_drop]
    omega
  have hnone := findIdx_getElem (w := hfound)
  rw [← List.getElem?_drop, List.getElem?_eq_getElem hfound]
  exact congrArg some (isNone_iff_eq_none.mp hnone)

theorem PipeFilesHeld.dupWithMinfd (h : PipeFilesHeld s) (pid fd minFd : ℕ) (alloc alloc' : Bool) :
    ∃ s', s.dupWithMinfd pid fd minFd alloc alloc' = some s' ∧ PipeFilesHeld s' := by
  unfold PipeFiles.dupWithMinfd
  split
  case h_1 fdt n hfdt hn =>
    have hpid : pid < s.fdts.length := (List.getElem?_eq_some_iff.mp hfdt).1
    cases hfirst : ensureFdtCapacity fdt minFd alloc with
    | none => exact ⟨s, rfl, h⟩
    | some fdt1 =>
      obtain ⟨hsame1, hlt1, -⟩ := count_ensureFdtCapacity hfirst
      dsimp only
      cases hsecond : ensureFdtCapacity fdt1 (freeFdFrom fdt1 minFd) alloc' with
      | none =>
        refine ⟨_, rfl, ?_, h.2⟩
        dsimp only
        have hgrown : fdCount (s.fdts.set pid fdt1) = fdCount s.fdts := by
          funext m
          have hset := fdCount_set hfdt fdt1 m
          have hm := hsame1 m
          omega
        rw [hgrown]
        exact h.1
      | some fdt2 =>
        obtain ⟨hsame2, hlt2, -⟩ := count_ensureFdtCapacity hsecond
        have hempty : fdt2[freeFdFrom fdt1 minFd]? = some none := by
          unfold ensureFdtCapacity at hsecond
          by_cases hin : freeFdFrom fdt1 minFd < fdt1.length
          · rw [if_pos hin] at hsecond
            cases hsecond
            exact freeFdFrom_empty fdt1 minFd hin
          · -- the place is one of those that the table has grown by
            rw [if_neg hin] at hsecond
            dsimp only at hsecond
            obtain ⟨-, hgrown⟩ := ite_none_right_eq_some.mp hsecond
            cases hgrown
            rw [List.getElem?_append_right (not_lt.mp hin), List.getElem?_replicate, if_pos]
            rw [length_append, length_replicate] at hlt2
            omega
        obtain ⟨v, hdup, hv⟩ := h.1.dup (PipeFiles.fdNode_pos hn)
          (fdCount_place hfdt (fun m => (hsame2 m).trans (hsame1 m)) hempty)
        refine ⟨{ s with vfs := v, fdts := s.fdts.set pid (fdt2.set (freeFdFrom fdt1 minFd) (some n)) }, ?_, hv, h.2⟩
        dsimp only
        rw [hdup, map_some]
  · exact ⟨s, rfl, h⟩

theorem PipeFilesHeld.fork (h : PipeFilesHeld s) (pid : ℕ) (alloc : Bool) :
    ∃ s', s.fork pid alloc = some s' ∧ PipeFilesHeld s' := by
  unfold PipeFiles.fork
  cases hfdt : s.fdts[pid]? with
  | none => exact ⟨s, rfl, h⟩
  | some fdt =>
    dsimp only
    by_cases halloc : alloc = true
    · rw [if_pos halloc]
      obtain ⟨v, hcopy, hv⟩ := h.1.copyFdt fdt (fun n hn => fdCount_ne_zero hfdt hn) (fdCount_fork s.fdts fdt)
      refine ⟨{ s with vfs := v, fdts := s.fdts ++ [fdt] }, ?_, hv, h.2⟩
      rw [hcopy, map_some]
    · rw [if_neg halloc]
      refine ⟨_, rfl, ?_, h.2⟩
      have hsame : fdCount (s.fdts ++ [[]]) = fdCount s.fdts := by
        funext m
        rw [fdCount_fork, count_nil, add_zero]
      dsimp only
      rw [hsame]
      exact h.1

theorem PipeFilesHeld.exit (h : PipeFilesHeld s) (pid : ℕ) :
    ∃ s', s.exit pid = some s' ∧ PipeFilesHeld s' := by
  unfold PipeFiles.exit
  cases hfdt : s.fdts[pid]? with
  | none => exact ⟨s, rfl, h⟩
  | some fdt =>
    obtain ⟨v, hclose, hv⟩ := h.1.closeFds fdt fun m => by
      have hset := fdCount_set hfdt [] m
      rwa [count_nil, add_zero] at hset
    refine ⟨{ s with vfs := v, fdts := s.fdts.set pid [] }, ?_, hv, h.2⟩
    dsimp only
    rw [hclose, map_some]

theorem PipeFilesHeld.setPipe (h : PipeFilesHeld s) {reports : List PipeReport}
    (hx : s.vfs.IsPipe k → PipeExact (fdCount s.fdts k) (fdCount s.fdts (endNode k true)) x)
    (hreports : ∀ r ∈ reports, r.Right) :
    PipeFilesHeld { s with vfs := s.vfs.setPipe k x, reports := s.reports ++ reports } := by
  refine ⟨?_, fun r hr => (mem_append.mp hr).elim (h.2 r) (hreports r)⟩
  exact h.1.setPipe (fun m hm => ⟨h.1.released_lt hm, h.1.released m hm⟩) hx

theorem PipeFilesHeld.setPipe_silent (h : PipeFilesHeld s)
    (hx : s.vfs.IsPipe k → PipeExact (fdCount s.fdts k) (fdCount s.fdts (endNode k true)) x) :
    PipeFilesHeld { s with vfs := s.vfs.setPipe k x } := by
  simpa using h.setPipe hx (forall_mem_nil _)

theorem PipeFilesHeld.read (h : PipeFilesHeld s) {size : ℕ}
    (hok : (PipeFdOp.read pid fd thread size nonblock).Ok s) :
    ∃ s', s.read pid fd thread size nonblock = some s' ∧ PipeFilesHeld s' := by
  unfold PipeFiles.read
  by_cases hsize : size = 0
  · rw [if_pos hsize]
    exact ⟨s, rfl, h⟩
  rw [if_neg hsize]
  cases hn : s.fdNode pid fd with
  | none => exact ⟨s, rfl, h⟩
  | some n =>
    dsimp only
    have hpos := PipeFiles.fdNode_pos hn
    rw [h.1.not_released hpos, if_neg Bool.false_ne_true]
    cases hspec : s.vfs.spec n with
    | none => exact ⟨s, rfl, h⟩
    | some e =>
      obtain ⟨k, write⟩ := e
      obtain ⟨rfl, hk, -⟩ := h.1.ends n k write hspec
      dsimp only
      by_cases hempty : (s.vfs.pipe k).info.ptr = 0 ∧ nonblock = true
      · rw [if_pos hempty]
        cases write with
        | true => exact ⟨s, rfl, h⟩
        | false =>
          refine ⟨_, rfl, h.1, fun r hr => ?_⟩
          rcases mem_append.mp hr with hr | hr
          · exact h.2 r hr
          · obtain rfl := mem_singleton.mp hr
            have hwriters := hok hsize hempty.2 _ hn (k, false) hspec rfl hempty.1
            simp [PipeReport.Right, hwriters]
      · rw [if_neg hempty]
        cases write with
        | true => exact ⟨s, rfl, h⟩
        | false =>
          rw [if_neg Bool.false_ne_true]
          unfold PipeFiles.beginCall
          have hfds : (s.vfs.pipe k).fds false ≠ 0 := by rwa [h.1.fds_eq hspec]
          cases hcall : (s.vfs.pipe k).calls thread with
          | idle =>
            simp only [PipeState.step, hcall, if_neg hfds]
            by_cases hmin : min size pipeBuff = 0
            · exact absurd hmin (by simp [hsize, pipeBuff])
            · rw [if_neg hmin]
              have hbusy : PipeCall.reading (min size pipeBuff) ≠ .idle := by simp
              have hreading : ∀ n, PipeCall.reading (min size pipeBuff) = .reading n → n ≠ 0 := by
                rintro n ⟨⟩
                exact hmin
              exact ⟨_, rfl, h.setPipe_silent fun hk => (h.1.exact k hk).enter hcall hbusy hreading hfds⟩
          | reading size => exact ⟨s, rfl, h⟩
          | writing id data written nonblock => exact ⟨s, rfl, h⟩
          | leaving write => exact ⟨s, rfl, h⟩

theorem PipeFilesHeld.write (h : PipeFilesHeld s) (pid fd thread : ℕ) (data : List UInt8)
    (nonblock : Bool) : ∃ s', s.write pid fd thread data nonblock = some s' ∧ PipeFilesHeld s' := by
  unfold PipeFiles.write
  by_cases hdata : data = []
  · rw [if_pos hdata]
    exact ⟨s, rfl, h⟩
  rw [if_neg hdata]
  cases hn : s.fdNode pid fd with
  | none => exact ⟨s, rfl, h⟩
  | some n =>
    dsimp only
    have hpos := PipeFiles.fdNode_pos hn
    rw [h.1.not_released hpos, if_neg Bool.false_ne_true]
    split
    case h_1 k hspec =>
      have hfds : (s.vfs.pipe k).fds true ≠ 0 := by rwa [h.1.fds_eq hspec]
      unfold PipeFiles.beginCall
      cases hcall : (s.vfs.pipe k).calls thread with
      | idle =>
        simp only [PipeState.step, hcall, if_neg hfds]
        refine ⟨_, rfl, h.setPipe_silent fun hk => ?_⟩
        refine (h.1.exact k hk).enter hcall (nextWriteCall_ne_idle _ _ _ _) (fun size hc => ?_) hfds
        unfold nextWriteCall at hc
        split_ifs at hc
      | reading size => exact ⟨s, rfl, h⟩
      | writing id data written nonblock => exact ⟨s, rfl, h⟩
      | leaving write => exact ⟨s, rfl, h⟩
    · exact ⟨s, rfl, h⟩

theorem PipeFilesHeld.pass (h : PipeFilesHeld s) (hk : s.vfs.IsPipe k)
    (hok : (PipeFdOp.pass k thread nonblock).Ok s) : PipeFilesHeld (s.pass k thread nonblock) := by
  have hexact := h.1.exact k hk
  unfold PipeFiles.pass
  cases hpass : (s.vfs.pipe k).pass thread nonblock with
  | none => exact h
  | some x =>
    apply h.setPipe fun _ => hexact.pass hpass
    intro r hr
    unfold PipeFiles.report at hr
    dsimp only at hr
    split at hr
    case h_1 size hcall =>
      rw [mem_toList, map_eq_some_iff] at hr
      obtain ⟨ret, hret, rfl⟩ := hr
      exact hexact.read_right (hexact.reading thread size hcall) hret
    case h_2 id data written nonblock' hcall =>
      rw [mem_toList, map_eq_some_iff] at hr
      obtain ⟨ret, hret, rfl⟩ := hr
      intro hstored
      have hreaders : fdCount s.fdts k ≠ 0 := by
        apply hok
        rw [hcall]
        exact decide_eq_true hstored
      exact iff_of_false (pipeWriteRet_ne hret) hreaders
    · simp at hr

theorem PipeFilesHeld.interrupt (h : PipeFilesHeld s) (hk : s.vfs.IsPipe k) (thread : ℕ) :
    PipeFilesHeld (s.interrupt k thread) := by
  unfold PipeFiles.interrupt
  cases hstep : (s.vfs.pipe k).step (.interrupt thread) with
  | none => exact h
  | some x => exact h.setPipe_silent fun _ => (h.1.exact k hk).interrupt hstep

theorem PipeFilesHeld.leave (h : PipeFilesHeld s) (hk : s.vfs.IsPipe k) (thread : ℕ) :
    PipeFilesHeld (s.leave k thread) := by
  unfold PipeFiles.leave
  split
  case h_1 write hcall => exact ⟨h.1.leave hcall hk, h.2⟩
  · exact h

theorem PipeFilesHeld.step (h : PipeFilesHeld s) {op : PipeFdOp} (hok : op.Ok s) :
    ∃ s', s.step op = some s' ∧ PipeFilesHeld s' := by
  cases op with
  | openFile pid alloc => exact h.openFile pid alloc
  | pipe2 pid alloc alloc' => exact ⟨_, rfl, h.pipe2 hok⟩
  | dup pid fd alloc => exact h.dup hok
  | dup2 pid fd newfd alloc => exact h.dup2 pid fd newfd alloc
  | dup3 pid oldfd newfd flags alloc =>
    simp only [PipeFiles.step, PipeFiles.dup3]
    split_ifs
    · exact ⟨s, rfl, h⟩
    · exact ⟨s, rfl, h⟩
    · exact h.dup2 pid oldfd newfd alloc
  | dupfd pid fd minFd alloc alloc' => exact h.dupWithMinfd pid fd minFd alloc alloc'
  | fork pid alloc => exact h.fork pid alloc
  | close pid fd => exact h.close pid fd
  | exit pid => exact h.exit pid
  | read pid fd thread size nonblock => exact h.read hok
  | write pid fd thread data nonblock => exact h.write pid fd thread data nonblock
  | pass k thread nonblock =>
    refine ⟨_, rfl, ?_⟩
    split_ifs with hk
    · exact h.pass hk hok
    · exact h
  | interrupt k thread =>
    refine ⟨_, rfl, ?_⟩
    split_ifs with hk
    · exact h.interrupt hk thread
    · exact h
  | leave k thread =>
    refine ⟨_, rfl, ?_⟩
    split_ifs with hk
    · exact h.leave hk thread
    · exact h

end Steps

theorem pipeFilesHeld_boot : PipeFilesHeld PipeFiles.boot := by
  have hcount : fdCount PipeFiles.boot.fdts = fun _ => 0 := by
    funext n
    simp [fdCount, PipeFiles.boot, count_replicate]
  refine ⟨?_, forall_mem_nil _⟩
  rw [hcount]
  exact pipeHeld_boot

/-- In every run of calls that are all right, no freed node is used, the counts of every pipe are the
numbers of descriptors of its ends, the pipe is freed when both are zero and no thread is in it, and all
reads and writes report the state of the other end. -/
theorem pipe_end_counts (ops : List PipeFdOp)
    (hok : Runs.Meets PipeFiles.step (fun s op => op.Ok s) ops PipeFiles.boot) :
    ∃ s, Runs.run PipeFiles.step ops PipeFiles.boot = some s ∧
      (∀ k, s.vfs.IsPipe k →
        (s.vfs.pipe k).info.readFds = fdCount s.fdts (endNode k false) ∧
        (s.vfs.pipe k).info.writeFds = fdCount s.fdts (endNode k true) ∧
        ((s.vfs.pipe k).info.freed = true ↔ fdCount s.fdts (endNode k false) = 0 ∧
          fdCount s.fdts (endNode k true) = 0 ∧ ∀ t, (s.vfs.pipe k).calls t = .idle)) ∧
      ∀ r ∈ s.reports, r.Right := by
  obtain ⟨s, hrun, hs⟩ := Runs.run_total
    (fun _ _ (h : PipeFilesHeld _) hok => h.step hok) pipeFilesHeld_boot hok
  refine ⟨s, hrun, fun k hk => ?_, hs.2⟩
  have hexact := hs.1.exact k hk
  exact ⟨hexact.readFds, hexact.writeFds, hexact.freed_iff⟩

/-- A process with a pipe forks and writes to its child, which reads and exits. -/
def forkedPipe : List PipeFdOp :=
  [.pipe2 0 true true, .fork 0 true, .close 0 0, .close 1 1, .write 0 1 7 [5, 6] false, .pass 0 7 false,
    .leave 0 7, .read 1 0 8 4 false, .pass 0 8 false, .leave 0 8, .exit 1]

theorem pipe_end_counts_forkedPipe :
    ∃ s, Runs.run PipeFiles.step forkedPipe PipeFiles.boot = some s ∧ s.vfs.IsPipe 0 ∧
      (s.vfs.pipe 0).info.writeFds = fdCount s.fdts 1 ∧ fdCount s.fdts 1 = 1 ∧
      (s.vfs.pipe 0).info.freed = false := by
  obtain ⟨s, hs, hpipes, -⟩ := pipe_end_counts forkedPipe (by decide)
  have hfacts : ∀ s ∈ Runs.run PipeFiles.step forkedPipe PipeFiles.boot,
      s.vfs.IsPipe 0 ∧ fdCount s.fdts 1 = 1 := by decide
  obtain ⟨hpipe, hone⟩ := hfacts s hs
  obtain ⟨-, hwrite, hfreed⟩ := hpipes 0 hpipe
  refine ⟨s, hs, hpipe, hwrite, hone, ?_⟩
  by_contra hdead
  have hzero := (hfreed.mp (by simpa using hdead)).2.1
  rw [show endNode 0 true = 1 from rfl, hone] at hzero
  cases hzero

/-- A write to a pipe without a reader ends with `EWOULDBLOCK`, and so does a read of an empty pipe without
a writer when its descriptor has `O_NONBLOCK`. A `dup` without a place leaves a count too high. -/
theorem pipe_ends_misreported :
    (Runs.run PipeFiles.step [.pipe2 0 true true, .close 0 0, .write 0 1 7 [5] false, .pass 0 7 false]
        PipeFiles.boot).map PipeFiles.reports = some [.write (.error codeEwouldblock) 0 0] ∧
      ¬ PipeReport.Right (.write (.error codeEwouldblock) 0 0) ∧
      (Runs.run PipeFiles.step [.pipe2 0 true true, .close 0 1, .read 0 0 7 4 true]
        PipeFiles.boot).map PipeFiles.reports = some [.read (.error codeEwouldblock) true 0] ∧
      ¬ PipeReport.Right (.read (.error codeEwouldblock) true 0) ∧
      (Runs.run PipeFiles.step [.pipe2 0 true true, .dup2 0 0 2 true, .dup2 0 0 3 true, .dup2 0 0 4 true,
        .dup 0 0 false] PipeFiles.boot).map (fun s => ((s.vfs.pipe 0).info.readFds, fdCount s.fdts 0)) =
          some (5, 4) := by
  refine ⟨by decide, ?_, by decide, ?_, by decide⟩
  · simp [PipeReport.Right, codeEpipe, codeEwouldblock]
  · simp [PipeReport.Right]

end CoolPotOS
