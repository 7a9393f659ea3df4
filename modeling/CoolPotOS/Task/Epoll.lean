import CoolPotOS.Task.Eventfd
import CoolPotOS.Lib.Acyclic

namespace CoolPotOS

open List Relation

def epollErr : BitVec 32 := 0x008#32
def epollHup : BitVec 32 := 0x010#32
def epollNval : BitVec 32 := 0x020#32
def epollPri : BitVec 32 := 0x002#32
def epollRdnorm : BitVec 32 := 0x040#32
def epollRdband : BitVec 32 := 0x080#32
def epollWrnorm : BitVec 32 := 0x100#32
def epollExclusive : BitVec 32 := 1#32 <<< 28
def epollWakeup : BitVec 32 := 1#32 <<< 29
def epollOneshot : BitVec 32 := 1#32 <<< 30
def epollEt : BitVec 32 := 1#32 <<< 31

def epollAlwaysEvents : BitVec 32 := epollErr ||| epollHup ||| epollNval

def epollMaxEntries : ℕ := 128

structure EpollEvent where
  events : BitVec 32
  data : ℕ
  deriving DecidableEq

structure EpollEntry where
  fd : ℤ
  events : BitVec 32
  data : ℕ
  lastEvents : BitVec 32
  edgeTrigger : Bool
  oneShot : Bool
  disabled : Bool
  deriving DecidableEq

/-- What polling sees of a node: the instance of an epoll node, by its number, or `vfs_poll` on another
file, with `none` for a file system without a callback. -/
inductive PollNode
  | epoll (ep : ℕ)
  | file (poll : Option (BitVec 32 → BitVec 32))

/-- A descriptor table; a descriptor may have lost its node. -/
abbrev FdTable := ℤ → Option (Option PollNode)

/-- The watch lists of the instances in the order of their creation; a closed instance has none. -/
abbrev EpollInstances := List (Option (List EpollEntry))

inductive EpollError
  | badf | inval | fault | exist | nomem | noent | intr
  deriving DecidableEq

def epollFilterEvents (events : BitVec 32) : BitVec 32 :=
  events &&& ~~~(epollEt ||| epollOneshot ||| epollWakeup ||| epollExclusive)

def vfsPollNormalizeEvents (events : BitVec 32) : BitVec 32 :=
  let events := if events &&& epollRdnorm ≠ 0 then events ||| epollIn else events
  let events := if events &&& epollRdband ≠ 0 then events ||| epollPri else events
  if events &&& epollWrnorm ≠ 0 then events ||| epollOut else events

def vfsPollRestoreAliases (requested revents : BitVec 32) : BitVec 32 :=
  let revents :=
    if requested &&& epollRdnorm ≠ 0 ∧ revents &&& epollIn ≠ 0 then revents ||| epollRdnorm else revents
  let revents :=
    if requested &&& epollRdband ≠ 0 ∧ revents &&& epollPri ≠ 0 then revents ||| epollRdband else revents
  if requested &&& epollWrnorm ≠ 0 ∧ revents &&& epollOut ≠ 0 then revents ||| epollWrnorm else revents

/-- `epoll_query_ready_events`, with `vfs_poll` on the epoll nodes as an argument. Here and below `none` is
a call that never returns. -/
def epollQueryReadyEvents (vfsPoll : ℕ → BitVec 32 → Option (BitVec 32)) (entry : EpollEntry) :
    Option PollNode → Option (BitVec 32)
  | none => some epollNval
  | some (.file none) =>
    some ((entry.events ||| epollAlwaysEvents) &&& (epollIn ||| epollOut ||| epollErr ||| epollHup ||| epollNval))
  | some (.file (some poll)) =>
    some (poll (entry.events ||| epollAlwaysEvents) ||| (poll epollAlwaysEvents &&& epollAlwaysEvents))
  | some (.epoll ep) =>
    (vfsPoll ep (entry.events ||| epollAlwaysEvents)).bind fun revents =>
      (vfsPoll ep epollAlwaysEvents).map fun always => revents ||| (always &&& epollAlwaysEvents)

/-- The ready events of an entry, which the loops of this file ask for first; they skip an entry that is
disabled or has no descriptor. -/
def epollLook (vfsPoll : ℕ → BitVec 32 → Option (BitVec 32)) (fdt : FdTable) (entry : EpollEntry) :
    Option (Option (BitVec 32)) :=
  if entry.disabled then some none
  else
    match fdt entry.fd with
    | none => some none
    | some handle => (epollQueryReadyEvents vfsPoll entry handle).map some

def epollShouldEmit (entry : EpollEntry) (readyEvents : BitVec 32) : EpollEntry × Bool :=
  if entry.disabled ∨ readyEvents = 0 then (entry, false)
  else if entry.edgeTrigger then
    let stateEvents := readyEvents &&& ~~~epollAlwaysEvents
    let raised := stateEvents &&& ~~~entry.lastEvents
    ({ entry with lastEvents := stateEvents },
      raised ≠ 0 ∨ readyEvents &&& epollAlwaysEvents ≠ 0)
  else ({ entry with lastEvents := readyEvents &&& ~~~epollAlwaysEvents }, true)

def epollWouldEmit (entry : EpollEntry) (readyEvents : BitVec 32) : Bool :=
  if entry.disabled ∨ readyEvents = 0 then false
  else if entry.edgeTrigger then
    let stateEvents := readyEvents &&& ~~~epollAlwaysEvents
    let raised := stateEvents &&& ~~~entry.lastEvents
    raised ≠ 0 ∨ readyEvents &&& epollAlwaysEvents ≠ 0
  else true

/-- The decision of `epollfs_poll` about one entry. -/
def epollEntryReady (entry : EpollEntry) : Option (BitVec 32) → Bool
  | none => false
  | some revents => revents ≠ 0 ∧ epollWouldEmit entry revents

/-- The loop of `epollfs_poll`. -/
def epollAnyReady (look : EpollEntry → Option (Option (BitVec 32))) : List EpollEntry → Option Bool
  | [] => some false
  | entry :: rest =>
    (look entry).bind fun revents =>
      if epollEntryReady entry revents then some true else epollAnyReady look rest

/-- `vfs_poll` on an epoll node whose callback is `poll`. -/
def vfsPollEpoll (poll : BitVec 32 → Option (BitVec 32)) (requested : BitVec 32) : Option (BitVec 32) :=
  (poll (vfsPollNormalizeEvents requested)).map (vfsPollRestoreAliases requested)

/-- `epollfs_poll` by a thread that holds the locks of the instances in `held`. -/
def epollfsPoll (eps : EpollInstances) (fdt : FdTable) : ℕ → List ℕ → ℕ → BitVec 32 → Option (BitVec 32)
  | 0, _, _, _ => none
  | depth + 1, held, ep, events =>
    match eps[ep]? with
    | some (some entries) =>
      -- the lock does not know its owner, who spins on it like everybody else
      if ep ∈ held then none
      else
        (epollAnyReady (epollLook (fun ep' => vfsPollEpoll (epollfsPoll eps fdt depth (ep :: held) ep')) fdt)
          entries).map fun ready : Bool => if ready ∧ events &&& epollIn ≠ 0 then epollIn else 0
    | _ => some 0

/-- What polling an epoll descriptor gives. No thread holds more locks than there are instances. -/
def pollEpoll (eps : EpollInstances) (fdt : FdTable) (ep : ℕ) (events : BitVec 32) : Option (BitVec 32) :=
  epollfsPoll eps fdt (eps.length + 1) [] ep events

inductive EpollCtlOp
  | add | del | mod | other
  deriving DecidableEq

/-- The entry that `epoll_ctl` writes for a new or a changed watch. -/
def EpollEntry.ofEvent (fd : ℤ) (event : EpollEvent) : EpollEntry where
  fd := fd
  events := epollFilterEvents event.events
  data := event.data
  lastEvents := 0
  edgeTrigger := event.events &&& epollEt ≠ 0
  oneShot := event.events &&& epollOneshot ≠ 0
  disabled := false

/-- The instance of a descriptor and its watch list, with which `epoll_ctl` and `epoll_wait` begin. They
read the node of the descriptor unchecked; without one the answer here is that of a closed instance. -/
def epollInstance (eps : EpollInstances) (fdt : FdTable) (epfd : ℤ) :
    Except EpollError (ℕ × List EpollEntry) :=
  match fdt epfd with
  | none => .error .badf
  | some none => .error .badf
  | some (some (.file _)) => .error .inval
  | some (some (.epoll ep)) =>
    match eps[ep]? with
    | some (some entries) => .ok (ep, entries)
    | _ => .error .badf

/-- The locked part of `epoll_ctl`. Deletion moves the last entry to the place of the deleted one. -/
def epollEdit (entries : List EpollEntry) (op : EpollCtlOp) (fd : ℤ) (event : Option EpollEvent) :
    List EpollEntry × Except EpollError Unit :=
  match op, event, entries.findIdx? (fun e => e.fd = fd) with
  | .add, none, _ => (entries, .error .fault)
  | .mod, none, _ => (entries, .error .fault)
  | .add, some _, some _ => (entries, .error .exist)
  | .add, some event, none =>
    if entries.length ≥ epollMaxEntries then (entries, .error .nomem)
    else (entries ++ [.ofEvent fd event], .ok ())
  | .del, _, none => (entries, .error .noent)
  | .del, _, some found =>
    match entries.getLast? with
    | none => (entries, .ok ())
    | some last => ((entries.set found last).dropLast, .ok ())
  | .mod, some _, none => (entries, .error .noent)
  | .mod, some event, some found => (entries.set found (.ofEvent fd event), .ok ())
  | .other, _, _ => (entries, .error .inval)

/-- `epoll_ctl`. It refuses the epoll descriptor itself, but not another descriptor of its node. -/
def epollCtl (eps : EpollInstances) (fdt : FdTable) (epfd : ℤ) (op : EpollCtlOp) (fd : ℤ)
    (event : Option EpollEvent) : EpollInstances × Except EpollError Unit :=
  match epollInstance eps fdt epfd with
  | .error error => (eps, .error error)
  | .ok (ep, entries) =>
    if (fdt fd).isNone then (eps, .error .badf)
    else if fd = epfd then (eps, .error .inval)
    else
      let r := epollEdit entries op fd event
      (eps.set ep (some r.1), r.2)

/-- What the loop of `epoll_wait` does with one entry. -/
def epollVisit (entry : EpollEntry) : Option (BitVec 32) → EpollEntry × Option EpollEvent
  | none => (entry, none)
  | some revents =>
    if revents = 0 then (if entry.edgeTrigger then { entry with lastEvents := 0 } else entry, none)
    else
      match epollShouldEmit entry revents with
      | (entry, true) =>
        (if entry.oneShot then { entry with disabled := true } else entry, some ⟨revents, entry.data⟩)
      | (entry, false) => (entry, none)

/-- The loop of `epoll_wait`, with the descriptor of each event that it stores. -/
def epollScan (look : EpollEntry → Option (Option (BitVec 32))) (maxevents : ℕ) :
    ℕ → List EpollEntry → Option (List EpollEntry × List (ℤ × EpollEvent))
  | _, [] => some ([], [])
  | ready, entry :: rest =>
    if ready < maxevents then
      (look entry).bind fun revents =>
        match epollVisit entry revents with
        | (entry', some event) =>
          (epollScan look maxevents (ready + 1) rest).map fun r => (entry' :: r.1, (entry.fd, event) :: r.2)
        | (entry', none) => (epollScan look maxevents ready rest).map fun r => (entry' :: r.1, r.2)
    else some (entry :: rest, [])

/-- How a wait looks at the entries of the instance `ep`, whose lock it holds. -/
def epollWaitLook (eps : EpollInstances) (fdt : FdTable) (ep : ℕ) :
    EpollEntry → Option (Option (BitVec 32)) :=
  epollLook (fun ep' => vfsPollEpoll (epollfsPoll eps fdt eps.length [ep] ep')) fdt

/-- What happens in one round of the loop of `epoll_wait`: the descriptors at its two scans, whether a
signal is pending after each, whether some waiter could be armed, and whether there is time left. -/
structure EpollRound where
  scan : FdTable
  signal : Bool
  waiters : Bool
  rescan : FdTable
  resignal : Bool
  again : Bool

/-- The loop of `epoll_wait`; `poll` says that the timeout is 0. A call without a result has not returned
yet. -/
def epollRounds (eps : EpollInstances) (ep maxevents : ℕ) (poll : Bool) :
    List EpollRound → List EpollEntry →
      Option (List EpollEntry × Option (Except EpollError (List (ℤ × EpollEvent))))
  | [], entries => some (entries, none)
  | r :: rounds, entries =>
    (epollScan (epollWaitLook eps r.scan ep) maxevents 0 entries).bind fun s =>
      if s.2 ≠ [] then some (s.1, some (.ok s.2))
      else if r.signal then some (s.1, some (.error .intr))
      else if poll then some (s.1, some (.ok []))
      else if r.waiters then
        (epollScan (epollWaitLook eps r.rescan ep) maxevents 0 s.1).bind fun s =>
          if s.2 ≠ [] then some (s.1, some (.ok s.2))
          else if r.resignal then some (s.1, some (.error .intr))
          else if r.again then epollRounds eps ep maxevents poll rounds s.1
          else some (s.1, some (.ok []))
      else if r.again then epollRounds eps ep maxevents poll rounds s.1
      else some (s.1, some (.ok []))

/-- `epoll_wait`; `alloc` tells whether there is memory for the waiters. -/
def epollWait (eps : EpollInstances) (fdt : FdTable) (epfd maxevents : ℤ) (alloc poll : Bool)
    (rounds : List EpollRound) :
    Option (EpollInstances × Option (Except EpollError (List (ℤ × EpollEvent)))) :=
  if maxevents ≤ 0 then some (eps, some (.error .inval))
  else
    match epollInstance eps fdt epfd with
    | .error error => some (eps, some (.error error))
    | .ok (ep, entries) =>
      if ¬ alloc then some (eps, some (.error .nomem))
      else (epollRounds eps ep maxevents.toNat poll rounds entries).map fun r => (eps.set ep (some r.1), r.2)

/-- The only round of a wait with a timeout of 0. -/
def EpollRound.atOnce (fdt : FdTable) (signal : Bool) : EpollRound := ⟨fdt, signal, false, fdt, false, false⟩

theorem epollShouldEmit_snd (entry : EpollEntry) (readyEvents : BitVec 32) :
    (epollShouldEmit entry readyEvents).2 = epollWouldEmit entry readyEvents := by
  unfold epollShouldEmit epollWouldEmit
  split_ifs <;> rfl

theorem epollVisit_spec (entry : EpollEntry) (revents : Option (BitVec 32)) :
    (epollVisit entry revents).1.fd = entry.fd ∧ (epollVisit entry revents).1.oneShot = entry.oneShot ∧
    (((epollVisit entry revents).2 = none ∧ epollEntryReady entry revents = false ∧
        (epollVisit entry revents).1.disabled = entry.disabled) ∨
      ∃ event, (epollVisit entry revents).2 = some event ∧ epollEntryReady entry revents = true ∧
        entry.disabled = false ∧ (entry.oneShot = true → (epollVisit entry revents).1.disabled = true)) := by
  cases revents with
  | none => exact ⟨rfl, rfl, .inl ⟨rfl, rfl, rfl⟩⟩
  | some revents =>
    unfold epollVisit epollEntryReady
    by_cases hzero : revents = 0
    · simp only [hzero, if_true, ne_eq, not_true, false_and, decide_false]
      split_ifs <;> simp
    · have hsame : (epollShouldEmit entry revents).1.fd = entry.fd ∧
          (epollShouldEmit entry revents).1.oneShot = entry.oneShot ∧
          (epollShouldEmit entry revents).1.disabled = entry.disabled := by
        unfold epollShouldEmit
        split_ifs <;> exact ⟨rfl, rfl, rfl⟩
      have hemit := epollShouldEmit_snd entry revents
      have henabled : epollWouldEmit entry revents = true → entry.disabled = false := by
        intro hwould
        by_contra hdisabled
        rw [Bool.not_eq_false] at hdisabled
        simp [epollWouldEmit, hdisabled] at hwould
      simp only [if_neg hzero]
      generalize epollShouldEmit entry revents = result at hsame hemit ⊢
      obtain ⟨entry', emit⟩ := result
      obtain ⟨hfd, honeShot, hstate⟩ := hsame
      simp only at hfd honeShot hstate hemit
      simp only [← hemit]
      cases emit with
      | true =>
        have hlive := henabled hemit.symm
        by_cases hone : entry'.oneShot = true
        · simpa [hone, hfd, ← honeShot, hlive] using hzero
        · simpa [hone, hfd, ← honeShot, hlive] using hzero
      | false => simp [hfd, honeShot, hstate]

section Scan

variable {look : EpollEntry → Option (Option (BitVec 32))} {maxevents ready : ℕ}
  {entry : EpollEntry} {entries rest : List EpollEntry} {r : List EpollEntry × List (ℤ × EpollEvent)}

theorem epollScan_cons (hready : ready < maxevents) :
    epollScan look maxevents ready (entry :: rest) =
      (look entry).bind fun revents =>
        (epollScan look maxevents (ready + (epollVisit entry revents).2.toList.length) rest).map fun r =>
          ((epollVisit entry revents).1 :: r.1,
            (epollVisit entry revents).2.toList.map (entry.fd, ·) ++ r.2) := by
  rw [epollScan, if_pos hready]
  congr 1
  funext revents
  generalize epollVisit entry revents = result
  obtain ⟨entry', event⟩ := result
  cases event <;> rfl

/-- What a scan that goes on does to its first entry. -/
theorem epollScan_cons_eq_some (h : epollScan look maxevents ready (entry :: rest) = some r) :
    maxevents ≤ ready ∧ r = (entry :: rest, []) ∨
    ∃ revents r', look entry = some revents ∧
      epollScan look maxevents (ready + (epollVisit entry revents).2.toList.length) rest = some r' ∧
      r = ((epollVisit entry revents).1 :: r'.1,
        (epollVisit entry revents).2.toList.map (entry.fd, ·) ++ r'.2) := by
  by_cases hready : ready < maxevents
  · rw [epollScan_cons hready] at h
    obtain ⟨revents, hrevents, h⟩ := Option.bind_eq_some_iff.mp h
    obtain ⟨r', hr', rfl⟩ := Option.map_eq_some_iff.mp h
    exact .inr ⟨revents, r', hrevents, hr', rfl⟩
  · rw [epollScan, if_neg hready] at h
    cases h
    exact .inl ⟨not_lt.mp hready, rfl⟩

theorem epollScan_fds (h : epollScan look maxevents ready entries = some r) :
    r.1.map EpollEntry.fd = entries.map EpollEntry.fd ∧
      (r.2.map Prod.fst).Sublist (entries.map EpollEntry.fd) := by
  induction entries generalizing ready r with
  | nil =>
    cases h
    exact ⟨rfl, Sublist.refl _⟩
  | cons entry rest ih =>
    obtain ⟨-, rfl⟩ | ⟨revents, r', -, hr', rfl⟩ := epollScan_cons_eq_some h
    · exact ⟨rfl, nil_sublist _⟩
    · obtain ⟨hfds, hsub⟩ := ih hr'
      simp only [map_cons, hfds, (epollVisit_spec entry revents).1, true_and]
      cases (epollVisit entry revents).2 with
      | none => exact hsub.cons entry.fd
      | some event => exact hsub.cons_cons entry.fd

/-- A scan looks at each entry at most once. -/
theorem epollScan_entries (hnodup : (entries.map EpollEntry.fd).Nodup)
    (h : epollScan look maxevents ready entries = some r) :
    ∀ entry' ∈ r.1, ∃ entry ∈ entries, entry'.fd = entry.fd ∧ entry'.oneShot = entry.oneShot ∧
      (entry.fd ∈ r.2.map Prod.fst ∧ entry.disabled = false ∧
          (entry.oneShot = true → entry'.disabled = true) ∨
        entry.fd ∉ r.2.map Prod.fst ∧ entry'.disabled = entry.disabled) := by
  induction entries generalizing ready r with
  | nil =>
    cases h
    simp
  | cons entry rest ih =>
    rw [map_cons, nodup_cons] at hnodup
    obtain ⟨-, rfl⟩ | ⟨revents, r', -, hr', rfl⟩ := epollScan_cons_eq_some h
    · intro entry' hentry'
      exact ⟨entry', hentry', rfl, rfl, .inr ⟨by simp, rfl⟩⟩
    obtain ⟨hfd, hone, hvisit⟩ := epollVisit_spec entry revents
    have hnot : entry.fd ∉ r'.2.map Prod.fst := fun hmem => hnodup.1 ((epollScan_fds hr').2.subset hmem)
    have hreported : ∀ fd, fd ∈ ((epollVisit entry revents).2.toList.map (entry.fd, ·) ++ r'.2).map Prod.fst ↔
        (fd = entry.fd ∧ (epollVisit entry revents).2.isSome) ∨ fd ∈ r'.2.map Prod.fst := by
      intro fd
      rw [map_append, mem_append]
      cases (epollVisit entry revents).2 <;> simp
    intro entry' hentry'
    rcases mem_cons.mp hentry' with rfl | hrest
    · refine ⟨entry, mem_cons_self, hfd, hone, ?_⟩
      simp only [hreported, true_and, hnot, or_false]
      rcases hvisit with ⟨hevent, -, hsame⟩ | ⟨event, hevent, -, hlive, hdisabled⟩
      · exact .inr ⟨by simp [hevent], hsame⟩
      · exact .inl ⟨by simp [hevent], hlive, hdisabled⟩
    · obtain ⟨old, hold, hfd', hone', hspec⟩ := ih hnodup.2 hr' entry' hrest
      have hne : old.fd ≠ entry.fd := fun heq => hnodup.1 (heq ▸ mem_map_of_mem hold)
      refine ⟨old, mem_cons_of_mem _ hold, hfd', hone', ?_⟩
      simpa only [hreported, hne, false_and, false_or] using hspec

/-- Where every look returns, a scan reports something exactly when `epollfs_poll` finds something. -/
theorem epollScan_returns (maxevents : ℕ) (hlook : ∀ entry ∈ entries, (look entry).isSome) (ready : ℕ) :
    ∃ r any, epollScan look maxevents ready entries = some r ∧ epollAnyReady look entries = some any ∧
      (ready < maxevents → (r.2 ≠ [] ↔ any = true)) := by
  induction entries generalizing ready with
  | nil => exact ⟨_, _, rfl, rfl, fun _ => by simp⟩
  | cons entry rest ih =>
    obtain ⟨revents, hrevents⟩ := Option.isSome_iff_exists.mp (hlook entry mem_cons_self)
    obtain ⟨r, any, hr, hany, hiff⟩ := ih (fun e he => hlook e (mem_cons_of_mem _ he))
      (ready + (epollVisit entry revents).2.toList.length)
    have hpoll : epollAnyReady look (entry :: rest) =
        if epollEntryReady entry revents then some true else some any := by
      rw [epollAnyReady, hrevents, Option.bind_some, hany]
    by_cases hready : ready < maxevents
    · have hscan : epollScan look maxevents ready (entry :: rest) =
          some ((epollVisit entry revents).1 :: r.1,
            (epollVisit entry revents).2.toList.map (entry.fd, ·) ++ r.2) := by
        rw [epollScan_cons hready, hrevents, Option.bind_some, hr, Option.map_some]
      rw [hscan, hpoll]
      rcases (epollVisit_spec entry revents).2.2 with ⟨hevent, hno, -⟩ | ⟨event, hevent, hyes, -⟩
      · refine ⟨_, any, rfl, by rw [hno, if_neg (by simp)], fun _ => ?_⟩
        rw [hevent] at hiff ⊢
        exact hiff hready
      · exact ⟨_, true, rfl, by rw [hyes, if_pos rfl], fun _ => by simp [hevent]⟩
    · rw [epollScan, if_neg hready, hpoll]
      exact ⟨_, _, rfl, (apply_ite some _ _ _).symm, fun hlt => absurd hlt hready⟩

end Scan

/-- The instance `a` has an entry for a descriptor of the instance `b`. -/
def Watches (eps : EpollInstances) (fdt : FdTable) (a b : ℕ) : Prop :=
  ∃ entries, eps[a]? = some (some entries) ∧ ∃ entry ∈ entries, fdt entry.fd = some (some (.epoll b))

section Returns

variable {eps : EpollInstances} {fdt : FdTable}

theorem epollLook_returns {vfsPoll : ℕ → BitVec 32 → Option (BitVec 32)} {entry : EpollEntry}
    (hpoll : ∀ b, fdt entry.fd = some (some (.epoll b)) → ∀ events, (vfsPoll b events).isSome) :
    (epollLook vfsPoll fdt entry).isSome := by
  unfold epollLook
  by_cases hdisabled : entry.disabled = true
  · rw [if_pos hdisabled]
    rfl
  rw [if_neg hdisabled]
  cases hhandle : fdt entry.fd with
  | none => rfl
  | some handle =>
    simp only [Option.isSome_map]
    cases handle with
    | none => rfl
    | some node =>
      cases node with
      | file poll => cases poll <;> rfl
      | epoll b =>
        obtain ⟨revents, hrevents⟩ :=
          Option.isSome_iff_exists.mp (hpoll b hhandle (entry.events ||| epollAlwaysEvents))
        obtain ⟨always, halways⟩ := Option.isSome_iff_exists.mp (hpoll b hhandle epollAlwaysEvents)
        simp [epollQueryReadyEvents, hrevents, halways]

/-- Each instance that is polled is watched by the one before it, whose lock is held. Where no instance
watches itself there are no more of them than instances. -/
theorem epollfsPoll_returns (hacyclic : ∀ a, ¬ TransGen (Watches eps fdt) a a) (depth : ℕ) (held : List ℕ)
    (ep : ℕ) (events : BitVec 32) (hnodup : held.Nodup)
    (hheld : ∀ a ∈ held, a < eps.length ∧ TransGen (Watches eps fdt) a ep)
    (hdepth : eps.length < depth + held.length) : (epollfsPoll eps fdt depth held ep events).isSome := by
  induction depth generalizing held ep events with
  | zero =>
    have hsub : held ⊆ range eps.length := fun a ha => mem_range.mpr (hheld a ha).1
    have hle := (hnodup.subperm hsub).length_le
    rw [length_range] at hle
    omega
  | succ depth ih =>
    unfold epollfsPoll
    cases hep : eps[ep]? with
    | none => rfl
    | some instance' =>
      cases instance' with
      | none => rfl
      | some entries =>
        have hfree : ep ∉ held := fun hmem => hacyclic ep (hheld ep hmem).2
        have hlt : ep < eps.length := (List.getElem?_eq_some_iff.mp hep).1
        have hlook : ∀ entry ∈ entries, (epollLook (fun ep' => vfsPollEpoll
            (epollfsPoll eps fdt depth (ep :: held) ep')) fdt entry).isSome := by
          intro entry hentry
          refine epollLook_returns fun b hb events => ?_
          have hedge : Watches eps fdt ep b := ⟨entries, hep, entry, hentry, hb⟩
          unfold vfsPollEpoll
          rw [Option.isSome_map]
          refine ih (ep :: held) b _ (nodup_cons.mpr ⟨hfree, hnodup⟩) ?_ (by rw [length_cons]; omega)
          intro a ha
          rcases mem_cons.mp ha with rfl | ha
          · exact ⟨hlt, .single hedge⟩
          · exact ⟨(hheld a ha).1, (hheld a ha).2.tail hedge⟩
        obtain ⟨-, any, -, hany, -⟩ := epollScan_returns 0 hlook 0
        simp only [if_neg hfree, hany, Option.map_some, Option.isSome_some]

theorem epollWaitLook_returns (hacyclic : ∀ a, ¬ TransGen (Watches eps fdt) a a) {ep : ℕ}
    {entries : List EpollEntry} (hep : eps[ep]? = some (some entries)) :
    ∀ entry ∈ entries, (epollWaitLook eps fdt ep entry).isSome := by
  intro entry hentry
  refine epollLook_returns fun b hb events => ?_
  unfold vfsPollEpoll
  rw [Option.isSome_map]
  refine epollfsPoll_returns hacyclic eps.length [ep] b _ (nodup_singleton ep) ?_ (by simp)
  intro a ha
  rw [mem_singleton.mp ha]
  exact ⟨(List.getElem?_eq_some_iff.mp hep).1, .single ⟨entries, hep, entry, hentry, hb⟩⟩

theorem epollInstance_eq_ok {epfd : ℤ} {ep : ℕ} {entries : List EpollEntry} :
    epollInstance eps fdt epfd = .ok (ep, entries) ↔
      fdt epfd = some (some (.epoll ep)) ∧ eps[ep]? = some (some entries) := by
  constructor
  · intro h
    unfold epollInstance at h
    cases hhandle : fdt epfd with
    | none => simp [hhandle] at h
    | some handle =>
      rw [hhandle] at h
      cases handle with
      | none => cases h
      | some node =>
        cases node with
        | file poll => cases h
        | epoll a =>
          dsimp only at h
          cases ha : eps[a]? with
          | none => simp [ha] at h
          | some list =>
            cases list with
            | none => simp [ha] at h
            | some list =>
              rw [ha] at h
              cases h
              exact ⟨rfl, ha⟩
  · rintro ⟨hhandle, hep⟩
    simp only [epollInstance, hhandle, hep]

/-- Where no instance watches itself, polling an epoll descriptor and a wait with a timeout of 0 return, and
they agree. -/
theorem poll_agrees_wait (hacyclic : ∀ a, ¬ TransGen (Watches eps fdt) a a) {epfd maxevents : ℤ} {ep : ℕ}
    {entries : List EpollEntry} (hepfd : fdt epfd = some (some (.epoll ep)))
    (hep : eps[ep]? = some (some entries)) (hmax : 0 < maxevents) (signal : Bool) :
    ∃ revents eps' result, pollEpoll eps fdt ep epollIn = some revents ∧
      epollWait eps fdt epfd maxevents true true [.atOnce fdt signal] = some (eps', some result) ∧
      (revents &&& epollIn ≠ 0 ↔ ∃ events, result = .ok events ∧ events ≠ []) := by
  obtain ⟨r, any, hscan, hany, hiff⟩ := epollScan_returns maxevents.toNat
    (epollWaitLook_returns hacyclic hep) 0
  have hpoll : pollEpoll eps fdt ep epollIn = some (if any ∧ epollIn &&& epollIn ≠ 0 then epollIn else 0) := by
    unfold pollEpoll epollfsPoll
    rw [hep]
    simp only [not_mem_nil, if_false]
    exact congrArg (Option.map _) hany
  have hrounds : epollRounds eps ep maxevents.toNat true [.atOnce fdt signal] entries =
      some (r.1, some (if r.2 ≠ [] then .ok r.2 else if signal then .error .intr else .ok [])) := by
    rw [epollRounds, EpollRound.atOnce, hscan, Option.bind_some]
    by_cases hne : r.2 ≠ []
    · rw [if_pos hne, if_pos hne]
    · rw [if_neg hne, if_neg hne]
      cases signal <;> rfl
  refine ⟨_, eps.set ep (some r.1),
    if r.2 ≠ [] then .ok r.2 else if signal then .error .intr else .ok [], hpoll, ?_, ?_⟩
  · unfold epollWait
    rw [if_neg (not_le.mpr hmax), epollInstance_eq_ok.mpr ⟨hepfd, hep⟩]
    dsimp only
    rw [if_neg (by simp), hrounds, Option.map_some]
  · have hiff := hiff (by omega)
    cases any with
    | true =>
      have hne := hiff.mpr rfl
      simp only [hne, ne_eq, not_false_eq_true, if_true, true_and]
      exact iff_of_true (by decide) ⟨r.2, rfl, hne⟩
    | false =>
      have hnil : r.2 = [] := by simpa using hiff
      simp only [hnil, Bool.false_eq_true, false_and, if_false]
      refine iff_of_false (by decide) ?_
      rintro ⟨events, hevents, hne⟩
      cases signal
      · cases hevents
        exact hne rfl
      · cases hevents

end Returns

theorem set_last_dropLast_perm {α : Type*} {l : List α} {found : ℕ} {last : α}
    (hlast : l.getLast? = some last) (hfound : found < l.length) :
    ((l.set found last).dropLast).Perm (l.eraseIdx found) := by
  obtain ⟨front, rfl⟩ := getLast?_eq_some_iff.mp hlast
  rw [length_append, length_singleton] at hfound
  by_cases hend : found < front.length
  · rw [set_append_left _ _ hend, dropLast_concat, eraseIdx_append_of_lt_length hend]
    exact (set_perm_cons_eraseIdx hend last).trans (perm_append_singleton last _).symm
  · obtain rfl : found = front.length := by omega
    rw [set_append_right _ _ le_rfl, eraseIdx_append_of_length_le le_rfl]
    simp

/-- The instances, the descriptors of the process that calls, and how often each instance has reported each
descriptor since it was last added or modified there. -/
structure EpollState where
  eps : EpollInstances
  fdt : FdTable
  reports : ℕ → ℤ → ℕ

inductive EpollOp
  | create
  | close (ep : ℕ)
  | ctl (epfd : ℤ) (op : EpollCtlOp) (fd : ℤ) (event : Option EpollEvent)
  | change (fdt : FdTable)
  | poll (ep : ℕ) (events : BitVec 32)
  | wait (epfd maxevents : ℤ) (alloc signal : Bool)

def FdTable.epoll (fdt : FdTable) (fd : ℤ) : Option ℕ :=
  match fdt fd with
  | some (some (.epoll ep)) => some ep
  | _ => none

def reportedFds : Option (Except EpollError (List (ℤ × EpollEvent))) → List ℤ
  | some (.ok events) => events.map Prod.fst
  | _ => []

/-- The waits have a timeout of 0. A call that never returns gives `none`. -/
def EpollState.step (x : EpollState) : EpollOp → Option EpollState
  | .create => some { x with eps := x.eps ++ [some []] }
  | .close ep => some { x with eps := x.eps.set ep none }
  | .ctl epfd op fd event =>
    some { x with
      eps := (epollCtl x.eps x.fdt epfd op fd event).1
      reports := fun ep fd' =>
        if x.fdt.epoll epfd = some ep ∧ fd' = fd ∧ (op = .add ∨ op = .mod) ∧
          (epollCtl x.eps x.fdt epfd op fd event).2.isOk then 0
        else x.reports ep fd' }
  | .change fdt => some { x with fdt := fdt }
  | .poll ep events => (pollEpoll x.eps x.fdt ep events).map fun _ => x
  | .wait epfd maxevents alloc signal =>
    (epollWait x.eps x.fdt epfd maxevents alloc true [.atOnce x.fdt signal]).map fun r =>
      { x with
        eps := r.1
        reports := fun ep fd =>
          x.reports ep fd + if x.fdt.epoll epfd = some ep then (reportedFds r.2).count fd else 0 }

/-- No epoll instance comes to watch itself, through another descriptor of its node or through other
instances: neither by an entry that is added, nor by a change of what the descriptors stand for. -/
def EpollOp.Clear (x : EpollState) : EpollOp → Prop
  | .ctl epfd .add fd (some _) => fd ≠ epfd → ∀ a b, x.fdt epfd = some (some (.epoll a)) →
      x.fdt fd = some (some (.epoll b)) → ¬ ReflTransGen (Watches x.eps x.fdt) b a
  | .change fdt => ∀ a, ¬ TransGen (Watches x.eps fdt) a a
  | _ => True

/-- Each descriptor has at most one entry of an instance, polling an epoll descriptor agrees with a wait, and a
one-shot entry has been reported at most once. -/
structure EpollConsistent (x : EpollState) : Prop where
  one : ∀ (ep : ℕ) (entries : List EpollEntry), x.eps[ep]? = some (some entries) → (entries.map EpollEntry.fd).Nodup
  agree : ∀ (epfd : ℤ) (ep : ℕ) (entries : List EpollEntry) (maxevents : ℤ) signal, x.fdt epfd = some (some (.epoll ep)) →
    x.eps[ep]? = some (some entries) → 0 < maxevents →
    ∃ revents eps' result, pollEpoll x.eps x.fdt ep epollIn = some revents ∧
      epollWait x.eps x.fdt epfd maxevents true true [.atOnce x.fdt signal] = some (eps', some result) ∧
      (revents &&& epollIn ≠ 0 ↔ ∃ events, result = .ok events ∧ events ≠ [])
  once : ∀ (ep : ℕ) (entries : List EpollEntry), x.eps[ep]? = some (some entries) →
    ∀ entry ∈ entries, entry.oneShot = true → x.reports ep entry.fd ≤ 1

structure EpollInv (x : EpollState) : Prop where
  nodup : ∀ (ep : ℕ) (entries : List EpollEntry), x.eps[ep]? = some (some entries) → (entries.map EpollEntry.fd).Nodup
  oneShot : ∀ (ep : ℕ) (entries : List EpollEntry), x.eps[ep]? = some (some entries) → ∀ entry ∈ entries, entry.oneShot = true →
    x.reports ep entry.fd ≤ 1 ∧ (entry.disabled = false → x.reports ep entry.fd = 0)
  acyclic : ∀ a, ¬ TransGen (Watches x.eps x.fdt) a a

/-- No instance has a descriptor in the first watch lists that it has not in the second. -/
def NarrowedTo (eps' eps : EpollInstances) : Prop :=
  ∀ (ep : ℕ) (entries' : List EpollEntry), eps'[ep]? = some (some entries') →
    ∃ entries : List EpollEntry, eps[ep]? = some (some entries) ∧
      entries'.map EpollEntry.fd ⊆ entries.map EpollEntry.fd

theorem NarrowedTo.watches {eps eps' : EpollInstances} {fdt : FdTable} (h : NarrowedTo eps' eps) {a b : ℕ}
    (hab : Watches eps' fdt a b) : Watches eps fdt a b := by
  obtain ⟨entries', ha, entry', hentry', hfd⟩ := hab
  obtain ⟨entries, hentries, hsub⟩ := h a entries' ha
  obtain ⟨entry, hentry, hsame⟩ := mem_map.mp (hsub (mem_map_of_mem hentry'))
  exact ⟨entries, hentries, entry, hentry, hsame ▸ hfd⟩

theorem NarrowedTo.acyclic {eps eps' : EpollInstances} {fdt : FdTable} (h : NarrowedTo eps' eps)
    (hacyclic : ∀ a, ¬ TransGen (Watches eps fdt) a a) : ∀ a, ¬ TransGen (Watches eps' fdt) a a := by
  have hle : Watches eps' fdt ≤ Watches eps fdt := fun _ _ => h.watches
  exact fun a hloop => hacyclic a (TransGen.mono hle a a hloop)

/-- The watch lists after the list of one instance has been replaced. -/
theorem getElem?_set_instance {eps : EpollInstances} {ep : ℕ} {entries : List EpollEntry}
    {new : Option (List EpollEntry)} (hep : eps[ep]? = some (some entries)) (a : ℕ) :
    (eps.set ep new)[a]? = if a = ep then some new else eps[a]? := by
  have hlt := (List.getElem?_eq_some_iff.mp hep).1
  by_cases ha : a = ep
  · rw [if_pos ha, ha, getElem?_set_self hlt]
  · rw [if_neg ha, getElem?_set_ne (Ne.symm ha)]

theorem FdTable.epoll_eq_some {fdt : FdTable} {fd : ℤ} {ep : ℕ} :
    fdt.epoll fd = some ep ↔ fdt fd = some (some (.epoll ep)) := by
  unfold FdTable.epoll
  cases fdt fd with
  | none => simp
  | some handle =>
    cases handle with
    | none => simp
    | some node => cases node <;> simp

/-- A wait with a timeout of 0 ends before its loop, or scans the list of one instance. -/
theorem epollWait_cases {eps eps' : EpollInstances} {fdt : FdTable} {epfd maxevents : ℤ} {alloc signal : Bool}
    {result : Option (Except EpollError (List (ℤ × EpollEvent)))}
    (h : epollWait eps fdt epfd maxevents alloc true [.atOnce fdt signal] = some (eps', result)) :
    (eps' = eps ∧ reportedFds result = [] ∧ ∀ ep entries, alloc = true → 0 < maxevents →
      epollInstance eps fdt epfd ≠ .ok (ep, entries)) ∨
    ∃ ep entries r, alloc = true ∧ 0 < maxevents ∧ epollInstance eps fdt epfd = .ok (ep, entries) ∧
      epollScan (epollWaitLook eps fdt ep) maxevents.toNat 0 entries = some r ∧
      eps' = eps.set ep (some r.1) ∧ reportedFds result = r.2.map Prod.fst := by
  unfold epollWait at h
  by_cases hmax : maxevents ≤ 0
  · rw [if_pos hmax] at h
    cases h
    exact .inl ⟨rfl, rfl, fun _ _ _ hpos => absurd hmax (not_le.mpr hpos)⟩
  rw [if_neg hmax] at h
  cases hinstance : epollInstance eps fdt epfd with
  | error error =>
    rw [hinstance] at h
    cases h
    exact .inl ⟨rfl, rfl, by simp⟩
  | ok target =>
    obtain ⟨ep, entries⟩ := target
    rw [hinstance] at h
    dsimp only at h
    by_cases halloc : ¬ alloc
    · rw [if_pos halloc] at h
      cases h
      exact .inl ⟨rfl, rfl, fun _ _ htrue => absurd htrue halloc⟩
    rw [if_neg halloc] at h
    obtain ⟨⟨last, result'⟩, hrounds, heq⟩ := Option.map_eq_some_iff.mp h
    cases heq
    obtain ⟨r, hr, hrounds⟩ := Option.bind_eq_some_iff.mp hrounds
    refine .inr ⟨ep, entries, r, not_not.mp halloc, not_le.mp hmax, rfl, hr, ?_⟩
    by_cases hne : r.2 ≠ []
    · rw [if_pos hne] at hrounds
      cases hrounds
      exact ⟨rfl, rfl⟩
    · rw [if_neg hne] at hrounds
      rw [ne_eq, not_not] at hne
      cases signal <;> cases hrounds <;> simp [reportedFds, hne]

theorem EpollInv.wait {x x' : EpollState} (h : EpollInv x) {epfd maxevents : ℤ} {alloc signal : Bool}
    (hx' : x.step (.wait epfd maxevents alloc signal) = some x') : EpollInv x' := by
  obtain ⟨⟨eps', result⟩, hwait, rfl⟩ := Option.map_eq_some_iff.mp hx'
  rcases epollWait_cases hwait with ⟨rfl, hnone, -⟩ | ⟨ep, entries, r, -, -, hinstance, hr, rfl, hreported⟩
  · refine ⟨h.nodup, fun ep entries hentries entry hentry hone => ?_, h.acyclic⟩
    simp only [hnone, count_nil, ite_self, Nat.add_zero]
    exact h.oneShot ep entries hentries entry hentry hone
  obtain ⟨hepfd, hep⟩ := epollInstance_eq_ok.mp hinstance
  obtain ⟨hfds, hsub⟩ := epollScan_fds hr
  refine ⟨fun a list hlist => ?_, fun a list hlist entry' hentry' hone => ?_, ?_⟩
  · simp only [getElem?_set_instance hep] at hlist
    split_ifs at hlist with ha
    · cases hlist
      rw [hfds]
      exact h.nodup ep entries hep
    · exact h.nodup a list hlist
  · simp only [getElem?_set_instance hep] at hlist
    simp only [FdTable.epoll_eq_some.mpr hepfd, Option.some_inj, hreported]
    split_ifs at hlist with ha
    · cases hlist
      subst ha
      rw [if_pos rfl]
      obtain ⟨entry, hentry, hfd, honeShot, hspec⟩ := epollScan_entries (h.nodup a entries hep) hr entry' hentry'
      obtain ⟨hle, hlive⟩ := h.oneShot a entries hep entry hentry (honeShot ▸ hone)
      rw [hfd]
      rcases hspec with ⟨hmem, hwas, hnow⟩ | ⟨hnot, hsame⟩
      · have hcount := nodup_iff_count_le_one.mp ((h.nodup a entries hep).sublist hsub) entry.fd
        have hzero := hlive hwas
        refine ⟨by omega, fun hstill => ?_⟩
        rw [hnow (honeShot ▸ hone)] at hstill
        cases hstill
      · rw [count_eq_zero_of_not_mem hnot, Nat.add_zero, hsame]
        exact ⟨hle, hlive⟩
    · rw [if_neg (Ne.symm ha), Nat.add_zero]
      exact h.oneShot a list hlist entry' hentry' hone
  · refine NarrowedTo.acyclic (fun a list hlist => ?_) h.acyclic
    rw [getElem?_set_instance hep] at hlist
    split_ifs at hlist with ha
    · cases hlist
      subst ha
      exact ⟨entries, hep, hfds ▸ Subset.refl _⟩
    · exact ⟨list, hlist, Subset.refl _⟩

theorem epollEdit_cases (entries : List EpollEntry) (op : EpollCtlOp) (fd : ℤ) (event : Option EpollEvent) :
    (∃ error, epollEdit entries op fd event = (entries, .error error)) ∨
    (∃ event', op = .add ∧ event = some event' ∧ (∀ e ∈ entries, e.fd ≠ fd) ∧
      epollEdit entries op fd event = (entries ++ [.ofEvent fd event'], .ok ())) ∨
    (∃ entries' found, op = .del ∧ epollEdit entries op fd event = (entries', .ok ()) ∧
      entries'.Perm (entries.eraseIdx found)) ∨
    ∃ event' found, ∃ _ : found < entries.length, op = .mod ∧ entries[found].fd = fd ∧
      epollEdit entries op fd event = (entries.set found (.ofEvent fd event'), .ok ()) := by
  unfold epollEdit
  cases hfind : entries.findIdx? (fun e => e.fd = fd) with
  | none =>
    have hnew : ∀ e ∈ entries, e.fd ≠ fd := by
      simpa using findIdx?_eq_none_iff.mp hfind
    cases op <;> cases event
    case add.some event =>
      dsimp only
      by_cases hfull : entries.length ≥ epollMaxEntries
      · rw [if_pos hfull]
        exact .inl ⟨_, rfl⟩
      · rw [if_neg hfull]
        exact .inr (.inl ⟨event, rfl, rfl, hnew, rfl⟩)
    all_goals exact .inl ⟨_, rfl⟩
  | some found =>
    obtain ⟨hlt, hfd, -⟩ := findIdx?_eq_some_iff_getElem.mp hfind
    have hfd : entries[found].fd = fd := by simpa using hfd
    have hdel : ∃ entries', (match entries.getLast? with
        | none => (entries, Except.ok ())
        | some last => ((entries.set found last).dropLast, Except.ok ())) =
          ((entries', .ok ()) : List EpollEntry × Except EpollError Unit) ∧
        entries'.Perm (entries.eraseIdx found) := by
      cases hlast : entries.getLast? with
      | none =>
        rw [getLast?_eq_none_iff] at hlast
        simp [hlast] at hlt
      | some last => exact ⟨_, rfl, set_last_dropLast_perm hlast hlt⟩
    obtain ⟨entries', hdel, hperm⟩ := hdel
    cases op <;> cases event
    case mod.some event => exact .inr (.inr (.inr ⟨event, found, hlt, rfl, hfd, rfl⟩))
    case del.none => exact .inr (.inr (.inl ⟨entries', found, rfl, hdel, hperm⟩))
    case del.some => exact .inr (.inr (.inl ⟨entries', found, rfl, hdel, hperm⟩))
    all_goals exact .inl ⟨_, rfl⟩

/-- A call of `epoll_ctl` fails and changes nothing, or it edits the list of one instance. -/
theorem epollCtl_cases (eps : EpollInstances) (fdt : FdTable) (epfd : ℤ) (op : EpollCtlOp) (fd : ℤ)
    (event : Option EpollEvent) :
    (∃ error, epollCtl eps fdt epfd op fd event = (eps, .error error)) ∨
    ∃ ep entries entries', fdt epfd = some (some (.epoll ep)) ∧ eps[ep]? = some (some entries) ∧ fd ≠ epfd ∧
      epollEdit entries op fd event = (entries', .ok ()) ∧
      epollCtl eps fdt epfd op fd event = (eps.set ep (some entries'), .ok ()) := by
  unfold epollCtl
  cases hinstance : epollInstance eps fdt epfd with
  | error error => exact .inl ⟨error, rfl⟩
  | ok target =>
    obtain ⟨ep, entries⟩ := target
    obtain ⟨hepfd, hep⟩ := epollInstance_eq_ok.mp hinstance
    dsimp only
    by_cases htarget : (fdt fd).isNone
    · rw [if_pos htarget]
      exact .inl ⟨_, rfl⟩
    rw [if_neg htarget]
    by_cases hself : fd = epfd
    · rw [if_pos hself]
      exact .inl ⟨_, rfl⟩
    rw [if_neg hself]
    have hsame : eps.set ep (some entries) = eps := by
      refine ext_getElem? fun a => ?_
      rw [getElem?_set_instance hep]
      split_ifs with ha
      · rw [ha, hep]
      · rfl
    rcases epollEdit_cases entries op fd event with ⟨error, hedit⟩ | ⟨_, -, -, -, hedit⟩ |
      ⟨_, _, -, hedit, -⟩ | ⟨_, _, _, -, -, hedit⟩
    · rw [hedit, hsame]
      exact .inl ⟨error, rfl⟩
    all_goals exact .inr ⟨ep, entries, _, hepfd, hep, hself, hedit, by rw [hedit]⟩

theorem map_fd_set {entries : List EpollEntry} {found : ℕ} (hlt : found < entries.length) {fd : ℤ}
    (hfd : entries[found].fd = fd) (event : EpollEvent) :
    (entries.set found (.ofEvent fd event)).map EpollEntry.fd = entries.map EpollEntry.fd := by
  rw [map_set]
  have hlt' : found < (entries.map EpollEntry.fd).length := by simpa using hlt
  have hsame : (EpollEntry.ofEvent fd event).fd = (entries.map EpollEntry.fd)[found] := by
    simp [EpollEntry.ofEvent, hfd]
  rw [hsame, set_getElem_self]

/-- An edit keeps one entry for each descriptor; an entry that it does not write was there before. -/
theorem epollEdit_entries {entries entries' : List EpollEntry} {op : EpollCtlOp} {fd : ℤ}
    {event : Option EpollEvent} (hnodup : (entries.map EpollEntry.fd).Nodup)
    (hedit : epollEdit entries op fd event = (entries', .ok ())) :
    (entries'.map EpollEntry.fd).Nodup ∧
    (∀ entry ∈ entries', (entry ∈ entries ∧ (op = .add ∨ op = .mod → entry.fd ≠ fd)) ∨
      (op = .add ∨ op = .mod) ∧ ∃ event', entry = .ofEvent fd event') ∧
    (entries'.map EpollEntry.fd ⊆ entries.map EpollEntry.fd ∨
      op = .add ∧ event.isSome ∧ entries'.map EpollEntry.fd = entries.map EpollEntry.fd ++ [fd]) := by
  rcases epollEdit_cases entries op fd event with ⟨error, hcase⟩ | ⟨event', rfl, rfl, hnew, hcase⟩ |
    ⟨list, found, rfl, hcase, hperm⟩ | ⟨event', found, hlt, rfl, hfd, hcase⟩
  · rw [hcase] at hedit
    cases hedit
  · rw [hcase] at hedit
    cases hedit
    refine ⟨?_, fun entry hentry => ?_, .inr ⟨rfl, rfl, by rw [map_append]; rfl⟩⟩
    · simp only [map_append, map_singleton]
      refine nodup_append.mpr ⟨hnodup, nodup_singleton _, ?_⟩
      intro a ha b hb
      obtain ⟨e, he, rfl⟩ := mem_map.mp ha
      rw [mem_singleton.mp hb]
      exact hnew e he
    · rcases mem_append.mp hentry with hold | hlast
      · exact .inl ⟨hold, fun _ => hnew entry hold⟩
      · exact .inr ⟨.inl rfl, event', mem_singleton.mp hlast⟩
  · rw [hcase] at hedit
    cases hedit
    have hsub : (entries.eraseIdx found).Sublist entries := eraseIdx_sublist ..
    refine ⟨?_, fun entry hentry => ?_, .inl ?_⟩
    · exact (hperm.map EpollEntry.fd).nodup_iff.mpr (hnodup.sublist (hsub.map EpollEntry.fd))
    · exact .inl ⟨hsub.subset (hperm.subset hentry), by simp⟩
    · exact Subset.trans (hperm.map EpollEntry.fd).subset (hsub.map EpollEntry.fd).subset
  · rw [hcase] at hedit
    cases hedit
    have hfds := map_fd_set hlt hfd event'
    have hnodup' : ((entries.set found (.ofEvent fd event')).map EpollEntry.fd).Nodup := by
      rw [hfds]
      exact hnodup
    refine ⟨hnodup', fun entry hentry => ?_, .inl (by rw [hfds]; exact Subset.refl _)⟩
    by_cases hsame : entry.fd = fd
    · -- the changed entry is the only one of its descriptor
      have hmem : EpollEntry.ofEvent fd event' ∈ entries.set found (.ofEvent fd event') := mem_set hlt _
      exact .inr ⟨.inr rfl, event', inj_on_of_nodup_map hnodup' hentry hmem hsame⟩
    · rcases mem_or_eq_of_mem_set hentry with hold | rfl
      · exact .inl ⟨hold, fun _ => hsame⟩
      · exact absurd rfl hsame

theorem EpollInv.ctl {x x' : EpollState} (h : EpollInv x) {epfd : ℤ} {op : EpollCtlOp} {fd : ℤ}
    {event : Option EpollEvent} (hclear : (EpollOp.ctl epfd op fd event).Clear x)
    (hx' : x.step (.ctl epfd op fd event) = some x') : EpollInv x' := by
  cases hx'
  rcases epollCtl_cases x.eps x.fdt epfd op fd event with ⟨error, hctl⟩ |
    ⟨ep, entries, entries', hepfd, hep, hself, hedit, hctl⟩
  · have hfail : (Except.error error : Except EpollError Unit).isOk = false := rfl
    simp only [hctl, hfail, Bool.false_eq_true, and_false, if_false]
    exact ⟨h.nodup, h.oneShot, h.acyclic⟩
  have hok : (Except.ok () : Except EpollError Unit).isOk = true := rfl
  obtain ⟨hnodup, hentries, hfds⟩ := epollEdit_entries (h.nodup ep entries hep) hedit
  simp only [hctl, hok, FdTable.epoll_eq_some.mpr hepfd, Option.some_inj, and_true]
  refine ⟨fun a list hlist => ?_, fun a list hlist entry hentry hone => ?_, ?_⟩
  · simp only [getElem?_set_instance hep] at hlist
    split_ifs at hlist with ha
    · cases hlist
      exact hnodup
    · exact h.nodup a list hlist
  · simp only [getElem?_set_instance hep] at hlist
    dsimp only
    split_ifs at hlist with ha
    · cases hlist
      subst ha
      rcases hentries entry hentry with ⟨hold, hother⟩ | ⟨hwrites, event', rfl⟩
      · rw [if_neg fun hall => hother hall.2.2 hall.2.1]
        exact h.oneShot a entries hep entry hold hone
      · rw [if_pos ⟨rfl, rfl, hwrites⟩]
        exact ⟨Nat.zero_le 1, fun _ => rfl⟩
    · rw [if_neg fun hall => ha hall.1.symm]
      exact h.oneShot a list hlist entry hentry hone
  · rcases hfds with hsub | ⟨rfl, hsome, hadded⟩
    · refine NarrowedTo.acyclic (fun a list hlist => ?_) h.acyclic
      rw [getElem?_set_instance hep] at hlist
      split_ifs at hlist with ha
      · cases hlist
        subst ha
        exact ⟨entries, hep, hsub⟩
      · exact ⟨list, hlist, Subset.refl _⟩
    obtain ⟨event', rfl⟩ := Option.isSome_iff_exists.mp hsome
    have hwatches : ∀ a b, Watches (x.eps.set ep (some entries')) x.fdt a b →
        Watches x.eps x.fdt a b ∨ a = ep ∧ x.fdt fd = some (some (.epoll b)) := by
      rintro a b ⟨list, hlist, entry, hentry, hb⟩
      rw [getElem?_set_instance hep] at hlist
      split_ifs at hlist with ha
      · cases hlist
        subst ha
        have hmem : entry.fd ∈ entries.map EpollEntry.fd ++ [fd] := hadded ▸ mem_map_of_mem hentry
        rcases mem_append.mp hmem with hold | hnew
        · obtain ⟨old, hold, hsame⟩ := mem_map.mp hold
          exact .inl ⟨entries, hep, old, hold, hsame ▸ hb⟩
        · exact .inr ⟨rfl, mem_singleton.mp hnew ▸ hb⟩
      · exact .inl ⟨list, hlist, entry, hentry, hb⟩
    by_cases htarget : ∃ b, x.fdt fd = some (some (.epoll b))
    · obtain ⟨b, hb⟩ := htarget
      refine Acyclic.add_step h.acyclic (fun a c hac => (hwatches a c hac).imp_right fun hnew => ?_)
        (hclear hself ep b hepfd hb)
      refine ⟨hnew.1, ?_⟩
      have hsame : some (some (PollNode.epoll b)) = some (some (PollNode.epoll c)) := hb.symm.trans hnew.2
      cases hsame
      rfl
    · have hle : Watches (x.eps.set ep (some entries')) x.fdt ≤ Watches x.eps x.fdt := fun a b hab =>
        (hwatches a b hab).resolve_right fun hnew => htarget ⟨b, hnew.2⟩
      exact fun a hloop => h.acyclic a (TransGen.mono hle a a hloop)

theorem EpollInv.step {x x' : EpollState} (h : EpollInv x) {op : EpollOp} (hclear : op.Clear x)
    (hx' : x.step op = some x') : EpollInv x' := by
  cases op with
  | create =>
    cases hx'
    have hlists : ∀ (ep : ℕ) (entries : List EpollEntry), (x.eps ++ [some []])[ep]? = some (some entries) →
        x.eps[ep]? = some (some entries) ∨ entries = [] := by
      intro ep entries hentries
      by_cases hlt : ep < x.eps.length
      · rw [getElem?_append_left hlt] at hentries
        exact .inl hentries
      · rw [getElem?_append_right (not_lt.mp hlt)] at hentries
        have hmem := mem_of_getElem? hentries
        cases mem_singleton.mp hmem
        exact .inr rfl
    refine ⟨fun ep entries hentries => ?_, fun ep entries hentries entry hentry => ?_, ?_⟩
    · rcases hlists ep entries hentries with hold | rfl
      · exact h.nodup ep entries hold
      · exact nodup_nil
    · rcases hlists ep entries hentries with hold | rfl
      · exact h.oneShot ep entries hold entry hentry
      · cases hentry
    · have hle : Watches (x.eps ++ [some []]) x.fdt ≤ Watches x.eps x.fdt := by
        rintro a b ⟨entries, hentries, entry, hentry, hb⟩
        rcases hlists a entries hentries with hold | rfl
        · exact ⟨entries, hold, entry, hentry, hb⟩
        · cases hentry
      exact fun a hloop => h.acyclic a (TransGen.mono hle a a hloop)
  | close ep =>
    cases hx'
    have hlists : ∀ (a : ℕ) (entries : List EpollEntry), (x.eps.set ep none)[a]? = some (some entries) →
        x.eps[a]? = some (some entries) := by
      intro a entries hentries
      rw [getElem?_set] at hentries
      split_ifs at hentries <;> simp_all
    refine ⟨fun a entries hentries => h.nodup a entries (hlists a entries hentries),
      fun a entries hentries => h.oneShot a entries (hlists a entries hentries), ?_⟩
    exact NarrowedTo.acyclic (fun a list hlist => ⟨list, hlists a list hlist, Subset.refl _⟩) h.acyclic
  | ctl epfd op fd event => exact h.ctl hclear hx'
  | change fdt =>
    cases hx'
    exact ⟨h.nodup, h.oneShot, hclear⟩
  | poll ep events =>
    obtain ⟨revents, -, rfl⟩ := Option.map_eq_some_iff.mp hx'
    exact h
  | wait epfd maxevents alloc signal => exact h.wait hx'

theorem EpollInv.returns {x : EpollState} (h : EpollInv x) (op : EpollOp) : (x.step op).isSome := by
  cases op with
  | poll ep events =>
    rw [EpollState.step, Option.isSome_map]
    exact epollfsPoll_returns h.acyclic _ [] ep events nodup_nil (by simp) (by simp)
  | wait epfd maxevents alloc signal =>
    rw [EpollState.step, Option.isSome_map, epollWait]
    by_cases hmax : maxevents ≤ 0
    · rw [if_pos hmax]
      rfl
    rw [if_neg hmax]
    cases hinstance : epollInstance x.eps x.fdt epfd with
    | error error => rfl
    | ok target =>
      obtain ⟨hepfd, hep⟩ := epollInstance_eq_ok.mp (show _ = Except.ok (target.1, target.2) from hinstance)
      cases alloc with
      | false => rfl
      | true =>
        obtain ⟨-, eps', result, -, hwait, -⟩ :=
          poll_agrees_wait h.acyclic hepfd hep (not_le.mp hmax) signal
        rw [epollWait, if_neg hmax, hinstance] at hwait
        exact Option.isSome_iff_exists.mpr ⟨_, hwait⟩
  | _ => rfl

theorem EpollInv.consistent {x : EpollState} (h : EpollInv x) : EpollConsistent x where
  one := h.nodup
  agree _ _ _ _ signal hepfd hep hmax := poll_agrees_wait h.acyclic hepfd hep hmax signal
  once ep entries hep entry hentry hone := (h.oneShot ep entries hep entry hentry hone).1

def EpollState.start (fdt : FdTable) : EpollState := ⟨[], fdt, fun _ _ => 0⟩

theorem epollInv_start (fdt : FdTable) : EpollInv (.start fdt) := by
  refine ⟨fun ep entries h => absurd h (by simp [EpollState.start]),
    fun ep entries h => absurd h (by simp [EpollState.start]), fun a hloop => ?_⟩
  obtain ⟨b, ⟨entries, h, -⟩, -⟩ := TransGen.head'_iff.mp hloop
  cases h

/-- In every history of calls and readiness changes in which no instance comes to watch itself, each call
returns, and the watch lists are consistent after each of them. -/
theorem epoll_consistent (fdt : FdTable) (ops : List EpollOp)
    (hclear : Runs.Meets EpollState.step EpollOp.Clear ops (.start fdt)) :
    ∃ x, Runs.run EpollState.step ops (.start fdt) = some x ∧ EpollConsistent x := by
  have hstep : ∀ x op, EpollInv x → op.Clear x → ∃ x', x.step op = some x' ∧ EpollInv x' := by
    intro x op h hop
    obtain ⟨x', hx'⟩ := Option.isSome_iff_exists.mp (h.returns op)
    exact ⟨x', hx', h.step hop hx'⟩
  obtain ⟨x, hrun, h⟩ := Runs.run_total hstep (epollInv_start fdt) hclear
  exact ⟨x, hrun, h.consistent⟩

/-- Descriptors 3 and 6 are epoll instances, 5 is a duplicate of 3, and 4 is ready for the given events. -/
def epollFds (ready : BitVec 32) : FdTable :=
  fun fd =>
    if fd = 3 ∨ fd = 5 then some (some (.epoll 0))
    else if fd = 6 then some (some (.epoll 1))
    else if fd = 4 then some (some (.file (some fun events => events &&& ready)))
    else none

/-- The first instance watches descriptor 4 once, and the second one watches the first. -/
def nestedEpolls : List EpollOp :=
  [.create, .create, .ctl 3 .add 4 (some ⟨epollIn ||| epollOneshot, 7⟩), .ctl 6 .add 5 (some ⟨epollIn, 8⟩),
    .wait 6 1 true false]

theorem epoll_consistent_nested :
    ∃ x, Runs.run EpollState.step nestedEpolls (.start (epollFds epollIn)) = some x ∧ EpollConsistent x := by
  refine epoll_consistent (epollFds epollIn) nestedEpolls ?_
  refine ⟨trivial, ?_⟩
  rintro - ⟨⟩
  refine ⟨trivial, ?_⟩
  rintro - ⟨⟩
  refine ⟨fun _ a b _ hb => ?_, ?_⟩
  · cases hb
  rintro - ⟨⟩
  refine ⟨fun _ a b ha hb hpath => ?_, fun _ _ => ⟨trivial, fun _ _ => trivial⟩⟩
  cases ha
  cases hb
  -- the first instance watches no instance
  obtain heq | ⟨c, ⟨entries, hentries, entry, hentry, hc⟩, -⟩ := ReflTransGen.cases_head hpath
  · cases heq
  · cases hentries
    cases mem_singleton.mp hentry
    cases hc

/-- A readable file, and a duplicate of the descriptor of the instance, in its own list. -/
def selfWatch : List EpollOp :=
  [.create, .ctl 3 .add 4 (some ⟨epollIn, 7⟩), .ctl 3 .add 5 (some ⟨epollIn, 8⟩)]

/-- Both entries are accepted. Then polling the epoll descriptor reports that it is readable, but a wait for
two events spins on the lock that it holds. -/
theorem epoll_inconsistent : ∃ x, Runs.run EpollState.step selfWatch (.start (epollFds epollIn)) = some x ∧
    pollEpoll x.eps x.fdt 0 epollIn = some epollIn ∧
    epollWait x.eps x.fdt 3 2 true true [.atOnce x.fdt false] = none ∧ ¬ EpollConsistent x := by
  refine ⟨_, rfl, rfl, rfl, fun h => ?_⟩
  obtain ⟨revents, eps', result, -, hwait, -⟩ := h.agree 3 0 _ 2 false rfl rfl (by norm_num)
  cases hwait

end CoolPotOS
