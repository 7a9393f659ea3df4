import CoolPotOS.Task.Epoll

namespace CoolPotOS

open List Runs

/-- What can be observed of one entry, the latest first in a log. -/
inductive EdgeObs
  | registered
  | changed (ready : BitVec 32)
  | scanned (ready : BitVec 32) (reported : Bool)

/-- Some scan found the event not ready, and the event was not reported since. A registration counts as
such a scan. -/
def SeenDown (i : ℕ) : List EdgeObs → Prop
  | [] => False
  | .registered :: _ => True
  | .changed _ :: log => SeenDown i log
  | .scanned ready reported :: log =>
    ready.getLsbD i = false ∨ (reported = false ∧ SeenDown i log)

/-- The event was not ready at some time since it was last reported. -/
def WasDown (i : ℕ) : List EdgeObs → Prop
  | [] => False
  | .registered :: _ => False
  | .changed ready :: log => ready.getLsbD i = false ∨ WasDown i log
  | .scanned ready reported :: log =>
    ready.getLsbD i = false ∨ (reported = false ∧ WasDown i log)

def visitObs (entry : EpollEntry) : Option (BitVec 32) → List EdgeObs
  | none => []
  | some revents => [.scanned revents (epollVisit entry (some revents)).2.isSome]

/-- What a scan observes of the entry of one descriptor. -/
def scanObs (look : EpollEntry → Option (Option (BitVec 32))) (maxevents : ℕ) (fd : ℤ) :
    ℕ → List EpollEntry → List EdgeObs
  | _, [] => []
  | ready, entry :: rest =>
    if ready < maxevents then
      match look entry with
      | none => []
      | some revents =>
        scanObs look maxevents fd (ready + (epollVisit entry revents).2.toList.length) rest ++
          if entry.fd = fd then visitObs entry revents else []
    else []

/-- The instances with the log of each descriptor of each instance. -/
structure EdgeState where
  sys : EpollState
  log : ℕ → ℤ → List EdgeObs

/-- What a call does to the log: a registration, or the scan of a wait. -/
def EpollState.observed (x : EpollState) (op : EpollOp) (ep : ℕ) (fd : ℤ) : List EdgeObs :=
  match op with
  | .ctl epfd op fd' event =>
    if x.fdt.epoll epfd = some ep ∧ fd' = fd ∧ (op = .add ∨ op = .mod) ∧
      (epollCtl x.eps x.fdt epfd op fd' event).2.isOk then [.registered] else []
  | .wait epfd maxevents alloc _ =>
    match epollInstance x.eps x.fdt epfd with
    | .ok (a, entries) =>
      if a = ep ∧ alloc = true ∧ 0 < maxevents then
        scanObs (epollWaitLook x.eps x.fdt ep) maxevents.toNat fd 0 entries
      else []
    | .error _ => []
  | _ => []

/-- The ready events of the entry of a descriptor, as they are after a step. -/
def EpollState.current (x : EpollState) (ep : ℕ) (fd : ℤ) : List EdgeObs :=
  match x.eps[ep]? with
  | some (some entries) =>
    match (entries.find? fun e => e.fd = fd).bind (epollWaitLook x.eps x.fdt ep) with
    | some (some revents) => [.changed revents]
    | _ => []
  | _ => []

def EdgeState.step (x : EdgeState) (op : EpollOp) : Option EdgeState :=
  (x.sys.step op).map fun s =>
    ⟨s, fun ep fd => s.current ep fd ++ (x.sys.observed op ep fd ++ x.log ep fd)⟩

def EdgeState.start (fdt : FdTable) : EdgeState := ⟨.start fdt, fun _ _ => []⟩

theorem ne_zero_iff_getLsbD {w : ℕ} (v : BitVec w) : v ≠ 0 ↔ ∃ i, v.getLsbD i = true := by
  constructor
  · intro hne
    by_contra hnone
    refine hne (BitVec.eq_of_getLsbD_eq fun i _ => ?_)
    have hi : v.getLsbD i = false := Bool.eq_false_iff.mpr fun hi => hnone ⟨i, hi⟩
    rw [hi]
    exact (BitVec.getLsbD_zero ..).symm
  · rintro ⟨i, hi⟩ rfl
    rw [show (0 : BitVec w).getLsbD i = false from BitVec.getLsbD_zero ..] at hi
    cases hi

/-- An edge-triggered entry is reported for an event that its last scan did not see, or for one of the
events that are always reported. -/
theorem raised_iff (ready last : BitVec 32) :
    (ready &&& ~~~epollAlwaysEvents &&& ~~~last ≠ 0 ∨ ready &&& epollAlwaysEvents ≠ 0) ↔
      ∃ i, ready.getLsbD i = true ∧ (epollAlwaysEvents.getLsbD i = true ∨ last.getLsbD i = false) := by
  rw [ne_zero_iff_getLsbD, ne_zero_iff_getLsbD]
  simp only [BitVec.getLsbD_and, BitVec.getLsbD_not, Bool.and_eq_true, decide_eq_true_eq, Bool.not_eq_true']
  constructor
  · rintro (⟨i, ⟨hready, -⟩, -, hlast⟩ | ⟨i, hready, halways⟩)
    · exact ⟨i, hready, .inr hlast⟩
    · exact ⟨i, hready, .inl halways⟩
  · rintro ⟨i, hready, hi⟩
    have hlt : i < 32 := BitVec.lt_of_getLsbD hready
    by_cases halways : epollAlwaysEvents.getLsbD i = true
    · exact .inr ⟨i, hready, halways⟩
    · exact .inl ⟨i, ⟨hready, hlt, Bool.eq_false_iff.mpr halways⟩, hlt, hi.resolve_left halways⟩

section Visit

variable {look : EpollEntry → Option (Option (BitVec 32))} {entry : EpollEntry} {ready : BitVec 32}

theorem epollVisit_edge (ready : BitVec 32) (henabled : entry.disabled = false) (hedge : entry.edgeTrigger = true) :
    (epollVisit entry (some ready)).1.lastEvents = ready &&& ~~~epollAlwaysEvents ∧
      (epollVisit entry (some ready)).2 =
        if ready &&& ~~~epollAlwaysEvents &&& ~~~entry.lastEvents ≠ 0 ∨ ready &&& epollAlwaysEvents ≠ 0
        then some ⟨ready, entry.data⟩ else none := by
  unfold epollVisit
  by_cases hzero : ready = 0
  · subst hzero
    simp only [if_pos hedge, if_true]
    rw [if_neg (by simp)]
    exact ⟨BitVec.zero_and.symm, rfl⟩
  · simp only [if_neg hzero]
    unfold epollShouldEmit
    have hemit : ¬ (entry.disabled = true ∨ ready = 0) := by
      rw [henabled]
      exact fun h => hzero (h.resolve_left Bool.false_ne_true)
    rw [if_neg hemit, if_pos hedge]
    by_cases hraised : ready &&& ~~~epollAlwaysEvents &&& ~~~entry.lastEvents ≠ 0 ∨
        ready &&& epollAlwaysEvents ≠ 0
    · rw [if_pos hraised]
      simp only [hraised, decide_true]
      split_ifs <;> exact ⟨rfl, trivial⟩
    · rw [if_neg hraised]
      simp only [hraised, decide_false, and_self]

theorem epollVisit_edgeTrigger (revents : Option (BitVec 32)) :
    (epollVisit entry revents).1.edgeTrigger = entry.edgeTrigger := by
  cases revents with
  | none => rfl
  | some ready =>
    have hsame : (epollShouldEmit entry ready).1.edgeTrigger = entry.edgeTrigger := by
      unfold epollShouldEmit
      split_ifs <;> rfl
    unfold epollVisit
    by_cases hzero : ready = 0
    · simp only [if_pos hzero]
      split_ifs <;> rfl
    · simp only [if_neg hzero]
      rw [← hsame]
      generalize epollShouldEmit entry ready = result
      obtain ⟨entry', emit⟩ := result
      cases emit with
      | false => rfl
      | true =>
        dsimp only
        split_ifs <;> rfl

theorem epollLook_enabled {vfsPoll : ℕ → BitVec 32 → Option (BitVec 32)} {fdt : FdTable}
    (h : epollLook vfsPoll fdt entry = some (some ready)) : entry.disabled = false := by
  by_contra hdisabled
  rw [Bool.not_eq_false] at hdisabled
  rw [epollLook, if_pos hdisabled] at h
  cases h

end Visit

section Scan

variable {look : EpollEntry → Option (Option (BitVec 32))} {maxevents ready : ℕ}
  {entry : EpollEntry} {entries : List EpollEntry} {r : List EpollEntry × List (ℤ × EpollEvent)}

/-- How many entries a scan would report, by `epoll_would_emit`. -/
def emitting (look : EpollEntry → Option (Option (BitVec 32))) (entries : List EpollEntry) : ℕ :=
  (entries.filter fun entry => (look entry).any (epollEntryReady entry)).length

theorem mem_epollScan {before after : List EpollEntry} {revents : Option (BitVec 32)} {event : EpollEvent}
    (hlook : look entry = some revents) (hvisit : (epollVisit entry revents).2 = some event)
    (hroom : ready + emitting look before < maxevents)
    (h : epollScan look maxevents ready (before ++ entry :: after) = some r) : (entry.fd, event) ∈ r.2 := by
  induction before generalizing ready r with
  | nil =>
    obtain ⟨hfull, -⟩ | ⟨revents', r', hlook', -, rfl⟩ := epollScan_cons_eq_some h
    · exact absurd hroom (by simp [emitting, hfull])
    · rw [hlook] at hlook'
      cases hlook'
      simp [hvisit]
  | cons first before ih =>
    obtain ⟨hfull, -⟩ | ⟨revents', r', hfirst, hr', rfl⟩ := epollScan_cons_eq_some h
    · omega
    · have hcount : emitting look (first :: before) =
          (epollVisit first revents').2.toList.length + emitting look before := by
        unfold emitting
        rw [filter_cons, hfirst, Option.any_some]
        rcases (epollVisit_spec first revents').2.2 with ⟨hevent, hno, -⟩ | ⟨event', hevent, hyes, -⟩
        · rw [hevent, if_neg (by simp [hno])]
          simp
        · rw [hevent, if_pos hyes, length_cons, Option.toList_some, length_singleton, Nat.add_comm]
      rw [hcount] at hroom
      exact mem_append_right _ (ih (by omega) hr')

theorem visit_of_mem_epollScan {fd : ℤ} {event : EpollEvent}
    (h : epollScan look maxevents ready entries = some r) (hmem : (fd, event) ∈ r.2) :
    ∃ entry ∈ entries, entry.fd = fd ∧ ∃ revents, look entry = some revents ∧
      (epollVisit entry revents).2 = some event := by
  induction entries generalizing ready r with
  | nil =>
    cases h
    cases hmem
  | cons first rest ih =>
    obtain ⟨-, rfl⟩ | ⟨revents, r', hfirst, hr', rfl⟩ := epollScan_cons_eq_some h
    · cases hmem
    rcases mem_append.mp hmem with hhead | htail
    · obtain ⟨event', hevent', heq⟩ := mem_map.mp hhead
      cases heq
      exact ⟨first, mem_cons_self, rfl, revents, hfirst, Option.mem_toList.mp hevent'⟩
    · obtain ⟨entry, hentry, hspec⟩ := ih hr' htail
      exact ⟨entry, mem_cons_of_mem _ hentry, hspec⟩

theorem scanObs_of_notMem {fd : ℤ} (hfd : fd ∉ entries.map EpollEntry.fd) (ready : ℕ) :
    scanObs look maxevents fd ready entries = [] := by
  induction entries generalizing ready with
  | nil => rfl
  | cons entry rest ih =>
    rw [map_cons, mem_cons, not_or] at hfd
    rw [scanObs]
    cases look entry with
    | none => exact ite_self []
    | some revents =>
      dsimp only
      rw [ih hfd.2, if_neg (Ne.symm hfd.1), nil_append]
      exact ite_self []

theorem epollScan_visits (hnodup : (entries.map EpollEntry.fd).Nodup)
    (h : epollScan look maxevents ready entries = some r) : ∀ entry' ∈ r.1, ∃ entry ∈ entries,
      entry'.fd = entry.fd ∧ (entry' = entry ∧ scanObs look maxevents entry.fd ready entries = [] ∨
        ∃ revents, look entry = some revents ∧ entry' = (epollVisit entry revents).1 ∧
          scanObs look maxevents entry.fd ready entries = visitObs entry revents) := by
  induction entries generalizing ready r with
  | nil =>
    cases h
    exact fun _ h => absurd h not_mem_nil
  | cons entry rest ih =>
    rw [map_cons, nodup_cons] at hnodup
    by_cases hready : ready < maxevents
    · obtain ⟨hfull, -⟩ | ⟨revents, r', hlook, hr', rfl⟩ := epollScan_cons_eq_some h
      · omega
      have hobs : ∀ fd, scanObs look maxevents fd ready (entry :: rest) =
          scanObs look maxevents fd (ready + (epollVisit entry revents).2.toList.length) rest ++
            if entry.fd = fd then visitObs entry revents else [] := by
        intro fd
        rw [scanObs, if_pos hready, hlook]
      intro entry' hentry'
      obtain rfl | hrest := mem_cons.mp hentry'
      · refine ⟨entry, mem_cons_self, (epollVisit_spec entry revents).1, .inr ⟨revents, hlook, rfl, ?_⟩⟩
        rw [hobs, scanObs_of_notMem hnodup.1, if_pos rfl, nil_append]
      · obtain ⟨old, hold, hfd', hspec⟩ := ih hnodup.2 hr' entry' hrest
        have hne : entry.fd ≠ old.fd := fun heq => hnodup.1 (heq ▸ mem_map_of_mem hold)
        refine ⟨old, mem_cons_of_mem _ hold, hfd', ?_⟩
        rw [hobs, if_neg hne, append_nil]
        exact hspec
    · rw [epollScan, if_neg hready] at h
      cases h
      intro entry' hentry'
      refine ⟨entry', hentry', rfl, .inl ⟨rfl, ?_⟩⟩
      rw [scanObs, if_neg hready]

end Scan

/-- The list of an instance remembers which events its scans have not seen since their reports. -/
def Remembers (log : ℤ → List EdgeObs) (entries : List EpollEntry) : Prop :=
  ∀ entry ∈ entries, entry.edgeTrigger = true → ∀ i < 32, epollAlwaysEvents.getLsbD i = false →
    (SeenDown i (log entry.fd) ↔ entry.lastEvents.getLsbD i = false)

structure EdgeInv (x : EdgeState) : Prop where
  sys : EpollInv x.sys
  down : ∀ (ep : ℕ) (entries : List EpollEntry), x.sys.eps[ep]? = some (some entries) →
    Remembers (x.log ep) entries

theorem seenDown_current (x : EpollState) (ep : ℕ) (fd : ℤ) (i : ℕ) (log : List EdgeObs) :
    SeenDown i (x.current ep fd ++ log) ↔ SeenDown i log := by
  unfold EpollState.current
  split
  · split <;> exact Iff.rfl
  · exact Iff.rfl

theorem Remembers.scan {log : ℤ → List EdgeObs} {entries : List EpollEntry} {maxevents : ℕ}
    {eps : EpollInstances} {fdt : FdTable} {ep : ℕ} {r : List EpollEntry × List (ℤ × EpollEvent)}
    (h : Remembers log entries) (hnodup : (entries.map EpollEntry.fd).Nodup)
    (hr : epollScan (epollWaitLook eps fdt ep) maxevents 0 entries = some r) :
    Remembers (fun fd => scanObs (epollWaitLook eps fdt ep) maxevents fd 0 entries ++ log fd) r.1 := by
  intro entry' hentry' hedge i hi halways
  obtain ⟨entry, hentry, hfd, hspec⟩ := epollScan_visits hnodup hr entry' hentry'
  dsimp only
  rw [hfd]
  obtain ⟨rfl, hobs⟩ | ⟨revents, hlook, rfl, hobs⟩ := hspec
  · rw [hobs]
    exact h entry' hentry hedge i hi halways
  rw [epollVisit_edgeTrigger] at hedge
  have hdown := h entry hentry hedge i hi halways
  rw [hobs]
  cases revents with
  | none => exact hdown
  | some ready =>
    obtain ⟨hlast, hevent⟩ := epollVisit_edge ready (epollLook_enabled hlook) hedge
    rw [visitObs, hlast, hevent, singleton_append]
    have hbit : (ready &&& ~~~epollAlwaysEvents).getLsbD i = ready.getLsbD i := by
      rw [BitVec.getLsbD_and, BitVec.getLsbD_not, halways, decide_eq_true hi]
      exact Bool.and_true _
    rw [hbit]
    unfold SeenDown
    constructor
    · rintro (hlow | ⟨hsilent, hseen⟩)
      · exact hlow
      · -- not reported, so every event that is ready was seen before
        by_contra hhigh
        rw [Bool.not_eq_false] at hhigh
        rw [if_pos ((raised_iff _ _).mpr ⟨i, hhigh, .inr (hdown.mp hseen)⟩)] at hsilent
        cases hsilent
    · exact fun hlow => .inl hlow

theorem Remembers.edit {log : ℤ → List EdgeObs} {entries entries' : List EpollEntry} {op : EpollCtlOp} {fd : ℤ}
    {event : Option EpollEvent} (h : Remembers log entries) (hnodup : (entries.map EpollEntry.fd).Nodup)
    (hedit : epollEdit entries op fd event = (entries', .ok ())) :
    Remembers (fun fd' => (if fd = fd' ∧ (op = .add ∨ op = .mod) then [.registered] else []) ++ log fd')
      entries' := by
  intro entry hentry hedge i hi halways
  dsimp only
  rcases (epollEdit_entries hnodup hedit).2.1 entry hentry with ⟨hold, hother⟩ | ⟨hwrites, event', rfl⟩
  · rw [if_neg fun hall => hother hall.2 hall.1.symm]
    exact h entry hold hedge i hi halways
  · rw [if_pos ⟨rfl, hwrites⟩]
    exact iff_of_true trivial (BitVec.getLsbD_zero ..)

theorem Remembers.congr {log log' : ℤ → List EdgeObs} {entries : List EpollEntry} (h : Remembers log entries)
    (hlog : ∀ fd i, SeenDown i (log' fd) ↔ SeenDown i (log fd)) : Remembers log' entries :=
  fun entry hentry hedge i hi halways => (hlog entry.fd i).trans (h entry hentry hedge i hi halways)

theorem EdgeInv.step {x x' : EdgeState} (h : EdgeInv x) {op : EpollOp} (hclear : op.Clear x.sys)
    (hx' : x.step op = some x') : EdgeInv x' := by
  obtain ⟨s, hs, rfl⟩ := Option.map_eq_some_iff.mp hx'
  refine ⟨h.sys.step hclear hs, fun ep list hlist => ?_⟩
  suffices hdown : Remembers (fun fd => x.sys.observed op ep fd ++ x.log ep fd) list from
    hdown.congr fun fd i => seenDown_current ..
  -- a list that the step does not write, and of which it observes nothing
  have hkept : ∀ entries : List EpollEntry, x.sys.eps[ep]? = some (some entries) → list = entries →
      (∀ fd, x.sys.observed op ep fd = []) →
      Remembers (fun fd => x.sys.observed op ep fd ++ x.log ep fd) list := by
    intro entries hentries heq hnone
    rw [heq]
    exact (h.down ep entries hentries).congr fun fd i => by rw [hnone fd, nil_append]
  cases op with
  | create =>
    cases hs
    by_cases hlt : ep < x.sys.eps.length
    · rw [getElem?_append_left hlt] at hlist
      exact hkept list hlist rfl fun fd => rfl
    · rw [getElem?_append_right (not_lt.mp hlt)] at hlist
      cases mem_singleton.mp (mem_of_getElem? hlist)
      exact fun entry hentry => absurd hentry not_mem_nil
  | close a =>
    cases hs
    rw [getElem?_set] at hlist
    split_ifs at hlist with ha
    · cases hlist
    · exact hkept list hlist rfl fun fd => rfl
  | change fdt =>
    cases hs
    exact hkept list hlist rfl fun fd => rfl
  | poll a events =>
    obtain ⟨revents, -, rfl⟩ := Option.map_eq_some_iff.mp hs
    exact hkept list hlist rfl fun fd => rfl
  | ctl epfd op fd event =>
    cases hs
    rcases epollCtl_cases x.sys.eps x.sys.fdt epfd op fd event with ⟨error, hctl⟩ |
      ⟨a, entries, entries', hepfd, hep, -, hedit, hctl⟩
    · simp only [hctl] at hlist
      refine hkept list hlist rfl fun fd' => ?_
      have hfail : (Except.error error : Except EpollError Unit).isOk = false := rfl
      simp only [EpollState.observed, hctl, hfail, Bool.false_eq_true, and_false, if_false]
    have hok : (Except.ok () : Except EpollError Unit).isOk = true := rfl
    simp only [hctl, getElem?_set_instance hep] at hlist
    split_ifs at hlist with ha
    · cases hlist
      subst ha
      refine ((h.down ep entries hep).edit (h.sys.nodup ep entries hep) hedit).congr fun fd' i => ?_
      simp only [EpollState.observed, hctl, hok, FdTable.epoll_eq_some.mpr hepfd, true_and, and_true]
    · refine hkept list hlist rfl fun fd' => ?_
      simp only [EpollState.observed, FdTable.epoll_eq_some.mpr hepfd, Option.some_inj, Ne.symm ha, false_and,
        if_false]
  | wait epfd maxevents alloc signal =>
    obtain ⟨⟨eps', result⟩, hwait, rfl⟩ := Option.map_eq_some_iff.mp hs
    rcases epollWait_cases hwait with ⟨rfl, -, hnone⟩ |
      ⟨a, entries, r, halloc, hmax, hinstance, hr, rfl, -⟩
    · refine hkept list hlist rfl fun fd => ?_
      unfold EpollState.observed
      dsimp only
      cases hinstance : epollInstance x.sys.eps x.sys.fdt epfd with
      | error error => rfl
      | ok target =>
        exact if_neg fun hall => hnone target.1 target.2 hall.2.1 hall.2.2 hinstance
    obtain ⟨-, hep⟩ := epollInstance_eq_ok.mp hinstance
    simp only [getElem?_set_instance hep] at hlist
    split_ifs at hlist with ha
    · cases hlist
      subst ha
      refine ((h.down ep entries hep).scan (h.sys.nodup ep entries hep) hr).congr fun fd i => ?_
      simp only [EpollState.observed, hinstance, halloc, hmax, and_self, if_true]
    · refine hkept list hlist rfl fun fd => ?_
      simp only [EpollState.observed, hinstance, Ne.symm ha, false_and, if_false]

/-- Event `i` of an edge-triggered entry is due: the wait has room for the entry, the event is ready, and it
was not ready at some time since it was last reported. -/
structure EdgeDue (x : EdgeState) (ep : ℕ) (maxevents : ℤ) (before : List EpollEntry) (entry : EpollEntry)
    (revents : BitVec 32) (i : ℕ) : Prop where
  room : (emitting (epollWaitLook x.sys.eps x.sys.fdt ep) before : ℤ) < maxevents
  edge : entry.edgeTrigger = true
  look : epollWaitLook x.sys.eps x.sys.fdt ep entry = some (some revents)
  ready : revents.getLsbD i = true
  down : WasDown i (x.log ep entry.fd)

/-- A wait that begins in this state returns, and reports the entry. -/
def Reports (x : EdgeState) (epfd maxevents : ℤ) (poll : Bool) (rounds : List EpollRound) (entry : EpollEntry)
    (revents : BitVec 32) : Prop :=
  ∃ eps' events, epollWait x.sys.eps x.sys.fdt epfd maxevents true poll rounds = some (eps', some (.ok events)) ∧
    (entry.fd, ⟨revents, entry.data⟩) ∈ events

/-- The next wait on an epoll descriptor, whatever its timeout is, reports every event that is due. -/
def EdgeState.LosesNoEdge (x : EdgeState) : Prop :=
  ∀ (epfd : ℤ) (ep : ℕ) (maxevents : ℤ) (before after : List EpollEntry) (entry : EpollEntry) revents i,
    x.sys.fdt epfd = some (some (.epoll ep)) → x.sys.eps[ep]? = some (some (before ++ entry :: after)) →
    EdgeDue x ep maxevents before entry revents i →
    ∀ (poll : Bool) (r : EpollRound) (rounds : List EpollRound), r.scan = x.sys.fdt →
      Reports x epfd maxevents poll (r :: rounds) entry revents

/-- Where an event is due, its entry has a ready event that some scan found not ready since its last report, or
one that is always reported. -/
def EdgeState.EdgesSeen (x : EdgeState) : Prop :=
  ∀ (epfd : ℤ) (ep : ℕ) (maxevents : ℤ) (before after : List EpollEntry) (entry : EpollEntry) revents i,
    x.sys.fdt epfd = some (some (.epoll ep)) → x.sys.eps[ep]? = some (some (before ++ entry :: after)) →
    EdgeDue x ep maxevents before entry revents i →
    ∃ j, revents.getLsbD j = true ∧
      (epollAlwaysEvents.getLsbD j = true ∨ SeenDown j (x.log ep entry.fd))

theorem EdgeInv.visit_iff {x : EdgeState} (h : EdgeInv x) {ep : ℕ} {maxevents : ℤ}
    {before after : List EpollEntry} {entry : EpollEntry} {revents : BitVec 32} {i : ℕ}
    (hep : x.sys.eps[ep]? = some (some (before ++ entry :: after)))
    (hdue : EdgeDue x ep maxevents before entry revents i) :
    (epollVisit entry (some revents)).2 = some ⟨revents, entry.data⟩ ↔
      ∃ j, revents.getLsbD j = true ∧
        (epollAlwaysEvents.getLsbD j = true ∨ SeenDown j (x.log ep entry.fd)) := by
  rw [(epollVisit_edge revents (epollLook_enabled hdue.look) hdue.edge).2, Option.ite_none_right_eq_some,
    and_iff_left rfl, raised_iff]
  refine exists_congr fun j => and_congr_right fun hj => or_congr_right' fun halways => ?_
  exact (h.down ep _ hep entry (by simp) hdue.edge j (BitVec.lt_of_getLsbD hj)
    (Bool.eq_false_iff.mpr halways)).symm

/-- After every history in which no instance comes to watch itself: the next wait reports what is due exactly
where scans have seen the events go down. -/
theorem epoll_edges_iff (fdt : FdTable) (ops : List EpollOp) (x : EdgeState)
    (hclear : Meets EdgeState.step (fun x op => op.Clear x.sys) ops (.start fdt))
    (hrun : run EdgeState.step ops (.start fdt) = some x) : x.LosesNoEdge ↔ x.EdgesSeen := by
  have hinv : EdgeInv x := by
    have hstart : EdgeInv (.start fdt) :=
      ⟨epollInv_start fdt, fun ep entries h => absurd h (by simp [EdgeState.start, EpollState.start])⟩
    have hstep : ∀ (x : EdgeState) (op : EpollOp) (x' : EdgeState), EdgeInv x → op.Clear x.sys → x.step op = some x' →
        EdgeInv x' := fun x op x' h hop hx' => h.step hop hx'
    exact run_keeps hstep hstart hclear hrun
  -- the first scan of a wait
  have hscan : ∀ (ep : ℕ) (entries : List EpollEntry) (maxevents : ℕ), x.sys.eps[ep]? = some (some entries) →
      ∃ r, epollScan (epollWaitLook x.sys.eps x.sys.fdt ep) maxevents 0 entries = some r := by
    intro ep entries maxevents hep
    obtain ⟨r, -, hr, -⟩ := epollScan_returns maxevents (epollWaitLook_returns hinv.sys.acyclic hep) 0
    exact ⟨r, hr⟩
  constructor
  · intro hloses epfd ep maxevents before after entry revents i hepfd hep hdue
    obtain ⟨eps', events, hwait, hmem⟩ := hloses epfd ep maxevents before after entry revents i hepfd hep hdue
      true (.atOnce x.sys.fdt false) [] rfl
    rcases epollWait_cases hwait with ⟨-, hnone, -⟩ | ⟨a, entries, r, -, -, hinstance, hr, -, hreported⟩
    · rw [reportedFds, map_eq_nil_iff] at hnone
      rw [hnone] at hmem
      cases hmem
    rw [epollInstance_eq_ok.mpr ⟨hepfd, hep⟩] at hinstance
    cases hinstance
    have hfd : entry.fd ∈ r.2.map Prod.fst := hreported ▸ mem_map_of_mem hmem
    obtain ⟨⟨fd, event⟩, hevent, rfl⟩ := mem_map.mp hfd
    obtain ⟨visited, hvisited, hsame, look, hlook, hvisit⟩ := visit_of_mem_epollScan hr hevent
    obtain rfl := inj_on_of_nodup_map (hinv.sys.nodup ep _ hep) hvisited (by simp) hsame
    rw [show look = some revents from Option.some.inj (hlook.symm.trans hdue.look)] at hvisit
    refine (hinv.visit_iff hep hdue).mp ?_
    have hspec := (epollVisit_edge revents (epollLook_enabled hdue.look) hdue.edge).2
    split_ifs at hspec
    · exact hspec
    · rw [hspec] at hvisit
      cases hvisit
  · intro hseen epfd ep maxevents before after entry revents i hepfd hep hdue poll round rounds hround
    have hroom := hdue.room
    have hvisit := (hinv.visit_iff hep hdue).mpr
      (hseen epfd ep maxevents before after entry revents i hepfd hep hdue)
    obtain ⟨r, hr⟩ := hscan ep _ maxevents.toNat hep
    have hmem := mem_epollScan hdue.look hvisit (by omega) hr
    refine ⟨x.sys.eps.set ep (some r.1), r.2, ?_, hmem⟩
    unfold epollWait
    rw [if_neg (by omega), epollInstance_eq_ok.mpr ⟨hepfd, hep⟩]
    dsimp only
    rw [if_neg (by simp), epollRounds, hround, hr, Option.bind_some, if_pos (ne_nil_of_mem hmem)]
    rfl

/-- Descriptor 4 is reported, a wait finds it empty, and it becomes ready again. -/
def seenEdge : List EpollOp :=
  [.create, .ctl 3 .add 4 (some ⟨epollIn ||| epollEt, 7⟩), .wait 3 1 true false, .change (epollFds 0),
    .wait 3 1 true false, .change (epollFds epollIn)]

/-- Descriptor 4 is reported, and becomes empty and ready again before the next wait. -/
def unseenEdge : List EpollOp :=
  [.create, .ctl 3 .add 4 (some ⟨epollIn ||| epollEt, 7⟩), .wait 3 1 true false, .change (epollFds 0),
    .change (epollFds epollIn)]

def edgeEntry (last : BitVec 32) : EpollEntry :=
  { EpollEntry.ofEvent 4 ⟨epollIn ||| epollEt, 7⟩ with lastEvents := last }

/-- The instances watch nothing but descriptor 4, which is no instance. -/
theorem not_watches_of_four {eps : EpollInstances} {ready : BitVec 32}
    (h : ∀ (a : ℕ) (entries : List EpollEntry), eps[a]? = some (some entries) → ∀ e ∈ entries, e.fd = 4) :
    ∀ a, ¬ Relation.TransGen (Watches eps (epollFds ready)) a a := by
  intro a hloop
  obtain ⟨b, ⟨entries, ha, e, he, hb⟩, -⟩ := Relation.TransGen.head'_iff.mp hloop
  rw [h a entries ha e he] at hb
  cases hb

theorem edges_meet_clear {ops : List EpollOp} (hops : ops = seenEdge ∨ ops = unseenEdge) :
    Meets EdgeState.step (fun x op => op.Clear x.sys) ops (.start (epollFds epollIn)) := by
  have hfour : ∀ (last : BitVec 32) (a : ℕ) (entries : List EpollEntry),
      ([some [edgeEntry last]] : EpollInstances)[a]? = some (some entries) → ∀ e ∈ entries, e.fd = 4 := by
    intro last a entries ha e he
    cases mem_singleton.mp (mem_of_getElem? ha)
    rw [mem_singleton.mp he]
    rfl
  rcases hops with rfl | rfl
  · refine Meets.cons trivial rfl (Meets.cons (fun _ a b _ hb => ?_) rfl (Meets.cons trivial rfl
      (Meets.cons ?_ rfl (Meets.cons trivial rfl (Meets.cons ?_ rfl trivial)))))
    · cases hb
    · exact not_watches_of_four (hfour epollIn)
    · exact not_watches_of_four (hfour 0)
  · refine Meets.cons trivial rfl (Meets.cons (fun _ a b _ hb => ?_) rfl (Meets.cons trivial rfl
      (Meets.cons ?_ rfl (Meets.cons ?_ rfl trivial))))
    · cases hb
    · exact not_watches_of_four (hfour epollIn)
    · exact not_watches_of_four (hfour epollIn)

theorem epoll_edges_iff_seenEdge :
    ∃ x, run EdgeState.step seenEdge (.start (epollFds epollIn)) = some x ∧ x.LosesNoEdge := by
  refine ⟨_, rfl, (epoll_edges_iff (epollFds epollIn) seenEdge _ (edges_meet_clear (.inl rfl)) rfl).mpr ?_⟩
  intro epfd ep maxevents before after entry revents i hepfd hep hdue
  obtain ⟨rfl, hentry⟩ : ep = 0 ∧ entry = edgeEntry 0 := by
    have hone : [some [edgeEntry 0]][ep]? = some (some (before ++ entry :: after)) := hep
    have hlt : ep < 1 := (List.getElem?_eq_some_iff.mp hone).1
    have hlist := Option.some.inj (mem_singleton.mp (mem_of_getElem? hone))
    have hmem : entry ∈ [edgeEntry 0] := hlist ▸ by simp
    exact ⟨by omega, mem_singleton.mp hmem⟩
  subst hentry
  have hrevents : some (some epollIn) = some (some revents) := hdue.look
  cases hrevents
  -- the second wait has seen the event down
  exact ⟨0, by decide, .inr (.inl (by decide))⟩

/-- The event is due, but no scan has seen descriptor 4 empty, and nothing is reported. -/
theorem epoll_misses_edge :
    ∃ x, run EdgeState.step unseenEdge (.start (epollFds epollIn)) = some x ∧ ¬ x.LosesNoEdge := by
  refine ⟨_, rfl, fun hloses => ?_⟩
  obtain ⟨eps', events, hwait, hmem⟩ := hloses 3 0 1 [] [] (edgeEntry epollIn) epollIn 0 rfl rfl
    ⟨by decide, rfl, rfl, by decide, .inr (.inl (by decide))⟩ true (.atOnce (epollFds epollIn) false) [] rfl
  cases hwait
  cases hmem

end CoolPotOS
