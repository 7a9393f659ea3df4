import CoolPotOS.Task.Epoll

namespace CoolPotOS

open BitVec List

def pollIn : BitVec 16 := 0x0001
def pollPri : BitVec 16 := 0x0002
def pollOut : BitVec 16 := 0x0004
def pollErr : BitVec 16 := 0x0008
def pollNval : BitVec 16 := 0x0020

def epollRdhup : BitVec 32 := 0x2000

/-- Adds the second masks of the rows with a first mask that meets the events. -/
def convertEvents (table : List (BitVec 32 × BitVec 32)) (events : BitVec 32) : BitVec 32 :=
  table.foldl (fun converted row => if events &&& row.1 ≠ 0 then converted ||| row.2 else converted) 0

/-- `epoll_to_poll_comp`: `POLLIN | POLLRDNORM`, `POLLPRI | POLLRDBAND`, `POLLOUT | POLLWRNORM`, `POLLWRBAND`,
`POLLERR`, `POLLHUP`, `POLLNVAL` and `POLLRDHUP`. -/
def epollToPollComp : BitVec 32 → BitVec 32 :=
  convertEvents [(0x041, 0x041), (0x082, 0x082), (0x104, 0x104), (0x200, 0x200), (0x008, 0x008), (0x010, 0x010),
    (0x020, 0x020), (0x2000, 0x2000)]

/-- `poll_to_epoll_comp`. `POLLWRBAND` asks for writing too. -/
def pollToEpollComp : BitVec 32 → BitVec 32 :=
  convertEvents [(0x041, 0x041), (0x082, 0x082), (0x304, 0x104), (0x200, 0x200), (0x008, 0x008), (0x010, 0x010),
    (0x020, 0x020), (0x2000, 0x2000)]

structure PollFd where
  fd : ℤ
  events : BitVec 16
  revents : BitVec 16
  deriving DecidableEq

/-- The descriptors, each with the callback `poll` of its node, or `none` for a node without one. -/
abbrev PollTable := ℤ → Option (Option (BitVec 32 → BitVec 32))

def pollQueryEvents (events : BitVec 16) : BitVec 32 :=
  pollToEpollComp (events.signExtend 32) ||| epollErr ||| epollHup ||| epollNval ||| epollRdhup

/-- What is reported of the node's answer. The last mask is `POLLERR | POLLHUP | POLLNVAL | POLLRDHUP`. -/
def pollRevents (events : BitVec 16) (polled : BitVec 32) : BitVec 32 :=
  epollToPollComp (if polled.toInt < 0 then 0 else polled) &&& (events.signExtend 32 ||| 0x2038)

/-- One turn of the scan: what is noted in the entry, and whether `ready` is counted up. -/
def pollLook (table : PollTable) (entry : PollFd) : PollFd × Bool :=
  match table entry.fd with
  | none => ({ entry with revents := pollNval }, true)
  | some none =>
    let revents := (if entry.events &&& pollIn ≠ 0 then pollIn else 0) |||
      (if entry.events &&& pollOut ≠ 0 then pollOut else 0)
    ({ entry with revents := revents }, revents ≠ 0)
  | some (some poll) =>
    let revents := pollRevents entry.events (poll (pollQueryEvents entry.events))
    if 0 < revents.toInt then ({ entry with revents := revents.setWidth 16 }, true)
    else ({ entry with revents := 0 }, false)

/-- The scan, with the table at the time of each turn: the entries, and `ready`. -/
def pollScan (tables : ℕ → PollTable) : ℕ → List PollFd → List PollFd × ℕ
  | _, [] => ([], 0)
  | i, entry :: entries =>
    let look := pollLook (tables i) entry
    let rest := pollScan tables (i + 1) entries
    (look.1 :: rest.1, (if look.2 then 1 else 0) + rest.2)

def pollArms (table : PollTable) (entry : PollFd) : Bool :=
  match table entry.fd with
  | some (some _) => true
  | _ => false

def pollPending (table : PollTable) (entry : PollFd) : Bool :=
  match table entry.fd with
  | some (some poll) => 0 < (poll (pollQueryEvents entry.events)).toInt
  | _ => false

/-- Whether some entry passes the test, with the table at the time of its turn. -/
def pollAny (test : PollTable → PollFd → Bool) (tables : ℕ → PollTable) : ℕ → List PollFd → Bool
  | _, [] => false
  | i, entry :: entries => test (tables i) entry || pollAny test tables (i + 1) entries

/-- What a round meets: the table at the turns of its loops, a signal after the scan, and the time
since the call at the end of the round. Each round looks at its descriptors twice, and between any
two looks the nodes and the table may change. -/
structure PollRound where
  scan : ℕ → PollTable
  sigexit : Bool
  arming : ℕ → PollTable
  recheck : ℕ → PollTable
  elapsed : BitVec 64

def pollTimeoutNs (timeout : BitVec 64) : BitVec 64 := timeout * 1000000

def PollRound.Over (r : PollRound) (timeout : BitVec 64) : Prop :=
  0 ≤ timeout.toInt ∧ (pollTimeoutNs timeout).toNat ≤ r.elapsed.toNat

instance decidableOver (r : PollRound) (timeout : BitVec 64) : Decidable (r.Over timeout) :=
  inferInstanceAs (Decidable (_ ∧ _))

def PollRound.again (r : PollRound) (entries : List PollFd) : Bool :=
  pollAny pollArms r.arming 0 entries && pollAny pollPending r.recheck 0 entries

/-- The loop of `poll`: the value and the entries, and nothing while it goes on. -/
def poll (timeout : BitVec 64) (entries : List PollFd) : List PollRound → Option (Except EpollError ℕ × List PollFd)
  | [] => none
  | r :: rounds =>
    let scanned := pollScan r.scan 0 entries
    if 0 < scanned.2 ∨ r.sigexit then
      some (if scanned.2 = 0 then .error .intr else .ok scanned.2, scanned.1)
    else if timeout = 0 then some (.ok 0, scanned.1)
    else if r.Over timeout then some (.ok (if r.again scanned.1 then 1 else 0), scanned.1)
    else poll timeout scanned.1 rounds

theorem convertEvents_lt {table : List (BitVec 32 × BitVec 32)} (htable : ∀ row ∈ table, row.2.toNat < 2 ^ 14)
    (events : BitVec 32) : (convertEvents table events).toNat < 2 ^ 14 := by
  unfold convertEvents
  apply foldlRecOn (motive := fun converted : BitVec 32 => converted.toNat < 2 ^ 14)
  · decide
  · intro converted hconverted row hrow
    split
    · rw [toNat_or]
      exact Nat.or_lt_two_pow hconverted (htable row hrow)
    · exact hconverted

theorem epollToPollComp_lt (events : BitVec 32) : (epollToPollComp events).toNat < 2 ^ 14 := by
  apply convertEvents_lt
  simp only [forall_mem_cons, not_mem_nil, false_implies, implies_true, and_true]
  decide

theorem pollRevents_lt (events : BitVec 16) (polled : BitVec 32) : (pollRevents events polled).toNat < 2 ^ 14 := by
  unfold pollRevents
  rw [toNat_and]
  exact Nat.and_le_left.trans_lt (epollToPollComp_lt _)

theorem toInt_pos_iff_setWidth {v : BitVec 32} (h : v.toNat < 2 ^ 14) : 0 < v.toInt ↔ v.setWidth 16 ≠ 0 := by
  have hint : v.toInt = v.toNat := toInt_eq_toNat_of_lt (by omega)
  rw [hint, ne_eq, ← toNat_inj, toNat_setWidth, Nat.mod_eq_of_lt (by omega)]
  change 0 < (v.toNat : ℤ) ↔ ¬ v.toNat = 0
  omega

theorem pollLook_counts (table : PollTable) (entry : PollFd) :
    (pollLook table entry).2 = true ↔ (pollLook table entry).1.revents ≠ 0 := by
  unfold pollLook
  split
  · exact iff_of_true rfl (show pollNval ≠ 0 by decide)
  · exact decide_eq_true_iff
  · rename_i poll _
    have hlt := pollRevents_lt entry.events (poll (pollQueryEvents entry.events))
    dsimp only
    split
    · rename_i hpos
      exact iff_of_true rfl ((toInt_pos_iff_setWidth hlt).mp hpos)
    · exact iff_of_false Bool.false_ne_true fun h => h rfl

theorem pollLook_fd (table : PollTable) (entry : PollFd) :
    (pollLook table entry).1.fd = entry.fd ∧ (pollLook table entry).1.events = entry.events := by
  unfold pollLook
  split
  · exact ⟨rfl, rfl⟩
  · exact ⟨rfl, rfl⟩
  · dsimp only
    split <;> exact ⟨rfl, rfl⟩

def reported (entries : List PollFd) : ℕ := entries.countP fun entry => entry.revents ≠ 0

theorem pollScan_counts (tables : ℕ → PollTable) (i : ℕ) (entries : List PollFd) :
    (pollScan tables i entries).2 = reported (pollScan tables i entries).1 := by
  induction entries generalizing i with
  | nil => rfl
  | cons entry entries ih =>
    simp only [pollScan, reported, countP_cons]
    rw [ih, Nat.add_comm]
    unfold reported
    congr 1
    simp only [pollLook_counts, decide_eq_true_iff]

def PollFd.request (entry : PollFd) : ℤ × BitVec 16 := (entry.fd, entry.events)

theorem pollScan_request (tables : ℕ → PollTable) (i : ℕ) (entries : List PollFd) :
    (pollScan tables i entries).1.map PollFd.request = entries.map PollFd.request := by
  induction entries generalizing i with
  | nil => rfl
  | cons entry entries ih =>
    obtain ⟨hfd, hevents⟩ := pollLook_fd (tables i) entry
    simp only [pollScan, map_cons, ih, PollFd.request, hfd, hevents]

variable {entries entries' : List PollFd}

theorem pollAny_congr {test : PollTable → PollFd → Bool}
    (htest : ∀ table (e e' : PollFd), e.request = e'.request → test table e = test table e')
    (tables : ℕ → PollTable) (i : ℕ) (h : entries.map PollFd.request = entries'.map PollFd.request) :
    pollAny test tables i entries = pollAny test tables i entries' := by
  induction entries generalizing i entries' with
  | nil =>
    rw [map_nil] at h
    rw [map_eq_nil_iff.mp h.symm]
  | cons entry entries ih =>
    cases entries' with
    | nil => cases h
    | cons entry' entries' =>
      rw [map_cons, map_cons, List.cons.injEq] at h
      simp only [pollAny]
      rw [htest _ _ _ h.1, ih (i + 1) h.2]

theorem PollRound.again_congr (r : PollRound) (h : entries.map PollFd.request = entries'.map PollFd.request) :
    r.again entries = r.again entries' := by
  unfold PollRound.again
  rw [pollAny_congr _ r.arming 0 h, pollAny_congr _ r.recheck 0 h]
  · intro table e e' he
    unfold pollPending
    rw [show e.fd = e'.fd from congrArg Prod.fst he, show e.events = e'.events from congrArg Prod.snd he]
  · intro table e e' he
    unfold pollArms
    rw [show e.fd = e'.fd from congrArg Prod.fst he]

theorem poll_counts {timeout : BitVec 64} {rounds : List PollRound} {v : ℕ}
    (hagain : ∀ r ∈ rounds, r.again entries → ¬ r.Over timeout)
    (h : poll timeout entries rounds = some (.ok v, entries')) : v = reported entries' := by
  induction rounds generalizing entries with
  | nil => cases h
  | cons r rounds ih =>
    have hcount := pollScan_counts r.scan 0 entries
    have hrequest := pollScan_request r.scan 0 entries
    unfold poll at h
    dsimp only at h
    generalize pollScan r.scan 0 entries = scanned at h hcount hrequest
    split at h
    · obtain ⟨hval, rfl⟩ := Prod.mk.inj (Option.some.inj h)
      by_cases hzero : scanned.2 = 0
      · rw [if_pos hzero] at hval
        cases hval
      · rw [if_neg hzero] at hval
        rw [← hcount, Except.ok.inj hval]
    · rename_i hnone
      have hzero : scanned.2 = 0 := Nat.eq_zero_of_not_pos fun hpos => hnone (.inl hpos)
      split at h
      · obtain ⟨hval, rfl⟩ := Prod.mk.inj (Option.some.inj h)
        rw [← hcount, hzero, ← Except.ok.inj hval]
      · split at h
        · rename_i hover
          obtain ⟨hval, rfl⟩ := Prod.mk.inj (Option.some.inj h)
          have hquiet : ¬ r.again scanned.1 := by
            rw [r.again_congr hrequest]
            exact fun hready => hagain r mem_cons_self hready hover
          rw [if_neg hquiet] at hval
          rw [← hcount, hzero, ← Except.ok.inj hval]
        · apply ih _ h
          intro r' hr'
          rw [r'.again_congr hrequest]
          exact hagain r' (mem_cons_of_mem _ hr')

theorem poll_request {timeout : BitVec 64} {rounds : List PollRound} {v : Except EpollError ℕ}
    (h : poll timeout entries rounds = some (v, entries')) :
    entries'.map PollFd.request = entries.map PollFd.request := by
  induction rounds generalizing entries with
  | nil => cases h
  | cons r rounds ih =>
    have hrequest := pollScan_request r.scan 0 entries
    unfold poll at h
    dsimp only at h
    generalize pollScan r.scan 0 entries = scanned at h hrequest
    split at h
    · rw [← (Prod.mk.inj (Option.some.inj h)).2]
      exact hrequest
    · split at h
      · rw [← (Prod.mk.inj (Option.some.inj h)).2]
        exact hrequest
      · split at h
        · rw [← (Prod.mk.inj (Option.some.inj h)).2]
          exact hrequest
        · exact (ih h).trans hrequest

abbrev FdSet := ℕ → Bool

/-- `select_bitmap`. Nothing is in a set that is `NULL`. -/
def selectBitmap (set : Option FdSet) (index : ℕ) : Bool := set.any fun map => map index

def selectBitmapSet (set : Option FdSet) (index : ℕ) : Option FdSet :=
  set.map fun map => Function.update map index true

/-- The first `bytes` bytes are set to zero. -/
def clearSet (bytes : ℕ) (set : Option FdSet) : Option FdSet :=
  set.map fun map i => if i < 8 * bytes then false else map i

structure SelectSets where
  read : Option FdSet
  write : Option FdSet
  except : Option FdSet

/-- The array for `poll`, with its size in bytes. -/
structure SelectComp where
  entries : List PollFd
  complength : ℕ

/-- `select_add`. An entry has eight bytes. -/
def selectAdd (comp : SelectComp) (fd : ℤ) (events : BitVec 16) : SelectComp where
  entries := comp.entries ++ [⟨fd, events, 0⟩]
  complength :=
    if comp.complength ≤ (comp.entries.length + 1) * 8 then comp.complength * 2 else comp.complength

def selectAdds (nfds : ℕ) (set : Option FdSet) (events : BitVec 16) (comp : SelectComp) : SelectComp :=
  (List.range nfds).foldl (fun comp i => if selectBitmap set i then selectAdd comp i events else comp) comp

def selectComp (nfds : ℕ) (sets : SelectSets) : SelectComp :=
  selectAdds nfds sets.except (pollPri ||| pollErr)
    (selectAdds nfds sets.write pollOut (selectAdds nfds sets.read pollIn ⟨[], 8⟩))

structure Timeval where
  tvSec : BitVec 64
  tvUsec : BitVec 64

/-- The time for `poll` in milliseconds. -/
def selectTime : Option Timeval → BitVec 64
  | none => -1
  | some timeout =>
    if timeout.tvSec = -1 ∨ timeout.tvUsec = -1 then -1
    else timeout.tvSec * 1000 + (timeout.tvUsec + 1000).sdiv 1000

/-- `ready_map` and `verify`. -/
structure SelectReady where
  readyMap : FdSet
  verify : ℕ

def SelectReady.count (ready : SelectReady) (fd : ℕ) : SelectReady :=
  if ready.readyMap fd then ready else ⟨Function.update ready.readyMap fd true, ready.verify + 1⟩

/-- The entry asked for an event of the mask, and one is reported. -/
def PollFd.Marked (entry : PollFd) (mask : BitVec 16) : Prop :=
  entry.events &&& mask ≠ 0 ∧ entry.revents &&& mask ≠ 0

instance decidableMarked (entry : PollFd) (mask : BitVec 16) : Decidable (entry.Marked mask) :=
  inferInstanceAs (Decidable (_ ∧ _))

/-- One turn of the loop over the entries that `poll` has filled. -/
def selectVerify (state : SelectSets × SelectReady) (entry : PollFd) : SelectSets × SelectReady :=
  if entry.revents = 0 then state
  else
    let fd := entry.fd.toNat
    let state := if entry.Marked pollIn then
      ({ state.1 with read := selectBitmapSet state.1.read fd }, state.2.count fd) else state
    let state := if entry.Marked pollOut then
      ({ state.1 with write := selectBitmapSet state.1.write fd }, state.2.count fd) else state
    if entry.Marked pollPri then
      ({ state.1 with except := selectBitmapSet state.1.except fd }, state.2.count fd) else state

/-- `select`: the value and the sets, and nothing while it waits. -/
def select (nfds : ℕ) (sets : SelectSets) (timeout : Option Timeval) (rounds : List PollRound) :
    Option (Except EpollError ℕ × SelectSets) :=
  let toZero := (nfds + 7) / 8
  let cleared : SelectSets := ⟨clearSet toZero sets.read, clearSet toZero sets.write, clearSet toZero sets.except⟩
  (poll (selectTime timeout) (selectComp nfds sets).entries rounds).map fun
    | (.error e, _) => (.error e, cleared)
    | (.ok _, polled) =>
      let result := polled.foldl selectVerify (cleared, ⟨fun _ => false, 0⟩)
      (.ok result.2.verify, result.1)

def selectPick (nfds : ℕ) (set : Option FdSet) : List ℕ := (List.range nfds).filter fun i => selectBitmap set i

def selectRequest (nfds : ℕ) (sets : SelectSets) : List (ℤ × BitVec 16) :=
  (selectPick nfds sets.read).map (fun i : ℕ => ((i : ℤ), pollIn)) ++
    (selectPick nfds sets.write).map (fun i : ℕ => ((i : ℤ), pollOut)) ++
      (selectPick nfds sets.except).map fun i : ℕ => ((i : ℤ), pollPri ||| pollErr)

theorem selectAdds_request (nfds : ℕ) (set : Option FdSet) (events : BitVec 16) (comp : SelectComp) :
    (selectAdds nfds set events comp).entries.map PollFd.request =
      comp.entries.map PollFd.request ++ (selectPick nfds set).map fun i : ℕ => ((i : ℤ), events) := by
  unfold selectAdds selectPick
  generalize range nfds = indices
  induction indices generalizing comp with
  | nil => simp
  | cons i indices ih =>
    rw [foldl_cons, ih]
    by_cases hbit : selectBitmap set i
    · rw [if_pos hbit, filter_cons_of_pos hbit, selectAdd, map_append, List.append_assoc]
      rfl
    · rw [if_neg hbit, filter_cons_of_neg hbit]

theorem selectComp_request (nfds : ℕ) (sets : SelectSets) :
    (selectComp nfds sets).entries.map PollFd.request = selectRequest nfds sets := by
  unfold selectComp
  rw [selectAdds_request, selectAdds_request, selectAdds_request]
  rfl

theorem SelectReady.count_count (ready : SelectReady) (fd : ℕ) : (ready.count fd).count fd = ready.count fd := by
  have hset : (ready.count fd).readyMap fd = true := by
    unfold SelectReady.count
    split
    · assumption
    · exact Function.update_self (β := fun _ => Bool) fd true _
  rw [SelectReady.count, if_pos hset]

def PollFd.AnyMarked (entry : PollFd) : Prop :=
  entry.Marked pollIn ∨ entry.Marked pollOut ∨ entry.Marked pollPri

instance decidableAnyMarked (entry : PollFd) : Decidable entry.AnyMarked :=
  inferInstanceAs (Decidable (_ ∨ _ ∨ _))

theorem PollFd.not_marked {entry : PollFd} (h : entry.revents = 0) (mask : BitVec 16) : ¬ entry.Marked mask := by
  intro hmarked
  apply hmarked.2
  rw [h]
  exact zero_and

theorem selectVerify_eq (state : SelectSets × SelectReady) (entry : PollFd) : selectVerify state entry =
      (⟨if entry.Marked pollIn then selectBitmapSet state.1.read entry.fd.toNat else state.1.read,
        if entry.Marked pollOut then selectBitmapSet state.1.write entry.fd.toNat else state.1.write,
        if entry.Marked pollPri then selectBitmapSet state.1.except entry.fd.toNat else state.1.except⟩,
        if entry.AnyMarked then state.2.count entry.fd.toNat else state.2) := by
  unfold selectVerify PollFd.AnyMarked
  by_cases hzero : entry.revents = 0
  · simp [hzero, PollFd.not_marked hzero]
  · by_cases hin : entry.Marked pollIn <;> by_cases hout : entry.Marked pollOut <;>
      by_cases hpri : entry.Marked pollPri <;>
        simp only [if_neg hzero, hin, hout, hpri, SelectReady.count_count, if_true, if_false, or_true, or_false]

def markAll (mask : BitVec 16) (polled : List PollFd) (set : Option FdSet) : Option FdSet :=
  polled.foldl (fun set entry => if entry.Marked mask then selectBitmapSet set entry.fd.toNat else set) set

def countAll (polled : List PollFd) (ready : SelectReady) : SelectReady :=
  polled.foldl (fun ready entry => if entry.AnyMarked then ready.count entry.fd.toNat else ready) ready

theorem foldl_selectVerify (polled : List PollFd) (state : SelectSets × SelectReady) :
    polled.foldl selectVerify state =
      (⟨markAll pollIn polled state.1.read, markAll pollOut polled state.1.write,
        markAll pollPri polled state.1.except⟩, countAll polled state.2) := by
  induction polled generalizing state with
  | nil => rfl
  | cons entry polled ih =>
    rw [foldl_cons, ih, selectVerify_eq]
    rfl

theorem selectBitmap_set (set : Option FdSet) (fd i : ℕ) :
    selectBitmap (selectBitmapSet set fd) i = true ↔ selectBitmap set i = true ∨ set.isSome ∧ fd = i := by
  cases set with
  | none => simp [selectBitmap, selectBitmapSet]
  | some map =>
    simp only [selectBitmap, selectBitmapSet, Option.map_some, Option.any_some, Option.isSome_some, true_and]
    by_cases h : fd = i
    · subst h
      simp
    · rw [Function.update_of_ne (Ne.symm h)]
      simp [h]

theorem isSome_selectBitmapSet (set : Option FdSet) (fd : ℕ) : (selectBitmapSet set fd).isSome = set.isSome :=
  Option.isSome_map

theorem selectBitmap_markAll (mask : BitVec 16) (polled : List PollFd) (set : Option FdSet) (i : ℕ) :
    selectBitmap (markAll mask polled set) i = true ↔
      selectBitmap set i = true ∨ set.isSome ∧ ∃ entry ∈ polled, entry.fd.toNat = i ∧ entry.Marked mask := by
  induction polled generalizing set with
  | nil => simp [markAll]
  | cons entry polled ih =>
    have hstep : markAll mask (entry :: polled) set =
        markAll mask polled (if entry.Marked mask then selectBitmapSet set entry.fd.toNat else set) := rfl
    rw [hstep, ih]
    by_cases hmark : entry.Marked mask
    · rw [if_pos hmark, selectBitmap_set, isSome_selectBitmapSet]
      simp only [exists_mem_cons_iff, hmark, and_true]
      tauto
    · rw [if_neg hmark]
      simp only [exists_mem_cons_iff, hmark, and_false, false_or]

theorem countAll_verify (polled : List PollFd) (ready : SelectReady) {n : ℕ}
    (hfd : ∀ entry ∈ polled, entry.fd.toNat < n)
    (h : ready.verify = ((Finset.range n).filter fun i => ready.readyMap i).card) :
    (∀ i, (countAll polled ready).readyMap i = true ↔
        ready.readyMap i = true ∨ ∃ entry ∈ polled, entry.fd.toNat = i ∧ entry.AnyMarked) ∧
      (countAll polled ready).verify = ((Finset.range n).filter fun i => (countAll polled ready).readyMap i).card := by
  induction polled generalizing ready with
  | nil =>
    refine ⟨fun i => ?_, h⟩
    simp [countAll]
  | cons entry polled ih =>
    have hrest : ∀ entry ∈ polled, entry.fd.toNat < n := fun e he => hfd e (mem_cons_of_mem _ he)
    by_cases hmark : entry.AnyMarked
    · have hcount : (ready.count entry.fd.toNat).verify =
          ((Finset.range n).filter fun i => (ready.count entry.fd.toNat).readyMap i).card := by
        unfold SelectReady.count
        by_cases hset : ready.readyMap entry.fd.toNat = true
        · rw [if_pos hset]
          exact h
        · rw [if_neg hset]
          have hfilter : ((Finset.range n).filter fun i => Function.update ready.readyMap entry.fd.toNat true i) =
              insert entry.fd.toNat ((Finset.range n).filter fun i => ready.readyMap i) := by
            ext i
            by_cases hi : i = entry.fd.toNat
            · subst hi
              simp [hfd entry mem_cons_self]
            · simp [hi]
          rw [hfilter, Finset.card_insert_of_notMem (by simp [hset]), ← h]
      obtain ⟨hmap, hverify⟩ := ih (ready.count entry.fd.toNat) hrest hcount
      have hstep : countAll (entry :: polled) ready = countAll polled (ready.count entry.fd.toNat) := by
        unfold countAll
        rw [foldl_cons, if_pos hmark]
      rw [hstep]
      refine ⟨fun i => ?_, hverify⟩
      have hset : (ready.count entry.fd.toNat).readyMap i = true ↔ ready.readyMap i = true ∨ entry.fd.toNat = i := by
        unfold SelectReady.count
        by_cases hi : i = entry.fd.toNat
        · subst hi
          by_cases hset : ready.readyMap entry.fd.toNat = true <;> simp [hset]
        · split <;> simp [hi, Ne.symm hi]
      rw [hmap, hset]
      simp only [exists_mem_cons_iff, hmark, and_true]
      exact or_assoc
    · have hstep : countAll (entry :: polled) ready = countAll polled ready := by
        unfold countAll
        rw [foldl_cons, if_neg hmark]
      rw [hstep]
      simp only [exists_mem_cons_iff, hmark, and_false, false_or]
      exact ih ready hrest h

theorem markAll_spec (nfds : ℕ) (mask : BitVec 16) (polled : List PollFd) (set : Option FdSet)
    (hfrom : ∀ entry ∈ polled, entry.Marked mask → ∃ i < nfds, selectBitmap set i = true ∧ entry.fd = (i : ℤ)) :
    (∀ i < nfds, selectBitmap (markAll mask polled (clearSet ((nfds + 7) / 8) set)) i = true ↔
        ∃ entry ∈ polled, entry.fd = (i : ℤ) ∧ entry.Marked mask) ∧
      ∀ i, selectBitmap (markAll mask polled (clearSet ((nfds + 7) / 8) set)) i = true → selectBitmap set i = true := by
  have hclear : ∀ i, selectBitmap (clearSet ((nfds + 7) / 8) set) i = true → nfds ≤ i ∧ selectBitmap set i = true := by
    intro i h
    cases set with
    | none => cases h
    | some map =>
      have h' : (if i < 8 * ((nfds + 7) / 8) then false else map i) = true := h
      split at h'
      · cases h'
      · exact ⟨by omega, h'⟩
  constructor
  · intro i hi
    rw [selectBitmap_markAll]
    constructor
    · rintro (hbit | ⟨-, entry, hentry, hfd, hmark⟩)
      · exact absurd hi (not_lt.mpr (hclear i hbit).1)
      · obtain ⟨j, -, -, hj⟩ := hfrom entry hentry hmark
        rw [hj, Int.toNat_natCast] at hfd
        exact ⟨entry, hentry, hfd ▸ hj, hmark⟩
    · rintro ⟨entry, hentry, hfd, hmark⟩
      obtain ⟨j, -, hbit, -⟩ := hfrom entry hentry hmark
      refine .inr ⟨?_, entry, hentry, by rw [hfd, Int.toNat_natCast], hmark⟩
      cases set with
      | none => cases hbit
      | some map => rfl
  · intro i h
    rw [selectBitmap_markAll] at h
    obtain hbit | ⟨-, entry, hentry, hfd, hmark⟩ := h
    · exact (hclear i hbit).2
    · obtain ⟨j, -, hbit, hj⟩ := hfrom entry hentry hmark
      rw [hj, Int.toNat_natCast] at hfd
      exact hfd ▸ hbit

/-- The result sets say what `poll` has noted in the entries, and the value is the number of descriptors that are in
one of them. -/
structure SelectReports (nfds : ℕ) (sets out : SelectSets) (polled : List PollFd) (v : ℕ) : Prop where
  asked : polled.map PollFd.request = selectRequest nfds sets
  read_iff : ∀ i < nfds, selectBitmap out.read i = true ↔ ∃ entry ∈ polled, entry.fd = (i : ℤ) ∧ entry.Marked pollIn
  write_iff : ∀ i < nfds, selectBitmap out.write i = true ↔
    ∃ entry ∈ polled, entry.fd = (i : ℤ) ∧ entry.Marked pollOut
  except_iff : ∀ i < nfds, selectBitmap out.except i = true ↔
    ∃ entry ∈ polled, entry.fd = (i : ℤ) ∧ entry.Marked pollPri
  read_subset : ∀ i, selectBitmap out.read i = true → selectBitmap sets.read i = true
  write_subset : ∀ i, selectBitmap out.write i = true → selectBitmap sets.write i = true
  except_subset : ∀ i, selectBitmap out.except i = true → selectBitmap sets.except i = true
  counts : v = ((Finset.range nfds).filter fun i =>
    selectBitmap out.read i ∨ selectBitmap out.write i ∨ selectBitmap out.except i).card

theorem request_cases {nfds : ℕ} {sets : SelectSets} {entry : PollFd}
    (h : entry.request ∈ selectRequest nfds sets) :
    (∃ i < nfds, selectBitmap sets.read i = true ∧ entry.fd = (i : ℤ) ∧ entry.events = pollIn) ∨
      (∃ i < nfds, selectBitmap sets.write i = true ∧ entry.fd = (i : ℤ) ∧ entry.events = pollOut) ∨
        ∃ i < nfds, selectBitmap sets.except i = true ∧ entry.fd = (i : ℤ) ∧ entry.events = pollPri ||| pollErr := by
  have hpick : ∀ {set : Option FdSet} {events : BitVec 16},
      entry.request ∈ (selectPick nfds set).map (fun i : ℕ => ((i : ℤ), events)) →
        ∃ i < nfds, selectBitmap set i = true ∧ entry.fd = (i : ℤ) ∧ entry.events = events := by
    intro set events hmem
    obtain ⟨i, hi, hrequest⟩ := mem_map.mp hmem
    obtain ⟨hrange, hbit⟩ := mem_filter.mp hi
    exact ⟨i, mem_range.mp hrange, hbit, (congrArg Prod.fst hrequest).symm, (congrArg Prod.snd hrequest).symm⟩
  unfold selectRequest at h
  rw [mem_append, mem_append] at h
  obtain (hread | hwrite) | hexcept := h
  · exact .inl (hpick hread)
  · exact .inr (.inl (hpick hwrite))
  · exact .inr (.inr (hpick hexcept))

theorem poll_and_select_report :
    (∀ timeout entries rounds v entries', (∀ r : PollRound, r ∈ rounds → r.again entries → ¬ r.Over timeout) →
      poll timeout entries rounds = some (.ok v, entries') → v = reported entries') ∧
    ∀ nfds sets timeout rounds v out, select nfds sets timeout rounds = some (.ok v, out) →
      ∃ r polled, poll (selectTime timeout) (selectComp nfds sets).entries rounds = some (.ok r, polled) ∧
        SelectReports nfds sets out polled v := by
  refine ⟨fun _ _ _ _ _ hagain h => poll_counts hagain h, ?_⟩
  intro nfds sets timeout rounds v out h
  unfold select at h
  obtain ⟨⟨result, polled⟩, hpoll, hout⟩ := Option.map_eq_some_iff.mp h
  cases result with
  | error e => cases (Prod.mk.inj hout).1
  | ok r =>
    obtain ⟨hv, rfl⟩ := Prod.mk.inj hout
    have hv' := Except.ok.inj hv
    rw [foldl_selectVerify] at hv' ⊢
    have hasked := (poll_request hpoll).trans (selectComp_request nfds sets)
    have hcases : ∀ entry ∈ polled, _ := fun entry hentry =>
      request_cases (hasked ▸ List.mem_map_of_mem hentry : entry.request ∈ selectRequest nfds sets)
    have hread := markAll_spec nfds pollIn polled sets.read (by
      intro entry hentry hmark
      obtain ⟨i, hi, hbit, hfd, -⟩ | ⟨-, -, -, -, hev⟩ | ⟨-, -, -, -, hev⟩ := hcases entry hentry
      · exact ⟨i, hi, hbit, hfd⟩
      · exact absurd hmark.1 (by rw [hev]; decide)
      · exact absurd hmark.1 (by rw [hev]; decide))
    have hwrite := markAll_spec nfds pollOut polled sets.write (by
      intro entry hentry hmark
      obtain ⟨-, -, -, -, hev⟩ | ⟨i, hi, hbit, hfd, -⟩ | ⟨-, -, -, -, hev⟩ := hcases entry hentry
      · exact absurd hmark.1 (by rw [hev]; decide)
      · exact ⟨i, hi, hbit, hfd⟩
      · exact absurd hmark.1 (by rw [hev]; decide))
    have hexcept := markAll_spec nfds pollPri polled sets.except (by
      intro entry hentry hmark
      obtain ⟨-, -, -, -, hev⟩ | ⟨-, -, -, -, hev⟩ | ⟨i, hi, hbit, hfd, -⟩ := hcases entry hentry
      · exact absurd hmark.1 (by rw [hev]; decide)
      · exact absurd hmark.1 (by rw [hev]; decide)
      · exact ⟨i, hi, hbit, hfd⟩)
    have hfd : ∀ entry ∈ polled, ∃ i < nfds, entry.fd = (i : ℤ) := by
      intro entry hentry
      obtain ⟨i, hi, -, hfd, -⟩ | ⟨i, hi, -, hfd, -⟩ | ⟨i, hi, -, hfd, -⟩ := hcases entry hentry <;>
        exact ⟨i, hi, hfd⟩
    obtain ⟨hmap, hverify⟩ := countAll_verify polled ⟨fun _ => false, 0⟩ (n := nfds) (fun entry hentry => by
      obtain ⟨i, hi, hfd⟩ := hfd entry hentry
      rw [hfd, Int.toNat_natCast]
      exact hi) (by simp)
    refine ⟨r, polled, hpoll, hasked, hread.1, hwrite.1, hexcept.1, hread.2, hwrite.2, hexcept.2, ?_⟩
    rw [← hv', hverify]
    congr 1
    apply Finset.filter_congr
    intro i hi
    have hlt := Finset.mem_range.mp hi
    dsimp only
    rw [hmap, hread.1 i hlt, hwrite.1 i hlt, hexcept.1 i hlt]
    have hsame : ∀ entry ∈ polled, (entry.fd.toNat = i ↔ entry.fd = (i : ℤ)) := by
      intro entry hentry
      obtain ⟨j, -, hj⟩ := hfd entry hentry
      rw [hj]
      omega
    constructor
    · rintro (hfalse | ⟨entry, hentry, hi, hmark | hmark | hmark⟩)
      · cases hfalse
      · exact .inl ⟨entry, hentry, (hsame entry hentry).mp hi, hmark⟩
      · exact .inr (.inl ⟨entry, hentry, (hsame entry hentry).mp hi, hmark⟩)
      · exact .inr (.inr ⟨entry, hentry, (hsame entry hentry).mp hi, hmark⟩)
    · rintro (⟨entry, hentry, hi, hmark⟩ | ⟨entry, hentry, hi, hmark⟩ | ⟨entry, hentry, hi, hmark⟩)
      · exact .inr ⟨entry, hentry, (hsame entry hentry).mpr hi, .inl hmark⟩
      · exact .inr ⟨entry, hentry, (hsame entry hentry).mpr hi, .inr (.inl hmark)⟩
      · exact .inr ⟨entry, hentry, (hsame entry hentry).mpr hi, .inr (.inr hmark)⟩

def steadyRound (look : Option (BitVec 32 → BitVec 32)) : PollRound where
  scan _ _ := some look
  sigexit := false
  arming _ _ := some look
  recheck _ _ := some look
  elapsed := 0

/-- The node becomes ready behind the scan, so that the second look finds it. -/
def lateRound : PollRound := { steadyRound (some fun _ => 0) with recheck := fun _ _ => some (some fun _ => 1) }

/-- The second look of the first round finds the node ready, and the scan of the second round reports it. -/
theorem poll_and_select_report_late :
    lateRound.again [⟨0, pollIn, 0⟩] = true ∧
      (∃ v entries', poll 5 [⟨0, pollIn, 0⟩] [lateRound, steadyRound none] = some (.ok v, entries') ∧
        v = reported entries') ∧
      ∃ v out, select 1 ⟨some fun _ => true, none, none⟩ none [lateRound, steadyRound none] = some (.ok v, out) ∧
        ∃ r polled, poll (selectTime none) (selectComp 1 ⟨some fun _ => true, none, none⟩).entries
            [lateRound, steadyRound none] = some (.ok r, polled) ∧
          SelectReports 1 ⟨some fun _ => true, none, none⟩ out polled v := by
  have hagain : ∀ r : PollRound, r ∈ [lateRound, steadyRound none] → r.again [⟨0, pollIn, 0⟩] → ¬ r.Over 5 := by
    intro r hr hlook
    rcases mem_cons.mp hr with rfl | hr
    · decide
    · rw [mem_singleton.mp hr] at hlook
      cases hlook
  exact ⟨by decide, ⟨_, _, rfl, poll_and_select_report.1 5 [⟨0, pollIn, 0⟩] _ _ _ hagain rfl⟩, _, _, rfl,
    poll_and_select_report.2 1 ⟨some fun _ => true, none, none⟩ none [lateRound, steadyRound none] _ _ rfl⟩

def setBits (nfds : ℕ) (set : Option FdSet) : ℕ := (selectPick nfds set).length

/-- The time runs out right behind the second look, which has found the node ready. And one descriptor is in two
results. -/
theorem poll_and_select_miscount :
    (∃ timeout entries rounds v entries', poll timeout entries rounds = some (.ok v, entries') ∧
        v ≠ reported entries') ∧
      ∃ nfds sets timeout rounds v out, select nfds sets timeout rounds = some (.ok v, out) ∧
        v ≠ setBits nfds out.read + setBits nfds out.write + setBits nfds out.except := by
  constructor
  · exact ⟨1, [⟨0, pollIn, 0⟩], [{ steadyRound (some fun _ => 0) with
      recheck := fun _ _ => some (some fun _ => epollIn), elapsed := 1000000 }], 1, [⟨0, pollIn, 0⟩], rfl, by decide⟩
  · exact ⟨1, ⟨some fun _ => true, some fun _ => true, none⟩, none, [steadyRound none], _, _, rfl, by decide⟩

end CoolPotOS
