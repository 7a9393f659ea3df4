import CoolPotOS.Task.FutexRun
import CoolPotOS.Task.Scheduler

namespace CoolPotOS

open Function List Option

/-- Where a thread is in `FUTEX_WAIT`, and the address and the value it was called with. -/
inductive WaitPhase
  | idle
  | checked (addr : ℕ) (val : ℤ)
  | marked (addr : ℕ) (val : ℤ)
  | queued (addr : ℕ) (val : ℤ)
  | blocked (addr : ℕ) (val : ℤ)
  deriving DecidableEq

/-- The wait at an address has read the word and has not entered the queue yet. -/
def WaitPhase.before (addr : ℕ) : WaitPhase → Bool
  | .checked a _ => a = addr
  | .marked a _ => a = addr
  | _ => false

def WaitPhase.joined (addr : ℕ) : WaitPhase → Bool
  | .queued a _ => a = addr
  | .blocked a _ => a = addr
  | _ => false

def WaitPhase.expects : WaitPhase → Option (ℕ × ℤ)
  | .idle => none
  | .checked addr val | .marked addr val | .queued addr val | .blocked addr val => some (addr, val)

/-- The kernel, the words of memory, and the waits. For the wait of a thread, `stored` says that a
different value has been stored since it read the word, and `woken` that there has been a wake
with enough count for it. -/
structure FutexRace where
  sys : System
  word : ℕ → ℤ
  phase : ℕ → WaitPhase
  stored : ℕ → Bool
  woken : ℕ → Bool

/-- `futex_add` up to `futex_block_task`. -/
def futexEnqueue (s : System) (addr thread : ℕ) (heap : List Bool) :
    Option (System × List Bool) := do
  let (m, queue, heap) ← futexQueue s.futexMap addr heap
  let ((queue, index), heap) := cowListAdd queue thread heap
  let s := { s with futexMap := mapReplace m addr queue }
  return (s.setTcb thread { s.tcb thread with futexIndex := index }, heap)

/-- The entries of the threads that are in a `FUTEX_WAIT` at the address. An entry that a wait has left behind is
none of them. -/
def waitersOf (phase : ℕ → WaitPhase) (queue : List (Option ℕ)) (addr : ℕ) : List (Option ℕ) :=
  queue.filter fun entry => entry.any fun thread => (phase thread).joined addr

/-- The count of a wake is enough for the wait of a thread: its entry is among the first ones of the waiters, or
would be if it had one. -/
def wakeReaches (phase : ℕ → WaitPhase) (queue : List (Option ℕ)) (addr count thread : ℕ) : Bool :=
  (phase thread).before addr && (waitersOf phase queue addr).length < count ||
    (phase thread).joined addr && decide (some thread ∈ (waitersOf phase queue addr).take count)

inductive RaceOp
  | check (thread addr : ℕ) (val : ℤ)
  | giveUp (thread : ℕ)
  | mark (thread : ℕ)
  | enqueue (thread : ℕ) (heap : List Bool)
  | block (thread : ℕ)
  | leave (thread : ℕ) (heap : List Bool)
  | finish (thread : ℕ)
  | switch (current next : ℕ)
  | store (addr : ℕ) (val : ℤ)
  | wake (addr : ℕ) (count : ℤ) (heap : List Bool)

def FutexRace.setPhase (x : FutexRace) (thread : ℕ) (phase : WaitPhase) : FutexRace :=
  { x with phase := Function.update x.phase thread phase }

def System.setStatus (s : System) (thread : ℕ) (status : TaskStatus) : System :=
  s.setTcb thread { s.tcb thread with status := status }

/-- One step of a thread. A wait that finds another value, or a time that is over or wrong, ends
before it sets the status; `leave` is the end by a signal or by the time, `finish` the end of the
loop by the status. A switch of threads sets both of their status. -/
def FutexRace.step (x : FutexRace) : RaceOp → Option FutexRace
  | .check thread addr val =>
    match x.phase thread with
    | .idle =>
      if x.word addr ≠ val then some x
      else some { x.setPhase thread (.checked addr val) with
        stored := Function.update x.stored thread false
        woken := Function.update x.woken thread false }
    | _ => none
  | .giveUp thread =>
    match x.phase thread with
    | .checked _ _ => some (x.setPhase thread .idle)
    | _ => none
  | .mark thread =>
    match x.phase thread with
    | .checked addr val =>
      some { x.setPhase thread (.marked addr val) with sys := x.sys.setStatus thread .futex }
    | _ => none
  | .enqueue thread heap =>
    match x.phase thread with
    | .marked addr val => do
      let (s, _) ← futexEnqueue x.sys addr thread heap
      return { x.setPhase thread (.queued addr val) with sys := s }
    | _ => none
  | .block thread =>
    match x.phase thread with
    | .queued addr val =>
      some { x.setPhase thread (.blocked addr val) with sys := removeRrsEntity x.sys thread }
    | _ => none
  | .leave thread heap =>
    match x.phase thread with
    | .blocked addr _ =>
      if (x.sys.tcb thread).status ≠ .futex then none
      else do
        let (s, _, _) ← futexUnblock x.sys addr thread heap
        return { x.setPhase thread .idle with sys := s }
    | _ => none
  | .finish thread =>
    match x.phase thread with
    | .blocked _ _ =>
      if (x.sys.tcb thread).status = .futex then none else some (x.setPhase thread .idle)
    | _ => none
  | .switch current next =>
    some { x with sys := (x.sys.setStatus current .running).setStatus next .start }
  | .store addr val =>
    some { x with
      word := Function.update x.word addr val
      stored := fun t => x.stored t || match (x.phase t).expects with
        | some (a, old) => a = addr && old ≠ val
        | none => false }
  | .wake addr count heap =>
    if count < 0 then some x
    else do
      let (s, _, _) ← futexWake x.sys addr count heap
      return { x with
        sys := s
        woken := fun t => x.woken t ||
          wakeReaches x.phase (queueAt x.sys.futexMap addr) addr count.toNat t }

/-- No wake at an address falls between the read of a wait at that address and its entry into the
queue, no wait returns with an entry in the queue, and there is memory. -/
def RaceOp.Timely (x : FutexRace) : RaceOp → Prop
  | .wake addr _ heap => false ∉ heap ∧ ∀ t, (x.phase t).before addr = false
  | .enqueue _ heap => false ∉ heap
  | .leave _ heap => false ∉ heap
  | .finish thread => ∀ addr, (x.phase thread).joined addr = true → some thread ∉ queueAt x.sys.futexMap addr
  | _ => True

/-- The queues hold threads that wait, each once, and a wait that a wake has reached is in the queue no longer. -/
structure RaceOk (x : FutexRace) (waits : ℕ → List ℕ) : Prop where
  queue : ∀ a, queueAt x.sys.futexMap a = (waits a).map some
  nodup : ∀ a, (waits a).Nodup
  waiting : ∀ a, ∀ t ∈ waits a, (x.phase t).joined a = true
  before : ∀ t a, (x.phase t).before a = true → x.woken t = false
  joined : ∀ t a, (x.phase t).joined a = true → x.woken t = true → t ∉ waits a

theorem WaitPhase.not_joined_of_before {phase : WaitPhase} {a : ℕ} (h : phase.before a = true) (b : ℕ) :
    phase.joined b = false := by
  cases phase with
  | idle => cases h
  | checked | marked => rfl
  | queued | blocked => cases h

theorem WaitPhase.joined_unique {phase : WaitPhase} {a b : ℕ} (ha : phase.joined a = true)
    (hb : phase.joined b = true) : a = b := by
  cases phase with
  | idle | checked | marked => cases ha
  | queued addr | blocked addr => exact (of_decide_eq_true ha).symm.trans (of_decide_eq_true hb)

section Steps

variable {x x' : FutexRace} {thread addr : ℕ} {val : ℤ} {heap : List Bool}

theorem futexEnqueue_spec (s : System) (addr thread : ℕ) {heap : List Bool} (h : false ∉ heap) :
    ∃ m index heap', futexEnqueue s addr thread heap = some (({ s with futexMap := m } : System).setTcb thread
          { s.tcb thread with futexIndex := index }, heap') ∧
      ∀ a, queueAt m a = if a = addr then queueAt s.futexMap addr ++ [some thread]
        else queueAt s.futexMap a := by
  obtain ⟨m, queue, heap1, hqueue, h1, hlist, hkey, hother⟩ := futexQueue_spec s.futexMap addr h
  obtain ⟨queue', heap2, hadd, hlist', h2⟩ := cowListAdd_spec queue thread h1
  refine ⟨mapReplace m addr queue', queue.size, heap2, ?_, fun a => ?_⟩
  · unfold futexEnqueue
    simp only [hqueue, hadd, bind_eq_bind, bind_some, Option.pure_def]
  · rw [queueAt_replace hkey]
    split
    · rw [hlist', hlist]
    · rename_i ha
      exact hother a ha

section Preserve

variable {waits : ℕ → List ℕ}

theorem RaceOk.waitersOf_eq (h : RaceOk x waits) (addr : ℕ) :
    waitersOf x.phase (queueAt x.sys.futexMap addr) addr = (waits addr).map some := by
  unfold waitersOf
  rw [h.queue, List.filter_eq_self]
  intro entry hentry
  obtain ⟨t, ht, rfl⟩ := List.mem_map.mp hentry
  exact h.waiting addr t ht

/-- A step of one thread that leaves the queues alone. -/
theorem RaceOk.of_phase (h : RaceOk x waits) {phase : WaitPhase} (hmap : x'.sys.futexMap = x.sys.futexMap)
    (hphase : x'.phase = update x.phase thread phase) (hwait : ∀ a, thread ∈ waits a → phase.joined a = true)
    (hbefore : ∀ a, phase.before a = true → x'.woken thread = false)
    (hjoined : ∀ a, phase.joined a = true → x'.woken thread = true → thread ∉ waits a)
    (hwoken : ∀ t, t ≠ thread → x'.woken t = x.woken t) : RaceOk x' waits := by
  refine ⟨fun a => by rw [hmap]; exact h.queue a, h.nodup, fun a t ht => ?_, fun t a ht => ?_, fun t a ht hw => ?_⟩
  · by_cases htt : t = thread
    · subst htt
      rw [hphase, update_self]
      exact hwait a ht
    · rw [hphase, update_of_ne htt]
      exact h.waiting a t ht
  · by_cases htt : t = thread
    · subst htt
      rw [hphase, update_self] at ht
      exact hbefore a ht
    · rw [hphase, update_of_ne htt] at ht
      rw [hwoken t htt]
      exact h.before t a ht
  · by_cases htt : t = thread
    · subst htt
      rw [hphase, update_self] at ht
      exact hjoined a ht hw
    · rw [hphase, update_of_ne htt] at ht
      rw [hwoken t htt] at hw
      exact h.joined t a ht hw

/-- A thread that is not in the queue of any address, since it has not joined it. -/
theorem RaceOk.notMem (h : RaceOk x waits) (hphase : ∀ a, (x.phase thread).joined a = false) (a : ℕ) :
    thread ∉ waits a := by
  intro hmem
  exact Bool.false_ne_true ((hphase a).symm.trans (h.waiting a thread hmem))

theorem RaceOk.enqueue (h : RaceOk x waits) (hphase : x.phase thread = .marked addr val)
    (hheap : false ∉ heap) (hstep : x.step (.enqueue thread heap) = some x') :
    RaceOk x' (update waits addr (waits addr ++ [thread])) := by
  obtain ⟨m, index, heap', hrun, hqueue⟩ := futexEnqueue_spec x.sys addr thread hheap
  simp only [FutexRace.step, hphase, hrun, bind_eq_bind, bind_some, Option.pure_def,
    Option.some.injEq] at hstep
  subst hstep
  have hbefore : (x.phase thread).before addr = true := by simp [hphase, WaitPhase.before]
  have hfirst : x.woken thread = false := h.before thread addr hbefore
  have hnew : ∀ a, thread ∉ waits a := h.notMem (fun a => WaitPhase.not_joined_of_before hbefore a)
  refine ⟨fun a => ?_, fun a => ?_, fun a t ht => ?_, fun t a ht => ?_, fun t a ht hw => ?_⟩
  · refine (hqueue a).trans ?_
    by_cases ha : a = addr
    · subst ha
      rw [if_pos rfl, update_self, map_append, h.queue]
      rfl
    · rw [if_neg ha, update_of_ne ha, h.queue]
  · by_cases ha : a = addr
    · subst ha
      rw [update_self]
      exact nodup_append.mpr ⟨h.nodup a, nodup_singleton thread, fun t ht t' ht' htt =>
        hnew a (mem_singleton.mp ht' ▸ htt ▸ ht)⟩
    · rw [update_of_ne ha]
      exact h.nodup a
  · by_cases htt : t = thread
    · subst htt
      have ha : a = addr := by
        by_contra ha
        rw [update_of_ne ha] at ht
        exact hnew a ht
      simp [FutexRace.setPhase, WaitPhase.joined, ha]
    · have hold : t ∈ waits a := by
        by_cases ha : a = addr
        · subst ha
          rw [update_self, mem_append, mem_singleton] at ht
          exact ht.resolve_right htt
        · rwa [update_of_ne ha] at ht
      simpa [FutexRace.setPhase, htt] using h.waiting a t hold
  · by_cases htt : t = thread
    · exact htt ▸ hfirst
    · exact h.before t a (by simpa [FutexRace.setPhase, htt] using ht)
  · by_cases htt : t = thread
    · subst htt
      exact absurd (hfirst.symm.trans hw) Bool.false_ne_true
    · have hold := h.joined t a (by simpa [FutexRace.setPhase, htt] using ht) hw
      by_cases ha : a = addr
      · subst ha
        rw [update_self, mem_append, mem_singleton]
        exact not_or.mpr ⟨hold, htt⟩
      · rwa [update_of_ne ha]

/-- The queue after a wake: its count is enough for just the waiters that it removes. -/
theorem RaceOk.wake (h : RaceOk x waits) {count : ℤ} (hheap : false ∉ heap)
    (hbefore : ∀ t, (x.phase t).before addr = false)
    (hstep : x.step (.wake addr count heap) = some x') : ∃ waits', RaceOk x' waits' := by
  by_cases hcount : count < 0
  · simp only [FutexRace.step, if_pos hcount, Option.some.injEq] at hstep
    exact ⟨waits, hstep ▸ h⟩
  obtain ⟨m, heap', hrun, -, hqueue⟩ := futexWake_spec x.sys count (h.queue addr) hheap
  simp only [FutexRace.step, if_neg hcount, hrun, bind_eq_bind, bind_some, Option.pure_def, wakeReaches,
    h.waitersOf_eq, hbefore, Bool.false_and, Bool.false_or, Option.some.injEq] at hstep
  subst hstep
  have hsub : ∀ a, (update waits addr ((waits addr).drop count.toNat) a).Sublist (waits a) := by
    intro a
    by_cases ha : a = addr
    · subst ha
      rw [update_self]
      exact drop_sublist _ _
    · rw [update_of_ne ha]
  refine ⟨update waits addr ((waits addr).drop count.toNat), fun a => ?_, fun a => (h.nodup a).sublist (hsub a),
    fun a t ht => h.waiting a t ((hsub a).subset ht), fun t a ht => ?_, fun t a ht hw hmem => ?_⟩
  · refine (hqueue a).trans ?_
    by_cases ha : a = addr
    · subst ha
      rw [if_pos rfl, update_self]
    · rw [if_neg ha, update_of_ne ha, h.queue]
  · have hnot : (x.phase t).joined addr = false := WaitPhase.not_joined_of_before ht addr
    dsimp only
    rw [h.before t a ht, hnot]
    rfl
  · rcases Bool.or_eq_true_iff.mp hw with hw | hw
    · exact h.joined t a ht hw ((hsub a).subset hmem)
    · obtain ⟨hjoined, htake⟩ := Bool.and_eq_true_iff.mp hw
      obtain rfl := WaitPhase.joined_unique ht hjoined
      rw [update_self] at hmem
      obtain ⟨u, hu, hut⟩ := List.mem_map.mp (map_take ▸ of_decide_eq_true htake)
      cases hut
      have hnodup := h.nodup a
      rw [← take_append_drop count.toNat (waits a)] at hnodup
      exact (nodup_append.mp hnodup).2.2 t hu t hmem rfl

theorem RaceOk.leave (h : RaceOk x waits) (hphase : x.phase thread = .blocked addr val) (hheap : false ∉ heap)
    (hstep : x.step (.leave thread heap) = some x') : ∃ waits', RaceOk x' waits' := by
  have hjoined : (x.phase thread).joined addr = true := by simp [hphase, WaitPhase.joined]
  -- the thread waits at one address only, so that it is in no queue behind the removal
  have hother : ∀ a, a ≠ addr → thread ∉ waits a := fun a ha hmem =>
    ha (WaitPhase.joined_unique (h.waiting a thread hmem) hjoined)
  have hdone : ∀ waits' : ℕ → List ℕ, (∀ a, (waits' a).Sublist (waits a)) → (∀ a, thread ∉ waits' a) →
      (∀ a, queueAt x'.sys.futexMap a = (waits' a).map some) → x'.phase = update x.phase thread .idle →
      x'.woken = x.woken → RaceOk x' waits' := by
    intro waits' hsub hout hqueue hphase' hwoken
    have hkeep : ∀ t, t ≠ thread → x'.phase t = x.phase t := fun t ht => by rw [hphase', update_of_ne ht]
    have hidle : x'.phase thread = .idle := by rw [hphase', update_self]
    refine ⟨hqueue, fun a => (h.nodup a).sublist (hsub a), fun a t ht => ?_, fun t a ht => ?_, fun t a ht hw => ?_⟩
    · have htt : t ≠ thread := fun htt => hout a (htt ▸ ht)
      rw [hkeep t htt]
      exact h.waiting a t ((hsub a).subset ht)
    · rw [hwoken]
      by_cases htt : t = thread
      · subst htt
        rw [hidle] at ht
        cases ht
      · exact h.before t a (hkeep t htt ▸ ht)
    · rw [hwoken] at hw
      by_cases htt : t = thread
      · exact htt ▸ hout a
      · exact fun hmem => h.joined t a (hkeep t htt ▸ ht) hw ((hsub a).subset hmem)
  simp only [FutexRace.step, hphase, bind_eq_bind, Option.pure_def] at hstep
  split_ifs at hstep
  rcases futexUnblock_spec x.sys thread (h.queue addr) (h.nodup addr) hheap with
    ⟨hnot, hrun⟩ | ⟨-, m, heap', hrun, -, hqueue⟩
  · rw [hrun] at hstep
    cases hstep
    refine ⟨waits, hdone waits (fun a => List.Sublist.refl _) (fun a => ?_) h.queue rfl rfl⟩
    by_cases ha : a = addr
    · exact ha ▸ hnot
    · exact hother a ha
  · rw [hrun] at hstep
    cases hstep
    refine ⟨update waits addr ((waits addr).erase thread), hdone _ (fun a => ?_) (fun a => ?_) (fun a => ?_) rfl rfl⟩
    · by_cases ha : a = addr
      · subst ha
        rw [update_self]
        exact erase_sublist
      · rw [update_of_ne ha]
    · by_cases ha : a = addr
      · subst ha
        rw [update_self]
        exact (h.nodup a).not_mem_erase
      · rw [update_of_ne ha]
        exact hother a ha
    · refine (hqueue a).trans ?_
      by_cases ha : a = addr
      · subst ha
        rw [if_pos rfl, update_self]
      · rw [if_neg ha, update_of_ne ha, h.queue]

theorem RaceOk.step (h : RaceOk x waits) {op : RaceOp} (hok : op.Timely x)
    (hstep : x.step op = some x') : ∃ waits', RaceOk x' waits' := by
  cases op with
  | check thread addr val =>
    cases hp : x.phase thread with
    | idle =>
      have hnew : ∀ a, thread ∉ waits a := h.notMem (fun a => by rw [hp]; rfl)
      simp only [FutexRace.step, hp] at hstep
      split_ifs at hstep
      · cases hstep
        exact ⟨waits, h⟩
      · cases hstep
        refine ⟨waits, h.of_phase rfl rfl (fun a ha => absurd ha (hnew a)) (fun a _ => update_self _ _ _)
          (fun a _ _ => hnew a) fun t ht => update_of_ne ht _ _⟩
    | checked | marked | queued | blocked => simp [FutexRace.step, hp] at hstep
  | giveUp thread =>
    cases hp : x.phase thread with
    | checked addr val =>
      have hnew : ∀ a, thread ∉ waits a := h.notMem (fun a => by rw [hp]; rfl)
      simp only [FutexRace.step, hp, Option.some.injEq] at hstep
      subst hstep
      exact ⟨waits, h.of_phase rfl rfl (fun a ha => absurd ha (hnew a)) (fun a ha => by cases ha)
        (fun a _ _ => hnew a) fun t _ => rfl⟩
    | idle | marked | queued | blocked => simp [FutexRace.step, hp] at hstep
  | mark thread =>
    cases hp : x.phase thread with
    | checked addr val =>
      have hnew : ∀ a, thread ∉ waits a := h.notMem (fun a => by rw [hp]; rfl)
      simp only [FutexRace.step, hp, Option.some.injEq] at hstep
      subst hstep
      refine ⟨waits, h.of_phase rfl rfl (fun a ha => absurd ha (hnew a)) (fun a ha => ?_) (fun a _ _ => hnew a)
        fun t _ => rfl⟩
      exact h.before thread a (by rw [hp]; exact ha)
    | idle | marked | queued | blocked => simp [FutexRace.step, hp] at hstep
  | enqueue thread heap =>
    cases hp : x.phase thread with
    | marked addr val => exact ⟨_, h.enqueue hp hok hstep⟩
    | idle | checked | queued | blocked => simp [FutexRace.step, hp] at hstep
  | block thread =>
    cases hp : x.phase thread with
    | queued addr val =>
      simp only [FutexRace.step, hp, Option.some.injEq] at hstep
      subst hstep
      refine ⟨waits, h.of_phase (futexMap_removeRrsEntity _ _) rfl (fun a ha => ?_) (fun a ha => by cases ha)
        (fun a ha hw => ?_) fun t _ => rfl⟩
      · have hold := h.waiting a thread ha
        rw [hp] at hold
        exact hold
      · exact h.joined thread a (by rw [hp]; exact ha) hw
    | idle | checked | marked | blocked => simp [FutexRace.step, hp] at hstep
  | leave thread heap =>
    cases hp : x.phase thread with
    | blocked addr val => exact h.leave hp hok hstep
    | idle | checked | marked | queued => simp [FutexRace.step, hp] at hstep
  | finish thread =>
    have hout : ∀ a, thread ∉ waits a := by
      intro a hmem
      exact hok a (h.waiting a thread hmem) (h.queue a ▸ mem_map_of_mem hmem)
    cases hp : x.phase thread with
    | blocked addr val =>
      simp only [FutexRace.step, hp] at hstep
      split_ifs at hstep
      cases hstep
      exact ⟨waits, h.of_phase rfl rfl (fun a ha => absurd ha (hout a)) (fun a ha => by cases ha)
        (fun a _ _ => hout a) fun t _ => rfl⟩
    | idle | checked | marked | queued => simp [FutexRace.step, hp] at hstep
  | switch current next =>
    cases hstep
    exact ⟨waits, h.queue, h.nodup, h.waiting, h.before, h.joined⟩
  | store addr val =>
    cases hstep
    exact ⟨waits, h.queue, h.nodup, h.waiting, h.before, h.joined⟩
  | wake addr count heap => exact h.wake hok.1 hok.2 hstep

end Preserve

end Steps

def FutexRace.start (s : System) (word : ℕ → ℤ) : FutexRace :=
  ⟨s, word, fun _ => .idle, fun _ => false, fun _ => false⟩

def twoWaits : List RaceOp :=
  [.check 6 4096 0, .mark 6, .enqueue 6 [], .block 6, .check 5 4096 0, .mark 5, .enqueue 5 [], .block 5,
    .store 4096 1]

end CoolPotOS
