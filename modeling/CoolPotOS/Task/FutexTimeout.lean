import CoolPotOS.Task.ThreadExit

namespace CoolPotOS

/-- `timeout_ns`, a signed 64-bit number. -/
def timeoutNs (sec nsec : ℤ) : ℤ := Int.bmod (sec * 1000000000 + nsec) (2 ^ 64)

/-- `FUTEX_WAIT` gets as far as `futex_add`: the word has the value, and the time is neither wrong
nor zero. -/
def futexWaitStarts (word val : ℤ) : Option (ℤ × ℤ) → Bool
  | none => decide (word = val)
  | some (sec, nsec) => decide (word = val) && decide (0 ≤ sec) && decide (0 ≤ nsec) &&
      decide (nsec < 1000000000) && decide (timeoutNs sec nsec ≠ 0)

/-- The threads, and the deadlines of those that are in a `FUTEX_WAIT` with a time. -/
structure TimeoutState where
  sys : System
  deadline : ℕ → Option ℤ

/-- New threads, sleeping threads, the calls of `futex`, signals, and the scheduler on a tick or a
yield. `giveUp` is the end of a wait by a signal or by the time, `wakes` its end after a wake. -/
inductive TimeoutOp
  | addTask (thread cpu : ℕ) (heap : List Bool)
  | nanoSleep (thread now nano : ℕ) (heap : List Bool)
  | futexWait (thread addr : ℕ) (word val : ℤ) (time : Option (ℤ × ℤ)) (now : ℕ) (heap : List Bool)
  | futexWake (addr : ℕ) (count : ℤ) (heap : List Bool)
  | giveUp (thread addr : ℕ) (heap : List Bool)
  | wakes (thread : ℕ)
  | signal (thread : ℕ)
  | handler (cpu now : ℕ) (pending : ℕ → Bool) (heap : List Bool)

def TimeoutOp.sleepsTimed : TimeoutOp → Bool
  | .futexWait _ _ word val (some time) _ _ => futexWaitStarts word val (some time)
  | _ => false

def TimeoutState.step (x : TimeoutState) : TimeoutOp → Option TimeoutState
  | .addTask thread cpu heap =>
    (ThreadOp.run x.sys (.addTask thread cpu heap)).map fun s => { x with sys := s }
  | .nanoSleep thread now nano heap =>
    (ThreadOp.run x.sys (.nanoSleep thread now nano heap)).map fun s => { x with sys := s }
  | .futexWait thread addr word val time now heap =>
    if futexWaitStarts word val time then
      (ThreadOp.run x.sys (.futexWait addr thread heap)).map fun s =>
        ⟨s, Function.update x.deadline thread (time.map fun t => now + (t.1 * 1000000000 + t.2))⟩
    else some x
  | .futexWake addr count heap =>
    if count < 0 then some x
    else (ThreadOp.run x.sys (.futexWake addr count heap)).map fun s => { x with sys := s }
  | .giveUp thread addr heap =>
    if (x.sys.tcb thread).status ≠ .futex then none
    else (ThreadOp.run x.sys (.futexUnblock addr thread heap)).map fun s =>
      ⟨s, Function.update x.deadline thread none⟩
  | .wakes thread =>
    if (x.sys.tcb thread).status = .futex then none
    else some { x with deadline := Function.update x.deadline thread none }
  | .signal thread =>
    -- `send_signal_to_process_info` makes a thread runnable if its status is `T_WAIT`
    if (x.sys.tcb thread).status = .wait then
      some { x with sys := x.sys.setTcb thread { x.sys.tcb thread with status := .running } }
    else some x
  | .handler cpu now pending heap =>
    (ThreadOp.run x.sys (.handler cpu now pending heap)).map fun s => { x with sys := s }

/-- There is memory, a new thread is really new, and threads with an entity go to sleep, but not
the idle threads. -/
def TimeoutOp.Ready (x : TimeoutState) : TimeoutOp → Prop
  | .addTask thread cpu heap => (ThreadOp.addTask thread cpu heap).Safe x.sys
  | .nanoSleep thread now nano heap => (ThreadOp.nanoSleep thread now nano heap).Safe x.sys
  | .futexWait thread addr _ _ _ _ heap =>
    (ThreadOp.futexWait addr thread heap).Safe x.sys ∧ x.sys.NotIdle thread
  | .futexWake _ _ heap => false ∉ heap
  | .giveUp thread _ heap => false ∉ heap ∧ (x.sys.tcb thread).status = .futex
  | .wakes thread => (x.sys.tcb thread).status ≠ .futex
  | .signal _ => True
  | .handler _ _ _ heap => false ∉ heap

/-- A thread in a `FUTEX_WAIT` with a time, off its run queue, is in the sleep list with its
deadline. -/
def TimeoutState.TimedWaitsSleep (x : TimeoutState) : Prop :=
  ∀ t d, x.deadline t = some d → t ∉ x.sys.runQueue (x.sys.tcb t).cpuId →
    some t ∈ x.sys.sleepers ∧ (x.sys.tcb t).sleepDeadline = d

section Steps

variable {x x' : TimeoutState} {op : TimeoutOp}

theorem ExitInv.timeoutStep (h : ExitInv ⟨x.sys, fun _ => false⟩) (hok : op.Ready x) :
    ∃ x', x.step op = some x' ∧ ExitInv ⟨x'.sys, fun _ => false⟩ := by
  cases op with
  | addTask thread cpu heap =>
    obtain ⟨s', heap', hrun, h'⟩ := h.addTask cpu hok
    rw [Function.update_eq_self_iff.mpr rfl] at h'
    exact ⟨⟨s', x.deadline⟩, by rw [TimeoutState.step, ThreadOp.run, hrun]; rfl, h'⟩
  | nanoSleep thread now nano heap =>
    obtain ⟨s', heap', hrun, h'⟩ := h.sleepUntil hok.1 hok.2 (wrap (now + nano))
    exact ⟨⟨s', x.deadline⟩, by rw [TimeoutState.step, ThreadOp.run, schedulerNanoSleep, hrun]; rfl, h'⟩
  | futexWait thread addr word val time now heap =>
    obtain ⟨s', heap', hrun, h'⟩ := h.futexWait addr hok.1.1 hok.1.2
    by_cases hs : futexWaitStarts word val time = true
    · exact ⟨_, by rw [TimeoutState.step, if_pos hs, ThreadOp.run, hrun]; rfl, h'⟩
    · exact ⟨x, by rw [TimeoutState.step, if_neg hs], h⟩
  | futexWake addr count heap =>
    obtain ⟨s', n, heap', hrun, h'⟩ := h.futexWake addr count hok
    by_cases hc : count < 0
    · exact ⟨x, by rw [TimeoutState.step, if_pos hc], h⟩
    · exact ⟨⟨s', x.deadline⟩, by rw [TimeoutState.step, if_neg hc, ThreadOp.run, hrun]; rfl, h'⟩
  | giveUp thread addr heap =>
    obtain ⟨s', b, heap', hrun, h'⟩ := h.futexUnblock addr thread hok.1
    refine ⟨⟨s', Function.update x.deadline thread none⟩, ?_, h'⟩
    rw [TimeoutState.step, if_neg (not_not.mpr hok.2), ThreadOp.run, hrun]
    rfl
  | wakes thread =>
    exact ⟨⟨x.sys, Function.update x.deadline thread none⟩, by rw [TimeoutState.step, if_neg hok], h⟩
  | signal thread =>
    by_cases hs : (x.sys.tcb thread).status = .wait
    · obtain ⟨hrrs, sleepers, waits, hp⟩ := h
      refine ⟨_, by rw [TimeoutState.step, if_pos hs], ?_⟩
      exact ⟨hrrs.setTcb rfl fun _ => rfl, sleepers, waits, hp.setTcb rfl⟩
    · exact ⟨x, by rw [TimeoutState.step, if_neg hs], h⟩
  | handler cpu now pending heap =>
    obtain ⟨s', heap', hrun, h'⟩ := h.handler cpu now pending hok
    exact ⟨⟨s', x.deadline⟩, by rw [TimeoutState.step, ThreadOp.run, hrun]; rfl, h'⟩

theorem deadline_step (h : ∀ t, x.deadline t = none) (hop : op.sleepsTimed = false)
    (hstep : x.step op = some x') (t : ℕ) : x'.deadline t = none := by
  cases op with
  | futexWait thread addr word val time now heap =>
    simp only [TimeoutState.step] at hstep
    split_ifs at hstep with hs
    · obtain ⟨s, -, rfl⟩ := Option.map_eq_some_iff.mp hstep
      cases time with
      | none =>
        by_cases htt : t = thread
        · simp [htt]
        · simpa [htt] using h t
      | some time => exact absurd (hop.symm.trans hs) Bool.false_ne_true
    · cases hstep
      exact h t
  | giveUp thread addr heap =>
    simp only [TimeoutState.step] at hstep
    split_ifs at hstep
    obtain ⟨s, -, rfl⟩ := Option.map_eq_some_iff.mp hstep
    by_cases htt : t = thread
    · simp [htt]
    · simpa [htt] using h t
  | wakes thread =>
    simp only [TimeoutState.step] at hstep
    split_ifs at hstep
    cases hstep
    by_cases htt : t = thread
    · simp [htt]
    · simpa [htt] using h t
  | signal thread =>
    simp only [TimeoutState.step] at hstep
    split_ifs at hstep <;> obtain rfl := Option.some.inj hstep <;> exact h t
  | futexWake addr count heap =>
    simp only [TimeoutState.step] at hstep
    split_ifs at hstep
    · cases hstep
      exact h t
    · obtain ⟨s, -, rfl⟩ := Option.map_eq_some_iff.mp hstep
      exact h t
  | addTask | nanoSleep | handler =>
    obtain ⟨s, -, rfl⟩ := Option.map_eq_some_iff.mp hstep
    exact h t

theorem not_timedWaitsSleep_step (h : ExitInv ⟨x.sys, fun _ => false⟩) (hok : op.Ready x)
    (hop : op.sleepsTimed = true) (hstep : x.step op = some x') : ¬x'.TimedWaitsSleep := by
  cases op with
  | futexWait thread addr word val time now heap =>
    cases time with
    | none => cases hop
    | some time =>
      obtain ⟨⟨hheap, hon⟩, hidle⟩ := hok
      have hstarts : futexWaitStarts word val (some time) = true := hop
      obtain ⟨s', heap', hrun, h'⟩ := h.futexWait addr hheap hon
      rw [TimeoutState.step, if_pos hstarts, ThreadOp.run, hrun] at hstep
      cases hstep
      obtain ⟨m, index, heap'', hadd, -, hqueue⟩ := futexAdd_spec
        (x.sys.setTcb thread { x.sys.tcb thread with status := .futex }) addr thread hheap
      obtain ⟨hs', -⟩ := Prod.mk.inj (Option.some.inj (hrun.symm.trans hadd))
      intro hsleep
      obtain ⟨hrrs, sleepers, waits, hp⟩ := h'
      -- The thread is in the queue of the futex, so that it is off the run queue and not asleep.
      have hwaits : thread ∈ waits addr := by
        have hmem : some thread ∈ queueAt s'.futexMap addr := by
          rw [hs', futexMap_removeRrsEntity]
          refine (congrArg (some thread ∈ ·) (hqueue addr)).mpr ?_
          simp
        have hlist : queueAt s'.futexMap addr = (waits addr).map some := hp.futex.queue addr
        rw [hlist] at hmem
        simpa using hmem
      have hoff : (s'.tcb thread).schedHandle = none := hp.off thread (.inr (.inl ⟨addr, hwaits⟩))
      have hidle' : s'.NotIdle thread := by
        intro cpu
        rw [hs']
        obtain ⟨-, -, hent, hid, -⟩ := removeRrsEntity_frame
          (({ x.sys.setTcb thread { x.sys.tcb thread with status := .futex } with
            futexMap := m } : System).setTcb thread
              { (x.sys.setTcb thread { x.sys.tcb thread with status := .futex }).tcb thread with
                futexIndex := index }) thread
        rw [hent, hid]
        exact hidle cpu
      have hrq := hrrs.notMem_runQueue hoff hidle'
      obtain ⟨hmem, -⟩ := hsleep thread _ (Function.update_self _ _ _) (hrq _)
      have hsl : s'.sleepers = sleepers.map some := hp.sleep
      rw [hsl] at hmem
      exact hp.apart thread (by simpa using hmem) addr hwaits
  | addTask | nanoSleep | futexWake | giveUp | wakes | signal | handler => cases hop

end Steps

/-- A thread in a `FUTEX_WAIT` with a time is in the sleep list while it is off its run queue, in
every run in which no such wait goes to sleep. In a run with memory, from the start of the
processors on, it is so in no other one. -/
theorem timed_waits_sleep (s : System) (ops : List TimeoutOp) :
    ((∀ op ∈ ops, op.sleepsTimed = false) → ∀ done, done <+: ops → ∀ x,
      Runs.run TimeoutState.step done ⟨s, fun _ => none⟩ = some x → x.TimedWaitsSleep) ∧
    (Booted s → Runs.Meets TimeoutState.step (fun x op => op.Ready x) ops ⟨s, fun _ => none⟩ →
      (∀ done, done <+: ops → ∀ x,
        Runs.run TimeoutState.step done ⟨s, fun _ => none⟩ = some x → x.TimedWaitsSleep) →
      ∀ op ∈ ops, op.sleepsTimed = false) := by
  constructor
  · intro hops done hdone x hrun t d hd
    have hmeets : Runs.Meets TimeoutState.step (fun _ op => op.sleepsTimed = false) done
        ⟨s, fun _ => none⟩ := Runs.meets_of_forall fun op hop _ => hops op (hdone.subset hop)
    have hnone : ∀ t, x.deadline t = none := by
      apply Runs.run_keeps (fun x op x' h hop hstep => deadline_step h hop hstep) _ hmeets hrun
      intro t
      rfl
    rw [hnone t] at hd
    cases hd
  · intro hboot hok hsleep op hop
    obtain ⟨before, after, rfl⟩ := List.append_of_mem hop
    have hpre : before ++ [op] <+: before ++ op :: after := ⟨after, by simp⟩
    obtain ⟨x, hrun, hinv⟩ := Runs.run_total (fun x op h hok => ExitInv.timeoutStep h hok)
      hboot.exitInv (hok.of_isPrefix ((List.prefix_append before [op]).trans hpre))
    have hready := (hok.of_isPrefix hpre).last hrun
    obtain ⟨x', hstep, -⟩ := hinv.timeoutStep hready
    have hrun' : Runs.run TimeoutState.step (before ++ [op]) ⟨s, fun _ => none⟩ = some x' := by
      rw [Runs.run_append, hrun, Option.bind_some, Runs.run, hstep, Option.bind_some, Runs.run]
    by_contra htimed
    apply not_timedWaitsSleep_step hinv hready (Bool.eq_true_of_not_eq_false htimed) hstep
    exact hsleep _ hpre x' hrun'

/-- Thread 5 waits without a time. -/
theorem timed_waits_sleep_untimed :
    ∃ x, Runs.run TimeoutState.step [.addTask 5 0 [], .futexWait 5 4096 0 0 none 100 []]
        ⟨bootSystem, fun _ => none⟩ = some x ∧ x.TimedWaitsSleep := by
  obtain ⟨x, hx⟩ := Option.isSome_iff_exists.mp
    (show (Runs.run TimeoutState.step [.addTask 5 0 [], .futexWait 5 4096 0 0 none 100 []]
      ⟨bootSystem, fun _ => none⟩).isSome = true by decide)
  refine ⟨x, hx, ?_⟩
  exact (timed_waits_sleep bootSystem [.addTask 5 0 [], .futexWait 5 4096 0 0 none 100 []]).1
    (by decide) _ List.prefix_rfl x hx

/-- Thread 5 waits at most one second, and nothing of the kernel knows of it. -/
theorem timed_wait_not_in_sleepList :
    ∃ x, Runs.run TimeoutState.step [.addTask 5 0 [], .futexWait 5 4096 0 0 (some (1, 0)) 100 []]
        ⟨bootSystem, fun _ => none⟩ = some x ∧ x.deadline 5 = some 1000000100 ∧
      5 ∉ x.sys.runQueue (x.sys.tcb 5).cpuId ∧ x.sys.sleepers = [] ∧ ¬x.TimedWaitsSleep := by
  obtain ⟨x, hx⟩ := Option.isSome_iff_exists.mp
    (show (Runs.run TimeoutState.step [.addTask 5 0 [], .futexWait 5 4096 0 0 (some (1, 0)) 100 []]
      ⟨bootSystem, fun _ => none⟩).isSome = true by decide)
  have hfacts : ∀ x ∈ Runs.run TimeoutState.step
      [.addTask 5 0 [], .futexWait 5 4096 0 0 (some (1, 0)) 100 []] ⟨bootSystem, fun _ => none⟩,
      x.deadline 5 = some 1000000100 ∧ 5 ∉ x.sys.runQueue (x.sys.tcb 5).cpuId ∧
        x.sys.sleepers = [] := by decide
  obtain ⟨hdeadline, hqueue, hsleepers⟩ := hfacts x hx
  refine ⟨x, hx, hdeadline, hqueue, hsleepers, fun h => ?_⟩
  obtain ⟨hmem, -⟩ := h 5 _ hdeadline hqueue
  rw [hsleepers] at hmem
  cases hmem

end CoolPotOS
