import CoolPotOS.Lib.Runs
import CoolPotOS.Task.FutexQueue

namespace CoolPotOS

open List

/-- The calls, and what the rest of the kernel does to the status of a thread. -/
inductive FutexOp
  | add (addr thread : ℕ) (heap : List Bool)
  | wake (addr : ℕ) (count : ℤ) (heap : List Bool)
  | unblock (addr thread : ℕ) (heap : List Bool)
  | free (thread : ℕ) (heap : List Bool)
  | setStatus (thread : ℕ) (status : TaskStatus)

def FutexOp.run (s : System) : FutexOp → Option (System × ℕ)
  | .add addr thread heap => (futexAdd s addr thread heap).map fun x => (x.1, 0)
  | .wake addr count heap => (futexWake s addr count heap).map fun x => (x.1, x.2.1)
  | .unblock addr thread heap => (futexUnblock s addr thread heap).map fun x => (x.1, x.2.1.toNat)
  | .free thread heap => some ((futexFree s thread heap).1, 0)
  | .setStatus thread status => some (s.setTcb thread { s.tcb thread with status := status }, 0)

def FutexOp.waits (waits : ℕ → List ℕ) : FutexOp → ℕ → List ℕ
  | .add addr thread _ => Function.update waits addr (waits addr ++ [thread])
  | .wake addr count _ => Function.update waits addr ((waits addr).drop count.toNat)
  | .unblock addr thread _ => Function.update waits addr ((waits addr).erase thread)
  | .free thread _ => fun addr => (waits addr).filter (· ≠ thread)
  | .setStatus _ _ => waits

/-- The kernel and the threads that wait in it. -/
structure FutexState where
  sys : System
  waits : ℕ → List ℕ

def FutexState.step (x : FutexState) (op : FutexOp) : Option FutexState :=
  (op.run x.sys).map fun y => ⟨y.1, op.waits x.waits⟩

/-- The queues hold the threads that wait, in order, and no thread waits twice. -/
structure FutexOk (x : FutexState) : Prop where
  queue : ∀ addr, queueAt x.sys.futexMap addr = (x.waits addr).map some
  nodup : ∀ addr, (x.waits addr).Nodup
  one : ∀ t a a', t ∈ x.waits a → t ∈ x.waits a' → a = a'

/-- There is memory, and a thread that starts to wait does not wait yet. -/
def FutexOp.Ready (x : FutexState) : FutexOp → Prop
  | .add _ thread heap => false ∉ heap ∧ ∀ a, thread ∉ x.waits a
  | .wake _ _ heap => false ∉ heap
  | .unblock _ _ heap => false ∉ heap
  | .free _ heap => false ∉ heap
  | .setStatus _ _ => True

/-- Some threads have been woken, in this order, and no other. -/
structure Woken (s s' : System) (threads : List ℕ) : Prop where
  start : ∀ t ∈ threads, (s'.tcb t).status = .start
  queued : ∀ cpu, s'.runQueue cpu = s.runQueue cpu ++ threads.filter fun t => (s.tcb t).cpuId = cpu
  other : ∀ t, t ∉ threads → s'.tcb t = s.tcb t

theorem woken_wakeAll {s : System} (h : s.Fresh) (threads : List ℕ) (m : HashMap (CowList ℕ)) :
    Woken s { wakeAll s threads with futexMap := m } threads := by
  obtain ⟨-, hqueue, hstart, hother⟩ := wakeAll_spec h threads
  exact ⟨hstart, hqueue, hother⟩

section Steps

variable {x : FutexState} {s : System} {addr thread : ℕ} {heap : List Bool}

theorem fresh_removeRrsEntity (h : s.Fresh) : (removeRrsEntity s thread).Fresh := by
  unfold removeRrsEntity
  split
  · exact h
  · intro cpu id hid
    apply h cpu id
    dsimp only at hid
    by_cases hcpu : cpu = (s.tcb thread).cpuId
    · subst hcpu
      rw [Function.update_self] at hid
      dsimp only at hid
      split at hid
      · exact mem_of_mem_erase hid
      · exact hid
    · rwa [Function.update_of_ne hcpu] at hid

theorem FutexOk.add (addr : ℕ) (h : FutexOk x) (hfresh : x.sys.Fresh) (hheap : false ∉ heap)
    (hnew : ∀ a, thread ∉ x.waits a) :
    ∃ x', x.step (.add addr thread heap) = some x' ∧ FutexOk x' ∧ x'.sys.Fresh := by
  obtain ⟨m, index, heap', hadd, -, hqueue⟩ := futexAdd_spec x.sys addr thread hheap
  refine ⟨_, by rw [FutexState.step, FutexOp.run, hadd]; rfl, ?_, ?_⟩
  swap
  · exact fresh_removeRrsEntity (s := System.setTcb _ _ _) hfresh
  refine ⟨fun a => ?_, fun a => ?_, fun t a a' ha ha' => ?_⟩
  · rw [futexMap_removeRrsEntity]
    refine (hqueue a).trans ?_
    by_cases ha : a = addr
    · simp [FutexOp.waits, ha, h.queue]
    · simp [FutexOp.waits, ha, h.queue]
  · by_cases ha : a = addr
    · have happend := nodup_append.mpr ⟨h.nodup addr, nodup_singleton thread, fun t ht t' ht' => by
          rw [mem_singleton.mp ht']
          exact fun htt => hnew addr (htt ▸ ht)⟩
      simpa [FutexOp.waits, ha] using happend
    · simpa [FutexOp.waits, ha] using h.nodup a
  · -- the new thread waits at one address only
    have hcase : ∀ b, t ∈ FutexOp.waits x.waits (.add addr thread heap) b →
        t ∈ x.waits b ∨ b = addr ∧ t = thread := by
      intro b hb
      by_cases hba : b = addr
      · simpa [FutexOp.waits, hba] using hb
      · left
        simpa [FutexOp.waits, hba] using hb
    rcases hcase a ha with hold | ⟨rfl, rfl⟩
    · rcases hcase a' ha' with hold' | ⟨-, rfl⟩
      · exact h.one t a a' hold hold'
      · exact absurd hold (hnew a)
    · rcases hcase a' ha' with hold' | ⟨rfl, -⟩
      · exact absurd hold' (hnew a')
      · rfl

theorem FutexOk.leave {s' : System} (h : FutexOk x) {waits : ℕ → List ℕ}
    (hsub : ∀ a, (waits a).Sublist (x.waits a))
    (hqueue : ∀ a, queueAt s'.futexMap a = (waits a).map some) : FutexOk ⟨s', waits⟩ where
  queue := hqueue
  nodup := fun a => (h.nodup a).sublist (hsub a)
  one := fun t a a' ha ha' => h.one t a a' ((hsub a).subset ha) ((hsub a').subset ha')

theorem FutexOk.wake (addr : ℕ) (h : FutexOk x) (hfresh : x.sys.Fresh) (count : ℤ) (hheap : false ∉ heap) :
    ∃ s', FutexOp.run x.sys (.wake addr count heap) = some (s', min count.toNat (x.waits addr).length) ∧
      Woken x.sys s' ((x.waits addr).take count.toNat) ∧ s'.Fresh ∧
      FutexOk ⟨s', FutexOp.waits x.waits (.wake addr count heap)⟩ := by
  obtain ⟨m, heap', hwake, -, hqueue⟩ := futexWake_spec x.sys count (h.queue addr) hheap
  refine ⟨_, by rw [FutexOp.run, hwake]; rfl, ?_⟩
  refine ⟨woken_wakeAll hfresh _ m, (wakeAll_spec hfresh _).1, h.leave (fun a => ?_) fun a => ?_⟩
  · by_cases ha : a = addr
    · simpa [FutexOp.waits, ha] using drop_sublist _ _
    · simp [FutexOp.waits, ha]
  · refine (hqueue a).trans ?_
    by_cases ha : a = addr
    · simp [FutexOp.waits, ha]
    · simp [FutexOp.waits, ha, h.queue]

theorem FutexOk.unblock (h : FutexOk x) (hfresh : x.sys.Fresh) (hheap : false ∉ heap) :
    ∃ x', x.step (.unblock addr thread heap) = some x' ∧ FutexOk x' ∧ x'.sys.Fresh := by
  rcases futexUnblock_spec x.sys thread (h.queue addr) (h.nodup addr) hheap with
    ⟨hnot, hrun⟩ | ⟨hmem, m, heap', hrun, -, hqueue⟩
  · refine ⟨⟨x.sys, FutexOp.waits x.waits (.unblock addr thread heap)⟩,
      by rw [FutexState.step, FutexOp.run, hrun]; rfl, ?_, hfresh⟩
    have hsame : FutexOp.waits x.waits (.unblock addr thread heap) = x.waits := by
      simp [FutexOp.waits, erase_of_not_mem hnot]
    rw [hsame]
    exact h
  · refine ⟨_, by rw [FutexState.step, FutexOp.run, hrun]; rfl, ?_⟩
    refine ⟨h.leave (fun a => ?_) fun a => ?_, ?_⟩
    · by_cases ha : a = addr
      · simpa [FutexOp.waits, ha] using erase_sublist
      · simp [FutexOp.waits, ha]
    · refine (hqueue a).trans ?_
      by_cases ha : a = addr
      · simp [FutexOp.waits, ha]
      · simp [FutexOp.waits, ha, h.queue]
    · change System.Fresh (if (x.sys.tcb thread).status = .futex then wakeThread x.sys thread
        else x.sys)
      split
      · exact fresh_wakeThread thread hfresh
      · exact hfresh

theorem FutexOk.free (h : FutexOk x) (hheap : false ∉ heap) :
    ∃ m, x.step (.free thread heap) = some ⟨{ x.sys with futexMap := m },
        fun a => (x.waits a).filter (· ≠ thread)⟩ ∧
      FutexOk ⟨{ x.sys with futexMap := m }, fun a => (x.waits a).filter (· ≠ thread)⟩ := by
  obtain ⟨m, heap', hfree, -, hqueue⟩ := futexFree_spec x.sys thread hheap
  refine ⟨m, by rw [FutexState.step, FutexOp.run, hfree]; rfl,
    h.leave (fun a => filter_sublist) fun a => ?_⟩
  refine (hqueue a).trans ?_
  rw [h.queue, dropThread, filter_map]
  congr 1
  apply filter_congr
  intro t _
  simp

theorem FutexOk.run (h : FutexOk x) (hfresh : x.sys.Fresh) {op : FutexOp} (hok : op.Ready x) :
    ∃ x', x.step op = some x' ∧ FutexOk x' ∧ x'.sys.Fresh := by
  cases op with
  | add addr thread heap => exact h.add addr hfresh hok.1 hok.2
  | wake addr count heap =>
    obtain ⟨s', hrun, -, hfresh', h'⟩ := h.wake addr hfresh count hok
    exact ⟨_, by rw [FutexState.step, hrun]; rfl, h', hfresh'⟩
  | unblock addr thread heap => exact h.unblock hfresh hok
  | free thread heap =>
    obtain ⟨m, hrun, h'⟩ := h.free hok
    exact ⟨_, hrun, h', hfresh⟩
  | setStatus thread status => exact ⟨_, rfl, ⟨h.queue, h.nodup, h.one⟩, hfresh⟩

end Steps

/-- In every run with memory, in which only threads that do not wait start to wait, the queues
hold the threads that wait, each in the queue of one address, and a wake takes the first
threads of its queue and returns their number. -/
theorem futex_fifo (s : System) (hfresh : s.Fresh) (hempty : ∀ a, mapGet s.futexMap a = none)
    (ops : List FutexOp)
    (hok : Runs.Meets FutexState.step (fun x op => op.Ready x) ops ⟨s, fun _ => []⟩) :
    (∀ done, done <+: ops → ∃ x,
      Runs.run FutexState.step done ⟨s, fun _ => []⟩ = some x ∧ FutexOk x) ∧
    ∀ done addr count heap, done ++ [.wake addr count heap] <+: ops →
      ∃ x s' n, Runs.run FutexState.step done ⟨s, fun _ => []⟩ = some x ∧
        FutexOp.run x.sys (.wake addr count heap) = some (s', n) ∧
        n = min count.toNat (x.waits addr).length ∧
        Woken x.sys s' ((x.waits addr).take n) ∧
        queueAt s'.futexMap addr = ((x.waits addr).drop n).map some ∧
        ∀ a, a ≠ addr → queueAt s'.futexMap a = queueAt x.sys.futexMap a := by
  have hinit : FutexOk ⟨s, fun _ => []⟩ ∧ s.Fresh :=
    ⟨⟨fun a => queueAt_of_none (hempty a), by simp, by simp⟩, hfresh⟩
  have hrun : ∀ done, done <+: ops → ∃ x,
      Runs.run FutexState.step done ⟨s, fun _ => []⟩ = some x ∧ FutexOk x ∧ x.sys.Fresh :=
    fun done hdone => Runs.run_total
      (fun x op (hinv : FutexOk x ∧ x.sys.Fresh) hready => hinv.1.run hinv.2 hready)
      hinit (hok.of_isPrefix hdone)
  refine ⟨fun done hdone => ?_, fun done addr count heap hdone => ?_⟩
  · obtain ⟨x, hx, h, -⟩ := hrun done hdone
    exact ⟨x, hx, h⟩
  · obtain ⟨x, hx, h, hfresh'⟩ := hrun done ((List.prefix_append _ _).trans hdone)
    have hheap : false ∉ heap := (hok.of_isPrefix hdone).last hx
    obtain ⟨s', hwake, hwoken, -, h'⟩ := h.wake addr hfresh' count hheap
    have htake : (x.waits addr).take (min count.toNat (x.waits addr).length) =
        (x.waits addr).take count.toNat := by
      rw [List.take_eq_take_iff]
      omega
    have hdrop : (x.waits addr).drop (min count.toNat (x.waits addr).length) =
        (x.waits addr).drop count.toNat := by
      rcases le_total count.toNat (x.waits addr).length with hle | hle
      · rw [Nat.min_eq_left hle]
      · rw [Nat.min_eq_right hle, List.drop_length, List.drop_of_length_le hle]
    refine ⟨x, s', _, hx, hwake, rfl, htake ▸ hwoken, ?_, fun a ha => ?_⟩
    · rw [hdrop]
      refine (h'.queue addr).trans ?_
      simp [FutexOp.waits]
    · rw [h.queue]
      refine (h'.queue a).trans ?_
      simp [FutexOp.waits, ha]

/-- Processor 0 with its idle thread 1 and the threads 5 and 6; nobody waits. -/
def smallSystem : System where
  tcb := fun t => ⟨.start, 0, 0, 0, if t = 5 then some 1 else if t = 6 then some 2 else none, 0⟩
  entities := fun id => ⟨if id = 1 then 5 else if id = 2 then 6 else 1, true⟩
  allocated := 3
  rrs := fun cpu => ⟨if cpu = 0 then [0, 1, 2] else [], 0, 0⟩
  taskCount := fun _ => 3
  currentTask := fun _ => 5
  sleepList := none
  futexMap := .empty 20 (by norm_num)

theorem fresh_smallSystem : smallSystem.Fresh := by
  intro cpu id hid
  by_cases hcpu : cpu = 0
  · subst hcpu
    revert id
    decide
  · simp [smallSystem, hcpu] at hid

theorem futex_fifo_smallSystem :
    ∃ x, Runs.run FutexState.step [.add 4096 5 [], .add 4096 6 [], .wake 4096 1 []]
        ⟨smallSystem, fun _ => []⟩ = some x ∧ FutexOk x := by
  refine (futex_fifo smallSystem fresh_smallSystem (fun _ => rfl) _ ?_).1 _ List.prefix_rfl
  refine ⟨⟨by simp, by simp⟩, fun x hx => ⟨⟨by simp, fun a => ?_⟩, fun _ _ =>
    ⟨by simp [FutexOp.Ready], fun _ _ => trivial⟩⟩⟩
  obtain ⟨y, -, rfl⟩ := Option.map_eq_some_iff.mp hx
  by_cases ha : a = 4096
  · simp [FutexOp.waits, ha]
  · simp [FutexOp.waits, ha]

/-- There is no memory for the first block of a new queue: thread 5 is off the run queue and in no
queue, and a wake does not find it. -/
theorem futexAdd_loses_thread :
    ∃ x, FutexState.step ⟨smallSystem, fun _ => []⟩ (.add 4096 5 [true, true, true, false]) = some x ∧
      x.waits 4096 = [5] ∧ ¬ FutexOk x ∧ x.sys.runQueue 0 = [1, 6] ∧
      (FutexOp.run x.sys (.wake 4096 1 [])).map Prod.snd = some 0 := by
  obtain ⟨x, hx⟩ : ∃ x, FutexState.step ⟨smallSystem, fun _ => []⟩
      (.add 4096 5 [true, true, true, false]) = some x := by
    apply Option.isSome_iff_exists.mp
    decide
  have hlost : x.waits 4096 = [5] ∧ queueAt x.sys.futexMap 4096 = [] ∧
      x.sys.runQueue 0 = [1, 6] ∧
      (FutexOp.run x.sys (.wake 4096 1 [])).map Prod.snd = some 0 := by
    revert x
    decide
  refine ⟨x, hx, hlost.1, fun hok => ?_, hlost.2.2⟩
  have hqueue := hok.queue 4096
  rw [hlost.1, hlost.2.1] at hqueue
  cases hqueue

end CoolPotOS
