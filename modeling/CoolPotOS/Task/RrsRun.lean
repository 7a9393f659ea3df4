import CoolPotOS.Lib.Runs
import CoolPotOS.Task.RrsQueue

namespace CoolPotOS

open Function List

/-- All threads are of one processor, and none has an entity yet. -/
def System.onCpu (s : System) (cpu : ℕ) : System :=
  { s with tcb := fun t => { s.tcb t with cpuId := cpu, schedHandle := none } }

/-- `init_cpu_idle_rrs` when there is memory. -/
def initCpuIdleRrs (s : System) (cpu idle : ℕ) : System :=
  { s with
    entities := Function.update s.entities s.allocated ⟨idle, true⟩
    allocated := s.allocated + 1
    rrs := Function.update s.rrs cpu ⟨[s.allocated], s.allocated, s.allocated⟩ }

/-- A use of the scheduler; `node` tells whether the new entity got a list node. -/
inductive RrsOp
  | add (thread : ℕ) (node : Bool)
  | remove (thread : ℕ)
  | pick
  deriving DecidableEq

def rrsStep (cpu : ℕ) (s : System) : RrsOp → Option System
  | .add thread node => some (enqueueRrsEntity s thread node)
  | .remove thread => some (removeRrsEntity s thread)
  | .pick => (rrsPickNextTask s cpu).map Prod.fst

def System.setCurr (s : System) (cpu curr : ℕ) : System :=
  { s with rrs := Function.update s.rrs cpu { s.rrs cpu with curr := curr } }

theorem System.rrs_setCurr (s : System) (cpu curr : ℕ) :
    (s.setCurr cpu curr).rrs cpu = { s.rrs cpu with curr := curr } := update_self ..

/-- The idle entity is at the head of the queue, the current entity is in it, and no thread has the idle entity
as its own. -/
structure RrsCpuInv (cpu : ℕ) (s : System) : Prop where
  cpuId : ∀ t, (s.tcb t).cpuId = cpu
  head : (s.rrs cpu).schedQueue.head? = some (s.rrs cpu).idle
  nodup : (s.rrs cpu).schedQueue.Nodup
  fresh : ∀ id ∈ (s.rrs cpu).schedQueue, id < s.allocated
  curr_mem : (s.rrs cpu).curr ∈ (s.rrs cpu).schedQueue
  handle : ∀ t id, (s.tcb t).schedHandle = some id → id ≠ (s.rrs cpu).idle

namespace RrsCpuInv

variable {cpu : ℕ} {s : System}

theorem queue_eq (h : RrsCpuInv cpu s) : ∃ rest, (s.rrs cpu).schedQueue = (s.rrs cpu).idle :: rest :=
  List.head?_eq_some_iff.mp h.head

theorem idle_mem (h : RrsCpuInv cpu s) : (s.rrs cpu).idle ∈ (s.rrs cpu).schedQueue :=
  List.mem_of_mem_head? h.head

theorem init (s : System) (cpu idle : ℕ) : RrsCpuInv cpu (initCpuIdleRrs (s.onCpu cpu) cpu idle) := by
  have hrrs : (initCpuIdleRrs (s.onCpu cpu) cpu idle).rrs cpu = ⟨[s.allocated], s.allocated, s.allocated⟩ :=
    update_self ..
  constructor
  · intro t
    rfl
  · rw [hrrs]
    rfl
  · rw [hrrs]
    exact nodup_singleton _
  · intro id hid
    rw [hrrs] at hid
    obtain rfl := mem_singleton.mp hid
    exact Nat.lt_succ_self _
  · rw [hrrs]
    exact mem_singleton_self _
  · intro t id ht
    cases ht

theorem add (h : RrsCpuInv cpu s) (thread : ℕ) (node : Bool) : RrsCpuInv cpu (enqueueRrsEntity s thread node) := by
  have hrrs : (enqueueRrsEntity s thread node).rrs cpu = { s.rrs cpu with
        schedQueue := (s.rrs cpu).schedQueue ++ if node then [s.allocated] else [] } := by
    unfold enqueueRrsEntity
    dsimp only
    rw [h.cpuId thread, update_self]
    cases node with
    | true => rfl
    | false => simp
  obtain ⟨rest, hqueue⟩ := h.queue_eq
  have hnew : s.allocated ∉ (s.rrs cpu).schedQueue := fun hmem => (h.fresh _ hmem).false
  constructor
  · intro t
    unfold enqueueRrsEntity
    dsimp only
    by_cases ht : t = thread
    · subst ht
      rw [update_self]
      exact h.cpuId t
    · rw [update_of_ne ht]
      exact h.cpuId t
  · rw [hrrs, hqueue]
    rfl
  · rw [hrrs]
    cases node with
    | true =>
      dsimp only
      rw [if_pos rfl, ← concat_eq_append]
      exact h.nodup.concat hnew
    | false => simpa using h.nodup
  · intro id hid
    rw [hrrs] at hid
    change id < s.allocated + 1
    rcases mem_append.mp hid with hid | hid
    · exact (h.fresh id hid).trans (Nat.lt_succ_self _)
    · cases node with
      | true =>
        obtain rfl := mem_singleton.mp hid
        exact Nat.lt_succ_self _
      | false => cases hid
  · rw [hrrs]
    exact mem_append_left _ h.curr_mem
  · intro t id ht
    rw [hrrs]
    unfold enqueueRrsEntity at ht
    dsimp only at ht
    by_cases htt : t = thread
    · subst htt
      rw [update_self] at ht
      cases ht
      exact fun heq => hnew (heq ▸ h.idle_mem)
    · rw [update_of_ne htt] at ht
      exact h.handle t id ht

theorem remove (h : RrsCpuInv cpu s) (thread : ℕ) : RrsCpuInv cpu (removeRrsEntity s thread) := by
  cases hhandle : (s.tcb thread).schedHandle with
  | none =>
    unfold removeRrsEntity
    rw [hhandle]
    exact h
  | some id =>
    have hne := h.handle thread id hhandle
    have hrrs : (removeRrsEntity s thread).rrs cpu = { s.rrs cpu with
          schedQueue := if (s.entities id).node then (s.rrs cpu).schedQueue.erase id else (s.rrs cpu).schedQueue
          curr := if (s.rrs cpu).curr = id then (s.rrs cpu).idle else (s.rrs cpu).curr } := by
      unfold removeRrsEntity
      rw [hhandle]
      dsimp only
      rw [h.cpuId thread, update_self]
    have hallocated : (removeRrsEntity s thread).allocated = s.allocated := by
      unfold removeRrsEntity
      rw [hhandle]
    have htcb : ∀ t, ((removeRrsEntity s thread).tcb t).cpuId = cpu ∧
        ∀ i, ((removeRrsEntity s thread).tcb t).schedHandle = some i → (s.tcb t).schedHandle = some i := by
      intro t
      unfold removeRrsEntity
      rw [hhandle]
      dsimp only
      by_cases ht : t = thread
      · subst ht
        rw [update_self]
        refine ⟨h.cpuId t, fun i hi => ?_⟩
        cases hi
      · rw [update_of_ne ht]
        exact ⟨h.cpuId t, fun i hi => hi⟩
    obtain ⟨rest, hqueue⟩ := h.queue_eq
    have hkept : ∀ i ∈ (s.rrs cpu).schedQueue, i ≠ id →
        i ∈ (if (s.entities id).node then (s.rrs cpu).schedQueue.erase id else (s.rrs cpu).schedQueue) := by
      intro i hi hid
      split_ifs
      · exact (mem_erase_of_ne hid).mpr hi
      · exact hi
    constructor
    · intro t
      exact (htcb t).1
    · rw [hrrs]
      dsimp only
      split_ifs
      · rw [hqueue, erase_cons_tail (by simpa using hne.symm)]
        rfl
      · exact h.head
    · rw [hrrs]
      dsimp only
      split_ifs
      · exact h.nodup.erase id
      · exact h.nodup
    · intro i hi
      rw [hrrs] at hi
      dsimp only at hi
      rw [hallocated]
      split_ifs at hi
      · exact h.fresh i (mem_of_mem_erase hi)
      · exact h.fresh i hi
    · rw [hrrs]
      dsimp only
      by_cases hcurr : (s.rrs cpu).curr = id
      · rw [if_pos hcurr]
        exact hkept _ h.idle_mem hne.symm
      · rw [if_neg hcurr]
        exact hkept _ h.curr_mem hcurr
    · intro t i ht
      rw [hrrs]
      exact h.handle t i ((htcb t).2 i ht)

theorem pick (h : RrsCpuInv cpu s) :
    ∃ curr id, rrsPickNextTask s cpu = some (s.setCurr cpu curr, (s.entities id).thread) ∧
      curr ∈ (s.rrs cpu).schedQueue ∧ id ∈ (s.rrs cpu).schedQueue ∧
      (id = (s.rrs cpu).idle → (s.rrs cpu).schedQueue = [(s.rrs cpu).idle]) := by
  obtain ⟨rest, hqueue⟩ := h.queue_eq
  unfold rrsPickNextTask
  by_cases hone : (s.rrs cpu).schedQueue.length = 1
  · obtain ⟨id, hid⟩ := length_eq_one_iff.mp hone
    refine ⟨(s.rrs cpu).curr, (s.rrs cpu).idle, ?_, h.curr_mem, h.idle_mem, fun _ => ?_⟩
    · simp only [if_pos hone, System.setCurr, update_eq_self]
    · have hhead := h.head
      rw [hid] at hhead ⊢
      rw [Option.some.inj hhead]
  · have hrest : rest ≠ [] := by
      rintro rfl
      exact hone (by rw [hqueue]; rfl)
    have hlen : (s.rrs cpu).schedQueue.length + 1 = rest.length + 2 := by
      rw [hqueue, length_cons]
    obtain ⟨next, hrun, hmem, hne⟩ := rrsResche_spec hqueue h.nodup hrest rest.length
    refine ⟨next, next, ?_, hmem, hmem, fun heq => absurd heq hne⟩
    simp only [if_neg hone, hlen, hrun, Option.map_some, System.setCurr]

theorem setCurr (h : RrsCpuInv cpu s) {curr : ℕ} (hcurr : curr ∈ (s.rrs cpu).schedQueue) :
    RrsCpuInv cpu (s.setCurr cpu curr) := by
  constructor
  · exact h.cpuId
  · rw [System.rrs_setCurr]
    exact h.head
  · rw [System.rrs_setCurr]
    exact h.nodup
  · rw [System.rrs_setCurr]
    exact h.fresh
  · rw [System.rrs_setCurr]
    exact hcurr
  · rw [System.rrs_setCurr]
    exact h.handle

theorem thread_enqueue (h : RrsCpuInv cpu s) (thread : ℕ) (node : Bool) {id : ℕ} (hid : id ∈ (s.rrs cpu).schedQueue) :
    ((enqueueRrsEntity s thread node).entities id).thread = (s.entities id).thread := by
  unfold enqueueRrsEntity
  dsimp only
  rw [update_of_ne (h.fresh id hid).ne]

end RrsCpuInv

/-- Entities of the idle thread: the idle one, and no other unless the thread is added to the queue. -/
structure IdleAlone (P : Prop) (cpu idle : ℕ) (s : System) : Prop where
  idle_thread : (s.entities (s.rrs cpu).idle).thread = idle
  others : P → ∀ id ∈ (s.rrs cpu).schedQueue, (s.entities id).thread = idle → id = (s.rrs cpu).idle

variable {P : Prop} {cpu idle : ℕ} {s : System}

theorem IdleAlone.add (h : IdleAlone P cpu idle s) (hinv : RrsCpuInv cpu s) {thread : ℕ} (node : Bool)
    (hne : P → thread ≠ idle) : IdleAlone P cpu idle (enqueueRrsEntity s thread node) := by
  have hidle : ((enqueueRrsEntity s thread node).rrs cpu).idle = (s.rrs cpu).idle := by
    unfold enqueueRrsEntity
    dsimp only
    rw [hinv.cpuId thread, update_self]
  have hmem : ∀ id ∈ ((enqueueRrsEntity s thread node).rrs cpu).schedQueue,
      id ∈ (s.rrs cpu).schedQueue ∨ id = s.allocated := by
    intro id hid
    unfold enqueueRrsEntity at hid
    dsimp only at hid
    rw [hinv.cpuId thread, update_self] at hid
    cases node with
    | true => simpa using hid
    | false => exact .inl (by simpa using hid)
  constructor
  · rw [hidle, hinv.thread_enqueue thread node hinv.idle_mem]
    exact h.idle_thread
  · intro hP id hid hthread
    rw [hidle]
    rcases hmem id hid with hold | rfl
    · rw [hinv.thread_enqueue thread node hold] at hthread
      exact h.others hP id hold hthread
    · have hnew : (enqueueRrsEntity s thread node).entities s.allocated = ⟨thread, node⟩ :=
        update_self ..
      rw [hnew] at hthread
      exact absurd hthread (hne hP)

theorem IdleAlone.remove (h : IdleAlone P cpu idle s) (thread : ℕ) :
    IdleAlone P cpu idle (removeRrsEntity s thread) := by
  obtain ⟨-, -, hent, hidle, -⟩ := removeRrsEntity_frame s thread
  have hmem : ∀ id ∈ ((removeRrsEntity s thread).rrs cpu).schedQueue, id ∈ (s.rrs cpu).schedQueue := by
    intro id hid
    unfold removeRrsEntity at hid
    split at hid
    · exact hid
    · dsimp only at hid
      by_cases hcpu : cpu = (s.tcb thread).cpuId
      · subst hcpu
        rw [update_self] at hid
        dsimp only at hid
        split_ifs at hid
        · exact mem_of_mem_erase hid
        · exact hid
      · rw [update_of_ne hcpu] at hid
        exact hid
  constructor
  · rw [hidle, hent]
    exact h.idle_thread
  · intro hP id hid hthread
    rw [hent] at hthread
    rw [hidle]
    exact h.others hP id (hmem id hid) hthread

theorem IdleAlone.setCurr (h : IdleAlone P cpu idle s) (curr : ℕ) : IdleAlone P cpu idle (s.setCurr cpu curr) := by
  constructor
  · rw [System.rrs_setCurr]
    exact h.idle_thread
  · rw [System.rrs_setCurr]
    exact h.others

/-- What is known of the queue of a processor in every run. -/
structure RrsQueueOk (P : Prop) (cpu idle : ℕ) (s : System) : Prop where
  curr_mem : (s.rrs cpu).curr ∈ (s.rrs cpu).schedQueue
  idle_mem : (s.rrs cpu).idle ∈ (s.rrs cpu).schedQueue
  pick : ∃ s' id, rrsPickNextTask s cpu = some (s', (s.entities id).thread) ∧ id ∈ (s.rrs cpu).schedQueue ∧
    (id = (s.rrs cpu).idle → (s.rrs cpu).schedQueue = [(s.rrs cpu).idle]) ∧
    (P → (s.entities id).thread = idle → (s.rrs cpu).schedQueue = [(s.rrs cpu).idle])

/-- In every run the current and the idle entity are in the queue, and picking returns a thread of the queue. It
is the idle thread only when nothing else is queued, as long as that thread is not added to the queue itself. -/
theorem rrs_queue_ok (s : System) (cpu idle : ℕ) (ops : List RrsOp) :
    ∃ s', Runs.run (rrsStep cpu) ops (initCpuIdleRrs (s.onCpu cpu) cpu idle) = some s' ∧
      RrsQueueOk (∀ node, RrsOp.add idle node ∉ ops) cpu idle s' := by
  have hok : Runs.Meets (rrsStep cpu) (fun _ op => (∀ node, RrsOp.add idle node ∉ ops) → ∀ node, op ≠ .add idle node)
      ops (initCpuIdleRrs (s.onCpu cpu) cpu idle) := by
    apply Runs.meets_of_forall
    rintro op hop - hP node rfl
    exact hP node hop
  generalize (∀ node, RrsOp.add idle node ∉ ops) = P at hok ⊢
  have hboot : RrsCpuInv cpu (initCpuIdleRrs (s.onCpu cpu) cpu idle) ∧
      IdleAlone P cpu idle (initCpuIdleRrs (s.onCpu cpu) cpu idle) := by
    have hrrs : (initCpuIdleRrs (s.onCpu cpu) cpu idle).rrs cpu = ⟨[s.allocated], s.allocated, s.allocated⟩ :=
      Function.update_self ..
    refine ⟨.init s cpu idle, ?_, fun _ id hid _ => ?_⟩
    · have hidle : (initCpuIdleRrs (s.onCpu cpu) cpu idle).entities s.allocated = ⟨idle, true⟩ :=
        Function.update_self ..
      rw [hrrs, hidle]
    · rw [hrrs] at hid ⊢
      exact List.mem_singleton.mp hid
  obtain ⟨s', hrun, hinv, halone⟩ : ∃ s', Runs.run (rrsStep cpu) ops (initCpuIdleRrs (s.onCpu cpu) cpu idle) =
      some s' ∧ RrsCpuInv cpu s' ∧ IdleAlone P cpu idle s' := by
    refine Runs.run_total (fun s op (h : RrsCpuInv cpu s ∧ IdleAlone P cpu idle s) hop => ?_) hboot hok
    cases op with
    | add thread node =>
      refine ⟨_, rfl, h.1.add thread node, h.2.add h.1 node fun hP heq => ?_⟩
      exact hop hP node (by rw [heq])
    | remove thread => exact ⟨_, rfl, h.1.remove thread, h.2.remove thread⟩
    | pick =>
      obtain ⟨curr, id, hpick, hcurr, -⟩ := h.1.pick
      exact ⟨_, congrArg (Option.map Prod.fst) hpick, h.1.setCurr hcurr, h.2.setCurr curr⟩
  refine ⟨s', hrun, hinv.curr_mem, hinv.idle_mem, ?_⟩
  obtain ⟨curr, id, hpick, -, hid, hlast⟩ := hinv.pick
  exact ⟨_, id, hpick, hid, hlast, fun hP hthread => hlast (halone.others hP id hid hthread)⟩

def rrsPicks (cpu : ℕ) : ℕ → System → Option (System × List ℕ)
  | 0, s => some (s, [])
  | n + 1, s => do
    let (s, t) ← rrsPickNextTask s cpu
    let (s, ts) ← rrsPicks cpu n s
    return (s, t :: ts)

/-- The entities besides the idle one, from the one after the current entity on and around the queue. -/
def Rrs.Ahead (r : Rrs) (l : List ℕ) : Prop :=
  ∃ rest, r.schedQueue = r.idle :: rest ∧ r.schedQueue.Nodup ∧
    (r.curr = r.idle ∧ l = rest ∨ ∃ l1 l2, rest = l1 ++ r.curr :: l2 ∧ l = l2 ++ (l1 ++ [r.curr]))

theorem nextEntity_append {l1 : List ℕ} {id : ℕ} (h : id ∉ l1) (l2 : List ℕ) :
    nextEntity (l1 ++ id :: l2) id = l2.head? := by
  unfold nextEntity
  have hne : ∀ a ∈ l1, decide (a ≠ id) = true := fun a ha => decide_eq_true (ne_of_mem_of_not_mem ha h)
  rw [dropWhile_append_of_pos hne]
  simp

theorem Rrs.Ahead.resche {r : Rrs} {id : ℕ} {l : List ℕ} (h : r.Ahead (id :: l)) (fuel : ℕ) :
    rrsResche (fuel + 2) r = some ({ r with curr := id }, id) ∧ ({ r with curr := id } : Rrs).Ahead (l ++ [id]) := by
  obtain ⟨rest, hqueue, hnodup, ⟨hcurr, rfl⟩ | ⟨l1, l2, rfl, hl⟩⟩ := h
  · have hne : id ≠ r.idle := by
      rintro rfl
      simp [hqueue] at hnodup
    refine ⟨?_, id :: l, hqueue, hnodup, .inr ⟨[], l, rfl, rfl⟩⟩
    have hnext : nextEntity r.schedQueue r.curr = some id := by
      rw [hqueue, hcurr]
      exact nextEntity_append (not_mem_nil) _
    simp [rrsResche, hnext, hne]
  have hfirst : nextEntity r.schedQueue r.idle = (l1 ++ r.curr :: l2).head? := by
    rw [hqueue]
    exact nextEntity_append not_mem_nil _
  rw [hqueue, ← cons_append] at hnodup
  have hnext : nextEntity r.schedQueue r.curr = l2.head? := by
    rw [hqueue, ← cons_append]
    exact nextEntity_append (fun hmem => (nodup_middle.mp hnodup).notMem (mem_append_left _ hmem)) _
  have hidle : ∀ x ∈ l1 ++ r.curr :: l2, x ≠ r.idle := fun x hx heq =>
    (nodup_cons.mp hnodup).1 (heq ▸ hx)
  rw [cons_append, ← hqueue] at hnodup
  cases l2 with
  | nil =>
    -- the current entity is the last one: the idle entity is passed over
    have hl1 : l1 ++ [r.curr] = id :: l := hl.symm
    rw [hl1] at hfirst hqueue hidle
    refine ⟨?_, id :: l, hqueue, hnodup, .inr ⟨[], l, rfl, rfl⟩⟩
    simp [rrsResche, hnext, hfirst, hidle id mem_cons_self]
  | cons x l2 =>
    cases hl
    refine ⟨?_, _, hqueue, hnodup, .inr ⟨l1 ++ [r.curr], l2, by simp, by simp⟩⟩
    simp [rrsResche, hnext, hidle id (by simp)]

theorem rrsPicks_ahead {cpu : ℕ} {s : System} {l l' : List ℕ} (h : (s.rrs cpu).Ahead (l ++ l')) :
    (rrsPicks cpu l.length s).map Prod.snd = some (l.map fun id => (s.entities id).thread) := by
  induction l generalizing s l' with
  | nil => rfl
  | cons id l ih =>
    rw [cons_append] at h
    obtain ⟨hpick, hahead⟩ := h.resche ((s.rrs cpu).schedQueue.length - 1)
    have hlen : (s.rrs cpu).schedQueue.length ≠ 1 := by
      obtain ⟨rest, hqueue, -, ⟨-, rfl⟩ | ⟨l1, l2, rfl, -⟩⟩ := h <;> simp [hqueue]
    have hpos : (s.rrs cpu).schedQueue.length - 1 + 2 = (s.rrs cpu).schedQueue.length + 1 := by
      obtain ⟨rest, hqueue, -⟩ := h
      simp [hqueue]
    rw [hpos] at hpick
    rw [← System.rrs_setCurr, append_assoc] at hahead
    obtain ⟨⟨s', ts⟩, hrun, hts⟩ := Option.map_eq_some_iff.mp (ih hahead)
    have hstep : rrsPickNextTask s cpu = some (s.setCurr cpu id, (s.entities id).thread) := by
      unfold rrsPickNextTask
      simp [hlen, hpick, System.setCurr]
    rw [length_cons, rrsPicks, hstep]
    simp only [Option.bind_eq_bind, Option.bind_some, hrun]
    exact congrArg (fun ts => some (_ :: ts)) hts

/-- Round robin is fair: as many picks as there are entities besides the idle one return the thread of each
of them once. -/
theorem rrs_fair (s : System) (cpu idle : ℕ) (ops : List RrsOp) :
    ∃ s', Runs.run (rrsStep cpu) ops (initCpuIdleRrs (s.onCpu cpu) cpu idle) = some s' ∧
      ∃ ts, (rrsPicks cpu ((s'.runQueue cpu).length - 1) s').map Prod.snd = some ts ∧
        ts.Perm (s'.runQueue cpu).tail := by
  have hok : Runs.Meets (rrsStep cpu) (fun _ _ => True) ops (initCpuIdleRrs (s.onCpu cpu) cpu idle) :=
    Runs.meets_of_forall fun _ _ _ => trivial
  obtain ⟨s', hrun, hinv⟩ : ∃ s', Runs.run (rrsStep cpu) ops (initCpuIdleRrs (s.onCpu cpu) cpu idle) = some s' ∧
      RrsCpuInv cpu s' := by
    refine Runs.run_total (fun s op h _ => ?_) (.init s cpu idle) hok
    cases op with
    | add thread node => exact ⟨_, rfl, h.add thread node⟩
    | remove thread => exact ⟨_, rfl, h.remove thread⟩
    | pick =>
      obtain ⟨curr, id, hpick, hcurr, -⟩ := h.pick
      exact ⟨_, congrArg (Option.map Prod.fst) hpick, h.setCurr hcurr⟩
  refine ⟨s', hrun, ?_⟩
  obtain ⟨rest, hqueue⟩ := hinv.queue_eq
  have hrunQueue : s'.runQueue cpu = (s'.entities (s'.rrs cpu).idle).thread ::
      rest.map fun id => (s'.entities id).thread := by
    rw [System.runQueue, hqueue, map_cons]
  obtain ⟨l, hl, hperm⟩ : ∃ l, (s'.rrs cpu).Ahead (l ++ []) ∧ l.Perm rest := by
    have hmem := hinv.curr_mem
    rw [hqueue, mem_cons] at hmem
    simp only [append_nil]
    rcases hmem with hidle | hmem
    · exact ⟨rest, ⟨rest, hqueue, hinv.nodup, .inl ⟨hidle, rfl⟩⟩, .refl _⟩
    · obtain ⟨l1, l2, heq⟩ := append_of_mem hmem
      refine ⟨_, ⟨rest, hqueue, hinv.nodup, .inr ⟨l1, l2, heq, rfl⟩⟩, ?_⟩
      have hcomm : (l2 ++ (l1 ++ [(s'.rrs cpu).curr])).Perm ((l1 ++ [(s'.rrs cpu).curr]) ++ l2) :=
        perm_append_comm
      simpa [heq] using hcomm
  rw [hrunQueue, length_cons, Nat.add_sub_cancel, length_map, ← hperm.length_eq, tail_cons]
  exact ⟨_, rrsPicks_ahead hl, hperm.map _⟩

end CoolPotOS
