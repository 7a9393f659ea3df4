import CoolPotOS.Lib.Custody
import CoolPotOS.Task.Retire

namespace CoolPotOS

open Custody Function List Nat

inductive ThreadStage
  | alive | killing | stopped | counted | queued | reaping | destroyed | gone
  deriving DecidableEq

def ThreadStage.rank : ThreadStage → ℕ
  | alive => 0
  | killing => 1
  | stopped => 2
  | counted => 3
  | queued => 4
  | reaping => 5
  | destroyed => 6
  | gone => 7

def ThreadStage.busy : ThreadStage → Bool
  | alive | queued | gone => false
  | _ => true

inductive ProcStage
  | live | exiting | announced | zombie | reaping | leaving | queued | destroying | destroyed
  deriving DecidableEq

def ProcStage.rank : ProcStage → ℕ
  | live => 0
  | exiting => 1
  | announced => 2
  | zombie => 3
  | reaping => 4
  | leaving => 5
  | queued => 6
  | destroying => 7
  | destroyed => 8

def ProcStage.busy : ProcStage → Bool
  | live | zombie | queued | destroyed => false
  | _ => true

def ProcStage.demand : ProcStage → ℕ
  | live => 0
  | exiting => 0
  | announced => 1
  | zombie => 1
  | reaping => 3
  | leaving => 3
  | queued => 3
  | destroying => 6
  | destroyed => 6

/-- The status fields that a process can have in the stage. -/
def ProcStage.Shows : ProcStage → TaskStatus → Prop
  | live, status => status ≠ .death ∧ status ≠ .out ∧ status ≠ .zombie
  | exiting, status => status = .death
  | announced, status => status = .zombie
  | zombie, status => status = .zombie
  | reaping, status => status = .death
  | _, status => status = .out

def RetirePc.thread : RetirePc → Option (ℕ × ThreadStage)
  | .killThread .claim _ _ => none
  | .killThread .pending thread _ => some (thread, .stopped)
  | .killThread .push thread _ => some (thread, .counted)
  | .killThread _ thread _ => some (thread, .killing)
  | .sweep (.destroyThread thread) => some (thread, .reaping)
  | .sweep (.settle thread) => some (thread, .destroyed)
  | _ => none

def RetirePc.process : RetirePc → Option (ℕ × ProcStage)
  | .killThread _ _ ret => ret.map fun r => (r.1, .exiting)
  | .exit .claim _ => none
  | .exit .send pid => some (pid, .announced)
  | .exit .final pid => some (pid, .announced)
  | .exit _ pid => some (pid, .exiting)
  | .reap .claim _ _ => none
  | .reap .unlink pid _ => some (pid, .reaping)
  | .reap _ pid _ => some (pid, .leaving)
  | .sweep (.destroyProcess pid) => some (pid, .destroying)
  | _ => none

/-- The threads that the loop of `kill_proc` has not come to yet. -/
def RetirePc.left (children : ℕ → List ℕ) : RetirePc → Option (ℕ × List ℕ)
  | .killThread .claim thread (some (pid, i)) => some (pid, thread :: (children pid).take i)
  | .killThread _ _ (some (pid, i)) => some (pid, (children pid).take i)
  | .exit (.loop i) pid => some (pid, (children pid).take i)
  | .exit .reparent pid => some (pid, [])
  | .exit .zombie pid => some (pid, [])
  | _ => none

/-- `kill_proc0` does not come to `kill_thread0`. -/
def RetirePc.Quiet : RetirePc → Prop
  | .reap (.pending _) _ _ => False
  | .reap (.push _) _ _ => False
  | _ => True

/-- The stages of all threads, or of all processes, with their holders. -/
abbrev Stages (S : Type) := ℕ → S × Option ℕ

/-- The threads are in the stages, and `counted` are those that a process counts as pending. -/
structure ThreadsOk (threads : Stages ThreadStage) (counted : List ℕ) (x : RetireState) : Prop where
  held : Custody.Held RetirePc.thread ThreadStage.busy x.pc threads
  alive : ∀ t, (threads t).1.rank = 0 ↔ x.claimed t = false
  out : ∀ t, 2 ≤ (threads t).1.rank → x.status t = .out
  retired : Tracks x.threadsRetired (fun s => decide (4 ≤ s.rank)) threads
  queued : Tracks x.retiredThreads (fun s => decide (s = .queued)) threads
  destroyed : Tracks x.threadsDestroyed (fun s => decide (6 ≤ s.rank)) threads
  tracked : Tracks counted (fun s => decide (3 ≤ s.rank ∧ s.rank ≤ 6)) threads
  pending : ∀ pid, x.retiredThreadsPending pid = counted.countP fun t => decide (x.owner t = some pid)

structure ProcsOk (procs : Stages ProcStage) (x : RetireState) : Prop where
  held : Custody.Held RetirePc.process ProcStage.busy x.pc procs
  shows : ∀ pid, (procs pid).1.Shows (x.procStatus pid)
  retired : Tracks x.processesRetired (fun s => decide (6 ≤ s.rank)) procs
  queued : Tracks x.retiredProcesses (fun s => decide (s = .queued)) procs
  destroyed : Tracks x.processesDestroyed (fun s => decide (8 ≤ s.rank)) procs

/-- The threads of every process are as far as the process asks for, and the loop of `kill_proc` comes
to all of them. -/
structure ChildrenOk (threads : Stages ThreadStage) (procs : Stages ProcStage) (x : RetireState) :
    Prop where
  owner : ∀ {pid t}, t ∈ x.childThreads pid → x.owner t = some pid
  nodup : ∀ pid, (x.childThreads pid).Nodup
  alive : ∀ {pid t}, x.owner t = some pid → (threads t).1.rank = 0 → t ∈ x.childThreads pid
  demand : ∀ {pid t}, x.owner t = some pid → (procs pid).1.demand ≤ (threads t).1.rank
  left : ∀ {cpu pid l t}, (x.pc cpu).left x.childThreads = some (pid, l) → x.owner t = some pid →
    (threads t).1.rank = 0 → t ∈ l
  quiet : ∀ cpu, (x.pc cpu).Quiet

def RetireInv (x : RetireState) : Prop :=
  ∃ threads counted procs, ThreadsOk threads counted x ∧ ProcsOk procs x ∧ ChildrenOk threads procs x

section Frames

variable {x x' : RetireState} {threads : Stages ThreadStage} {counted : List ℕ} {procs : Stages ProcStage}
  {cpu : ℕ} {pc : RetirePc}

theorem ThreadsOk.congr (h : ThreadsOk threads counted x) (hheld : Custody.Held RetirePc.thread ThreadStage.busy x'.pc threads)
    (hstatus : x'.status = x.status) (howner : x'.owner = x.owner)
    (hpending : x'.retiredThreadsPending = x.retiredThreadsPending)
    (hretired : x'.threadsRetired = x.threadsRetired) (hqueued : x'.retiredThreads = x.retiredThreads)
    (hdestroyed : x'.threadsDestroyed = x.threadsDestroyed) : ThreadsOk threads counted x' where
  held := hheld
  alive := by
    intro t
    rw [h.alive, RetireState.claimed, RetireState.claimed, hstatus]
  out := by
    rw [hstatus]
    exact h.out
  retired := by
    rw [hretired]
    exact h.retired
  queued := by
    rw [hqueued]
    exact h.queued
  destroyed := by
    rw [hdestroyed]
    exact h.destroyed
  tracked := h.tracked
  pending := by
    rw [hpending, howner]
    exact h.pending

theorem ProcsOk.congr (h : ProcsOk procs x) (hheld : Custody.Held RetirePc.process ProcStage.busy x'.pc procs)
    (hstatus : x'.procStatus = x.procStatus) (hretired : x'.processesRetired = x.processesRetired)
    (hqueued : x'.retiredProcesses = x.retiredProcesses)
    (hdestroyed : x'.processesDestroyed = x.processesDestroyed) : ProcsOk procs x' where
  held := hheld
  shows := by
    rw [hstatus]
    exact h.shows
  retired := by
    rw [hretired]
    exact h.retired
  queued := by
    rw [hqueued]
    exact h.queued
  destroyed := by
    rw [hdestroyed]
    exact h.destroyed

theorem ChildrenOk.advance (h : ChildrenOk threads procs x) {threads' : Stages ThreadStage}
    {procs' : Stages ProcStage} (howner : x'.owner = x.owner) (hchild : x'.childThreads = x.childThreads)
    (hpc : x'.pc = update x.pc cpu pc) (hrank : ∀ t, (threads t).1.rank ≤ (threads' t).1.rank)
    (hdemand : ∀ pid t, x.owner t = some pid → (procs' pid).1.demand ≤ (threads' t).1.rank)
    (hleft : ∀ pid l t, pc.left x.childThreads = some (pid, l) → x.owner t = some pid →
      (threads' t).1.rank = 0 → t ∈ l)
    (hquiet : pc.Quiet) : ChildrenOk threads' procs' x' where
  owner := by
    intro pid t ht
    rw [hchild] at ht
    rw [howner]
    exact h.owner ht
  nodup := by
    rw [hchild]
    exact h.nodup
  alive := by
    intro pid t ht hzero
    rw [howner] at ht
    rw [hchild]
    exact h.alive ht (le_zero.mp (hzero ▸ hrank t))
  demand := by
    intro pid t ht
    rw [howner] at ht
    exact hdemand pid t ht
  left := by
    intro c pid l t hl ht hzero
    rw [hchild, hpc] at hl
    rw [howner] at ht
    by_cases hc : c = cpu
    · rw [hc, update_self] at hl
      exact hleft pid l t hl ht hzero
    · rw [update_of_ne hc] at hl
      exact h.left hl ht (le_zero.mp (hzero ▸ hrank t))
  quiet := by
    intro c
    rw [hpc]
    by_cases hc : c = cpu
    · rw [hc, update_self]
      exact hquiet
    · rw [update_of_ne hc]
      exact h.quiet c

end Frames

variable {threads : Stages ThreadStage} {counted l : List ℕ} {v : ThreadStage × Option ℕ} {i k : ℕ}

section ThreadSteps

variable {x : RetireState} {cpu t : ℕ} {ret : Option (ℕ × ℕ)}

theorem ThreadStage.eq_alive {s : ThreadStage} (h : s.rank = 0) : s = .alive := by
  cases s <;> first | rfl | cases h

theorem ThreadsOk.alive_update (hT : ThreadsOk threads counted x) (hold : (threads t).1.rank ≠ 0)
    (hnew : v.1.rank ≠ 0) (u : ℕ) : (update threads t v u).1.rank = 0 ↔ x.claimed u = false := by
  by_cases hu : u = t
  · rw [hu, update_self, ← hT.alive t]
    exact iff_of_false hnew hold
  · rw [update_of_ne hu]
    exact hT.alive u

theorem ThreadsOk.out_update (hT : ThreadsOk threads counted x) (hstatus : x.status t = .out) (u : ℕ)
    (hu : 2 ≤ (update threads t v u).1.rank) : x.status u = .out := by
  by_cases hut : u = t
  · rw [hut]
    exact hstatus
  · rw [update_of_ne hut] at hu
    exact hT.out u hu

theorem rank_le_update (h : (threads t).1.rank ≤ v.1.rank) (u : ℕ) :
    (threads u).1.rank ≤ (update threads t v u).1.rank := by
  by_cases hu : u = t
  · rw [hu, update_self]
    exact h
  · rw [update_of_ne hu]

theorem afterKill_process : (afterKill ret).process = (RetirePc.killThread .push t ret).process := by
  cases ret <;> rfl

theorem afterKill_left (children : ℕ → List ℕ) :
    (afterKill ret).left children = (RetirePc.killThread .push t ret).left children := by
  cases ret <;> rfl

theorem afterKill_thread : (afterKill ret).thread = none := by
  cases ret <;> rfl

theorem afterKill_quiet : (afterKill ret).Quiet := by
  cases ret <;> trivial

theorem RetireInv.claimThread (h : RetireInv x) (hpc : x.pc cpu = .killThread .claim t ret)
    (hclaim : x.claimed t = false) :
    RetireInv ((x.setStatus t .death).goto cpu (.killThread .remove t ret)) := by
  obtain ⟨threads, counted, procs, hT, hP, hC⟩ := h
  have halive : (threads t).1.rank = 0 := (hT.alive t).mpr hclaim
  have hstage := ThreadStage.eq_alive halive
  have hfree : (threads t).1.busy = false := by
    rw [hstage]
    rfl
  have hthread : (x.pc cpu).thread = none := by
    rw [hpc]
    rfl
  refine ⟨update threads t (.killing, some cpu), counted, procs, ?_, ?_, ?_⟩
  · refine ⟨hT.held.take hthread hfree rfl rfl, fun u => ?_, fun u hu => ?_, ?_, ?_, ?_, ?_, hT.pending⟩
    · show _ ↔ (update x.status t .death u == .death ||
        update x.status t .death u == .out) = false
      by_cases hut : u = t
      · rw [hut, update_self, update_self]
        exact iff_of_false Nat.one_ne_zero (by decide)
      · rw [update_of_ne hut, update_of_ne hut]
        exact hT.alive u
    · show update x.status t .death u = .out
      by_cases hut : u = t
      · rw [hut, update_self] at hu
        exact absurd hu (not_succ_le_self 1)
      · rw [update_of_ne hut] at hu ⊢
        exact hT.out u hu
    · exact hT.retired.keep (by rw [hstage]; rfl)
    · exact hT.queued.keep (by rw [hstage]; rfl)
    · exact hT.destroyed.keep (by rw [hstage]; rfl)
    · exact hT.tracked.keep (by rw [hstage]; rfl)
  · refine hP.congr (hP.held.keep ?_) rfl rfl rfl rfl
    rw [hpc]
    rfl
  · have hrank := rank_le_update (t := t) (v := (ThreadStage.killing, some cpu))
      (halive.trans_le (Nat.zero_le _))
    refine hC.advance rfl rfl rfl hrank (fun pid u hu => (hC.demand hu).trans (hrank u)) ?_ trivial
    intro pid l u hl hu hzero
    have hut : u ≠ t := by
      rintro rfl
      rw [update_self] at hzero
      cases hzero
    rw [update_of_ne hut] at hzero
    cases ret with
    | none => cases hl
    | some r =>
      obtain ⟨rfl, rfl⟩ := Prod.mk.inj (Option.some.inj hl)
      have hl : (x.pc cpu).left x.childThreads = some (r.1, t :: (x.childThreads r.1).take r.2) := by
        rw [hpc]
        rfl
      have hmem := hC.left hl hu hzero
      exact (mem_cons.mp hmem).resolve_left hut

theorem ChildrenOk.onward {procs : Stages ProcStage} {pc : RetirePc} {x' : RetireState}
    (hC : ChildrenOk threads procs x) (howner : x'.owner = x.owner) (hchild : x'.childThreads = x.childThreads)
    (hpc : x'.pc = update x.pc cpu pc) (hrank : (threads t).1.rank ≤ v.1.rank)
    (hleft : pc.left x.childThreads = (x.pc cpu).left x.childThreads) (hquiet : pc.Quiet) :
    ChildrenOk (update threads t v) procs x' := by
  have hle := rank_le_update hrank
  refine hC.advance howner hchild hpc hle (fun pid u hu => (hC.demand hu).trans (hle u)) ?_ hquiet
  intro pid l u hl hu hzero
  rw [hleft] at hl
  exact hC.left hl hu (le_zero.mp (hzero ▸ hle u))

theorem RetireInv.outThread (h : RetireInv x) (hpc : x.pc cpu = .killThread .out t ret) :
    RetireInv ((x.setStatus t .out).goto cpu (.killThread .pending t ret)) := by
  obtain ⟨threads, counted, procs, hT, hP, hC⟩ := h
  have hthread : (x.pc cpu).thread = some (t, .killing) := by
    rw [hpc]
    rfl
  have hlife := hT.held.of_pc hthread
  refine ⟨update threads t (.stopped, some cpu), counted, procs, ?_, ?_, ?_⟩
  · refine ⟨hT.held.move hthread rfl rfl, fun u => ?_, fun u hu => ?_, ?_, ?_, ?_, ?_, hT.pending⟩
    · show _ ↔ (update x.status t .out u == .death ||
        update x.status t .out u == .out) = false
      by_cases hut : u = t
      · rw [hut, update_self, update_self]
        exact iff_of_false (succ_ne_zero 1) (by decide)
      · rw [update_of_ne hut, update_of_ne hut]
        exact hT.alive u
    · show update x.status t .out u = .out
      by_cases hut : u = t
      · rw [hut, update_self]
      · rw [update_of_ne hut] at hu ⊢
        exact hT.out u hu
    · exact hT.retired.keep (by rw [hlife]; rfl)
    · exact hT.queued.keep (by rw [hlife]; rfl)
    · exact hT.destroyed.keep (by rw [hlife]; rfl)
    · exact hT.tracked.keep (by rw [hlife]; rfl)
  · refine hP.congr (hP.held.keep ?_) rfl rfl rfl rfl
    rw [hpc]
    rfl
  · refine hC.onward rfl rfl rfl (by rw [hlife]; exact le_succ 1) ?_ trivial
    rw [hpc]
    cases ret <;> rfl

theorem countP_owner_cons {owner : ℕ → Option ℕ} {pid : ℕ} :
    (t :: counted).countP (fun u => decide (owner u = some pid)) =
      counted.countP (fun u => decide (owner u = some pid)) + if owner t = some pid then 1 else 0 := by
  rw [countP_cons]
  simp only [decide_eq_true_eq]

theorem RetireState.countRetired_eq : x.countRetired t = { x with
    retiredThreadsPending := fun pid =>
      x.retiredThreadsPending pid + if x.owner t = some pid then 1 else 0 } := by
  unfold RetireState.countRetired
  cases ho : x.owner t with
  | none => simp
  | some p =>
    have hfun : update x.retiredThreadsPending p (x.retiredThreadsPending p + 1) =
        fun pid => x.retiredThreadsPending pid + if some p = some pid then 1 else 0 := by
      funext pid
      by_cases hp : pid = p
      · rw [hp, update_self, if_pos rfl]
      · rw [update_of_ne hp, if_neg fun he => hp (Option.some.inj he).symm, Nat.add_zero]
    dsimp only
    rw [hfun]

theorem RetireInv.countThread (h : RetireInv x) (hpc : x.pc cpu = .killThread .pending t ret) :
    RetireInv ((x.countRetired t).goto cpu (.killThread .push t ret)) := by
  obtain ⟨threads, counted, procs, hT, hP, hC⟩ := h
  have hthread : (x.pc cpu).thread = some (t, .stopped) := by
    rw [hpc]
    rfl
  have hlife := hT.held.of_pc hthread
  rw [RetireState.countRetired_eq]
  refine ⟨update threads t (.counted, some cpu), t :: counted, procs, ?_, ?_, ?_⟩
  · refine ⟨hT.held.move hthread rfl rfl, ?_, ?_, ?_, ?_, ?_, ?_, fun pid => ?_⟩
    · exact hT.alive_update (by rw [hlife]; exact succ_ne_zero 1) (succ_ne_zero 2)
    · exact hT.out_update (hT.out t (by rw [hlife]; exact le_refl 2))
    · exact hT.retired.keep (by rw [hlife]; rfl)
    · exact hT.queued.keep (by rw [hlife]; rfl)
    · exact hT.destroyed.keep (by rw [hlife]; rfl)
    · exact hT.tracked.add (by rw [hlife]; rfl) rfl
    · show x.retiredThreadsPending pid + _ = _
      rw [hT.pending pid]
      exact countP_owner_cons.symm
  · refine hP.congr (hP.held.keep ?_) rfl rfl rfl rfl
    rw [hpc]
    rfl
  · refine hC.onward rfl rfl rfl (by rw [hlife]; exact le_succ 2) ?_ trivial
    rw [hpc]
    cases ret <;> rfl

theorem RetireInv.pushThread (h : RetireInv x) (hpc : x.pc cpu = .killThread .push t ret) :
    RetireInv ((x.enqueueRetiredThread t).goto cpu (afterKill ret)) := by
  obtain ⟨threads, counted, procs, hT, hP, hC⟩ := h
  have hthread : (x.pc cpu).thread = some (t, .counted) := by
    rw [hpc]
    rfl
  have hlife := hT.held.of_pc hthread
  refine ⟨update threads t (.queued, none), counted, procs, ?_, ?_, ?_⟩
  · refine ⟨hT.held.drop hthread afterKill_thread rfl, ?_, ?_, ?_, ?_, ?_, ?_, hT.pending⟩
    · exact hT.alive_update (by rw [hlife]; exact succ_ne_zero 2) (succ_ne_zero 3)
    · exact hT.out_update (hT.out t (by rw [hlife]; exact le_succ 2))
    · exact hT.retired.add (by rw [hlife]; rfl) rfl
    · exact hT.queued.add (by rw [hlife]; rfl) rfl
    · exact hT.destroyed.keep (by rw [hlife]; rfl)
    · exact hT.tracked.keep (by rw [hlife]; rfl)
  · refine hP.congr (hP.held.keep ?_) rfl rfl rfl rfl
    rw [hpc]
    exact afterKill_process
  · refine hC.onward rfl rfl rfl (by rw [hlife]; exact le_succ 3) ?_ afterKill_quiet
    rw [hpc]
    exact afterKill_left _

theorem RetireInv.takeThread (h : RetireInv x) (hpc : x.pc cpu = .sweep .threads)
    (ht : x.retiredThreads[i]? = some t) :
    RetireInv ({ x with retiredThreads := x.retiredThreads.eraseIdx i }.goto cpu
      (.sweep (.destroyThread t))) := by
  obtain ⟨threads, counted, procs, hT, hP, hC⟩ := h
  obtain ⟨hi, hget⟩ := List.getElem?_eq_some_iff.mp ht
  have hstage : (threads t).1 = .queued :=
    of_decide_eq_true ((hT.queued.mem_iff t).mp (mem_of_getElem? ht))
  have hfree : (threads t).1.busy = false := by
    rw [hstage]
    rfl
  have hthread : (x.pc cpu).thread = none := by
    rw [hpc]
    rfl
  have herase : x.retiredThreads.eraseIdx i = x.retiredThreads.erase t := by
    rw [← hget, hT.queued.nodup.erase_getElem i hi]
  rw [herase]
  refine ⟨update threads t (.reaping, some cpu), counted, procs, ?_, ?_, ?_⟩
  · refine ⟨hT.held.take hthread hfree rfl rfl, ?_, ?_, ?_, ?_, ?_, ?_, hT.pending⟩
    · exact hT.alive_update (by rw [hstage]; exact succ_ne_zero 3) (succ_ne_zero 4)
    · exact hT.out_update (hT.out t (by rw [hstage]; decide))
    · exact hT.retired.keep (by rw [hstage]; rfl)
    · exact hT.queued.erase rfl
    · exact hT.destroyed.keep (by rw [hstage]; rfl)
    · exact hT.tracked.keep (by rw [hstage]; rfl)
  · refine hP.congr (hP.held.keep ?_) rfl rfl rfl rfl
    rw [hpc]
    rfl
  · refine hC.onward rfl rfl rfl (by rw [hstage]; exact le_succ 4) ?_ trivial
    rw [hpc]
    rfl

theorem RetireInv.destroyThread (h : RetireInv x) (hpc : x.pc cpu = .sweep (.destroyThread t)) :
    RetireInv ({ x with threadsDestroyed := t :: x.threadsDestroyed }.goto cpu (.sweep (.settle t))) := by
  obtain ⟨threads, counted, procs, hT, hP, hC⟩ := h
  have hthread : (x.pc cpu).thread = some (t, .reaping) := by
    rw [hpc]
    rfl
  have hlife := hT.held.of_pc hthread
  refine ⟨update threads t (.destroyed, some cpu), counted, procs, ?_, ?_, ?_⟩
  · refine ⟨hT.held.move hthread rfl rfl, ?_, ?_, ?_, ?_, ?_, ?_, hT.pending⟩
    · exact hT.alive_update (by rw [hlife]; exact succ_ne_zero 4) (succ_ne_zero 5)
    · exact hT.out_update (hT.out t (by rw [hlife]; exact (by decide : 2 ≤ 5)))
    · exact hT.retired.keep (by rw [hlife]; rfl)
    · exact hT.queued.keep (by rw [hlife]; rfl)
    · exact hT.destroyed.add (by rw [hlife]; rfl) rfl
    · exact hT.tracked.keep (by rw [hlife]; rfl)
  · refine hP.congr (hP.held.keep ?_) rfl rfl rfl rfl
    rw [hpc]
    rfl
  · refine hC.onward rfl rfl rfl (by rw [hlife]; exact le_succ 5) ?_ trivial
    rw [hpc]
    rfl

theorem RetireInv.settleThread (h : RetireInv x) (hpc : x.pc cpu = .sweep (.settle t)) :
    RetireInv ({ x with retiredThreadsPending := fun pid =>
      x.retiredThreadsPending pid - if x.owner t = some pid then 1 else 0 }.goto cpu (.sweep .threads)) := by
  obtain ⟨threads, counted, procs, hT, hP, hC⟩ := h
  have hthread : (x.pc cpu).thread = some (t, .destroyed) := by
    rw [hpc]
    rfl
  have hlife := hT.held.of_pc hthread
  have hmem : t ∈ counted := by
    rw [hT.tracked.mem_iff, hlife]
    rfl
  refine ⟨update threads t (.gone, none), counted.erase t, procs, ?_, ?_, ?_⟩
  · refine ⟨hT.held.drop hthread rfl rfl, ?_, ?_, ?_, ?_, ?_, ?_, fun pid => ?_⟩
    · exact hT.alive_update (by rw [hlife]; exact succ_ne_zero 5) (succ_ne_zero 6)
    · exact hT.out_update (hT.out t (by rw [hlife]; exact (by decide : 2 ≤ 6)))
    · exact hT.retired.keep (by rw [hlife]; rfl)
    · exact hT.queued.keep (by rw [hlife]; rfl)
    · exact hT.destroyed.keep (by rw [hlife]; rfl)
    · exact hT.tracked.erase rfl
    · show x.retiredThreadsPending pid - _ = _
      rw [hT.pending pid, (perm_cons_erase hmem).countP_eq, countP_owner_cons, Nat.add_sub_cancel]
      rfl
  · refine hP.congr (hP.held.keep ?_) rfl rfl rfl rfl
    rw [hpc]
    rfl
  · refine hC.onward rfl rfl rfl (by rw [hlife]; exact le_succ 6) ?_ trivial
    rw [hpc]
    rfl

end ThreadSteps

section Moves

variable {x : RetireState} {cpu pid t : ℕ} {pc old : RetirePc}

theorem RetireInv.goto (h : RetireInv x) (hpc : x.pc cpu = old) (hthread : pc.thread = old.thread)
    (hprocess : pc.process = old.process)
    (hleft : ∀ pid l t, pc.left x.childThreads = some (pid, l) → x.owner t = some pid →
      x.claimed t = false → t ∈ l)
    (hquiet : pc.Quiet) : RetireInv (x.goto cpu pc) := by
  obtain ⟨threads, counted, procs, hT, hP, hC⟩ := h
  refine ⟨threads, counted, procs, ?_, ?_, ?_⟩
  · refine hT.congr (hT.held.keep ?_) rfl rfl rfl rfl rfl rfl
    rw [hthread, hpc]
  · refine hP.congr (hP.held.keep ?_) rfl rfl rfl rfl
    rw [hprocess, hpc]
  · refine hC.advance rfl rfl rfl (fun _ => le_refl _) (fun _ _ => hC.demand) ?_ hquiet
    intro pid l t hl ht hzero
    exact hleft pid l t hl ht ((hT.alive t).mp hzero)

theorem RetireInv.mem_left (h : RetireInv x) (hpc : x.pc cpu = old)
    (hl : old.left x.childThreads = some (pid, l)) (ht : x.owner t = some pid) (halive : x.claimed t = false) :
    t ∈ l := by
  obtain ⟨threads, counted, procs, hT, hP, hC⟩ := h
  rw [← hpc] at hl
  exact hC.left hl ht ((hT.alive t).mpr halive)

theorem RetireInv.goto_none (h : RetireInv x) (hpc : x.pc cpu = old) (hthread : pc.thread = old.thread)
    (hprocess : pc.process = old.process) (hleft : pc.left x.childThreads = none)
    (hquiet : pc.Quiet) : RetireInv (x.goto cpu pc) := by
  refine h.goto hpc hthread hprocess (fun pid l t hl => ?_) hquiet
  rw [hleft] at hl
  cases hl

theorem RetireInv.irrelevant (h : RetireInv x) (ctIndex : ℕ → ℕ) (parent : ℕ → Option ℕ)
    (listed : ℕ → Bool) (queue : ℕ → List ℕ) :
    RetireInv { x with
      ctIndex := ctIndex
      parent := parent
      listed := listed
      queue := queue } := by
  obtain ⟨threads, counted, procs, hT, hP, hC⟩ := h
  exact ⟨threads, counted, procs, hT.congr hT.held rfl rfl rfl rfl rfl rfl, hP.congr hP.held rfl rfl rfl rfl,
    hC.owner, hC.nodup, hC.alive, hC.demand, hC.left, hC.quiet⟩

theorem mem_take_eraseIdx (ht : t ∈ l.take i) (hk : l[k]? ≠ some t) : t ∈ (l.eraseIdx k).take i := by
  obtain ⟨n, hn, hget⟩ := mem_take_iff_getElem.mp ht
  have hget? : l[n]? = some t := by
    rw [List.getElem?_eq_getElem (by omega), hget]
  have hnk : n ≠ k := by
    rintro rfl
    exact hk hget?
  -- the elements behind `k` move down by one
  obtain hlt | hgt := Nat.lt_or_gt_of_ne hnk
  · apply mem_of_getElem? (i := n)
    rw [List.getElem?_take_of_lt (by omega), List.getElem?_eraseIdx_of_lt hlt, hget?]
  · apply mem_of_getElem? (i := n - 1)
    rw [List.getElem?_take_of_lt (by omega), List.getElem?_eraseIdx_of_ge (by omega),
      Nat.sub_add_cancel (by omega), hget?]

theorem mem_take_update {children : ℕ → List ℕ} {q : ℕ} (ht : t ∈ (children q).take i)
    (hk : (children pid)[k]? ≠ some t) : t ∈ (update children pid ((children pid).eraseIdx k) q).take i := by
  by_cases hq : q = pid
  · rw [hq, update_self]
    rw [hq] at ht
    exact mem_take_eraseIdx ht hk
  · rw [update_of_ne hq]
    exact ht

theorem left_update {children : ℕ → List ℕ} {q : ℕ} (hleft : ∀ l, pc.left children = some (q, l) → t ∈ l)
    (hk : (children pid)[k]? ≠ some t)
    (hl : pc.left (update children pid ((children pid).eraseIdx k)) = some (q, l)) : t ∈ l := by
  cases pc with
  | killThread stage u ret =>
    cases ret with
    | none => cases stage <;> cases hl
    | some r =>
      cases stage with
      | claim =>
        cases hl
        obtain hu | hmem := mem_cons.mp (hleft _ rfl)
        · rw [hu]
          exact mem_cons_self
        · exact mem_cons_of_mem _ (mem_take_update hmem hk)
      | remove | out | pending | push =>
        cases hl
        exact mem_take_update (hleft _ rfl) hk
  | exit stage p =>
    cases stage with
    | loop i =>
      cases hl
      exact mem_take_update (hleft _ rfl) hk
    | reparent | zombie =>
      cases hl
      exact hleft _ rfl
    | claim | send | final => cases hl
  | idle | reap | waitpid | sweep => cases hl

theorem RetireInv.removeChild (h : RetireInv x)
    (hk : ∀ t, (x.childThreads pid)[k]? = some t → x.claimed t = true) (memory : Bool) :
    RetireInv (x.removeChild pid k memory) := by
  unfold RetireState.removeChild
  split_ifs
  rotate_left
  · exact h
  obtain ⟨threads, counted, procs, hT, hP, hC⟩ := h
  have hne : ∀ t, (threads t).1.rank = 0 → (x.childThreads pid)[k]? ≠ some t := by
    intro t hzero hget
    have hclaimed := hk t hget
    rw [(hT.alive t).mp hzero] at hclaimed
    cases hclaimed
  have hsub : ∀ q, (update x.childThreads pid ((x.childThreads pid).eraseIdx k) q).Sublist
      (x.childThreads q) := by
    intro q
    by_cases hq : q = pid
    · rw [hq, update_self]
      exact eraseIdx_sublist _ _
    · rw [update_of_ne hq]
  refine ⟨threads, counted, procs, hT.congr hT.held rfl rfl rfl rfl rfl rfl,
    hP.congr hP.held rfl rfl rfl rfl, ?_, ?_, ?_, hC.demand, ?_, hC.quiet⟩
  · intro q t ht
    exact hC.owner ((hsub q).subset ht)
  · intro q
    exact (hC.nodup q).sublist (hsub q)
  · intro q t ht hzero
    have hmem := hC.alive ht hzero
    rw [← take_length (l := x.childThreads q)] at hmem
    exact mem_of_mem_take (mem_take_update hmem (hne t hzero))
  · intro c q l t hl ht hzero
    exact left_update (fun l hl => hC.left hl ht hzero) (hne t hzero) hl

theorem RetireInv.removeThreadFromProcess (h : RetireInv x) (hclaimed : x.claimed t = true)
    (memory : Bool) : RetireInv (x.removeThreadFromProcess t memory) := by
  unfold RetireState.removeThreadFromProcess
  split
  · exact h
  · split_ifs with hget
    · exact h
    · refine (h.removeChild (fun u hu => ?_) memory).irrelevant _ _ _ _
      rw [not_not.mp hget] at hu
      rw [← Option.some.inj hu]
      exact hclaimed

theorem removeThreadFromProcess_pc (memory : Bool) : (x.removeThreadFromProcess t memory).pc = x.pc := by
  unfold RetireState.removeThreadFromProcess RetireState.removeChild
  split
  · rfl
  · split_ifs <;> rfl

theorem RetireInv.setStatus (h : RetireInv x) {status : TaskStatus} (halive : x.claimed t = false)
    (hdeath : status ≠ .death) (hout : status ≠ .out) : RetireInv (x.setStatus t status) := by
  obtain ⟨threads, counted, procs, hT, hP, hC⟩ := h
  refine ⟨threads, counted, procs, ⟨hT.held, fun u => ?_, fun u hu => ?_, hT.retired, hT.queued,
    hT.destroyed, hT.tracked, hT.pending⟩, hP.congr hP.held rfl rfl rfl rfl,
    hC.owner, hC.nodup, hC.alive, hC.demand, hC.left, hC.quiet⟩
  · show _ ↔ (update x.status t status u == .death ||
      update x.status t status u == .out) = false
    by_cases hut : u = t
    · rw [hut, update_self, hT.alive t]
      simp [halive, hdeath, hout]
    · rw [update_of_ne hut]
      exact hT.alive u
  · show update x.status t status u = .out
    have hut : u ≠ t := by
      rintro rfl
      rw [(hT.alive u).mpr halive] at hu
      exact absurd hu (by decide)
    rw [update_of_ne hut]
    exact hT.out u hu

end Moves

end CoolPotOS
