import CoolPotOS.Lib.Runs
import CoolPotOS.Task.RetireStages

namespace CoolPotOS

open Custody Function List Option RetireState

variable {waiter : ℕ} {node : Option ℕ} {op : RetireOp}

section ProcSteps

variable {x : RetireState} {cpu pid : ℕ} {threads : Stages ThreadStage} {procs : Stages ProcStage}
  {v : ProcStage × Option ℕ} {pc : RetirePc}

theorem ProcStage.Shows.live {s : ProcStage} {status : TaskStatus} (h : s.Shows status)
    (hdeath : status ≠ .death) (hout : status ≠ .out) (hzombie : status ≠ .zombie) : s = .live := by
  cases s <;> first | rfl | exact absurd h hdeath | exact absurd h hout | exact absurd h hzombie

theorem ProcStage.Shows.zombie {s : ProcStage} (h : s.Shows .zombie) : s = .announced ∨ s = .zombie := by
  cases s with
  | announced => exact Or.inl rfl
  | zombie => exact Or.inr rfl
  | live => exact absurd rfl h.2.2
  | exiting | reaping | leaving | queued | destroying | destroyed => cases h

theorem shows_update {procStatus : ℕ → TaskStatus} {status : TaskStatus}
    (h : ∀ q, (procs q).1.Shows (procStatus q)) (hv : v.1.Shows status) (q : ℕ) :
    (update procs pid v q).1.Shows (update procStatus pid status q) := by
  by_cases hq : q = pid
  · rw [hq, update_self, update_self]
    exact hv
  · rw [update_of_ne hq, update_of_ne hq]
    exact h q

theorem shows_keep {procStatus : ℕ → TaskStatus} (h : ∀ q, (procs q).1.Shows (procStatus q))
    (hv : v.1.Shows (procStatus pid)) (q : ℕ) : (update procs pid v q).1.Shows (procStatus q) := by
  rw [← update_eq_self pid procStatus]
  exact shows_update h hv q

theorem ChildrenOk.proceed (hC : ChildrenOk threads procs x) {x' : RetireState}
    (howner : x'.owner = x.owner) (hchild : x'.childThreads = x.childThreads)
    (hpc : x'.pc = update x.pc cpu pc) (hdemand : ∀ t, x.owner t = some pid → v.1.demand ≤ (threads t).1.rank)
    (hleft : ∀ q l t, pc.left x.childThreads = some (q, l) → x.owner t = some q →
      (threads t).1.rank = 0 → t ∈ l)
    (hquiet : pc.Quiet) : ChildrenOk threads (update procs pid v) x' := by
  refine hC.advance howner hchild hpc (fun _ => le_refl _) (fun q t ht => ?_) hleft hquiet
  by_cases hq : q = pid
  · rw [hq, update_self]
    exact hdemand t (hq ▸ ht)
  · rw [update_of_ne hq]
    exact hC.demand ht

theorem left_of_none {children : ℕ → List ℕ} {P : ℕ → List ℕ → ℕ → Prop} (h : pc.left children = none)
    (q : ℕ) (l : List ℕ) (t : ℕ) (hl : pc.left children = some (q, l)) : P q l t := by
  rw [h] at hl
  cases hl

theorem ThreadsOk.store {counted : List ℕ} {s : ProcStage} {status : TaskStatus} (hT : ThreadsOk threads counted x)
    (hP : ProcsOk procs x) (hC : ChildrenOk threads procs x) (hthread : pc.thread = (x.pc cpu).thread)
    (hheld : Custody.Held RetirePc.process ProcStage.busy (update x.pc cpu pc) (update procs pid v))
    (hshows : v.1.Shows status) (hstage : (procs pid).1 = s)
    (hkeep : (decide (6 ≤ v.1.rank), decide (v.1 = .queued), decide (8 ≤ v.1.rank)) =
      (decide (6 ≤ s.rank), decide (s = .queued), decide (8 ≤ s.rank)))
    (hdemand : ∀ t, x.owner t = some pid → s.demand ≤ (threads t).1.rank → v.1.demand ≤ (threads t).1.rank)
    (hleft : ∀ q l t, pc.left x.childThreads = some (q, l) → x.owner t = some q → (threads t).1.rank = 0 → t ∈ l)
    (hquiet : pc.Quiet) : RetireInv ((x.setProcStatus pid status).goto cpu pc) := by
  subst hstage
  obtain ⟨hretired, hrest⟩ := Prod.mk.inj hkeep
  obtain ⟨hqueued, hdestroyed⟩ := Prod.mk.inj hrest
  refine ⟨threads, counted, update procs pid v, ?_, ?_, hC.proceed rfl rfl rfl (fun t ht => hdemand t ht (hC.demand ht)) hleft hquiet⟩
  · exact hT.congr (hT.held.keep hthread) rfl rfl rfl rfl rfl rfl
  · exact ⟨hheld, shows_update hP.shows hshows, hP.retired.keep hretired, hP.queued.keep hqueued,
      hP.destroyed.keep hdestroyed⟩

theorem RetireInv.claimExit (h : RetireInv x) (hpc : x.pc cpu = .exit .claim pid)
    (hdeath : x.procStatus pid ≠ .death) (hout : x.procStatus pid ≠ .out)
    (hzombie : x.procStatus pid ≠ .zombie) :
    RetireInv ((x.setProcStatus pid .death).goto cpu (.exit (.loop (x.childThreads pid).length) pid)) := by
  obtain ⟨threads, counted, procs, hT, hP, hC⟩ := h
  have hstage := (hP.shows pid).live hdeath hout hzombie
  have hfree : (procs pid).1.busy = false := by
    rw [hstage]
    rfl
  have hprocess : (x.pc cpu).process = none := by
    rw [hpc]
    rfl
  refine hT.store hP hC (by rw [hpc]; rfl) (hP.held.take hprocess hfree rfl rfl) rfl hstage rfl
    (fun _ _ _ => Nat.zero_le _) (fun q l t hl ht hzero => ?_) trivial
  cases hl
  rw [take_length]
  exact hC.alive ht hzero

theorem RetireInv.announce (h : RetireInv x) (hpc : x.pc cpu = .exit .zombie pid) :
    RetireInv ((x.setProcStatus pid .zombie).goto cpu (.exit .send pid)) := by
  obtain ⟨threads, counted, procs, hT, hP, hC⟩ := h
  have hprocess : (x.pc cpu).process = some (pid, .exiting) := by
    rw [hpc]
    rfl
  have hlife := hP.held.of_pc hprocess
  refine hT.store hP hC (by rw [hpc]; rfl) (hP.held.move hprocess rfl rfl) rfl (congrArg Prod.fst hlife) rfl
    (fun t ht _ => ?_) (left_of_none rfl) trivial
  apply Nat.one_le_iff_ne_zero.mpr
  intro hzero
  have hl : (x.pc cpu).left x.childThreads = some (pid, []) := by
    rw [hpc]
    rfl
  have hmem := hC.left hl ht hzero
  cases hmem

theorem RetireInv.finishExit (h : RetireInv x) (hpc : x.pc cpu = .exit .final pid) :
    RetireInv ((x.setProcStatus pid .zombie).goto cpu .idle) := by
  obtain ⟨threads, counted, procs, hT, hP, hC⟩ := h
  have hprocess : (x.pc cpu).process = some (pid, .announced) := by
    rw [hpc]
    rfl
  have hlife := hP.held.of_pc hprocess
  exact hT.store (v := (.zombie, none)) hP hC (by rw [hpc]; rfl) (hP.held.drop hprocess rfl rfl) rfl
    (congrArg Prod.fst hlife) rfl (fun _ _ h => h) (left_of_none rfl) trivial

theorem announces_of_process (h : pc.process = some (pid, .announced)) : pc.Announces pid := by
  unfold RetirePc.process at h
  split at h
  · obtain ⟨r, -, hr⟩ := map_eq_some_iff.mp h
    cases hr
  all_goals cases h
  all_goals rfl

theorem kills_of_thread {s : ThreadStage} {t : ℕ} (h : pc.thread = some (t, s))
    (hs : s = .killing ∨ s = .stopped) (ht : x.owner t = some pid) : pc.KillsThreadOf x pid := by
  unfold RetirePc.thread at h
  split at h
  all_goals cases h
  all_goals first | exact ⟨by assumption, ht⟩ | exact ⟨by decide, ht⟩ | simp at hs

theorem RetireInv.claimReap (h : RetireInv x) (hpc : x.pc cpu = .reap .claim pid waiter)
    (hzombie : x.procStatus pid = .zombie)
    (hcalm : ∀ c, ¬(x.pc c).Announces pid ∧ ¬(x.pc c).KillsThreadOf x pid) :
    RetireInv ((x.setProcStatus pid .death).goto cpu (.reap .unlink pid waiter)) := by
  obtain ⟨threads, counted, procs, hT, hP, hC⟩ := h
  have hstage : (procs pid).1 = .zombie := by
    have hshows := hP.shows pid
    rw [hzombie] at hshows
    refine hshows.zombie.resolve_left fun hannounced => ?_
    obtain ⟨c, hc⟩ := hP.held.exists_holder (i := pid) (by rw [hannounced]; rfl)
    rw [hannounced] at hc
    exact (hcalm c).1 (announces_of_process hc)
  have hfree : (procs pid).1.busy = false := by
    rw [hstage]
    rfl
  have hprocess : (x.pc cpu).process = none := by
    rw [hpc]
    rfl
  refine hT.store hP hC (by rw [hpc]; rfl) (hP.held.take hprocess hfree rfl rfl) rfl hstage rfl
    (fun t ht hdemand => ?_) (left_of_none rfl) trivial
  -- a thread that is killed but not counted is held by a `kill_thread`
  have hkill : ∀ s, (threads t).1 = s → s = .killing ∨ s = .stopped → False := by
    intro s hs hor
    obtain ⟨c, hc⟩ := hT.held.exists_holder (i := t) (by rw [hs]; rcases hor with rfl | rfl <;> rfl)
    rw [hs] at hc
    exact (hcalm c).2 (kills_of_thread hc hor ht)
  show 3 ≤ (threads t).1.rank
  cases hs : (threads t).1 with
  | alive =>
    rw [hs] at hdemand
    exact absurd hdemand (by decide)
  | killing => exact (hkill _ hs (Or.inl rfl)).elim
  | stopped => exact (hkill _ hs (Or.inr rfl)).elim
  | counted | queued | reaping | destroyed | gone => decide

theorem RetireInv.unlink (h : RetireInv x) (hpc : x.pc cpu = .reap .unlink pid waiter) :
    RetireInv ((x.setProcStatus pid .out).goto cpu (.reap .loop pid waiter)) := by
  obtain ⟨threads, counted, procs, hT, hP, hC⟩ := h
  have hprocess : (x.pc cpu).process = some (pid, .reaping) := by
    rw [hpc]
    rfl
  have hlife := hP.held.of_pc hprocess
  exact hT.store hP hC (by rw [hpc]; rfl) (hP.held.move hprocess rfl rfl) rfl (congrArg Prod.fst hlife) rfl
    (fun _ _ h => h) (left_of_none rfl) trivial

theorem RetireInv.enqueueProcess (h : RetireInv x) (hpc : x.pc cpu = .reap .enqueue pid waiter) :
    RetireInv ((x.enqueueRetiredProcess pid).goto cpu (.waitpid .done waiter none)) := by
  obtain ⟨threads, counted, procs, hT, hP, hC⟩ := h
  have hprocess : (x.pc cpu).process = some (pid, .leaving) := by
    rw [hpc]
    rfl
  have hlife := hP.held.of_pc hprocess
  have hout : x.procStatus pid = .out := by
    have hshows := hP.shows pid
    rw [hlife] at hshows
    exact hshows
  refine ⟨threads, counted, update procs pid (.queued, none), ?_, ?_, ?_⟩
  · refine hT.congr (hT.held.keep ?_) rfl rfl rfl rfl rfl rfl
    rw [hpc]
    rfl
  · refine ⟨hP.held.drop hprocess rfl rfl, shows_keep hP.shows hout, ?_, ?_, ?_⟩
    · exact hP.retired.add (by rw [hlife]; rfl) rfl
    · exact hP.queued.add (by rw [hlife]; rfl) rfl
    · exact hP.destroyed.keep (by rw [hlife]; rfl)
  · refine hC.proceed rfl rfl rfl (fun t ht => ?_) (left_of_none rfl) trivial
    have hdemand := hC.demand ht
    rw [hlife] at hdemand
    exact hdemand

theorem RetireInv.takeProcess (h : RetireInv x) (hpc : x.pc cpu = .sweep .processes) {i : ℕ}
    (hp : x.retiredProcesses[i]? = some pid) (hpending : x.retiredThreadsPending pid = 0) :
    RetireInv ({ x with retiredProcesses := x.retiredProcesses.eraseIdx i }.goto cpu
      (.sweep (.destroyProcess pid))) := by
  obtain ⟨threads, counted, procs, hT, hP, hC⟩ := h
  obtain ⟨hi, hget⟩ := List.getElem?_eq_some_iff.mp hp
  have hstage : (procs pid).1 = .queued :=
    of_decide_eq_true ((hP.queued.mem_iff pid).mp (mem_of_getElem? hp))
  have hfree : (procs pid).1.busy = false := by
    rw [hstage]
    rfl
  have hprocess : (x.pc cpu).process = none := by
    rw [hpc]
    rfl
  have hout : x.procStatus pid = .out := by
    have hshows := hP.shows pid
    rw [hstage] at hshows
    exact hshows
  have herase : x.retiredProcesses.eraseIdx i = x.retiredProcesses.erase pid := by
    rw [← hget, hP.queued.nodup.erase_getElem i hi]
  rw [herase]
  refine ⟨threads, counted, update procs pid (.destroying, some cpu), ?_, ?_, ?_⟩
  · refine hT.congr (hT.held.keep ?_) rfl rfl rfl rfl rfl rfl
    rw [hpc]
    rfl
  · refine ⟨hP.held.take hprocess hfree rfl rfl, shows_keep hP.shows hout, ?_, ?_, ?_⟩
    · exact hP.retired.keep (by rw [hstage]; rfl)
    · exact hP.queued.erase rfl
    · exact hP.destroyed.keep (by rw [hstage]; rfl)
  · refine hC.proceed rfl rfl rfl (fun t ht => ?_) (left_of_none rfl) trivial
    have hdemand : 3 ≤ (threads t).1.rank := by
      have hdemand := hC.demand ht
      rw [hstage] at hdemand
      exact hdemand
    have hnot : t ∉ counted := by
      intro hmem
      rw [hT.pending pid, countP_eq_zero] at hpending
      exact hpending t hmem (decide_eq_true ht)
    rw [hT.tracked.mem_iff, decide_eq_true_eq] at hnot
    show 6 ≤ (threads t).1.rank
    omega

theorem RetireInv.destroyProcess (h : RetireInv x) (hpc : x.pc cpu = .sweep (.destroyProcess pid)) :
    RetireInv ({ x with processesDestroyed := pid :: x.processesDestroyed }.goto cpu
      (.sweep .processes)) := by
  obtain ⟨threads, counted, procs, hT, hP, hC⟩ := h
  have hprocess : (x.pc cpu).process = some (pid, .destroying) := by
    rw [hpc]
    rfl
  have hlife := hP.held.of_pc hprocess
  have hout : x.procStatus pid = .out := by
    have hshows := hP.shows pid
    rw [hlife] at hshows
    exact hshows
  refine ⟨threads, counted, update procs pid (.destroyed, none), ?_, ?_, ?_⟩
  · refine hT.congr (hT.held.keep ?_) rfl rfl rfl rfl rfl rfl
    rw [hpc]
    rfl
  · refine ⟨hP.held.drop hprocess rfl rfl, shows_keep hP.shows hout, ?_, ?_, ?_⟩
    · exact hP.retired.keep (by rw [hlife]; rfl)
    · exact hP.queued.keep (by rw [hlife]; rfl)
    · exact hP.destroyed.add (by rw [hlife]; rfl) rfl
  · refine hC.proceed rfl rfl rfl (fun t ht => ?_) (left_of_none rfl) trivial
    have hdemand := hC.demand ht
    rw [hlife] at hdemand
    exact hdemand

end ProcSteps

section Steps

variable {x x' : RetireState} {cpu pid t waiter : ℕ} {ret : Option (ℕ × ℕ)} {memory : Bool}

theorem RetireInv.call (h : RetireInv x) (hpc : x.pc cpu = .idle) (f : RetireCall) :
    RetireInv (x.goto cpu f.pc) := by
  apply h.goto_none hpc <;> cases f <;> first | rfl | trivial

theorem RetireInv.claimed_of_pc (h : RetireInv x) {pc : RetirePc} {s : ThreadStage} (hcpu : x.pc cpu = pc)
    (hpc : pc.thread = some (t, s)) : x.claimed t = true := by
  obtain ⟨threads, counted, procs, hT, hP, hC⟩ := h
  rw [← hcpu] at hpc
  have hlife := hT.held.of_pc hpc
  have hbusy := hT.held.isSome t
  rw [← Bool.not_eq_false, ← hT.alive t]
  intro hzero
  rw [ThreadStage.eq_alive hzero, hlife] at hbusy
  cases hbusy

theorem RetireInv.killThread (h : RetireInv x) {stage : KillStage}
    (hpc : x.pc cpu = .killThread stage t ret) : RetireInv (x.killThread cpu t ret memory stage) := by
  cases stage with
  | claim =>
    show RetireInv (if x.claimed t = true then _ else _)
    split_ifs with hclaim
    · refine h.goto hpc afterKill_thread (afterKill_process (t := t)) (fun q l u hl hu halive => ?_)
        afterKill_quiet
      cases ret with
      | none => cases hl
      | some r =>
        cases hl
        refine (mem_cons.mp (h.mem_left hpc rfl hu halive)).resolve_left ?_
        rintro rfl
        rw [hclaim] at halive
        cases halive
    · exact h.claimThread hpc (Bool.not_eq_true _ ▸ hclaim)
  | remove =>
    have hclaimed := h.claimed_of_pc hpc rfl
    have h' := h.removeThreadFromProcess hclaimed memory
    have hpc' : (x.removeThreadFromProcess t memory).pc cpu = .killThread .remove t ret := by
      rw [removeThreadFromProcess_pc, hpc]
    refine h'.goto hpc' rfl rfl (fun q l u hl hu halive => ?_) trivial
    refine h'.mem_left hpc' ?_ hu halive
    rw [← hl]
    cases ret <;> rfl
  | out => exact h.outThread hpc
  | pending => exact h.countThread hpc
  | push => exact h.pushThread hpc

theorem RetireInv.exitLoop (h : RetireInv x) {i : ℕ} (hpc : x.pc cpu = .exit (.loop (i + 1)) pid)
    (hstep : x.exit cpu pid memory (.loop (i + 1)) = some x') : RetireInv x' := by
  simp only [RetireState.exit] at hstep
  split at hstep
  case h_1 hnone =>
    cases hstep
    have hlen : (x.childThreads pid).length ≤ i := List.getElem?_eq_none_iff.mp hnone
    -- the list has become shorter than the index, and there is nothing to remove
    have hsame : x.removeChild pid i memory = x := by
      unfold RetireState.removeChild
      split_ifs
      · rw [eraseIdx_of_length_le hlen, update_eq_self]
      · rfl
    rw [hsame]
    have h' : RetireInv (x.refreshChildThreadLinks pid) := h.irrelevant _ _ _ _
    refine h'.goto hpc rfl rfl (fun q l u hl hu halive => ?_) trivial
    cases hl
    have hmem := h.mem_left hpc rfl hu halive
    rw [take_of_length_le (Nat.le_succ_of_le hlen)] at hmem
    show u ∈ (x.childThreads pid).take i
    rw [take_of_length_le hlen]
    exact hmem
  case h_2 u hu =>
    have hleft : ∀ w, x.owner w = some pid → x.claimed w = false →
        w ∈ (x.childThreads pid).take i ∨ w = u := by
      intro w hw halive
      have hmem := h.mem_left hpc rfl hw halive
      rw [take_add_one, hu, mem_append, toList_some, mem_singleton] at hmem
      exact hmem
    split_ifs at hstep with hout
    · cases hstep
      refine h.goto hpc rfl rfl (fun q l w hl hw halive => ?_) trivial
      cases hl
      exact mem_cons.mpr (hleft w hw halive).symm
    · cases hstep
      refine h.goto hpc rfl rfl (fun q l w hl hw halive => ?_) trivial
      cases hl
      refine (hleft w hw halive).resolve_right ?_
      rintro rfl
      simp [claimed, not_not.mp hout] at halive

theorem RetireInv.exit (h : RetireInv x) {stage : ExitStage} (hpc : x.pc cpu = .exit stage pid)
    (hstep : x.exit cpu pid memory stage = some x') : RetireInv x' := by
  cases stage with
  | claim =>
    simp only [RetireState.exit] at hstep
    split_ifs at hstep with hkernel hstatus
    · cases hstep
      exact h.goto_none hpc rfl rfl rfl trivial
    · cases hstep
      exact h.goto_none hpc rfl rfl rfl trivial
    · cases hstep
      push Not at hstatus
      exact h.claimExit hpc hstatus.1 hstatus.2.1 hstatus.2.2
  | loop i =>
    cases i with
    | zero =>
      cases hstep
      refine h.goto hpc rfl rfl (fun q l u hl hu halive => ?_) trivial
      cases hl
      exact h.mem_left hpc rfl hu halive
    | succ i => exact h.exitLoop hpc hstep
  | reparent =>
    cases hstep
    have h' : RetireInv (x.reparentProcessChildren pid) := h.irrelevant _ _ _ _
    refine h'.goto hpc rfl rfl (fun q l u hl hu halive => ?_) trivial
    cases hl
    exact h.mem_left hpc rfl hu halive
  | zombie =>
    cases hstep
    exact h.announce hpc
  | send =>
    obtain ⟨parent, -, rfl⟩ := map_eq_some_iff.mp hstep
    have h' : RetireInv (x.ipcSend parent pid) := h.irrelevant _ _ _ _
    exact h'.goto_none hpc rfl rfl rfl trivial
  | final =>
    cases hstep
    exact h.finishExit hpc

theorem RetireInv.status_out (h : RetireInv x) {pc : RetirePc} (hcpu : x.pc cpu = pc)
    (hpc : pc.process = some (pid, .leaving)) (ht : t ∈ x.childThreads pid) : x.status t = .out := by
  obtain ⟨threads, counted, procs, hT, hP, hC⟩ := h
  rw [← hcpu] at hpc
  have hdemand := hC.demand (hC.owner ht)
  rw [hP.held.of_pc hpc] at hdemand
  exact hT.out t (Nat.le_of_succ_le hdemand)

theorem RetireInv.reap (h : RetireInv x) {stage : ReapStage} (hpc : x.pc cpu = .reap stage pid waiter)
    (hcalm : stage = .claim → ∀ c, ¬(x.pc c).Announces pid ∧ ¬(x.pc c).KillsThreadOf x pid) :
    RetireInv (x.reap cpu pid waiter memory stage) := by
  cases stage with
  | claim =>
    show RetireInv (if pid = x.kernel ∨ x.procStatus pid ≠ .zombie then _ else _)
    split_ifs with hfail
    · exact h.goto_none hpc rfl rfl rfl trivial
    · push Not at hfail
      exact h.claimReap hpc hfail.2 (hcalm rfl)
  | unlink =>
    exact (h.unlink hpc).irrelevant _ _ _ _
  | loop =>
    simp only [RetireState.reap]
    split
    case h_1 hnil => exact h.goto_none hpc rfl rfl rfl trivial
    case h_2 u rest hcons =>
      have hout : x.status u = .out := by
        refine h.status_out hpc rfl ?_
        rw [hcons]
        exact mem_cons_self
      rw [if_neg (not_not.mpr hout)]
      have h' : RetireInv (x.removeChild pid 0 memory) := by
        refine h.removeChild (fun w hw => ?_) memory
        rw [hcons] at hw
        cases hw
        simp [claimed, hout]
      refine h'.goto_none ?_ rfl rfl rfl trivial
      rw [← hpc]
      unfold RetireState.removeChild
      split_ifs <;> rfl
  | pending u =>
    obtain ⟨threads, counted, procs, hT, hP, hC⟩ := h
    have hquiet := hC.quiet cpu
    rw [hpc] at hquiet
    exact hquiet.elim
  | push u =>
    obtain ⟨threads, counted, procs, hT, hP, hC⟩ := h
    have hquiet := hC.quiet cpu
    rw [hpc] at hquiet
    exact hquiet.elim
  | clear =>
    have h' := h.irrelevant x.ctIndex x.parent
      (if memory then update x.listed pid false else x.listed) x.queue
    exact h'.goto_none hpc rfl rfl rfl trivial
  | enqueue => exact h.enqueueProcess hpc

theorem RetireInv.waitpid (h : RetireInv x) {stage : WaitStage} {wanted : Option ℕ}
    (hpc : x.pc cpu = .waitpid stage t wanted) (hcalm : (RetireOp.next cpu memory node).Calm x)
    (hstep : x.waitpid cpu t wanted stage = some x') : RetireInv x' := by
  simp only [RetireOp.Calm, hpc] at hcalm
  cases stage with
  | start nohang =>
    obtain ⟨process, -, hstep⟩ := bind_eq_some_iff.mp hstep
    cases hstep
    exact (h.setStatus hcalm (by decide) (by decide)).goto_none hpc rfl rfl rfl trivial
  | recv tries =>
    obtain ⟨process, -, hstep⟩ := bind_eq_some_iff.mp hstep
    split at hstep
    · cases hstep
      exact h.goto_none hpc rfl rfl rfl trivial
    · cases hstep
      exact h.goto_none hpc rfl rfl rfl trivial
    · cases hstep
      exact h
    · cases hstep
      exact (h.irrelevant x.ctIndex x.parent x.listed _).goto_none hpc rfl rfl rfl trivial
  | got tries message =>
    obtain ⟨process, -, hstep⟩ := bind_eq_some_iff.mp hstep
    split_ifs at hstep
    · cases hstep
      exact h.goto_none hpc rfl rfl rfl trivial
    · cases hstep
      exact (h.irrelevant x.ctIndex x.parent x.listed _).goto_none hpc rfl rfl rfl trivial
  | found message =>
    simp only [RetireState.waitpid] at hstep
    split_ifs at hstep
    · cases hstep
      exact h.goto_none hpc rfl rfl rfl trivial
    · cases hstep
      exact h.goto_none hpc rfl rfl rfl trivial
  | done =>
    cases hstep
    exact (h.setStatus hcalm (by decide) (by decide)).goto_none hpc rfl rfl rfl trivial

theorem RetireState.sweep_settle : x.sweep cpu node (.settle t) =
    { x with retiredThreadsPending := fun pid =>
        x.retiredThreadsPending pid - if x.owner t = some pid then 1 else 0 }.goto cpu
      (.sweep .threads) := by
  simp only [sweep]
  cases ho : x.owner t with
  | none => simp
  | some p =>
    have hfun : update x.retiredThreadsPending p (x.retiredThreadsPending p - 1) =
        fun pid => x.retiredThreadsPending pid - if some p = some pid then 1 else 0 := by
      funext pid
      by_cases hp : pid = p
      · rw [hp, update_self, if_pos rfl]
      · rw [update_of_ne hp, if_neg fun he => hp (Option.some.inj he).symm, Nat.sub_zero]
    dsimp only
    rw [hfun]

theorem RetireInv.sweep (h : RetireInv x) {stage : SweepStage} (hpc : x.pc cpu = .sweep stage) :
    RetireInv (x.sweep cpu node stage) := by
  cases stage with
  | threads =>
    simp only [RetireState.sweep]
    split
    · exact h.goto_none hpc rfl rfl rfl trivial
    · split
      · exact h
      case h_2 u hu => exact h.takeThread hpc hu
  | destroyThread u => exact h.destroyThread hpc
  | settle u =>
    rw [sweep_settle]
    exact h.settleThread hpc
  | processes =>
    simp only [RetireState.sweep]
    split
    · exact h.goto_none hpc rfl rfl rfl trivial
    · split
      · exact h
      case h_2 p hp =>
        split_ifs with hready
        · exact h.takeProcess hpc hp hready.1
        · exact h
  | destroyProcess p => exact h.destroyProcess hpc

theorem RetireInv.step (h : RetireInv x) (hcalm : op.Calm x) (hstep : x.step op = some x') : RetireInv x' := by
  cases op with
  | call cpu f =>
    simp only [RetireState.step] at hstep
    split_ifs at hstep with hidle
    cases hstep
    exact h.call hidle f
  | next cpu memory node =>
    simp only [RetireState.step] at hstep
    split at hstep
    case h_1 hpc => cases hstep
    case h_2 stage t ret hpc =>
      cases hstep
      exact h.killThread hpc
    case h_3 stage pid hpc => exact h.exit hpc hstep
    case h_4 stage pid waiter hpc =>
      cases hstep
      refine h.reap hpc fun hclaim => ?_
      rw [hclaim] at hpc
      simp only [RetireOp.Calm, hpc] at hcalm
      exact hcalm
    case h_5 stage t pid hpc => exact h.waitpid hpc hcalm hstep
    case h_6 stage hpc =>
      cases hstep
      exact h.sweep hpc

@[simp] theorem removeChild_procStatus (k : ℕ) : (x.removeChild pid k memory).procStatus = x.procStatus := by
  unfold removeChild
  split_ifs <;> rfl

theorem killThread_procStatus (stage : KillStage) :
    (x.killThread cpu t ret memory stage).procStatus = x.procStatus := by
  cases stage with
  | claim =>
    simp only [RetireState.killThread]
    split_ifs <;> rfl
  | remove =>
    show (x.removeThreadFromProcess t memory).procStatus = x.procStatus
    unfold removeThreadFromProcess
    split
    · rfl
    · split_ifs
      · rfl
      · exact removeChild_procStatus _
  | out | push => rfl
  | pending =>
    show (x.countRetired t).procStatus = x.procStatus
    rw [countRetired_eq]

theorem exit_procStatus {stage : ExitStage} (hstep : x.exit cpu pid memory stage = some x') :
    x'.procStatus = x.procStatus ∨ x'.procStatus = update x.procStatus pid .death ∨
      (stage = .zombie ∨ stage = .final) ∧ x'.procStatus = update x.procStatus pid .zombie := by
  unfold exit at hstep
  split at hstep
  · split_ifs at hstep <;> obtain rfl := Option.some.inj hstep
    · exact Or.inl rfl
    · exact Or.inl rfl
    · exact Or.inr (Or.inl rfl)
  · cases hstep
    exact Or.inl rfl
  · split at hstep
    · cases hstep
      exact Or.inl (removeChild_procStatus _)
    · split_ifs at hstep <;> obtain rfl := Option.some.inj hstep <;> exact Or.inl rfl
  · cases hstep
    exact Or.inl rfl
  · cases hstep
    exact Or.inr (Or.inr ⟨Or.inl rfl, rfl⟩)
  · obtain ⟨parent, -, rfl⟩ := map_eq_some_iff.mp hstep
    exact Or.inl rfl
  · cases hstep
    exact Or.inr (Or.inr ⟨Or.inr rfl, rfl⟩)

theorem reap_procStatus (stage : ReapStage) : (x.reap cpu pid waiter memory stage).procStatus = x.procStatus ∨
      ∃ status, status ≠ .zombie ∧
        (x.reap cpu pid waiter memory stage).procStatus = update x.procStatus pid status := by
  cases stage with
  | claim =>
    simp only [reap]
    split_ifs
    · exact Or.inl rfl
    · exact Or.inr ⟨.death, by decide, rfl⟩
  | unlink => exact Or.inr ⟨.out, by decide, rfl⟩
  | loop =>
    simp only [reap]
    split
    · exact Or.inl rfl
    · split_ifs <;> exact Or.inl (removeChild_procStatus _)
  | pending u =>
    show (x.countRetired u).procStatus = x.procStatus ∨ _
    rw [countRetired_eq]
    exact Or.inl rfl
  | push | clear | enqueue => exact Or.inl rfl

theorem waitpid_procStatus {stage : WaitStage} {wanted : Option ℕ}
    (hstep : x.waitpid cpu t wanted stage = some x') : x'.procStatus = x.procStatus := by
  cases stage with
  | start nohang =>
    obtain ⟨process, -, hstep⟩ := bind_eq_some_iff.mp hstep
    cases hstep
    rfl
  | recv tries =>
    obtain ⟨process, -, hstep⟩ := bind_eq_some_iff.mp hstep
    split at hstep <;> obtain rfl := Option.some.inj hstep <;> rfl
  | got tries message =>
    obtain ⟨process, -, hstep⟩ := bind_eq_some_iff.mp hstep
    split_ifs at hstep <;> obtain rfl := Option.some.inj hstep <;> rfl
  | found message =>
    simp only [waitpid] at hstep
    split_ifs at hstep <;> obtain rfl := Option.some.inj hstep <;> rfl
  | done =>
    cases hstep
    rfl

theorem sweep_procStatus (stage : SweepStage) : (x.sweep cpu node stage).procStatus = x.procStatus := by
  unfold sweep
  split
  · split
    · rfl
    · split <;> rfl
  · rfl
  · split <;> rfl
  · split
    · rfl
    · split
      · rfl
      · split_ifs <;> rfl
  · rfl

theorem procStatus_zombie (hstep : x.step op = some x') (hzombie : x'.procStatus pid = .zombie) :
    x.procStatus pid = .zombie ∨
      ∃ cpu, (x.pc cpu).process = some (pid, .exiting) ∨ (x.pc cpu).process = some (pid, .announced) := by
  -- a write of another status, or to another process, does not make `pid` a zombie
  have hother : ∀ q status, status ≠ .zombie → x'.procStatus = update x.procStatus q status →
      x.procStatus pid = .zombie := by
    intro q status hstatus hwrite
    rw [hwrite] at hzombie
    by_cases hq : pid = q
    · rw [hq, update_self] at hzombie
      exact absurd hzombie hstatus
    · rw [update_of_ne hq] at hzombie
      exact hzombie
  cases op with
  | call cpu f =>
    simp only [step] at hstep
    split_ifs at hstep
    cases hstep
    exact Or.inl hzombie
  | next cpu memory node =>
    simp only [step] at hstep
    split at hstep
    case h_1 hpc => cases hstep
    case h_2 stage t ret hpc =>
      cases hstep
      rw [killThread_procStatus] at hzombie
      exact Or.inl hzombie
    case h_3 stage q hpc =>
      obtain hsame | hdeath | ⟨hstage, hwrite⟩ := exit_procStatus hstep
      · rw [hsame] at hzombie
        exact Or.inl hzombie
      · exact Or.inl (hother q .death (by decide) hdeath)
      · by_cases hq : pid = q
        · refine Or.inr ⟨cpu, ?_⟩
          rw [hpc, hq]
          obtain hs | hs := hstage
          · rw [hs]
            exact Or.inl rfl
          · rw [hs]
            exact Or.inr rfl
        · rw [hwrite, update_of_ne hq] at hzombie
          exact Or.inl hzombie
    case h_4 stage q waiter hpc =>
      cases hstep
      obtain hsame | ⟨status, hstatus, hwrite⟩ := reap_procStatus stage
      · rw [hsame] at hzombie
        exact Or.inl hzombie
      · exact Or.inl (hother q status hstatus hwrite)
    case h_5 stage t q hpc =>
      rw [waitpid_procStatus hstep] at hzombie
      exact Or.inl hzombie
    case h_6 stage hpc =>
      cases hstep
      rw [sweep_procStatus] at hzombie
      exact Or.inl hzombie

theorem RetireInv.out_stays (h : RetireInv x) (hstep : x.step op = some x') (hout : x.procStatus pid = .out) :
    x'.procStatus pid ≠ .zombie := by
  obtain ⟨threads, counted, procs, hT, hP, hC⟩ := h
  have hshows := hP.shows pid
  rw [hout] at hshows
  intro hzombie
  obtain hold | ⟨cpu, hpc | hpc⟩ := procStatus_zombie hstep hzombie
  · rw [hout] at hold
    cases hold
  · rw [hP.held.of_pc hpc] at hshows
    cases hshows
  · rw [hP.held.of_pc hpc] at hshows
    cases hshows

end Steps

structure RetireStart (x : RetireState) : Prop where
  idle : ∀ cpu, x.pc cpu = .idle
  alive : ∀ t, x.claimed t = false
  live : ∀ pid, x.procStatus pid ≠ .death ∧ x.procStatus pid ≠ .out ∧ x.procStatus pid ≠ .zombie
  child : ∀ pid t, t ∈ x.childThreads pid ↔ x.owner t = some pid
  nodup : ∀ pid, (x.childThreads pid).Nodup
  pending : ∀ pid, x.retiredThreadsPending pid = 0
  threads : x.retiredThreads = [] ∧ x.threadsRetired = [] ∧ x.threadsDestroyed = []
  processes : x.retiredProcesses = [] ∧ x.processesRetired = [] ∧ x.processesDestroyed = []

section Runs

variable {x x' : RetireState} {ops : List RetireOp}

theorem tracks_nil {S : Type} {q : S → Bool} {s : S} (h : q s = false) :
    Tracks [] q (fun _ => (s, none) : Stages S) where
  nodup := nodup_nil
  mem_iff i := by
    rw [h]
    simp

theorem held_idle {S : Type} {holds : RetirePc → Option (ℕ × S)} {busy : S → Bool} {s : S}
    {pc : ℕ → RetirePc} (hidle : ∀ cpu, pc cpu = .idle) (hnone : holds .idle = none) (hs : busy s = false) :
    Custody.Held holds busy pc (fun _ => (s, none)) where
  of_pc := by
    intro c i r hc
    rw [hidle, hnone] at hc
    cases hc
  of_life := by
    intro c i r hi
    cases hi
  isSome := by
    intro i
    rw [hs]
    rfl

theorem RetireStart.inv (h : RetireStart x) : RetireInv x := by
  obtain ⟨hqueued, hretired, hdestroyed⟩ := h.threads
  obtain ⟨hqueued', hretired', hdestroyed'⟩ := h.processes
  refine ⟨fun _ => (.alive, none), [], fun _ => (.live, none), ?_, ?_, ?_⟩
  · refine ⟨held_idle h.idle rfl rfl, ?_, ?_, ?_, ?_, ?_, tracks_nil rfl, h.pending⟩
    · exact fun t => iff_of_true rfl (h.alive t)
    · intro t ht
      exact absurd ht (by decide)
    · rw [hretired]
      exact tracks_nil rfl
    · rw [hqueued]
      exact tracks_nil rfl
    · rw [hdestroyed]
      exact tracks_nil rfl
  · refine ⟨held_idle h.idle rfl rfl, h.live, ?_, ?_, ?_⟩
    · rw [hretired']
      exact tracks_nil rfl
    · rw [hqueued']
      exact tracks_nil rfl
    · rw [hdestroyed']
      exact tracks_nil rfl
  · refine ⟨fun ht => (h.child _ _).mp ht, h.nodup, fun ht _ => (h.child _ _).mpr ht,
      fun _ => Nat.zero_le _, ?_, ?_⟩
    · intro cpu pid l t hl
      rw [h.idle] at hl
      cases hl
    · intro cpu
      rw [h.idle]
      trivial

theorem RetireInv.retiredOnce (h : RetireInv x) : RetiredOnce x := by
  obtain ⟨threads, counted, procs, hT, hP, hC⟩ := h
  refine ⟨hT.retired.nodup, hT.destroyed.nodup, hP.retired.nodup, hP.destroyed.nodup, ?_⟩
  intro pid hpid t ht
  have hstage : (procs pid).1 = .destroyed := by
    have hrank := of_decide_eq_true ((hP.destroyed.mem_iff pid).mp hpid)
    cases hs : (procs pid).1 <;> rw [hs] at hrank <;> first | rfl | exact absurd hrank (by decide)
  have hdemand := hC.demand ht
  rw [hstage] at hdemand
  exact (hT.destroyed.mem_iff t).mpr (decide_eq_true hdemand)

theorem RetireInv.run (h : RetireStart x) (hok : Runs.Meets RetireState.step RetireOp.Calm ops x)
    (hrun : Runs.run RetireState.step ops x = some x') : RetireInv x' :=
  Runs.run_keeps (fun _ _ _ hs hop => hs.step hop) h.inv hok hrun

/-- In every calm run threads and processes are retired and destroyed once, a process after its
threads, and a process that is out does not become a zombie again. -/
theorem retired_once (h : RetireStart x) (hok : Runs.Meets RetireState.step RetireOp.Calm ops x)
    (hrun : Runs.run RetireState.step ops x = some x') : RetiredOnce x' ∧
      ∀ done op x₁ x₂, done ++ [op] <+: ops → Runs.run RetireState.step done x = some x₁ →
        x₁.step op = some x₂ → ∀ pid, x₁.procStatus pid = .out → x₂.procStatus pid ≠ .zombie := by
  refine ⟨(RetireInv.run h hok hrun).retiredOnce, ?_⟩
  intro done op x₁ x₂ hprefix hdone hstep pid hout
  have hok₁ := hok.of_isPrefix ((List.prefix_append done [op]).trans hprefix)
  exact (RetireInv.run h hok₁ hdone).out_stays hstep hout

end Runs

/-- A process with one thread, and its child with two threads. -/
def RetireState.family : RetireState where
  status _ := .running
  owner t := [1, 2, 2][t]?
  ctIndex t := t - 1
  procStatus _ := .running
  parent pid := if pid = 0 then none else some (pid - 1)
  childThreads pid := [[], [0], [1, 2]].getD pid []
  retiredThreadsPending _ := 0
  listed _ := true
  queue _ := []
  kernel := 0
  retiredThreads := []
  retiredProcesses := []
  pc _ := .idle
  threadsRetired := []
  threadsDestroyed := []
  processesRetired := []
  processesDestroyed := []

theorem RetireStart.family : RetireStart RetireState.family where
  idle _ := rfl
  alive _ := rfl
  live _ := ⟨nofun, nofun, nofun⟩
  child := by
    intro pid t
    rcases pid with _ | _ | _ | pid <;> rcases t with _ | _ | _ | t <;> simp [RetireState.family]
  nodup := by
    intro pid
    rcases pid with _ | _ | _ | pid <;> simp [RetireState.family]
  pending _ := rfl
  threads := ⟨rfl, rfl, rfl⟩
  processes := ⟨rfl, rfl, rfl⟩

/-- A processor makes `n` steps, in which the allocations succeed and the first retired entry is
ready. -/
def RetireOp.steps (cpu n : ℕ) : List RetireOp := List.replicate n (.next cpu true (some 0))

/-- The child exits, the parent reaps it, and both threads and the child are destroyed. -/
def RetireOp.exitAndReap : List RetireOp :=
  .call 0 (.killProc 2) :: RetireOp.steps 0 18 ++ .call 1 (.waitpid 0 none false) :: RetireOp.steps 1 10 ++
    .call 0 .taskReapRetired :: RetireOp.steps 0 6 ++ .next 0 true none :: RetireOp.steps 0 2

theorem retired_once_exitAndReap : RetireStart RetireState.family ∧ ∃ x',
    Runs.run RetireState.step RetireOp.exitAndReap RetireState.family = some x' ∧ RetiredOnce x' ∧
      x'.threadsDestroyed = [2, 1] ∧ x'.processesDestroyed = [2] := by
  have hok : Runs.Meets RetireState.step RetireOp.Calm RetireOp.exitAndReap RetireState.family := by
    unfold RetireOp.exitAndReap
    iterate 20 refine Runs.Meets.cons trivial rfl ?_
    refine Runs.Meets.cons rfl rfl ?_
    iterate 3 refine Runs.Meets.cons trivial rfl ?_
    refine Runs.Meets.cons ?_ rfl ?_
    · rintro (_ | _ | cpu)
      · exact ⟨id, id⟩
      · exact ⟨id, id⟩
      · exact ⟨id, id⟩
    iterate 4 refine Runs.Meets.cons trivial rfl ?_
    refine Runs.Meets.cons rfl rfl ?_
    iterate 10 refine Runs.Meets.cons trivial rfl ?_
    trivial
  refine ⟨RetireStart.family, _, rfl, (retired_once RetireStart.family hok rfl).1, ?_, ?_⟩
  · decide
  · decide

/-- Three runs from the same state. A parent reaps its child before `kill_proc` stores `T_ZOMBIE` for
the second time. A thread is killed while it is in `waitpid`, goes on and exits once more. And
`kill_proc0` retires a thread that is in the middle of `kill_thread`. -/
theorem retired_twice :
    (∃ x₁ x₂, Runs.run RetireState.step (.call 0 (.killProc 2) :: RetireOp.steps 0 17 ++
        .call 1 (.waitpid 0 none false) :: RetireOp.steps 1 6) RetireState.family = some x₁ ∧
      x₁.step (.next 0 true none) = some x₂ ∧ x₁.procStatus 2 = .out ∧ x₂.procStatus 2 = .zombie) ∧
    (∃ x', Runs.run RetireState.step (.call 1 (.waitpid 1 none true) :: RetireOp.steps 1 1 ++
        .call 0 (.killThread 1) :: RetireOp.steps 0 5 ++ RetireOp.steps 1 2 ++
        .call 1 (.killThread 1) :: RetireOp.steps 1 5) RetireState.family = some x' ∧
      x'.threadsRetired = [1, 1]) ∧
    ∃ x', Runs.run RetireState.step (.call 1 (.killThread 1) :: RetireOp.steps 1 1 ++
        .call 0 (.killProc 2) :: RetireOp.steps 0 14 ++
        .call 2 (.waitpid 0 none false) :: RetireOp.steps 2 9 ++ RetireOp.steps 1 4)
        RetireState.family = some x' ∧ x'.threadsRetired = [1, 1, 2] := by
  refine ⟨⟨_, _, rfl, rfl, ?_, ?_⟩, ⟨_, rfl, ?_⟩, ⟨_, rfl, ?_⟩⟩ <;> decide

end CoolPotOS
