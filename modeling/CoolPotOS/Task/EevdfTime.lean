import CoolPotOS.Task.EevdfTick

namespace CoolPotOS

open RbTree Function List Option

/-- The scheduler and a record of the time: the entity whose thread the last pick has returned,
the clock at that time, and for every entity the account it started with and the time
that its thread was the one selected to run, up to the slice in progress. -/
structure TimedEevdf where
  sched : Eevdf
  running : Option ℕ
  since : ℕ
  started : ℕ → ℕ
  used : ℕ → ℕ

def timedRun (x : TimedEevdf) (op : EevdfOp) : Option TimedEevdf :=
  (op.run x.sched).map fun s =>
    match op with
    | .add _ _ _ id raw =>
      { x with
        sched := s
        started := Function.update x.started id raw.sumExecRuntime
        used := Function.update x.used id 0 }
    | .pick now now' =>
      { x with
        sched := s
        running := s.current
        since := now'
        used := match x.running with
          | none => x.used
          | some r => Function.update x.used r (x.used r + (now - x.since)) }
    | _ => { x with sched := s }

def timedInit (apIdle now id : ℕ) (raw : SchedEntity) : Option TimedEevdf :=
  (initCpuIdle apIdle now id raw).map fun s =>
    { sched := s
      running := some id
      since := now
      started := fun _ => raw.sumExecRuntime
      used := fun _ => 0 }

/-- The increments of every account add up to the time that the thread has been selected; the
accounts are 64-bit words. -/
def TimeCharged (x : TimedEevdf) : Prop :=
  ∀ id se, x.sched.entities id = some se →
    se.sumExecRuntime ≡ x.started id + x.used id [MOD 2 ^ 64]

/-- Without the entity at `id`, the current entity is still the one to run: it is another
one, and it comes first in what is left of the tree, or before the first. -/
def KeepsCurrent (s : Eevdf) (id : ℕ) : Prop :=
  ∃ c ∈ s.current, c ≠ id ∧ ∀ d ∈ ((inorder s.root).filter (· ≠ id)).head?,
    d = c ∨ entityBefore (s.get c) (s.get d) = true

instance (s : Eevdf) (id : ℕ) : Decidable (KeepsCurrent s id) :=
  inferInstanceAs (Decidable (∃ c ∈ s.current, c ≠ id ∧ _))

/-- The clock goes on, by less than `2 ^ 63` in a slice, and no entity leaves the queue that
the choice of the current entity depends on. -/
def ChargesRunning (x : TimedEevdf) : EevdfOp → Prop
  | .block thread _ => ∀ id ∈ x.sched.schedHandle thread, ∀ se ∈ x.sched.entities id,
      se.onRq = true → KeepsCurrent x.sched id
  | .remove thread _ _ _ => ∀ id ∈ x.sched.schedHandle thread, KeepsCurrent x.sched id
  | .pick now now' => x.since ≤ now ∧ now ≤ now' ∧ now' < 2 ^ 64 ∧ now - x.since < 2 ^ 63
  | _ => True

instance (x : TimedEevdf) : (op : EevdfOp) → Decidable (ChargesRunning x op)
  | .block thread _ => inferInstanceAs (Decidable (∀ id ∈ x.sched.schedHandle thread,
      ∀ se ∈ x.sched.entities id, se.onRq = true → KeepsCurrent x.sched id))
  | .remove thread _ _ _ => inferInstanceAs (Decidable (∀ id ∈ x.sched.schedHandle thread,
      KeepsCurrent x.sched id))
  | .pick now now' => inferInstanceAs (Decidable (x.since ≤ now ∧ now ≤ now' ∧ _))
  | .add .. => inferInstanceAs (Decidable True)
  | .wake .. => inferInstanceAs (Decidable True)
  | .reweight .. => inferInstanceAs (Decidable True)
  | .yield .. => inferInstanceAs (Decidable True)

/-- The current entity, the accounts and the clocks are the same. -/
structure SameAccounts (s s' : Eevdf) : Prop where
  current : s'.current = s.current
  account : ∀ j se', s'.entities j = some se' → ∃ se, s.entities j = some se ∧
    se'.sumExecRuntime = se.sumExecRuntime ∧ se'.execStart = se.execStart

variable {P : Prop} {s s' s'' : Eevdf} {id thread : ℕ}

variable {se : SchedEntity} {heap : List Bool} {now : ℕ} {x : TimedEevdf}

namespace SameAccounts

theorem refl (s : Eevdf) : SameAccounts s s := ⟨rfl, fun _ se hse => ⟨se, hse, rfl, rfl⟩⟩

theorem trans (h : SameAccounts s s') (h' : SameAccounts s' s'') : SameAccounts s s'' := by
  refine ⟨h'.current.trans h.current, fun j se'' hse'' => ?_⟩
  obtain ⟨se', hse', hsum', hstart'⟩ := h'.account j se'' hse''
  obtain ⟨se, hse, hsum, hstart⟩ := h.account j se' hse'
  exact ⟨se, hse, hsum'.trans hsum, hstart'.trans hstart⟩

theorem of_set (se' : SchedEntity) (hse : s.entities id = some se)
    (hsum : se'.sumExecRuntime = se.sumExecRuntime) (hstart : se'.execStart = se.execStart)
    (hcur : s'.current = s.current) (hent : s'.entities = (s.set id se').entities) : SameAccounts s s' := by
  refine ⟨hcur, fun j x hx => ?_⟩
  rw [hent] at hx
  by_cases hj : j = id
  · obtain rfl : se' = x := by simpa [hj] using hx
    exact ⟨se, hj ▸ hse, hsum, hstart⟩
  · exact ⟨x, by simpa [hj] using hx, rfl, rfl⟩

end SameAccounts

theorem repick_eq (hinv : EevdfInv P s) {root : RbTree.Tree ℕ} (herase : erase id s.root = some root)
    (h : KeepsCurrent s id) : repick s id root = s.current := by
  obtain ⟨c, hcur, hne, hfirst⟩ := h
  rw [mem_def] at hcur
  have hid : id ∈ inorder s.root := by
    by_contra hid
    rw [RbTree.erase_eq_none hid] at herase
    cases herase
  obtain ⟨root', a, b, herase', hold, hnew⟩ := erase_spec hid
  obtain rfl : root' = root := Option.some.inj (herase'.symm.trans herase)
  have hnot : id ∉ a ++ b := (nodup_cons.mp (nodup_middle.mp (hold ▸ hinv.nodup))).1
  -- what is left of the tree
  have hrest : (inorder s.root).filter (· ≠ id) = inorder root' := by
    rw [hold, hnew, filter_append, filter_cons_of_neg (by simp), ← filter_append]
    apply filter_eq_self.mpr
    intro d hd
    simpa using fun hdi : d = id => hnot (hdi ▸ hd)
  rw [hrest, ← first_eq] at hfirst
  unfold repick
  refine (pickEevdf_eq ?_).trans ?_
  · exact hinv.avgLoad
  have hcur' : (if s.current = some id then none else s.current) = some c := by
    rw [hcur, if_neg (by simpa using hne)]
  simp only [Eevdf.select_root, Eevdf.set_root, Eevdf.withRoot_root, Eevdf.select_current, hcur']
  cases hd : first root' with
  | none => exact hcur.symm
  | some d =>
    have hdi : d ≠ id := by
      have hmem : d ∈ inorder root' := List.mem_of_mem_head? (by rw [← first_eq]; exact hd)
      exact fun hdi => hnot (hnew ▸ hdi ▸ hmem)
    have hget : ∀ j, j ≠ id → (((s.withRoot root').set id
        { s.get id with onRq := false }).select (some c)).get j = s.get j := fun j hj =>
      Eevdf.get_set_of_ne (s.withRoot root') _ hj
    rcases hfirst d hd with rfl | hbefore
    · simp [hcur]
    · simp only [hget c hne, hget d hdi, hbefore, if_true, hcur]

theorem SameAccounts.removeSchedEntity (hinv : EevdfInv P s) (h : KeepsCurrent s id)
    (hrun : CoolPotOS.removeSchedEntity s id = some s') : SameAccounts s s' := by
  have hid : id ∈ inorder s.root := by
    by_contra hid
    rw [removeSchedEntity_eq_none hid] at hrun
    cases hrun
  obtain ⟨se, hse, -⟩ := hinv.entity hid
  obtain ⟨root, -, -, herase, -⟩ := erase_spec hid
  obtain ⟨m, a, v, heq⟩ := removeSchedEntity_eq s id herase
  rw [hrun] at heq
  have hs' := Option.some.inj heq
  refine SameAccounts.of_set { s.get id with onRq := false, minVruntime := v } hse ?_ ?_ ?_ ?_
  · rw [Eevdf.get_eq hse]
  · rw [Eevdf.get_eq hse]
  · rw [hs']
    exact repick_eq hinv herase h
  · rw [hs']
    rfl

theorem clock_setLoadWeight {se' : SchedEntity} (h : setLoadWeight se = some se') :
    se'.sumExecRuntime = se.sumExecRuntime ∧ se'.execStart = se.execStart := by
  unfold setLoadWeight at h
  split at h
  · cases h
    exact ⟨rfl, rfl⟩
  split at h
  · cases h
  obtain ⟨weight, -, h⟩ := bind_eq_some_iff.mp h
  obtain ⟨wmult, -, h⟩ := bind_eq_some_iff.mp h
  cases h
  exact ⟨rfl, rfl⟩

theorem execStart_updateDeadline (se : SchedEntity) : (updateDeadline se).2.execStart = se.execStart := by
  have hfair : ∀ delta (se : SchedEntity), (calcDeltaFair delta se).2.execStart = se.execStart := by
    intro delta se
    unfold calcDeltaFair
    split <;> rfl
  unfold updateDeadline
  split
  · rfl
  · split
    · exact hfair _ { se with slice := sysctlSchedBaseSlice }
    · exact hfair _ se

theorem SameAccounts.block (hinv : EevdfInv P s)
    (hkeep : ∀ id ∈ s.schedHandle thread, ∀ se ∈ s.entities id, se.onRq = true → KeepsCurrent s id)
    (hrun : waitEevdfEntity s thread heap = some s') : SameAccounts s s' := by
  unfold waitEevdfEntity at hrun
  cases ht : s.schedHandle thread with
  | none =>
    rw [ht] at hrun
    cases hrun
    exact .refl s
  | some id =>
    obtain ⟨se, hse⟩ := hinv.handle thread id ht
    simp only [ht, hse, bind_eq_bind, bind_some, Option.pure_def] at hrun
    by_cases hrq : se.onRq = true
    · rw [if_neg (by simp [hrq])] at hrun
      obtain ⟨s1, hrem, hrun⟩ := bind_eq_some_iff.mp hrun
      have h1 := SameAccounts.removeSchedEntity hinv (hkeep id ht se hse hrq) hrem
      refine h1.trans ?_
      obtain ⟨s1', v, hrem', -, -, hent, -⟩ := hinv.remove ((hinv.mem_iff id).mpr ⟨se, hse, hrq⟩)
      obtain rfl : s1' = s1 := Option.some.inj (hrem'.symm.trans hrem)
      have hse1 : s1'.entities id = some { s.get id with onRq := false, minVruntime := v } := by
        rw [hent]
        simp
      rw [← Option.some.inj hrun]
      refine .of_set { s1'.get id with
        waitIndex := (cowListAdd s1'.waitQueue id heap).1.2 } hse1 ?_ ?_ rfl rfl
      · rw [Eevdf.get_eq hse1]
      · rw [Eevdf.get_eq hse1]
    · rw [if_pos (by simpa using hrq)] at hrun
      cases hrun
      exact .refl s

theorem SameAccounts.wake (hinv : EevdfInv P s) (hrun : futexEevdfEntity s thread heap = some s') :
    SameAccounts s s' := by
  unfold futexEevdfEntity at hrun
  cases ht : s.schedHandle thread with
  | none =>
    rw [ht] at hrun
    cases hrun
    exact .refl s
  | some id =>
    obtain ⟨se, hse⟩ := hinv.handle thread id ht
    simp only [ht, hse, bind_eq_bind, bind_some, Option.pure_def] at hrun
    split at hrun
    · cases hrun
      exact .refl s
    · rw [← Option.some.inj hrun]
      exact .of_set { se with onRq := true } hse rfl rfl rfl rfl

theorem SameAccounts.reweight {prio : ℕ} (hrun : changeEntityWeight s thread prio = some s') :
    SameAccounts s s' := by
  obtain ⟨id, -, hrun⟩ := bind_eq_some_iff.mp hrun
  obtain ⟨se, hse, hrun⟩ := bind_eq_some_iff.mp hrun
  split at hrun
  · cases hrun
    exact .refl s
  · obtain ⟨se', hse', hrun⟩ := bind_eq_some_iff.mp hrun
    obtain ⟨hsum, hstart⟩ := clock_setLoadWeight hse'
    obtain ⟨hent, -⟩ := entities_requeueSchedEntity hrun
    have hcur : s'.current = s.current := by
      unfold requeueSchedEntity eraseSchedEntity at hrun
      obtain ⟨t, ht, rfl⟩ := map_eq_some_iff.mp hrun
      obtain ⟨root, -, rfl⟩ := map_eq_some_iff.mp ht
      rfl
    exact .of_set _ hse hsum hstart hcur hent

theorem SameAccounts.yield (hrun : setEntityYield s thread = some s') : SameAccounts s s' := by
  obtain ⟨id, -, hrun⟩ := bind_eq_some_iff.mp hrun
  obtain ⟨se, hse, hrun⟩ := bind_eq_some_iff.mp hrun
  rw [← Option.some.inj hrun]
  exact .of_set { se with isYield := true } hse rfl rfl rfl rfl

theorem SameAccounts.removeEntity (hinv : EevdfInv P s)
    (hkeep : ∀ id ∈ s.schedHandle thread, KeepsCurrent s id)
    (hrun : removeEevdfEntity s thread = some s') : SameAccounts s s' := by
  unfold removeEevdfEntity at hrun
  cases ht : s.schedHandle thread with
  | none =>
    rw [ht] at hrun
    cases hrun
    exact .refl s
  | some id =>
    simp only [ht] at hrun
    obtain ⟨s1, hrem, hrun⟩ := bind_eq_some_iff.mp hrun
    refine (SameAccounts.removeSchedEntity hinv (hkeep id ht) hrem).trans ?_
    rw [← Option.some.inj hrun]
    refine ⟨rfl, fun j se hse => ⟨se, ?_, rfl, rfl⟩⟩
    by_cases hj : j = id
    · simp [hj] at hse
    · simpa [hj] using hse

theorem KeepsCurrent.wake (hinv : EevdfInv P s) (hrun : futexEevdfEntity s thread heap = some s')
    (hid : s.schedHandle thread = some id) (h : KeepsCurrent s id) : KeepsCurrent s' id := by
  obtain ⟨se, hse⟩ := hinv.handle thread id hid
  unfold futexEevdfEntity at hrun
  simp only [hid, hse, bind_eq_bind, bind_some, Option.pure_def] at hrun
  by_cases hrq : se.onRq = true
  · rw [if_pos hrq] at hrun
    cases hrun
    exact h
  rw [if_neg hrq] at hrun
  have hs' := Option.some.inj hrun
  have hget : ∀ j, j ≠ id → s'.get j = s.get j := by
    intro j hj
    rw [← hs']
    exact Eevdf.get_set_of_ne s _ hj
  have hfilter : (inorder s'.root).filter (· ≠ id) = (inorder s.root).filter (· ≠ id) := by
    obtain ⟨goLeft, hroot⟩ : ∃ goLeft, s'.root = RbTree.insert goLeft id s.root := by
      rw [← hs']
      exact ⟨_, rfl⟩
    obtain ⟨a, b, hold, hnew⟩ := inorder_insert_perm goLeft id s.root
    rw [hroot, hnew, hold, filter_append, filter_cons_of_neg (by simp), ← filter_append]
  obtain ⟨c, hcur, hne, hfirst⟩ := h
  refine ⟨c, by rw [← hs']; exact hcur, hne, fun d hd => ?_⟩
  rw [hfilter] at hd
  have hdi : d ≠ id := by
    simpa using (mem_filter.mp (List.mem_of_mem_head? hd)).2
  rw [hget c hne, hget d hdi]
  exact hfirst d hd

theorem SameAccounts.remove {status : TaskStatus} {sleepDeadline : ℕ} (hinv : EevdfInv P s)
    (hkeep : ∀ id ∈ s.schedHandle thread, KeepsCurrent s id)
    (hrun : removeTask s thread status sleepDeadline heap = some s') : SameAccounts s s' := by
  unfold removeTask at hrun
  split at hrun
  · obtain ⟨s1, hwake, hrem⟩ := bind_eq_some_iff.mp hrun
    obtain ⟨s1', hwake', hinv1, hhandle, -⟩ := hinv.keeps_wake thread heap
    obtain rfl : s1' = s1 := Option.some.inj (hwake'.symm.trans hwake)
    refine (SameAccounts.wake hinv hwake).trans (SameAccounts.removeEntity hinv1 ?_ hrem)
    intro id hid
    rw [hhandle] at hid
    exact (hkeep id hid).wake hinv hwake hid
  · exact SameAccounts.removeEntity hinv hkeep hrun

theorem updateCurrSe_sum {since : ℕ} (hstart : se.execStart = since) (hle : since ≤ now) (hword : now < 2 ^ 64)
    (hslice : now - since < 2 ^ 63) :
    (updateCurrSe se now).2.sumExecRuntime ≡ se.sumExecRuntime + (now - since) [MOD 2 ^ 64] := by
  have hsub : wrapSub now se.execStart = now - since := by
    unfold wrapSub
    rw [hstart, show now + (2 ^ 64 - since) = now - since + 2 ^ 64 by omega, Nat.add_mod_right,
      Nat.mod_eq_of_lt (by omega)]
  have hdelta : signed (wrapSub now se.execStart) = ((now - since : ℕ) : ℤ) := by
    rw [hsub]
    exact if_pos hslice
  unfold updateCurrSe
  simp only [hdelta]
  by_cases hzero : now - since = 0
  · rw [hzero]
    exact Nat.ModEq.refl _
  · rw [if_neg (by omega)]
    exact Nat.mod_modEq _ _

/-- What holds between the operations: the current entity is the one selected, and its clock
was read at the pick. -/
structure TimedInv (x : TimedEevdf) : Prop where
  inv : EevdfInv False x.sched
  current : x.sched.current = x.running
  clock : ∀ c se, x.running = some c → x.sched.entities c = some se → se.execStart = x.since
  accounts : TimeCharged x

theorem TimedInv.same (h : TimedInv x) (hinv : EevdfInv False s') (hsame : SameAccounts x.sched s') :
    TimedInv { x with sched := s' } where
  inv := hinv
  current := hsame.current.trans h.current
  clock := by
    intro c se' hc hse'
    obtain ⟨se, hse, -, hstart⟩ := hsame.account c se' hse'
    exact hstart.trans (h.clock c se hc hse)
  accounts := by
    intro j se' hse'
    obtain ⟨se, hse, hsum, -⟩ := hsame.account j se' hse'
    rw [hsum]
    exact h.accounts j se hse

theorem TimedInv.add (h : TimedInv x) (hinv : EevdfInv False s') {prio : ℕ} {raw : SchedEntity}
    (hfree : x.sched.entities id = none) (hprio : ValidPrio prio)
    (hrun : addEevdfEntityWithPrio x.sched thread prio now id raw = some s') :
    TimedInv { x with
      sched := s'
      started := update x.started id raw.sumExecRuntime
      used := update x.used id 0 } := by
  obtain ⟨se, hse, -, -, hsum⟩ := newEntity_spec raw thread x.sched.minVruntime now hprio.1 hprio.2
  rw [addEevdfEntityWithPrio, hse] at hrun
  have hcur : s'.current = x.sched.current := by
    rw [← Option.some.inj hrun]
    rfl
  have hent : s'.entities = (x.sched.set id se).entities := by
    rw [← Option.some.inj hrun]
    rfl
  refine ⟨hinv, hcur.trans h.current, fun c se' hc hse' => ?_, fun j se' hse' => ?_⟩
  · have hci : c ≠ id := by
      rintro rfl
      have hmem := h.inv.current_mem c (h.current.trans hc)
      obtain ⟨y, hy, -⟩ := h.inv.entity hmem
      rw [hfree] at hy
      cases hy
    exact h.clock c se' hc (by simpa [hent, hci] using hse')
  · by_cases hj : j = id
    · have hse'' : se = se' := by simpa [hent, hj] using hse'
      simp only [hj, update_self, ← hse'', hsum]
      exact Nat.ModEq.refl _
    · simp only [ne_eq, hj, not_false_eq_true, update_of_ne]
      exact h.accounts j se' (by simpa [hent, hj] using hse')

theorem TimedInv.pick (h : TimedInv x) (hinv : EevdfInv False s') {now' t : ℕ}
    (hclock : x.since ≤ now ∧ now ≤ now' ∧ now' < 2 ^ 64 ∧ now - x.since < 2 ^ 63)
    (hrun : eevdfPickNextTask x.sched now now' = some (s', t)) :
    TimedInv { x with
      sched := s'
      running := s'.current
      since := now'
      used := match x.running with
        | none => x.used
        | some r => update x.used r (x.used r + (now - x.since)) } := by
  obtain ⟨-, hkept, c, se, hc, hse, hstart⟩ := eevdfPickNextTask_charged h.inv hrun
  refine ⟨hinv, rfl, fun c' se' hc' hse' => ?_, fun j se' hse' => ?_⟩
  · obtain rfl : c = c' := Option.some.inj (hc.symm.trans hc')
    obtain rfl : se = se' := Option.some.inj (hse.symm.trans hse')
    exact hstart
  · -- only the account of the entity that has been running grows
    have hj := hkept j
    simp only at hse'
    rw [hse', charged] at hj
    obtain ⟨y, hy, hyk⟩ := map_eq_some_iff.mp hj.symm
    have hold := h.accounts j y hy
    have hsum := congrArg (fun k : Bool × ℕ × ℕ × ℕ => k.2.2.2) hyk
    rw [h.current] at hsum
    by_cases hr : x.running = some j
    · simp only [hr, if_true] at hsum
      have hslice := updateCurrSe_sum (h.clock j y hr hy) hclock.1
        (hclock.2.1.trans_lt hclock.2.2.1) hclock.2.2.2
      simp only [hr, update_self]
      rw [← Nat.add_assoc]
      refine Nat.ModEq.trans ?_ (hold.add_right _)
      exact (show (updateCurrSe y now).2.sumExecRuntime = se'.sumExecRuntime from hsum) ▸ hslice
    · rw [if_neg hr] at hsum
      have hsum' : y.sumExecRuntime = se'.sumExecRuntime := hsum
      rw [← hsum']
      cases hrun' : x.running with
      | none => exact hold
      | some r =>
        have hjr : j ≠ r := fun hjr => hr (hjr ▸ hrun')
        simpa only [update_of_ne hjr] using hold

theorem TimedInv.run (h : TimedInv x) {op : EevdfOp} (hok : op.Regular x.sched) (hcharge : ChargesRunning x op) :
    ∃ x', timedRun x op = some x' ∧ TimedInv x' := by
  obtain ⟨s', hrun, hinv⟩ := h.inv.keeps_run op hok False.elim
  unfold timedRun
  rw [hrun]
  refine ⟨_, rfl, ?_⟩
  cases op with
  | add task prio now id raw => exact h.add hinv hok.1 hok.2 hrun
  | block thread heap => exact h.same hinv (SameAccounts.block h.inv hcharge hrun)
  | wake thread heap => exact h.same hinv (SameAccounts.wake h.inv hrun)
  | reweight thread prio => exact h.same hinv (SameAccounts.reweight hrun)
  | yield thread => exact h.same hinv (SameAccounts.yield hrun)
  | pick now now' =>
    obtain ⟨⟨s1, t⟩, hpick, rfl⟩ := map_eq_some_iff.mp hrun
    exact h.pick hinv hcharge hpick
  | remove thread status sleepDeadline heap =>
    exact h.same hinv (SameAccounts.remove h.inv hcharge hrun)

theorem timedInv_timedInit (apIdle now id : ℕ) (raw : SchedEntity) :
    ∃ x, timedInit apIdle now id raw = some x ∧ TimedInv x := by
  obtain ⟨s, hs, hinv⟩ := @eevdfInv_initCpuIdle False apIdle now id raw
  refine ⟨_, by rw [timedInit, hs]; rfl, ?_⟩
  obtain ⟨se, hse, -, -, hsum⟩ := @newEntity_spec raw apIdle 0 now (niceToPrio 20) (by decide) le_rfl
  have hstart : se.execStart = now := by
    unfold newEntity at hse
    obtain ⟨se1, hse1, hse⟩ := bind_eq_some_iff.mp hse
    rw [← Option.some.inj hse]
    refine Eq.trans ?_ (clock_setLoadWeight hse1).2
    exact execStart_updateDeadline se1
  rw [initCpuIdle, hse] at hs
  have hcur : s.current = some id := by
    rw [← Option.some.inj hs]
    rfl
  have hent : s.entities = update (fun _ => none) id (some se) := by
    rw [← Option.some.inj hs]
    rfl
  have honly : ∀ j se', s.entities j = some se' → se' = se := by
    intro j se' hse'
    by_cases hj : j = id
    · simpa [hent, hj, eq_comm] using hse'
    · simp [hent, hj] at hse'
  refine ⟨hinv, hcur, fun c se' _ hse' => ?_, fun j se' hse' => ?_⟩
  · rw [honly c se' hse', hstart]
  · rw [honly j se' hse', hsum]
    exact Nat.ModEq.refl _

/-- In every run that blocks and removes only entities on which the choice of the current one
does not depend, every account holds the time that the thread has been selected to run. -/
theorem timeCharged_of_chargesRunning (apIdle now id : ℕ) (raw : SchedEntity) :
    ∃ x, timedInit apIdle now id raw = some x ∧ ∀ ops done : List EevdfOp,
      Runs.Meets timedRun (fun x op => op.Regular x.sched ∧ ChargesRunning x op) ops x →
      done <+: ops → ∃ x', Runs.run timedRun done x = some x' ∧ TimeCharged x' := by
  obtain ⟨x, hx, h⟩ := timedInv_timedInit apIdle now id raw
  refine ⟨x, hx, fun ops done hok hdone => ?_⟩
  obtain ⟨x', hrun, h'⟩ := Runs.run_total
    (fun x op hinv hsafe => hinv.run hsafe.1 hsafe.2) h (hok.of_isPrefix hdone)
  exact ⟨x', hrun, h'.accounts⟩

/-- Two threads share the processor; one is killed while the other one runs. -/
def sharedProcessor : List EevdfOp :=
  [.add 2 120 10 20 default, .add 3 130 10 30 default, .pick 100 110, .pick 900000 900010,
    .pick 2000000 2000010, .remove 3 .running 0 [], .pick 3000000 3000010]

theorem timeCharged_of_sharedProcessor :
    ∃ x x', timedInit 1 0 10 default = some x ∧
      Runs.run timedRun sharedProcessor x = some x' ∧ TimeCharged x' := by
  obtain ⟨x, hx, hrun⟩ := timeCharged_of_chargesRunning 1 0 10 default
  have hok : ∀ x ∈ timedInit 1 0 10 default, Runs.Meets timedRun
      (fun x op => op.Regular x.sched ∧ ChargesRunning x op) sharedProcessor x := by
    decide
  obtain ⟨x', hx', hq⟩ := hrun sharedProcessor sharedProcessor (hok x hx) List.prefix_rfl
  exact ⟨x, x', hx, hx', hq⟩

/-- A thread runs from 110 to 900000 and blocks in this slice. The idle entity takes its place
as the current one and is charged from its last slice on, which has ended at 100. -/
theorem blocked_slice_charged_to_idle :
    ∃ x x', timedInit 1 0 10 default = some x ∧
      Runs.run timedRun [.add 2 120 10 20 default, .pick 100 110, .block 2 [],
        .pick 900000 900010] x = some x' ∧
      (x'.sched.get 10).sumExecRuntime = 900000 ∧ x'.used 10 = 100 ∧
      (x'.sched.get 20).sumExecRuntime = 0 ∧ x'.used 20 = 899890 ∧ ¬ TimeCharged x' := by
  obtain ⟨x, hx, -⟩ := timedInv_timedInit 1 0 10 default
  obtain ⟨x', hx'⟩ : ∃ x', Runs.run timedRun [.add 2 120 10 20 default, .pick 100 110,
      .block 2 [], .pick 900000 900010] x = some x' := by
    apply Option.isSome_iff_exists.mp
    revert x
    decide
  have haccount : (x'.sched.entities 20).map (fun se => se.sumExecRuntime) = some 0 ∧
      x'.started 20 = 0 ∧ (x'.sched.get 10).sumExecRuntime = 900000 ∧ x'.used 10 = 100 ∧
      (x'.sched.get 20).sumExecRuntime = 0 ∧ x'.used 20 = 899890 := by
    revert x x'
    decide
  obtain ⟨hsome, hstarted, h10, hused10, h20, hused20⟩ := haccount
  refine ⟨x, x', hx, hx', h10, hused10, h20, hused20, fun hcharged => ?_⟩
  obtain ⟨se, hse, hsum⟩ := Option.map_eq_some_iff.mp hsome
  have hmod := hcharged 20 se hse
  rw [hsum, hstarted, hused20] at hmod
  exact absurd hmod (by decide)

end CoolPotOS
