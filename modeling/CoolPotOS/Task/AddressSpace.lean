import CoolPotOS.Lib.Runs

namespace CoolPotOS

open Function List Option

structure Mm where
  directory : ℕ
  refCount : ℕ
  deriving DecidableEq

/-- A process is a place in `processes`, which has the address of its `mm_t`; a thread is a place in
`threads`, which has its process. `live` says which page directories are allocated. Each of the
calls is one step. -/
structure MmState where
  mms : ℕ → Option Mm
  processes : List ℕ
  threads : List ℕ
  current : ℕ → ℕ
  loaded : ℕ → ℕ
  live : ℕ → Bool
  kernelDir : ℕ

namespace MmState

def directoryOf (x : MmState) (thread : ℕ) : Option ℕ := do
  let process ← x.threads[thread]?
  let mm ← x.processes[process]?
  let mm ← x.mms mm
  return mm.directory

def setMm (x : MmState) (mm : ℕ) (v : Option Mm) : MmState :=
  { x with mms := Function.update x.mms mm v }

def setLive (x : MmState) (dir : ℕ) (v : Bool) : MmState :=
  { x with live := Function.update x.live dir v }

/-- `clone_page_directory` and `mm_create`, with the memory that they get. -/
def mmCreate (x : MmState) (mm dir : ℕ) : MmState := (x.setLive dir true).setMm mm (some ⟨dir, 1⟩)

def mmRetain (x : MmState) (mm : ℕ) : Option MmState := do
  let v ← x.mms mm
  return x.setMm mm (some { v with refCount := v.refCount + 1 })

def mmRelease (x : MmState) (mm : ℕ) : Option MmState := do
  let v ← x.mms mm
  if v.refCount - 1 ≠ 0 then return x.setMm mm (some { v with refCount := v.refCount - 1 })
  else if v.directory ≠ x.kernelDir then return (x.setLive v.directory false).setMm mm none
  else return x.setMm mm none

def addProcess (x : MmState) (mm : ℕ) : MmState :=
  { x with processes := x.processes ++ [mm], threads := x.threads ++ [x.processes.length] }

def archTaskSwitch (x : MmState) (cpu next : ℕ) : Option MmState := do
  let dir ← x.directoryOf (x.current cpu)
  let dir' ← x.directoryOf next
  return { x with
    loaded := if dir ≠ dir' then Function.update x.loaded cpu dir' else x.loaded
    current := Function.update x.current cpu next }

def fresh (x : MmState) (mm dir : ℕ) : Bool := (x.mms mm).isNone && !x.live dir

end MmState

/-- A processor switches threads, or its thread calls the kernel. `mm` and `dir` are the memory that
the allocations get, and the other arguments say which of them succeed. -/
inductive MmOp
  | switch (cpu next : ℕ)
  | fork (cpu mm dir : ℕ) (cloned task : Bool)
  | vfork (cpu : ℕ) (task : Bool)
  | clone (cpu : ℕ)
  | execve (cpu mm dir : ℕ) (created : Bool)

namespace MmState

def step (x : MmState) : MmOp → Option MmState
  | .switch cpu next => x.archTaskSwitch cpu next
  | .fork _ mm dir cloned task =>
    if !x.fresh mm dir then none
    -- a page directory that was cloned in vain is freed at once
    else if !cloned then some x
    else if !task then (x.mmCreate mm dir).mmRelease mm
    else some ((x.mmCreate mm dir).addProcess mm)
  | .vfork cpu task => do
    let process ← x.threads[x.current cpu]?
    let mm ← x.processes[process]?
    let x ← x.mmRetain mm
    if !task then x.mmRelease mm else return x.addProcess mm
  | .clone cpu => do
    let process ← x.threads[x.current cpu]?
    return { x with threads := x.threads ++ [process] }
  | .execve cpu mm dir created =>
    if !x.fresh mm dir then none
    else if !created then some x
    else do
      let process ← x.threads[x.current cpu]?
      let oldMm ← x.processes[process]?
      let x := x.mmCreate mm dir
      let x := { x with
        processes := x.processes.set process mm
        loaded := Function.update x.loaded cpu dir }
      x.mmRelease oldMm

end MmState

/-- `execve` is called when no other processor runs a thread of the same process. -/
def MmOp.Exclusive (x : MmState) : MmOp → Prop
  | .execve cpu _ _ _ => ∀ cpu', cpu' ≠ cpu →
      x.threads[x.current cpu']? ≠ x.threads[x.current cpu]?
  | _ => True

/-- Every processor has the page directory of its thread loaded, and a page directory that is not
allocated, or freed again, is loaded nowhere and belongs to no process. -/
structure DirectoriesOk (x : MmState) : Prop where
  loaded : ∀ cpu, x.directoryOf (x.current cpu) = some (x.loaded cpu)
  freed : ∀ dir, x.live dir = false → (∀ cpu, x.loaded cpu ≠ dir) ∧
    ∀ (process mm : ℕ) (v : Mm), x.processes[process]? = some mm → x.mms mm = some v → v.directory ≠ dir

/-- The processes and the address spaces fit together. -/
structure MmInv (x : MmState) : Prop where
  loaded : ∀ cpu, x.directoryOf (x.current cpu) = some (x.loaded cpu)
  refCount : ∀ mm v, x.mms mm = some v → v.refCount = x.processes.count mm ∧ v.refCount ≠ 0
  process : ∀ mm ∈ x.processes, (x.mms mm).isSome = true
  thread : ∀ process ∈ x.threads, process < x.processes.length
  live : ∀ mm v, x.mms mm = some v → x.live v.directory = true
  own : ∀ mm mm' v v', x.mms mm = some v → x.mms mm' = some v' → v.directory = v'.directory → mm = mm'
  kernel : x.live x.kernelDir = true

section Steps

variable {x x' : MmState} {cpu mm dir : ℕ}

theorem directoryOf_eq_some {thread dir : ℕ} : x.directoryOf thread = some dir ↔
    ∃ process mm v, x.threads[thread]? = some process ∧ x.processes[process]? = some mm ∧
      x.mms mm = some v ∧ v.directory = dir := by
  simp only [MmState.directoryOf, bind_eq_bind, bind_eq_some_iff, Option.pure_def,
    Option.some.injEq]
  constructor
  · rintro ⟨process, hp, mm, hm, v, hv, rfl⟩
    exact ⟨process, mm, v, hp, hm, hv, rfl⟩
  · rintro ⟨process, mm, v, hp, hm, hv, rfl⟩
    exact ⟨process, hp, mm, hm, v, hv, rfl⟩

theorem MmInv.directoriesOk (h : MmInv x) : DirectoriesOk x where
  loaded := h.loaded
  freed := by
    intro dir hdir
    constructor
    · intro cpu hcpu
      obtain ⟨process, mm, v, -, -, hv, hd⟩ := directoryOf_eq_some.mp (h.loaded cpu)
      have hlive := h.live mm v hv
      rw [hd, hcpu, hdir] at hlive
      cases hlive
    · intro process mm v _ hv hd
      have hlive := h.live mm v hv
      rw [hd, hdir] at hlive
      cases hlive

/-- The context switch loads the page directory of the next thread, or finds that it is the one of
the current thread, which is loaded. -/
theorem MmInv.switch (h : MmInv x) {next : ℕ} (hstep : x.archTaskSwitch cpu next = some x') : MmInv x' := by
  unfold MmState.archTaskSwitch at hstep
  obtain ⟨d, hd, hstep⟩ := bind_eq_some_iff.mp hstep
  obtain ⟨d', hd', hstep⟩ := bind_eq_some_iff.mp hstep
  cases hstep
  obtain rfl : d = x.loaded cpu := Option.some.inj (hd.symm.trans (h.loaded cpu))
  refine ⟨fun c => ?_, h.refCount, h.process, h.thread, h.live, h.own, h.kernel⟩
  show x.directoryOf (update x.current cpu next c) =
    some ((if x.loaded cpu ≠ d' then update x.loaded cpu d' else x.loaded) c)
  by_cases hc : c = cpu
  · rw [hc, update_self, hd']
    split_ifs with hne
    · rw [update_self]
    · rw [not_not.mp hne]
  · rw [update_of_ne hc, h.loaded c]
    split_ifs
    · rw [update_of_ne hc]
    · rfl

theorem MmState.fresh_iff : x.fresh mm dir = true ↔ x.mms mm = none ∧ x.live dir = false := by
  simp [MmState.fresh]

theorem MmInv.count_eq_zero (h : MmInv x) (hfresh : x.mms mm = none) : x.processes.count mm = 0 := by
  rw [List.count_eq_zero]
  intro hmem
  have hsome := h.process mm hmem
  rw [hfresh] at hsome
  cases hsome

theorem MmInv.dir_ne (h : MmInv x) (hdir : x.live dir = false) {m : ℕ} {v : Mm}
    (hv : x.mms m = some v) : v.directory ≠ dir := by
  intro heq
  have hlive := h.live m v hv
  rw [heq, hdir] at hlive
  cases hlive

theorem MmInv.create_release (h : MmInv x) (hfresh : x.fresh mm dir = true) :
    (x.mmCreate mm dir).mmRelease mm = some x := by
  obtain ⟨hmm, hdir⟩ := MmState.fresh_iff.mp hfresh
  have hne : dir ≠ x.kernelDir := by
    rintro rfl
    rw [h.kernel] at hdir
    cases hdir
  have hself : (x.mmCreate mm dir).mms mm = some ⟨dir, 1⟩ := update_self _ _ _
  rw [MmState.mmRelease, hself, bind_eq_bind, bind_some]
  have hif : (⟨dir, 1⟩ : Mm).directory ≠ (x.mmCreate mm dir).kernelDir := hne
  rw [if_neg (by simp), if_pos hif]
  have hmms : update x.mms mm none = x.mms := by
    rw [← hmm, update_eq_self]
  have hlive : update x.live dir false = x.live := by
    rw [← hdir, update_eq_self]
  simp only [MmState.mmCreate, MmState.setMm, MmState.setLive, update_idem, hmms, hlive]
  rfl

theorem directoryOf_of {thread : ℕ} (h : x.directoryOf thread = some dir)
    (hthread : ∀ process, x.threads[thread]? = some process → x'.threads[thread]? = some process)
    (hprocess : ∀ process m, x.threads[thread]? = some process → x.processes[process]? = some m →
      x'.processes[process]? = some m)
    (hmms : ∀ process m v, x.threads[thread]? = some process → x.processes[process]? = some m →
      x.mms m = some v → ∃ v', x'.mms m = some v' ∧ v'.directory = v.directory) :
    x'.directoryOf thread = some dir := by
  obtain ⟨process, m, v, hp, hm, hv, rfl⟩ := directoryOf_eq_some.mp h
  obtain ⟨v', hv', hd⟩ := hmms process m v hp hm hv
  exact directoryOf_eq_some.mpr ⟨process, m, v', hthread process hp, hprocess process m hp hm, hv', hd⟩

theorem getElem?_concat {l : List ℕ} {i a b : ℕ} (h : l[i]? = some a) : (l ++ [b])[i]? = some a := by
  rw [List.getElem?_append_left (List.getElem?_eq_some_iff.mp h).1, h]

theorem MmInv.addProcess (h : MmInv x) {v : Mm} {live : ℕ → Bool}
    (hcount : v.refCount = x.processes.count mm + 1)
    (hdir : ∀ w, x.mms mm = some w → w.directory = v.directory)
    (hlive : ∀ d, x.live d = true → live d = true) (hv : live v.directory = true)
    (hown : ∀ m w, m ≠ mm → x.mms m = some w → w.directory ≠ v.directory) :
    MmInv (({ x with
      mms := update x.mms mm (some v)
      live := live } : MmState).addProcess mm) where
  loaded := by
    intro cpu
    refine directoryOf_of (h.loaded cpu) (fun _ hp => getElem?_concat hp)
      (fun _ _ _ hm => getElem?_concat hm) fun process m w hp hm hw => ?_
    show ∃ v', update x.mms mm (some v) m = some v' ∧ _
    by_cases hmm : m = mm
    · rw [hmm, update_self]
      rw [hmm] at hw
      exact ⟨v, rfl, (hdir w hw).symm⟩
    · rw [update_of_ne hmm]
      exact ⟨w, hw, rfl⟩
  refCount := by
    intro m w hw
    replace hw : update x.mms mm (some v) m = some w := hw
    show w.refCount = (x.processes ++ [mm]).count m ∧ w.refCount ≠ 0
    rw [count_append, count_singleton]
    by_cases hmm : m = mm
    · rw [hmm, update_self] at hw
      cases hw
      rw [hmm, beq_self_eq_true, if_pos rfl, hcount]
      exact ⟨rfl, Nat.succ_ne_zero _⟩
    · rw [update_of_ne hmm] at hw
      rw [if_neg (by simpa using Ne.symm hmm), Nat.add_zero]
      exact h.refCount m w hw
  process := by
    intro m hm
    show (update x.mms mm (some v) m).isSome = true
    by_cases hmm : m = mm
    · rw [hmm, update_self]
      rfl
    · rw [update_of_ne hmm]
      obtain hm | hm := mem_append.mp hm
      · exact h.process m hm
      · exact absurd (mem_singleton.mp hm) hmm
  thread := by
    intro process hp
    show process < (x.processes ++ [mm]).length
    rw [length_append, length_singleton]
    obtain hp | hp := mem_append.mp hp
    · have hlt := h.thread process hp
      omega
    · have hlast := mem_singleton.mp hp
      show process < x.processes.length + 1
      rw [hlast]
      exact Nat.lt_succ_self _
  live := by
    intro m w hw
    replace hw : update x.mms mm (some v) m = some w := hw
    by_cases hmm : m = mm
    · rw [hmm, update_self] at hw
      cases hw
      exact hv
    · rw [update_of_ne hmm] at hw
      exact hlive _ (h.live m w hw)
  own := by
    intro m m' w w' hw hw' heq
    replace hw : update x.mms mm (some v) m = some w := hw
    replace hw' : update x.mms mm (some v) m' = some w' := hw'
    by_cases hmm : m = mm
    · by_cases hmm' : m' = mm
      · rw [hmm, hmm']
      · rw [hmm, update_self] at hw
        rw [update_of_ne hmm'] at hw'
        cases hw
        exact absurd heq.symm (hown m' w' hmm' hw')
    · rw [update_of_ne hmm] at hw
      by_cases hmm' : m' = mm
      · rw [hmm', update_self] at hw'
        cases hw'
        exact absurd heq (hown m w hmm hw)
      · rw [update_of_ne hmm'] at hw'
        exact h.own m m' w w' hw hw' heq
  kernel := hlive _ h.kernel

theorem MmInv.forked (h : MmInv x) (hfresh : x.fresh mm dir = true) :
    MmInv ((x.mmCreate mm dir).addProcess mm) := by
  obtain ⟨hmm, hdir⟩ := MmState.fresh_iff.mp hfresh
  refine h.addProcess (v := ⟨dir, 1⟩) ?_ ?_ ?_ ?_ ?_
  · rw [h.count_eq_zero hmm]
  · intro w hw
    rw [hmm] at hw
    cases hw
  · intro d hd
    show update x.live dir true d = true
    by_cases hdd : d = dir
    · rw [hdd, update_self]
    · rw [update_of_ne hdd]
      exact hd
  · exact update_self _ _ _
  · intro m w _ hw
    exact h.dir_ne hdir hw

theorem MmInv.retain_release (h : MmInv x) (hstep : x.mmRetain mm = some x') : x'.mmRelease mm = some x := by
  obtain ⟨v, hv, hstep⟩ := bind_eq_some_iff.mp hstep
  cases hstep
  have hself : (x.setMm mm (some { v with refCount := v.refCount + 1 })).mms mm =
      some { v with refCount := v.refCount + 1 } := update_self _ _ _
  have hne : ({ v with refCount := v.refCount + 1 } : Mm).refCount - 1 ≠ 0 := (h.refCount mm v hv).2
  rw [MmState.mmRelease, hself, bind_eq_bind, bind_some, if_pos hne]
  have hmms : update x.mms mm (some v) = x.mms := by
    rw [← hv, update_eq_self]
  simp only [MmState.setMm, update_idem, Nat.add_sub_cancel, hmms]
  rfl

theorem MmInv.vforked (h : MmInv x) (hstep : x.mmRetain mm = some x') : MmInv (x'.addProcess mm) := by
  obtain ⟨v, hv, hstep⟩ := bind_eq_some_iff.mp hstep
  cases hstep
  refine h.addProcess (v := { v with refCount := v.refCount + 1 }) ?_ ?_ ?_ ?_ ?_
  · rw [(h.refCount mm v hv).1]
  · intro w hw
    obtain rfl := Option.some.inj (hv.symm.trans hw)
    rfl
  · exact fun d hd => hd
  · exact h.live mm v hv
  · intro m w hm hw heq
    exact hm (h.own m mm w v hw hv heq)

/-- What `mm_release` leaves of an address space, and which page directories stay allocated. -/
structure Released (x : MmState) (mm : ℕ) (v : Mm) (w : Option Mm) (live : ℕ → Bool) : Prop where
  run : x.mmRelease mm = some { x with mms := Function.update x.mms mm w, live := live }
  kept : v.refCount ≠ 1 → w = some { v with refCount := v.refCount - 1 }
  gone : v.refCount = 1 → w = none
  live : ∀ d, live d = true ↔ x.live d = true ∧
    (v.refCount = 1 → d = v.directory → d = x.kernelDir)

theorem mmRelease_released {v : Mm} (hv : x.mms mm = some v) (hr : v.refCount ≠ 0) :
    ∃ w live, Released x mm v w live := by
  have hrun : x.mmRelease mm = if v.refCount - 1 ≠ 0 then
      some (x.setMm mm (some { v with refCount := v.refCount - 1 }))
    else if v.directory ≠ x.kernelDir then some ((x.setLive v.directory false).setMm mm none)
    else some (x.setMm mm none) := by
    rw [MmState.mmRelease, hv]
    rfl
  by_cases hone : v.refCount = 1
  · rw [if_neg (by omega)] at hrun
    by_cases hk : v.directory = x.kernelDir
    · rw [if_neg (not_not.mpr hk)] at hrun
      refine ⟨none, x.live, hrun, fun hne => absurd hone hne, fun _ => rfl, fun d => ?_⟩
      exact ⟨fun hd => ⟨hd, fun _ heq => heq.trans hk⟩, fun hd => hd.1⟩
    · rw [if_pos hk] at hrun
      refine ⟨none, update x.live v.directory false, hrun, fun hne => absurd hone hne,
        fun _ => rfl, fun d => ?_⟩
      by_cases hd : d = v.directory
      · rw [hd, update_self]
        constructor
        · intro hfalse
          cases hfalse
        · intro hlive
          exact absurd (hlive.2 hone rfl) hk
      · rw [update_of_ne hd]
        exact ⟨fun hlive => ⟨hlive, fun _ heq => absurd heq hd⟩, fun hlive => hlive.1⟩
  · rw [if_pos (by omega)] at hrun
    refine ⟨some { v with refCount := v.refCount - 1 }, x.live, hrun, fun _ => rfl,
      fun heq => absurd heq hone, fun d => ?_⟩
    exact ⟨fun hd => ⟨hd, fun heq => absurd heq hone⟩, fun hd => hd.1⟩

theorem MmInv.execve (h : MmInv x) (hfresh : x.fresh mm dir = true) {process old : ℕ}
    (hp : x.threads[x.current cpu]? = some process) (hold : x.processes[process]? = some old)
    (halone : ∀ cpu', cpu' ≠ cpu → x.threads[x.current cpu']? ≠ some process)
    (hstep : ({ x.mmCreate mm dir with
      processes := x.processes.set process mm
      loaded := update x.loaded cpu dir } : MmState).mmRelease old = some x') :
    MmInv x' := by
  obtain ⟨hmm, hdir⟩ := MmState.fresh_iff.mp hfresh
  obtain ⟨hlt, hget⟩ := List.getElem?_eq_some_iff.mp hold
  obtain ⟨v, hv⟩ := isSome_iff_exists.mp (h.process old (mem_of_getElem? hold))
  have hne : old ≠ mm := by
    rintro rfl
    rw [hmm] at hv
    cases hv
  obtain ⟨hcount, hpos⟩ := h.refCount old v hv
  have hv' : (update x.mms mm (some ⟨dir, 1⟩)) old = some v := by
    rw [update_of_ne hne, hv]
  obtain ⟨w, live, hrel⟩ := mmRelease_released (x := ({ x.mmCreate mm dir with
    processes := x.processes.set process mm
    loaded := update x.loaded cpu dir } : MmState)) hv' hpos
  obtain rfl := Option.some.inj (hrel.run.symm.trans hstep)
  -- The counts of the new list of processes.
  have hcounts : ∀ m, (x.processes.set process mm).count m =
      x.processes.count m - (if old = m then 1 else 0) + if mm = m then 1 else 0 := by
    intro m
    rw [List.count_set hlt, hget]
    simp only [beq_iff_eq]
  -- The address spaces afterwards: the new one, what is left of the old one, and the others.
  have hmms : ∀ m, update (update x.mms mm (some ⟨dir, 1⟩)) old w m =
      if m = old then w else if m = mm then some ⟨dir, 1⟩ else x.mms m := by
    intro m
    split_ifs with h1 h2
    · rw [h1, update_self]
    · rw [update_of_ne h1, h2, update_self]
    · rw [update_of_ne h1, update_of_ne h2]
  have hvdir : v.directory ≠ dir := h.dir_ne hdir hv
  have hlive : ∀ d, live d = true ↔ (d = dir ∨ x.live d = true) ∧
      (v.refCount = 1 → d = v.directory → d = x.kernelDir) := by
    intro d
    rw [hrel.live d]
    have hset : (update x.live dir true d = true) ↔ d = dir ∨ x.live d = true := by
      by_cases hd : d = dir
      · rw [hd, update_self]
        simp
      · rw [update_of_ne hd]
        simp [hd]
    exact and_congr_left' hset
  have hgone : v.refCount = 1 → old ∉ x.processes.set process mm := by
    intro hone
    rw [← List.count_eq_zero, hcounts, if_pos rfl, if_neg (Ne.symm hne)]
    omega
  -- An address space that a process still has keeps its page directory.
  have hkept : ∀ m u, m ∈ x.processes.set process mm → x.mms m = some u →
      ∃ u', update (update x.mms mm (some ⟨dir, 1⟩)) old w m = some u' ∧
        u'.directory = u.directory := by
    intro m u hm hu
    rw [hmms]
    split_ifs with h1 h2
    · rw [h1] at hm hu
      obtain rfl := Option.some.inj (hv.symm.trans hu)
      by_cases hone : v.refCount = 1
      · exact absurd hm (hgone hone)
      · exact ⟨_, hrel.kept hone, rfl⟩
    · rw [h2, hmm] at hu
      cases hu
    · exact ⟨u, hu, rfl⟩
  -- Each of them is the new one, or has the page directory that it had before.
  have hpast : ∀ m u, update (update x.mms mm (some ⟨dir, 1⟩)) old w m = some u →
      m = mm ∧ u = ⟨dir, 1⟩ ∨ m ≠ mm ∧ ∃ u0, x.mms m = some u0 ∧ u.directory = u0.directory := by
    intro m u hu
    rw [hmms] at hu
    split_ifs at hu with h1 h2
    · rw [h1]
      refine Or.inr ⟨hne, v, hv, ?_⟩
      by_cases hone : v.refCount = 1
      · rw [hrel.gone hone] at hu
        cases hu
      · rw [hrel.kept hone] at hu
        cases hu
        rfl
    · exact Or.inl ⟨h2, (Option.some.inj hu).symm⟩
    · exact Or.inr ⟨h2, u, hu, rfl⟩
  refine ⟨fun c => ?_, fun m u hu => ?_, fun m hm => ?_, fun p hmem => ?_, fun m u hu => ?_,
    fun m m' u u' hu hu' heq => ?_, ?_⟩
  · show MmState.directoryOf _ (x.current c) = some (update x.loaded cpu dir c)
    by_cases hc : c = cpu
    · rw [hc, update_self]
      refine directoryOf_eq_some.mpr ⟨process, mm, ⟨dir, 1⟩, hp, ?_, ?_, rfl⟩
      · exact List.getElem?_set_self hlt
      · show update (update x.mms mm (some ⟨dir, 1⟩)) old w mm = _
        rw [hmms, if_neg (Ne.symm hne), if_pos rfl]
    · rw [update_of_ne hc]
      have hget' : ∀ p m, x.threads[x.current c]? = some p → x.processes[p]? = some m →
          (x.processes.set process mm)[p]? = some m := by
        intro p m hpc hm
        have hpp : process ≠ p := by
          rintro rfl
          exact halone c hc hpc
        rw [List.getElem?_set_ne hpp, hm]
      refine directoryOf_of (h.loaded c) (fun _ hpc => hpc) hget' fun p m u hpc hm hu => ?_
      exact hkept m u (mem_of_getElem? (hget' p m hpc hm)) hu
  · replace hu : update (update x.mms mm (some ⟨dir, 1⟩)) old w m = some u := hu
    show u.refCount = (x.processes.set process mm).count m ∧ u.refCount ≠ 0
    rw [hmms] at hu
    rw [hcounts]
    split_ifs at hu with h1 h2
    · rw [h1, if_pos rfl, if_neg (Ne.symm hne)]
      have hone : v.refCount ≠ 1 := by
        intro hone
        rw [hrel.gone hone] at hu
        cases hu
      rw [hrel.kept hone] at hu
      cases hu
      show v.refCount - 1 = _ ∧ v.refCount - 1 ≠ 0
      omega
    · cases hu
      rw [h2, if_neg hne, if_pos rfl, h.count_eq_zero hmm]
      exact ⟨rfl, Nat.one_ne_zero⟩
    · rw [if_neg (Ne.symm h1), if_neg (Ne.symm h2)]
      exact h.refCount m u hu
  · show (update (update x.mms mm (some ⟨dir, 1⟩)) old w m).isSome = true
    obtain hm' | rfl := mem_or_eq_of_mem_set hm
    · obtain ⟨u, hu⟩ := isSome_iff_exists.mp (h.process m hm')
      obtain ⟨u', hu', -⟩ := hkept m u hm hu
      rw [hu']
      rfl
    · rw [hmms, if_neg (Ne.symm hne), if_pos rfl]
      rfl
  · show p < (x.processes.set process mm).length
    rw [length_set]
    exact h.thread p hmem
  · replace hu : update (update x.mms mm (some ⟨dir, 1⟩)) old w m = some u := hu
    show live u.directory = true
    rw [hlive]
    obtain ⟨hnew, rfl⟩ | ⟨hnew, u0, hu0, hd⟩ := hpast m u hu
    · exact ⟨Or.inl rfl, fun _ heq => absurd heq.symm hvdir⟩
    · rw [hd]
      refine ⟨Or.inr (h.live m u0 hu0), fun hone heq => ?_⟩
      -- the old address space is gone, and no other has its page directory
      obtain rfl := h.own m old u0 v hu0 hv heq
      rw [hmms, if_pos rfl, hrel.gone hone] at hu
      cases hu
  · replace hu : update (update x.mms mm (some ⟨dir, 1⟩)) old w m = some u := hu
    replace hu' : update (update x.mms mm (some ⟨dir, 1⟩)) old w m' = some u' := hu'
    obtain ⟨hnew, rfl⟩ | ⟨hnew, u0, hu0, hd⟩ := hpast m u hu
    · obtain ⟨hnew', rfl⟩ | ⟨hnew', u0', hu0', hd'⟩ := hpast m' u' hu'
      · rw [hnew, hnew']
      · rw [hd'] at heq
        exact absurd heq.symm (h.dir_ne hdir hu0')
    · obtain ⟨hnew', rfl⟩ | ⟨hnew', u0', hu0', hd'⟩ := hpast m' u' hu'
      · rw [hd] at heq
        exact absurd heq (h.dir_ne hdir hu0)
      · rw [hd, hd'] at heq
        exact h.own m m' u0 u0' hu0 hu0' heq
  · show live x.kernelDir = true
    rw [hlive]
    exact ⟨Or.inr h.kernel, fun _ _ => rfl⟩

theorem MmInv.cloned (h : MmInv x) {process : ℕ} (hp : process ∈ x.threads) :
    MmInv { x with threads := x.threads ++ [process] } where
  loaded := by
    intro cpu
    exact directoryOf_of (h.loaded cpu) (fun _ hpc => getElem?_concat hpc) (fun _ _ _ hm => hm)
      fun _ _ v _ _ hv => ⟨v, hv, rfl⟩
  refCount := h.refCount
  process := h.process
  thread := by
    intro p hmem
    obtain hmem | hmem := mem_append.mp hmem
    · exact h.thread p hmem
    · rw [mem_singleton.mp hmem]
      exact h.thread process hp
  live := h.live
  own := h.own
  kernel := h.kernel

theorem MmInv.step (h : MmInv x) {op : MmOp} (hok : op.Exclusive x) (hstep : x.step op = some x') :
    MmInv x' := by
  cases op with
  | switch cpu next => exact h.switch hstep
  | fork cpu mm dir cloned task =>
    simp only [MmState.step] at hstep
    split_ifs at hstep with hfresh hcloned htask
    · cases hstep
      exact h
    · rw [h.create_release (by simpa using hfresh)] at hstep
      cases hstep
      exact h
    · cases hstep
      exact h.forked (by simpa using hfresh)
  | vfork cpu task =>
    obtain ⟨process, -, hstep⟩ := bind_eq_some_iff.mp hstep
    obtain ⟨mm, -, hstep⟩ := bind_eq_some_iff.mp hstep
    obtain ⟨x1, hretain, hstep⟩ := bind_eq_some_iff.mp hstep
    split_ifs at hstep with htask
    · rw [h.retain_release hretain] at hstep
      cases hstep
      exact h
    · cases hstep
      exact h.vforked hretain
  | clone cpu =>
    obtain ⟨process, hp, hstep⟩ := bind_eq_some_iff.mp hstep
    cases hstep
    exact h.cloned (mem_of_getElem? hp)
  | execve cpu mm dir created =>
    simp only [MmState.step] at hstep
    split_ifs at hstep with hfresh hcreated
    · cases hstep
      exact h
    · obtain ⟨process, hp, hstep⟩ := bind_eq_some_iff.mp hstep
      obtain ⟨old, hold, hstep⟩ := bind_eq_some_iff.mp hstep
      refine h.execve (by simpa using hfresh) hp hold (fun cpu' hcpu' => ?_) hstep
      rw [← hp]
      exact hok cpu' hcpu'

end Steps

/-- When no other processor runs a thread of a process that calls `execve`, every processor has the
page directory of its thread loaded after every run, and no freed page directory is in use. -/
theorem directories_stay_loaded {x x' : MmState} {ops : List MmOp} (h : MmInv x)
    (hok : Runs.Meets MmState.step MmOp.Exclusive ops x)
    (hrun : Runs.run MmState.step ops x = some x') : DirectoriesOk x' := by
  have hinv : MmInv x' := Runs.run_keeps (fun s op s' hs hop => hs.step hop) h hok hrun
  exact hinv.directoriesOk

/-- The kernel process with the idle threads of two processors. -/
def MmState.boot : MmState where
  mms := Function.update (fun _ => none) 0 (some ⟨0, 1⟩)
  processes := [0]
  threads := [0, 0]
  current cpu := min cpu 1
  loaded _ := 0
  live dir := dir == 0
  kernelDir := 0

theorem boot_mms {mm : ℕ} {v : Mm} (h : MmState.boot.mms mm = some v) : mm = 0 ∧ v = ⟨0, 1⟩ := by
  replace h : update (fun _ => none) 0 (some ⟨0, 1⟩) mm = some v := h
  by_cases hmm : mm = 0
  · rw [hmm, update_self] at h
    exact ⟨hmm, (Option.some.inj h).symm⟩
  · rw [update_of_ne hmm] at h
    cases h

theorem MmInv.boot : MmInv MmState.boot where
  loaded := by
    intro cpu
    show MmState.directoryOf _ (min cpu 1) = some 0
    obtain hcpu | hcpu : min cpu 1 = 0 ∨ min cpu 1 = 1 := by omega
    · rw [hcpu]
      decide
    · rw [hcpu]
      decide
  refCount := by
    intro mm v hv
    obtain ⟨rfl, rfl⟩ := boot_mms hv
    decide
  process := by decide
  thread := by decide
  live := by
    intro mm v hv
    obtain ⟨rfl, rfl⟩ := boot_mms hv
    decide
  own := by
    intro mm mm' v v' hv hv' _
    rw [(boot_mms hv).1, (boot_mms hv').1]
  kernel := by decide

theorem directories_stay_loaded_exec : ∃ x', MmInv MmState.boot ∧
    Runs.run MmState.step [.fork 0 1 1 true true, .switch 0 2, .execve 0 2 2 true] MmState.boot =
      some x' ∧ DirectoriesOk x' := by
  have hok : Runs.Meets MmState.step MmOp.Exclusive
      [.fork 0 1 1 true true, .switch 0 2, .execve 0 2 2 true] MmState.boot := by
    refine ⟨trivial, fun x₁ h₁ => ⟨trivial, fun x₂ h₂ => ⟨fun cpu' hcpu' => ?_, fun _ _ => trivial⟩⟩⟩
    cases h₁
    cases h₂
    show [0, 0, 1][Function.update (fun cpu => min cpu 1) 0 2 cpu']? ≠ some 1
    rw [Function.update_of_ne hcpu', show min cpu' 1 = 1 by omega]
    decide
  exact ⟨_, MmInv.boot, rfl, directories_stay_loaded MmInv.boot hok rfl⟩

/-- Two threads of a process run on two processors and one of them calls `execve`: the other processor
goes on with the freed page directory, also after it switched to a third thread of the process. -/
theorem freed_directory_stays_loaded : MmInv MmState.boot ∧ ∃ x',
    Runs.run MmState.step [.fork 0 1 1 true true, .switch 0 2, .clone 0, .clone 0, .switch 1 3,
      .execve 0 2 2 true, .switch 1 4] MmState.boot = some x' ∧
    x'.directoryOf (x'.current 1) = some 2 ∧ x'.loaded 1 = 1 ∧ x'.live 1 = false := by
  refine ⟨MmInv.boot, _, rfl, ?_⟩
  decide

end CoolPotOS
