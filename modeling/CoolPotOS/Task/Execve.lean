import CoolPotOS.Fs.VfsFollow
import CoolPotOS.Task.Shebang
import CoolPotOS.Task.Signal

namespace CoolPotOS

open Option

/-- What `execve` reads and replaces of the process and the thread. A descriptor is its node and whether it has
`O_CLOEXEC`. -/
structure ExecProcess where
  name : Option (List Char)
  cmdline : Option (List Char)
  clLength : ℕ
  envp : Option (List (List Char))
  envc : ℕ
  mm : ℕ
  vfork : Bool
  exec : Option ℕ
  fds : List (Option (ℕ × Bool))
  actions : ℕ → SigAction
  signal : BitVec 64
  pendingSiginfoMask : BitVec 64
  tidAddress : BitVec 64

structure ExecState where
  vfs : Vfs
  process : ExecProcess
  /-- The processes in the `exec` messages to the parent. -/
  parentQueue : List ℕ

/-- The requests for memory that succeed. A call that gives `none` does not return: the kernel reads
or writes at address 0, or the tree is broken. -/
structure ExecMemory where
  round : ℕ → Bool
  cmdline : Bool
  name : Bool
  env : Bool
  directory : Bool
  mm : Bool

/-- `build_proc_cmdline`, which may have no memory. -/
def execCmdline (memory : Bool) (argv : List (List Char)) : Option (List Char) × ℕ :=
  let cmdline := argv.flatMap fun arg => arg ++ ['\x00']
  if cmdline = [] ∨ ¬ memory then (none, 0) else (some cmdline, cmdline.length)

def copyEnvp (memory : Bool) (envp : List (List Char)) : Option (List (List Char)) :=
  if memory then some envp else none

/-- The fields that `execve` replaces before it asks for the address space. The name is what `strncpy` leaves in 50
bytes. -/
def replaceNames (memory : ExecMemory) (p : ExecProcess) (normPath : List Char) (argv envp : List (List Char)) :
    ExecProcess :=
  let cmdline := execCmdline memory.cmdline argv
  { p with
    cmdline := cmdline.1
    clLength := cmdline.2
    name := some (normPath.take 50)
    envp := copyEnvp memory.env envp
    envc := envp.length }

def closeOnExec : List (Option (ℕ × Bool)) → Vfs → Option (Vfs × List (Option (ℕ × Bool)))
  | [], s => some (s, [])
  | none :: fds, s => (closeOnExec fds s).map fun r => (r.1, none :: r.2)
  | some (node, cloexec) :: fds, s =>
    if cloexec then (vfsClose s node).bind fun s => (closeOnExec fds s).map fun r => (r.1, none :: r.2)
    else (closeOnExec fds s).map fun r => (r.1, some (node, cloexec) :: r.2)

/-- An action of the program becomes the default one, and 1 is `SIG_IGN`. -/
def resetAction (action : SigAction) : SigAction :=
  if action.saHandler ≠ 1 ∧ action.saHandler ≠ 0 then ⟨0, 0, 0, 0⟩ else action

/-- What `execve` does once it has the address space `mm`. -/
def execveEnter (mm pid : ℕ) (s : ExecState) (node : ℕ) : Option ExecState :=
  (s.process.exec.elim (some s.vfs) (vfsClose s.vfs)).bind fun vfs =>
    (closeOnExec s.process.fds vfs).map fun r =>
      { vfs := r.1
        process := { s.process with
          mm := mm
          vfork := false
          exec := some node
          fds := r.2
          actions := fun i => resetAction (s.process.actions i)
          signal := 0
          pendingSiginfoMask := 0
          tidAddress := 0 }
        parentQueue := if s.process.vfork then s.parentQueue ++ [pid] else s.parentQueue }

/-- `execve`, which gives its error or enters the program. `cwdPathBuild` is `vfs_cwd_path_build`. -/
def execve (depth : ℕ) (content : ℕ → List Char) (cwdPathBuild : List Char → Option (List Char)) (memory : ExecMemory)
    (mm pid : ℕ) (s : ExecState) (path : Option (List Char)) (argv envp : Option (List (List Char))) :
    Option (ExecState × Option ExecError) :=
  match path, argv with
  | none, _ => some (s, some .einval)
  | some _, none => some (s, some .einval)
  | some path, some argv =>
    match cwdPathBuild path with
    | none => some (s, some .enoent)
    | some normPath =>
      (execveProgram (vfsFiles depth content) memory.round s.vfs path normPath argv).bind fun r =>
        match r with
        | (vfs, .error e) => some ({ s with vfs := vfs }, some e)
        | (vfs, .ok (node, normPath, argv)) =>
          envp.bind fun envp =>
            if memory.name then
              let s := { s with vfs := vfs, process := replaceNames memory s.process normPath argv envp }
              if memory.directory ∧ memory.mm then (execveEnter mm pid s node).map fun s => (s, none)
              else some (s, some .enomem)
            else none

/-- The search with the targets of the links that its lookups follow and the scripts that it closes. -/
inductive Search (depth : ℕ) (content : ℕ → List Char) (round : ℕ → Bool) :
    ℕ → Vfs → List Char → List (List Char) → List ℕ → List ℕ → Vfs →
      Except ExecError (ℕ × List Char × List (List Char)) → Prop
  | missing {left : ℕ} {s s₁ : Vfs} {path : List Char} {argv : List (List Char)} {followed : List ℕ}
      (hopen : vfsOpen depth s path = some (s₁, none)) (hfollowed : followLookup depth s.tree path = some (none, followed)) :
      Search depth content round left s path argv followed [] s₁ (.error .enoent)
  | program {left node : ℕ} {s s₁ : Vfs} {path : List Char} {argv : List (List Char)} {followed : List ℕ}
      (hopen : vfsOpen depth s path = some (s₁, some node))
      (hfollowed : followLookup depth s.tree path = some (some node, followed))
      (hend : 0 < left → ¬ beginsScript (probe (content node))) :
      Search depth content round left s path argv followed [] s₁ (.ok (node, path, argv))
  | nameless {left node : ℕ} {s s₁ s₂ : Vfs} {path : List Char} {argv : List (List Char)} {followed : List ℕ}
      (hopen : vfsOpen depth s path = some (s₁, some node))
      (hfollowed : followLookup depth s.tree path = some (some node, followed))
      (hscript : beginsScript (probe (content node))) (hparse : (parseShebang (probe (content node))).1 = [])
      (hclose : vfsClose s₁ node = some s₂) :
      Search depth content round (left + 1) s path argv followed (closeRefs node) s₂ (.error .enoent)
  | script {left node : ℕ} {s s₁ s₂ s' : Vfs} {path : List Char} {argv : List (List Char)} {followed followed' closed : List ℕ}
      {out : Except ExecError (ℕ × List Char × List (List Char))} (hopen : vfsOpen depth s path = some (s₁, some node))
      (hfollowed : followLookup depth s.tree path = some (some node, followed))
      (hscript : beginsScript (probe (content node))) (hparse : (parseShebang (probe (content node))).1 ≠ [])
      (hround : round left) (hclose : vfsClose s₁ node = some s₂)
      (hrest : Search depth content round left s₂ (parseShebang (probe (content node))).1
        (shebangArgv (parseShebang (probe (content node))) path argv) followed' closed s' out) :
      Search depth content round (left + 1) s path argv (followed ++ followed') (closeRefs node ++ closed) s' out

section Search

variable {depth left : ℕ} {content : ℕ → List Char} {round : ℕ → Bool} {s s' : Vfs} {path : List Char}
  {argv : List (List Char)} {followed closed : List ℕ} {out : Except ExecError (ℕ × List Char × List (List Char))}

theorem Search.retry_eq (h : Search depth content round left s path argv followed closed s' out) :
    shebangRetry (vfsFiles depth content) round left s path argv = some (s', out) := by
  induction h with
  | missing hopen _ => exact shebangRetry_missing round hopen
  | program hopen _ hend => exact shebangRetry_taken round hopen hend
  | nameless hopen _ hscript hparse hclose =>
    refine (shebangRetry_empty round hopen hscript hparse).trans ?_
    change (vfsClose _ _).map _ = _
    rw [hclose, map_some]
  | script hopen _ hscript hparse hround hclose _ ih =>
    refine (shebangRetry_next hopen hscript hparse hround).trans ?_
    change (vfsClose _ _).bind _ = _
    rw [hclose, bind_some]
    exact ih

theorem search_of_retry (h : shebangRetry (vfsFiles depth content) round left s path argv = some (s', out)) :
    ∃ followed closed, Search depth content round left s path argv followed closed s' out := by
  induction left generalizing s path argv with
  | zero =>
    rw [shebangRetry] at h
    obtain ⟨⟨s1, found⟩, hopen, h⟩ := map_eq_some_iff.mp h
    obtain ⟨followed, hfollowed, -⟩ := vfsOpen_takesRefs hopen
    cases found with
    | none =>
      cases h
      exact ⟨followed, [], .missing hopen hfollowed⟩
    | some node =>
      cases h
      exact ⟨followed, [], .program hopen hfollowed fun h => absurd h (lt_irrefl 0)⟩
  | succ left ih =>
    rw [shebangRetry] at h
    obtain ⟨⟨s1, found⟩, hopen, h⟩ := bind_eq_some_iff.mp h
    obtain ⟨followed, hfollowed, -⟩ := vfsOpen_takesRefs hopen
    cases found with
    | none =>
      cases h
      exact ⟨followed, [], .missing hopen hfollowed⟩
    | some node =>
      dsimp only at h
      split_ifs at h with hscript hparse hround
      · obtain ⟨s2, hclose, heq⟩ := map_eq_some_iff.mp h
        cases heq
        exact ⟨followed, closeRefs node, .nameless hopen hfollowed hscript hparse hclose⟩
      · obtain ⟨s2, hclose, h⟩ := bind_eq_some_iff.mp h
        obtain ⟨followed', closed, hrest⟩ := ih h
        exact ⟨followed ++ followed', closeRefs node ++ closed,
          .script hopen hfollowed hscript hparse hround hclose hrest⟩
      · cases h
        exact ⟨followed, [], .program hopen hfollowed fun _ => hscript⟩

theorem changesRefs_of_open {found : Option ℕ} (hopen : vfsOpen depth s path = some (s', found))
    (hfollowed : followLookup depth s.tree path = some (found, followed)) : ChangesRefs s s' followed [] := by
  obtain ⟨followed', hfollowed', h⟩ := vfsOpen_takesRefs hopen
  rw [hfollowed] at hfollowed'
  cases hfollowed'
  exact h.changesRefs

theorem Search.changesRefs (h : Search depth content round left s path argv followed closed s' out) :
    ChangesRefs s s' followed closed := by
  induction h with
  | missing hopen hfollowed => exact changesRefs_of_open hopen hfollowed
  | program hopen hfollowed _ => exact changesRefs_of_open hopen hfollowed
  | nameless hopen hfollowed _ _ hclose =>
    have := (changesRefs_of_open hopen hfollowed).trans (vfsClose_changesRefs hclose)
    rwa [List.append_nil, List.nil_append] at this
  | script hopen hfollowed _ _ _ hclose _ ih =>
    exact (changesRefs_of_open hopen hfollowed).trans ((vfsClose_changesRefs hclose).trans ih)

end Search

/-- Every node is still there, and links to it were followed as often as it was closed. -/
def GivesBack (s s' : Vfs) (followed closed : List ℕ) : Prop :=
  ∀ n, (s.node n).isSome → (s'.node n).isSome ∧ followed.count n ≡ closed.count n [MOD 2 ^ 32]

theorem isSome_refs {s : Vfs} {n : ℕ} : (refs s n).isSome = (s.node n).isSome := isSome_map

theorem ChangesRefs.refs_eq_iff {s s' : Vfs} {followed closed : List ℕ} (h : ChangesRefs s s' followed closed) :
    (∀ n, refs s' n = refs s n) ↔ GivesBack s s' followed closed := by
  have hcount : ∀ {n count : ℕ}, (s'.node n).isSome → refs s n = some count →
      (refs s' n = refs s n ↔ followed.count n ≡ closed.count n [MOD 2 ^ 32]) := by
    intro n count hn hc
    have hlt := refs_lt hc
    rw [h.refs_eq n hn, hc, map_some, some_inj]
    unfold Nat.ModEq
    omega
  constructor
  · intro hrefs n hn
    obtain ⟨count, hc⟩ := isSome_iff_exists.mp (isSome_refs.trans hn)
    have hn' : (s'.node n).isSome := by
      rw [← isSome_refs, hrefs n, hc]
      rfl
    exact ⟨hn', (hcount hn' hc).mp (hrefs n)⟩
  · intro hback n
    cases hc : refs s n with
    | none =>
      have hnone : s.node n = none := map_eq_none_iff.mp hc
      exact map_eq_none_iff.mpr (h.gone n hnone)
    | some count =>
      obtain ⟨hn', heq⟩ := hback n (by rw [← isSome_refs, hc]; rfl)
      rw [← hc]
      exact (hcount hn' hc).mpr heq

def Unchanged (s s' : ExecState) : Prop := s'.process = s.process ∧ ∀ n, refs s'.vfs n = refs s.vfs n

/-- When the search for the program fails, it gives back every reference; and when it succeeds, the address space can be
had, or the process has the names of the program already. -/
def ExecveHarmless (depth : ℕ) (content : ℕ → List Char) (cwdPathBuild : List Char → Option (List Char))
    (memory : ExecMemory) (s : ExecState) (path : Option (List Char)) (argv envp : Option (List (List Char))) : Prop :=
  ∀ p a normPath, path = some p → argv = some a → cwdPathBuild p = some normPath →
    ∀ followed closed vfs out,
      Search depth content memory.round 4 s.vfs normPath (fillArgv p a) followed closed vfs out →
        match out with
        | .error _ => GivesBack s.vfs vfs followed closed
        | .ok (_, prog, args) => ∀ env, envp = some env → memory.name → ¬ (memory.directory ∧ memory.mm) →
            replaceNames memory s.process prog args env = s.process ∧ GivesBack s.vfs vfs followed closed

variable {node : ℕ} {prog : List Char} {args : List (List Char)}

section Execve

variable {depth : ℕ} {content : ℕ → List Char} {cwdPathBuild : List Char → Option (List Char)} {memory : ExecMemory}
  {mm pid : ℕ} {s : ExecState} {p normPath : List Char} {a : List (List Char)} {envp : Option (List (List Char))} {vfs : Vfs}

theorem execve_of_error {e : ExecError} (hcwd : cwdPathBuild p = some normPath)
    (h : execveProgram (vfsFiles depth content) memory.round s.vfs p normPath a = some (vfs, .error e)) :
    execve depth content cwdPathBuild memory mm pid s (some p) (some a) envp = some ({ s with vfs := vfs }, some e) := by
  unfold execve
  simp only [hcwd, h, bind_some]

theorem execve_of_ok (hcwd : cwdPathBuild p = some normPath)
    (h : execveProgram (vfsFiles depth content) memory.round s.vfs p normPath a = some (vfs, .ok (node, prog, args))) :
    execve depth content cwdPathBuild memory mm pid s (some p) (some a) envp = envp.bind fun env =>
        if memory.name then
          let s := { s with vfs := vfs, process := replaceNames memory s.process prog args env }
          if memory.directory ∧ memory.mm then (execveEnter mm pid s node).map fun s => (s, none)
          else some (s, some .enomem)
        else none := by
  unfold execve
  simp only [hcwd, h, bind_some]

theorem execve_enomem {env : List (List Char)} (hcwd : cwdPathBuild p = some normPath)
    (h : execveProgram (vfsFiles depth content) memory.round s.vfs p normPath a = some (vfs, .ok (node, prog, args)))
    (hname : memory.name) (hspace : ¬ (memory.directory ∧ memory.mm)) :
    execve depth content cwdPathBuild memory mm pid s (some p) (some a) (some env) =
      some ({ s with vfs := vfs, process := replaceNames memory s.process prog args env }, some .enomem) := by
  rw [execve_of_ok hcwd h, bind_some]
  dsimp only
  rw [if_pos hname, if_neg hspace]

theorem execve_fails {s' : ExecState} {e : ExecError} (hcwd : cwdPathBuild p = some normPath)
    (h : execveProgram (vfsFiles depth content) memory.round s.vfs p normPath a = some (vfs, .ok (node, prog, args)))
    (hexec : execve depth content cwdPathBuild memory mm pid s (some p) (some a) envp = some (s', some e)) :
    ∃ env, envp = some env ∧ memory.name ∧ ¬ (memory.directory ∧ memory.mm) ∧
      s' = { s with vfs := vfs, process := replaceNames memory s.process prog args env } := by
  rw [execve_of_ok hcwd h] at hexec
  obtain ⟨env, henv, hexec⟩ := bind_eq_some_iff.mp hexec
  dsimp only at hexec
  split_ifs at hexec with hname hspace
  · obtain ⟨s1, -, heq⟩ := map_eq_some_iff.mp hexec
    cases heq
  · cases hexec
    exact ⟨env, henv, hname, hspace, rfl⟩

end Execve

/-- Failing calls of `execve` change nothing exactly when the search is harmless. -/
theorem execve_unchanged_iff (depth : ℕ) (content : ℕ → List Char) (cwdPathBuild : List Char → Option (List Char))
    (memory : ExecMemory) (mm pid : ℕ) (s : ExecState) (path : Option (List Char)) (argv envp : Option (List (List Char))) :
    (∀ s' e, execve depth content cwdPathBuild memory mm pid s path argv envp = some (s', some e) → Unchanged s s') ↔
      ExecveHarmless depth content cwdPathBuild memory s path argv envp := by
  constructor
  · rintro hsame p a normPath rfl rfl hcwd followed closed vfs out hsearch
    have hretry := hsearch.retry_eq
    have hrefs := hsearch.changesRefs.refs_eq_iff
    cases out with
    | error e => exact hrefs.mp (hsame _ e (execve_of_error hcwd hretry)).2
    | ok found =>
      obtain ⟨node, prog, args⟩ := found
      rintro env rfl hname hspace
      obtain ⟨hprocess, hback⟩ := hsame _ _ (execve_enomem hcwd hretry hname hspace)
      exact ⟨hprocess, hrefs.mp hback⟩
  · intro hharm s' e hexec
    cases path with
    | none =>
      cases hexec
      exact ⟨rfl, fun _ => rfl⟩
    | some p =>
      cases argv with
      | none =>
        cases hexec
        exact ⟨rfl, fun _ => rfl⟩
      | some a =>
        cases hcwd : cwdPathBuild p with
        | none =>
          unfold execve at hexec
          simp only [hcwd] at hexec
          cases hexec
          exact ⟨rfl, fun _ => rfl⟩
        | some normPath =>
          cases hretry : execveProgram (vfsFiles depth content) memory.round s.vfs p normPath a with
          | none =>
            unfold execve at hexec
            simp only [hcwd, hretry, Option.bind_none] at hexec
            cases hexec
          | some r =>
            obtain ⟨vfs, out⟩ := r
            obtain ⟨followed, closed, hsearch⟩ := search_of_retry hretry
            have hcall := hharm p a normPath rfl rfl hcwd followed closed vfs out hsearch
            have hrefs := hsearch.changesRefs.refs_eq_iff
            cases out with
            | error e' =>
              rw [execve_of_error hcwd hretry] at hexec
              cases hexec
              exact ⟨rfl, hrefs.mpr hcall⟩
            | ok found =>
              obtain ⟨node, prog, args⟩ := found
              obtain ⟨env, henv, hname, hspace, rfl⟩ := execve_fails hcwd hretry hexec
              obtain ⟨hprocess, hback⟩ := hcall env henv hname hspace
              exact ⟨hprocess, hrefs.mpr hback⟩

/-- A process in a tree with the file `/p`. -/
def beforeExecve : ExecState where
  vfs := ((vfsMkfile 1 Vfs.boot ['/', 'p']).map Prod.fst).getD Vfs.boot
  process :=
    { name := some ['i'], cmdline := none, clLength := 0, envp := some [], envc := 0, mm := 1, vfork := false, exec := none,
      fds := [], actions := fun _ => ⟨0, 0, 0, 0⟩, signal := 0, pendingSiginfoMask := 0, tidAddress := 0 }
  parentQueue := []

/-- Memory for everything but perhaps an `mm`. -/
def memoryBut (mm : Bool) : ExecMemory := ⟨fun _ => true, true, true, true, true, mm⟩

/-- Without memory for the address space the process keeps the name of the program that it has not entered. A script
without its interpreter loses a reference. -/
theorem execve_changes :
    ¬ (∀ s' e, execve 1 (fun _ => []) some (memoryBut false) 2 1 beforeExecve (some ['/', 'p']) (some []) (some []) =
        some (s', some e) → Unchanged beforeExecve s') ∧
      ¬ (∀ s' e, execve 1 (fun _ => ['#', '!', '/', 'x']) some (memoryBut true) 2 1 beforeExecve (some ['/', 'p'])
        (some []) (some []) = some (s', some e) → Unchanged beforeExecve s') := by
  constructor
  · intro h
    have hcall : (execve 1 (fun _ => []) some (memoryBut false) 2 1 beforeExecve (some ['/', 'p']) (some []) (some [])).map
        (fun r => (r.1.process.name, r.2)) = some (some ['/', 'p'], some .enomem) := by decide
    obtain ⟨⟨s', e⟩, hexec, heq⟩ := Option.map_eq_some_iff.mp hcall
    obtain ⟨hname, rfl⟩ := Prod.mk.inj heq
    rw [(h s' _ hexec).1] at hname
    cases hname
  · intro h
    have hcall : (execve 1 (fun _ => ['#', '!', '/', 'x']) some (memoryBut true) 2 1 beforeExecve (some ['/', 'p'])
        (some []) (some [])).map (fun r => (refs r.1.vfs 1, r.2)) = some (some 0, some .enoent) := by decide
    obtain ⟨⟨s', e⟩, hexec, heq⟩ := Option.map_eq_some_iff.mp hcall
    obtain ⟨hrefs, rfl⟩ := Prod.mk.inj heq
    have hone : refs beforeExecve.vfs 1 = some 1 := by decide
    rw [(h s' _ hexec).2 1, hone] at hrefs
    cases hrefs

end CoolPotOS
