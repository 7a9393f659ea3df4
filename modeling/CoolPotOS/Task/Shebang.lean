import CoolPotOS.Fs.Fds

namespace CoolPotOS

open List Option

def isBlank (c : Char) : Bool := c = ' ' ∨ c = '\t'

def isTrailing (c : Char) : Bool := c = ' ' ∨ c = '\t' ∨ c = '\r'

inductive ExecError
  | einval | enoent | enomem
  deriving DecidableEq

/-- The calls on files that the loop makes, and what it can read of a node. Strings and files are
lists of characters; a string has no `NUL`. -/
structure ExecFiles (σ : Type) where
  openNode : σ → List Char → Option (σ × Option ℕ)
  closeNode : σ → ℕ → Option σ
  content : ℕ → List Char

def vfsFiles (depth : ℕ) (content : ℕ → List Char) : ExecFiles Vfs := ⟨vfsOpen depth, vfsClose, content⟩

/-- What `vfs_read` puts into `shebang_buf`. -/
def probe (content : List Char) : List Char := content.take 255

/-- The probe has `n >= 4` characters and begins with `#!`. -/
def beginsScript (probe : List Char) : Prop := 4 ≤ probe.length ∧ probe.take 2 = ['#', '!']

instance decidableBeginsScript (probe : List Char) : Decidable (beginsScript probe) :=
  inferInstanceAs (Decidable (_ ∧ _))

/-- The string in the buffer, which ends at the first newline. -/
def shebangLine (probe : List Char) : List Char := (probe.takeWhile (· ≠ '\x00')).takeWhile (· ≠ '\n')

def parseShebang (probe : List Char) : List Char × Option (List Char) :=
  let interp := ((shebangLine probe).drop 2).dropWhile isBlank
  let interp := interp.rdropWhile isTrailing
  let sp := interp.dropWhile (!isBlank ·)
  let optArg :=
    if sp = [] then none
    else
      let optArg := (sp.drop 1).dropWhile isBlank
      if optArg = [] then none else some (optArg.rdropWhile isTrailing)
  (interp.takeWhile (!isBlank ·), optArg)

def shebangArgv (parsed : List Char × Option (List Char)) (normPath : List Char) (argv : List (List Char)) :
    List (List Char) :=
  parsed.1 :: (parsed.2.toList ++ normPath :: argv.drop 1)

/-- The loop `shebang_retry`, which looks into `left` more files. It ends with an error, or with a node, its path and the
arguments. `memory` tells in which rounds there is memory for the new arguments. -/
def shebangRetry {σ : Type} (files : ExecFiles σ) (memory : ℕ → Bool) :
    ℕ → σ → List Char → List (List Char) → Option (σ × Except ExecError (ℕ × List Char × List (List Char)))
  | 0, s, normPath, argv =>
    (files.openNode s normPath).map fun r =>
      match r with
      | (s, none) => (s, .error .enoent)
      | (s, some node) => (s, .ok (node, normPath, argv))
  | left + 1, s, normPath, argv =>
    (files.openNode s normPath).bind fun r =>
      match r with
      | (s, none) => some (s, .error .enoent)
      | (s, some node) =>
        let probe := probe (files.content node)
        if beginsScript probe then
          let parsed := parseShebang probe
          if parsed.1 = [] then (files.closeNode s node).map fun s => (s, .error .enoent)
          else if memory left then
            (files.closeNode s node).bind fun s =>
              shebangRetry files memory left s parsed.1 (shebangArgv parsed normPath argv)
          else none
        else some (s, .ok (node, normPath, argv))

def fillArgv (path : List Char) (argv : List (List Char)) : List (List Char) := if argv = [] then [path] else argv

/-- The search of `execve` for the program, which passes at most four scripts. -/
def execveProgram {σ : Type} (files : ExecFiles σ) (memory : ℕ → Bool) (s : σ) (path normPath : List Char)
    (argv : List (List Char)) : Option (σ × Except ExecError (ℕ × List Char × List (List Char))) :=
  shebangRetry files memory 4 s normPath (fillArgv path argv)

/-- The first line of a file behind `#!`. -/
def firstLine (content : List Char) : List Char := (content.takeWhile (· ≠ '\n')).drop 2

/-- A line `#! interp [arg]` by its parts. -/
inductive ShebangParts (line : List Char) : List Char → Option (List Char) → Prop
  | bare (before interp after : List Char) (hline : line = before ++ interp ++ after) (hbefore : ∀ c ∈ before, isBlank c)
      (hafter : ∀ c ∈ after, isTrailing c) (hinterp : ∀ c ∈ interp, ¬ isBlank c)
      (hlast : ∀ c, interp.getLast? = some c → ¬ isTrailing c) (hne : interp ≠ []) : ShebangParts line interp none
  | arg (before interp between arg after : List Char) (hline : line = before ++ (interp ++ (between ++ arg)) ++ after)
      (hbefore : ∀ c ∈ before, isBlank c) (hafter : ∀ c ∈ after, isTrailing c) (hinterp : ∀ c ∈ interp, ¬ isBlank c)
      (hne : interp ≠ []) (hbetween : ∀ c ∈ between, isBlank c) (hsome : between ≠ [])
      (hfirst : ∀ c, arg.head? = some c → ¬ isBlank c) (hlast : ∀ c, arg.getLast? = some c → ¬ isTrailing c)
      (harg : arg ≠ []) : ShebangParts line interp (some arg)

theorem isTrailing_of_isBlank {c : Char} (h : isBlank c) : isTrailing c := by
  unfold isBlank at h
  unfold isTrailing
  rw [decide_eq_true_iff] at h ⊢
  exact h.imp_right .inl

variable {p : Char → Bool} {interp : List Char}

theorem dropWhile_append_blank {before rest : List Char} (hbefore : ∀ c ∈ before, p c)
    (hrest : ∀ c, rest.head? = some c → ¬ p c) : (before ++ rest).dropWhile p = rest := by
  rw [dropWhile_append_of_pos hbefore]
  cases rest with
  | nil => rfl
  | cons c rest => exact dropWhile_cons_of_neg (hrest c rfl)

theorem rdropWhile_append_blank {rest after : List Char} (hafter : ∀ c ∈ after, p c)
    (hrest : ∀ c, rest.getLast? = some c → ¬ p c) : (rest ++ after).rdropWhile p = rest := by
  unfold rdropWhile
  rw [reverse_append, dropWhile_append_blank]
  · exact reverse_reverse rest
  · intro c hc
    exact hafter c (mem_reverse.mp hc)
  · intro c hc
    rw [head?_reverse] at hc
    exact hrest c hc

/-- A first line that the probe holds, without a `NUL`. -/
structure FirstLineFits (content : List Char) : Prop where
  length_le : (content.takeWhile (· ≠ '\n')).length ≤ 255
  no_nul : '\x00' ∉ content.takeWhile (· ≠ '\n')

theorem takeWhile_takeWhile_comm (p q : Char → Bool) (l : List Char) :
    (l.takeWhile p).takeWhile q = (l.takeWhile q).takeWhile p := by
  simp only [takeWhile_takeWhile, and_comm]

theorem takeWhile_take_of_length_le {l : List Char} {n : ℕ} (h : (l.takeWhile p).length ≤ n) :
    (l.take n).takeWhile p = l.takeWhile p := by
  induction l generalizing n with
  | nil => rw [take_nil]
  | cons c l ih =>
    by_cases hc : p c
    · rw [takeWhile_cons_of_pos hc, length_cons] at h
      obtain ⟨n, rfl⟩ := Nat.exists_eq_add_of_le' (Nat.one_le_of_lt (Nat.lt_of_succ_le h))
      rw [take_succ_cons, takeWhile_cons_of_pos hc, takeWhile_cons_of_pos hc,
        ih (Nat.le_of_succ_le_succ h)]
    · rw [takeWhile_cons_of_neg hc]
      cases n with
      | zero => rfl
      | succ n => rw [take_succ_cons, takeWhile_cons_of_neg hc]

theorem shebangLine_eq {content : List Char} (h : FirstLineFits content) :
    (shebangLine (probe content)).drop 2 = firstLine content := by
  unfold shebangLine probe firstLine
  rw [takeWhile_takeWhile_comm, takeWhile_take_of_length_le h.length_le]
  congr 1
  apply takeWhile_eq_self_iff.mpr
  intro c hc
  rw [decide_eq_true_iff]
  rintro rfl
  exact h.no_nul hc

theorem parseShebang_trimmed {probe before middle after : List Char}
    (hline : (shebangLine probe).drop 2 = before ++ middle ++ after) (hbefore : ∀ c ∈ before, isBlank c)
    (hafter : ∀ c ∈ after, isTrailing c) (hfirst : ∀ c, middle.head? = some c → ¬ isBlank c)
    (hlast : ∀ c, middle.getLast? = some c → ¬ isTrailing c) (hne : middle ≠ []) :
    (((shebangLine probe).drop 2).dropWhile isBlank).rdropWhile isTrailing = middle := by
  rw [hline, append_assoc, dropWhile_append_blank hbefore, rdropWhile_append_blank hafter hlast]
  intro c hc
  rw [head?_append_of_ne_nil _ hne] at hc
  exact hfirst c hc

theorem parseShebang_bare {probe : List Char}
    (htrim : (((shebangLine probe).drop 2).dropWhile isBlank).rdropWhile isTrailing = interp)
    (hinterp : ∀ c ∈ interp, ¬ isBlank c) : parseShebang probe = (interp, none) := by
  have hword : ∀ c ∈ interp, (!isBlank c) = true := by
    intro c hc
    exact Bool.not_eq_true' _ ▸ Bool.eq_false_of_not_eq_true (hinterp c hc)
  unfold parseShebang
  dsimp only
  rw [htrim, dropWhile_eq_nil_iff.mpr hword, if_pos rfl, takeWhile_eq_self_iff.mpr hword]

theorem parseShebang_arg {probe between arg : List Char}
    (htrim : (((shebangLine probe).drop 2).dropWhile isBlank).rdropWhile isTrailing = interp ++ (between ++ arg))
    (hinterp : ∀ c ∈ interp, ¬ isBlank c) (hbetween : ∀ c ∈ between, isBlank c) (hsome : between ≠ [])
    (hfirst : ∀ c, arg.head? = some c → ¬ isBlank c) (hlast : ∀ c, arg.getLast? = some c → ¬ isTrailing c)
    (harg : arg ≠ []) : parseShebang probe = (interp, some arg) := by
  have hword : ∀ c ∈ interp, (!isBlank c) = true := by
    intro c hc
    exact Bool.not_eq_true' _ ▸ Bool.eq_false_of_not_eq_true (hinterp c hc)
  obtain ⟨b, between, rfl⟩ := exists_cons_of_ne_nil hsome
  have hb : isBlank b := hbetween b mem_cons_self
  have hrest : ∀ c ∈ between, isBlank c := fun c hc => hbetween c (mem_cons_of_mem b hc)
  have hstop : ∀ c, (b :: between ++ arg).head? = some c → ¬ (!isBlank c) = true := by
    intro c hc
    rw [← Option.some.inj hc, hb]
    exact Bool.false_ne_true
  have hself : arg.rdropWhile isTrailing = arg := by
    rw [← append_nil arg, rdropWhile_append_blank (forall_mem_nil _) hlast, append_nil]
  unfold parseShebang
  dsimp only
  rw [htrim, dropWhile_append_blank hword hstop, takeWhile_append_of_pos hword, cons_append,
    if_neg (cons_ne_nil b _), takeWhile_cons_of_neg (p := fun c => !isBlank c) (hstop b rfl), append_nil,
    drop_one, tail_cons, dropWhile_append_blank hrest hfirst, if_neg harg, hself]

theorem ShebangParts.parse {probe : List Char} {arg : Option (List Char)}
    (h : ShebangParts ((shebangLine probe).drop 2) interp arg) :
    parseShebang probe = (interp, arg) ∧ interp ≠ [] := by
  cases h with
  | bare before interp after hline hbefore hafter hinterp hlast hne =>
    have htrim := parseShebang_trimmed hline hbefore hafter
      (fun c hc => hinterp c (List.mem_of_head? hc)) hlast hne
    exact ⟨parseShebang_bare htrim hinterp, hne⟩
  | arg before interp between arg after hline hbefore hafter hinterp hne hbetween hsome hfirst hlast harg =>
    have hmiddle : interp ++ (between ++ arg) ≠ [] := append_ne_nil_of_left_ne_nil hne _
    have htrim := parseShebang_trimmed hline hbefore hafter
      (fun c hc => hinterp c (List.mem_of_head? (by rwa [head?_append_of_ne_nil _ hne] at hc)))
      (fun c hc => hlast c (by
        rwa [← append_assoc, getLast?_append_of_ne_nil _ harg] at hc)) hmiddle
    exact ⟨parseShebang_arg htrim hinterp hbetween hsome hfirst hlast harg, hne⟩

theorem parseShebang_nameless {probe : List Char} (h : ∀ c ∈ (shebangLine probe).drop 2, isTrailing c) :
    (parseShebang probe).1 = [] := by
  have htrim : (((shebangLine probe).drop 2).dropWhile isBlank).rdropWhile isTrailing = [] := by
    apply rdropWhile_eq_nil_iff.mpr
    intro c hc
    exact h c ((dropWhile_sublist _).mem hc)
  rw [parseShebang_bare htrim (forall_mem_nil _)]

theorem shebangParts_or_nameless (line : List Char) :
    (∃ interp arg, ShebangParts line interp arg) ∨ ∀ c ∈ line, isTrailing c := by
  set middle := (line.dropWhile isBlank).rdropWhile isTrailing with hmid
  have hline : line = line.takeWhile isBlank ++ middle ++ (line.dropWhile isBlank).rtakeWhile isTrailing := by
    rw [append_assoc, hmid, rdropWhile_append_rtakeWhile, takeWhile_append_dropWhile]
  have hbefore : ∀ c ∈ line.takeWhile isBlank, isBlank c := fun c hc => mem_takeWhile_imp hc
  have hafter : ∀ c ∈ (line.dropWhile isBlank).rtakeWhile isTrailing, isTrailing c :=
    fun c hc => mem_rtakeWhile_imp hc
  by_cases hnil : middle = []
  · refine .inr fun c hc => ?_
    rw [hline, hnil, append_nil] at hc
    exact (mem_append.mp hc).elim (fun h => isTrailing_of_isBlank (hbefore c h)) (hafter c)
  refine .inl ?_
  have hlast : ∀ c, middle.getLast? = some c → ¬ isTrailing c := by
    intro c hc
    rw [getLast?_eq_some_getLast hnil] at hc
    rw [← Option.some.inj hc]
    exact rdropWhile_last_not isTrailing _ hnil
  have hhead : ∀ c, middle.head? = some c → ¬ isBlank c := by
    intro c hc
    obtain ⟨rest, hrest⟩ := rdropWhile_prefix isTrailing (line.dropWhile isBlank)
    have hc' : (line.dropWhile isBlank).head? = some c := by
      rw [← hrest, head?_append_of_ne_nil _ hnil]
      exact hc
    have hnot := head?_dropWhile_not isBlank line
    rw [hc'] at hnot
    exact ne_true_of_eq_false hnot
  have hword : ∀ c ∈ middle.takeWhile (!isBlank ·), ¬ isBlank c := by
    intro c hc h
    have := mem_takeWhile_imp hc
    rw [h] at this
    exact Bool.false_ne_true this
  have hne : middle.takeWhile (!isBlank ·) ≠ [] := by
    obtain ⟨c, rest, hc⟩ := exists_cons_of_ne_nil hnil
    have hblank : isBlank c = false := Bool.eq_false_of_not_eq_true (hhead c (by rw [hc]; rfl))
    rw [hc, takeWhile_cons_of_pos (by rw [hblank]; rfl)]
    exact cons_ne_nil _ _
  have hsplit : middle.takeWhile (!isBlank ·) ++ middle.dropWhile (!isBlank ·) = middle :=
    takeWhile_append_dropWhile
  set sp := middle.dropWhile (!isBlank ·) with hsp
  by_cases hbare : sp = []
  · rw [hbare, append_nil] at hsplit
    rw [hsplit] at hword hne
    exact ⟨middle, none, .bare _ _ _ hline hbefore hafter hword hlast hne⟩
  have hparts : sp.takeWhile isBlank ++ sp.dropWhile isBlank = sp := takeWhile_append_dropWhile
  have hend : sp.getLast? = middle.getLast? := by
    rw [← hsplit, getLast?_append_of_ne_nil _ hbare]
  have harg : sp.dropWhile isBlank ≠ [] := by
    intro hall
    have hblank := dropWhile_eq_nil_iff.mp hall (sp.getLast hbare) (getLast_mem hbare)
    exact hlast _ (hend.symm.trans (getLast?_eq_some_getLast hbare)) (isTrailing_of_isBlank hblank)
  refine ⟨middle.takeWhile (!isBlank ·), some (sp.dropWhile isBlank),
    .arg (line.takeWhile isBlank) _ (sp.takeWhile isBlank) _ ((line.dropWhile isBlank).rtakeWhile isTrailing) ?_
      hbefore hafter hword hne (fun c hc => mem_takeWhile_imp hc) ?_ ?_ ?_ harg⟩
  · rw [hparts, hsplit]
    exact hline
  · obtain ⟨c, rest, hc⟩ := exists_cons_of_ne_nil hbare
    have hnot := head?_dropWhile_not (!isBlank ·) middle
    rw [← hsp, hc] at hnot
    have hblank : isBlank c := by simpa using hnot
    rw [hc, takeWhile_cons_of_pos hblank]
    exact cons_ne_nil _ _
  · intro c hc
    have hnot := head?_dropWhile_not isBlank sp
    rw [hc] at hnot
    exact ne_true_of_eq_false hnot
  · intro c hc
    apply hlast
    rw [← hend, ← hparts, getLast?_append_of_ne_nil _ harg]
    exact hc

variable {σ : Type}

/-- By `k` scripts the program and the arguments of one call stand for those of another, where each script is closed again
before its interpreter is opened. -/
inductive StandsFor (isScript : List Char → Prop) (files : ExecFiles σ) :
    ℕ → σ × List Char × List (List Char) → σ × List Char × List (List Char) → Prop
  | same (call : σ × List Char × List (List Char)) : StandsFor isScript files 0 call call
  | script {s s₁ s₂ : σ} {path interp : List Char} {argv : List (List Char)} {arg : Option (List Char)} {node k : ℕ}
      {call : σ × List Char × List (List Char)} (hopen : files.openNode s path = some (s₁, some node))
      (hscript : isScript (files.content node)) (hparts : ShebangParts (firstLine (files.content node)) interp arg)
      (hclose : files.closeNode s₁ node = some s₂)
      (hrest : StandsFor isScript files k (s₂, interp, interp :: (arg.toList ++ path :: argv.drop 1)) call) :
      StandsFor isScript files (k + 1) (s, path, argv) call

def HashBang (content : List Char) : Prop := content.take 2 = ['#', '!']

def IsScript (content : List Char) : Prop := 4 ≤ content.length ∧ HashBang content

/-- How the last file of a chain is taken, when `more` scripts may follow. -/
inductive LastFile (files : ExecFiles σ) (more : Prop) :
    σ × List Char × List (List Char) → σ × Except ExecError (ℕ × List Char × List (List Char)) → Prop
  | missing {s s₁ : σ} {path : List Char} {argv : List (List Char)} (hopen : files.openNode s path = some (s₁, none)) :
      LastFile files more (s, path, argv) (s₁, .error .enoent)
  | program {s s₁ : σ} {path : List Char} {argv : List (List Char)} {node : ℕ}
      (hopen : files.openNode s path = some (s₁, some node)) (hend : more → ¬ IsScript (files.content node)) :
      LastFile files more (s, path, argv) (s₁, .ok (node, path, argv))
  | nameless {s s₁ s₂ : σ} {path : List Char} {argv : List (List Char)} {node : ℕ} (hmore : more)
      (hopen : files.openNode s path = some (s₁, some node)) (hscript : IsScript (files.content node))
      (hline : ∀ c ∈ firstLine (files.content node), isTrailing c) (hclose : files.closeNode s₁ node = some s₂) :
      LastFile files more (s, path, argv) (s₂, .error .enoent)

theorem beginsScript_iff (content : List Char) : beginsScript (probe content) ↔ IsScript content := by
  unfold beginsScript probe IsScript HashBang
  rw [length_take, take_take, le_min_iff]
  exact and_congr_left fun _ => and_iff_right (by norm_num)

section Loop

variable {files : ExecFiles σ} {s s₁ s₂ : σ} {path : List Char} {argv : List (List Char)} {node left : ℕ}

theorem shebangRetry_missing (memory : ℕ → Bool) (hopen : files.openNode s path = some (s₁, none)) :
    shebangRetry files memory left s path argv = some (s₁, .error .enoent) := by
  cases left with
  | zero => rw [shebangRetry, hopen, map_some]
  | succ left => rw [shebangRetry, hopen, bind_some]

theorem shebangRetry_taken (memory : ℕ → Bool) (hopen : files.openNode s path = some (s₁, some node))
    (hend : 0 < left → ¬ beginsScript (probe (files.content node))) :
    shebangRetry files memory left s path argv = some (s₁, .ok (node, path, argv)) := by
  cases left with
  | zero => rw [shebangRetry, hopen, map_some]
  | succ left =>
    rw [shebangRetry, hopen, bind_some]
    dsimp only
    rw [if_neg (hend (Nat.succ_pos left))]

theorem shebangRetry_empty (memory : ℕ → Bool) (hopen : files.openNode s path = some (s₁, some node))
    (hscript : beginsScript (probe (files.content node))) (hparse : (parseShebang (probe (files.content node))).1 = []) :
    shebangRetry files memory (left + 1) s path argv =
      (files.closeNode s₁ node).map fun s => (s, .error .enoent) := by
  unfold shebangRetry
  rw [hopen, bind_some]
  dsimp only
  rw [if_pos hscript, if_pos hparse]

theorem shebangRetry_next {memory : ℕ → Bool} (hopen : files.openNode s path = some (s₁, some node))
    (hscript : beginsScript (probe (files.content node))) (hparse : (parseShebang (probe (files.content node))).1 ≠ [])
    (hround : memory left) :
    shebangRetry files memory (left + 1) s path argv = (files.closeNode s₁ node).bind fun s =>
        shebangRetry files memory left s (parseShebang (probe (files.content node))).1
          (shebangArgv (parseShebang (probe (files.content node))) path argv) := by
  rw [shebangRetry, hopen, bind_some]
  dsimp only
  rw [if_pos hscript, if_neg hparse, if_pos hround]

theorem shebangRetry_program (memory : ℕ → Bool) (hopen : files.openNode s path = some (s₁, some node))
    (hend : 0 < left → ¬ IsScript (files.content node)) :
    shebangRetry files memory left s path argv = some (s₁, .ok (node, path, argv)) :=
  shebangRetry_taken memory hopen fun hleft h => hend hleft ((beginsScript_iff _).mp h)

theorem shebangRetry_nameless (memory : ℕ → Bool) (hopen : files.openNode s path = some (s₁, some node))
    (hscript : IsScript (files.content node)) (hline : ∀ c ∈ (shebangLine (probe (files.content node))).drop 2, isTrailing c) :
    shebangRetry files memory (left + 1) s path argv =
      (files.closeNode s₁ node).map fun s => (s, .error .enoent) :=
  shebangRetry_empty memory hopen ((beginsScript_iff _).mpr hscript) (parseShebang_nameless hline)

theorem shebangRetry_script {arg : Option (List Char)} {memory : ℕ → Bool}
    (hopen : files.openNode s path = some (s₁, some node)) (hscript : IsScript (files.content node))
    (hparts : ShebangParts ((shebangLine (probe (files.content node))).drop 2) interp arg)
    (hround : memory left) :
    shebangRetry files memory (left + 1) s path argv = (files.closeNode s₁ node).bind fun s =>
        shebangRetry files memory left s interp (interp :: (arg.toList ++ path :: argv.drop 1)) := by
  obtain ⟨hparse, hne⟩ := hparts.parse
  rw [shebangRetry_next hopen ((beginsScript_iff _).mpr hscript) (by rwa [hparse]) hround, hparse]
  rfl

end Loop

theorem shebangRetry_iff {files : ExecFiles σ}
    (hfits : ∀ node, IsScript (files.content node) → FirstLineFits (files.content node)) (left : ℕ) (s : σ)
    (path : List Char) (argv : List (List Char)) (out : σ × Except ExecError (ℕ × List Char × List (List Char))) :
    shebangRetry files (fun _ => true) left s path argv = some out ↔
      ∃ k ≤ left, ∃ call, StandsFor IsScript files k (s, path, argv) call ∧ LastFile files (k < left) call out := by
  constructor
  · intro h
    induction left generalizing s path argv with
    | zero =>
      refine ⟨0, le_rfl, _, .same _, ?_⟩
      have hcall := h
      rw [shebangRetry] at hcall
      obtain ⟨⟨s₁, found⟩, hopen, -⟩ := map_eq_some_iff.mp hcall
      cases found with
      | none =>
        rw [shebangRetry_missing _ hopen] at h
        rw [← Option.some.inj h]
        exact .missing hopen
      | some node =>
        rw [shebangRetry_program _ hopen fun h => absurd h (Nat.lt_irrefl 0)] at h
        rw [← Option.some.inj h]
        exact .program hopen fun h => absurd h (Nat.lt_irrefl 0)
    | succ left ih =>
      have hmore : 0 < left + 1 := Nat.succ_pos left
      have hcall := h
      rw [shebangRetry] at hcall
      obtain ⟨⟨s₁, found⟩, hopen, -⟩ := bind_eq_some_iff.mp hcall
      cases found with
      | none =>
        rw [shebangRetry_missing _ hopen] at h
        rw [← Option.some.inj h]
        exact ⟨0, Nat.zero_le _, _, .same _, .missing hopen⟩
      | some node =>
        by_cases hscript : IsScript (files.content node)
        · have hline := shebangLine_eq (hfits node hscript)
          rcases shebangParts_or_nameless (firstLine (files.content node)) with ⟨interp, arg, hparts⟩ | hless
          · rw [shebangRetry_script hopen hscript (hline ▸ hparts) rfl] at h
            obtain ⟨s₂, hclose, h⟩ := bind_eq_some_iff.mp h
            obtain ⟨k, hk, call, hchain, hlast⟩ := ih _ _ _ h
            refine ⟨k + 1, Nat.succ_le_succ hk, call, .script hopen hscript hparts hclose hchain, ?_⟩
            rwa [Nat.succ_lt_succ_iff]
          · rw [shebangRetry_nameless _ hopen hscript (hline ▸ hless)] at h
            obtain ⟨s₂, hclose, rfl⟩ := map_eq_some_iff.mp h
            exact ⟨0, Nat.zero_le _, _, .same _, .nameless hmore hopen hscript hless hclose⟩
        · rw [shebangRetry_program _ hopen fun _ => hscript] at h
          rw [← Option.some.inj h]
          exact ⟨0, Nat.zero_le _, _, .same _, .program hopen fun _ => hscript⟩
  · rintro ⟨k, hk, call, hchain, hlast⟩
    generalize hstart : (s, path, argv) = start at hchain
    induction hchain generalizing left s path argv with
    | same call =>
      subst hstart
      cases hlast with
      | missing hopen => exact shebangRetry_missing _ hopen
      | program hopen hend => exact shebangRetry_program _ hopen hend
      | nameless hmore hopen hscript hless hclose =>
        obtain ⟨left, rfl⟩ := Nat.exists_eq_add_of_le' hmore
        rw [shebangRetry_nameless _ hopen hscript (shebangLine_eq (hfits _ hscript) ▸ hless), hclose, map_some]
    | script hopen hscript hparts hclose _ ih =>
      cases hstart
      obtain ⟨left, rfl⟩ := Nat.exists_eq_add_of_le' (Nat.one_le_of_lt hk)
      rw [shebangRetry_script hopen hscript (shebangLine_eq (hfits _ hscript) ▸ hparts) rfl, hclose, bind_some]
      rw [Nat.succ_lt_succ_iff] at hlast
      exact ih left _ _ _ (Nat.le_of_succ_le_succ hk) hlast rfl

theorem shebangRetry_isSome {files : ExecFiles σ} (hopen : ∀ s path, (files.openNode s path).isSome)
    (hclose : ∀ s node, (files.closeNode s node).isSome) (left : ℕ) (s : σ) (path : List Char) (argv : List (List Char)) :
    (shebangRetry files (fun _ => true) left s path argv).isSome := by
  induction left generalizing s path argv with
  | zero =>
    rw [shebangRetry, isSome_map]
    exact hopen s path
  | succ left ih =>
    obtain ⟨⟨s₁, found⟩, hfound⟩ := isSome_iff_exists.mp (hopen s path)
    rw [shebangRetry, hfound, bind_some]
    cases found with
    | none => rfl
    | some node =>
      obtain ⟨s₂, hclosed⟩ := isSome_iff_exists.mp (hclose s₁ node)
      dsimp only
      rw [hclosed, if_pos rfl, bind_some, map_some]
      split_ifs
      · rfl
      · exact ih _ _ _
      · rfl

/-- The search ends after at most four scripts, when the calls on files return, with the program and the arguments that
the chain of scripts stands for. -/
theorem execveProgram_resolves (files : ExecFiles σ)
    (hfits : ∀ node, IsScript (files.content node) → FirstLineFits (files.content node)) (s : σ)
    (path normPath : List Char) (argv : List (List Char)) :
    (∀ out, execveProgram files (fun _ => true) s path normPath argv = some out ↔
      ∃ k ≤ 4, ∃ call, StandsFor IsScript files k (s, normPath, fillArgv path argv) call ∧ LastFile files (k < 4) call out) ∧
      ((∀ s path, (files.openNode s path).isSome) → (∀ s node, (files.closeNode s node).isSome) →
        (execveProgram files (fun _ => true) s path normPath argv).isSome) :=
  ⟨fun out => shebangRetry_iff hfits 4 s normPath (fillArgv path argv) out,
    fun hopen hclose => shebangRetry_isSome hopen hclose 4 s normPath (fillArgv path argv)⟩

/-- Files `/a`, `/b` and so on, beside the directory `/`. -/
def letterFiles (contents : List (List Char)) : ExecFiles Unit where
  openNode _ path :=
    match path with
    | ['/'] => some ((), some 26)
    | ['/', c] => some ((), if c.toNat - 97 < contents.length then some (c.toNat - 97) else none)
    | _ => some ((), none)
  closeNode _ _ := some ()
  content node := contents.getD node []

/-- A script with an argument, whose interpreter is a script with a carriage return behind its line. -/
def twoScripts : ExecFiles Unit :=
  letterFiles [['#', '!', ' ', '/', 'b', '\t', '-', 'x', ' ', 'y', ' ', '\n', '1'], ['#', '!', '/', 'c', '\r', '\n'], ['E']]

theorem shebangParts_of_word (h : ∀ c ∈ interp, ¬ isTrailing c) (hne : interp ≠ []) :
    ShebangParts interp interp none :=
  .bare [] interp [] (append_nil interp).symm (forall_mem_nil _) (forall_mem_nil _)
    (fun c hc hblank => h c hc (isTrailing_of_isBlank hblank)) (fun c hc => h c (List.mem_of_getLast? hc)) hne

theorem twoScripts_stand : StandsFor IsScript twoScripts 2 ((), ['/', 'a'], [['q'], ['z']])
    ((), ['/', 'c'], [['/', 'c'], ['/', 'b'], ['-', 'x', ' ', 'y'], ['/', 'a'], ['z']]) := by
  have hfirst : ShebangParts (firstLine (twoScripts.content 0)) ['/', 'b'] (some ['-', 'x', ' ', 'y']) :=
    .arg [' '] ['/', 'b'] ['\t'] ['-', 'x', ' ', 'y'] [' '] rfl (by simp [isBlank]) (by simp [isTrailing])
      (by simp [isBlank]) (by simp) (by simp [isBlank]) (by simp) (by simp [isBlank]) (by simp [isTrailing]) (by simp)
  have hsecond : ShebangParts (firstLine (twoScripts.content 1)) ['/', 'c'] none :=
    .bare [] ['/', 'c'] ['\r'] rfl (by simp) (by simp [isTrailing]) (by simp [isBlank]) (by simp [isTrailing]) (by simp)
  exact .script rfl ⟨by decide, rfl⟩ hfirst rfl (.script rfl ⟨by decide, rfl⟩ hsecond rfl (.same _))

theorem execveProgram_resolves_twoScripts :
    execveProgram twoScripts (fun _ => true) () ['/', 'a'] ['/', 'a'] [['q'], ['z']] = some ((), .ok (2, ['/', 'c'],
      [['/', 'c'], ['/', 'b'], ['-', 'x', ' ', 'y'], ['/', 'a'], ['z']])) := by
  have hfits : ∀ node, IsScript (twoScripts.content node) → FirstLineFits (twoScripts.content node) := by
    intro node _
    match node with
    | 0 => exact ⟨by decide, by decide⟩
    | 1 => exact ⟨by decide, by decide⟩
    | 2 => exact ⟨by decide, by decide⟩
    | _ + 3 => exact ⟨Nat.zero_le _, List.not_mem_nil⟩
  exact ((execveProgram_resolves twoScripts hfits () ['/', 'a'] ['/', 'a'] [['q'], ['z']]).1 _).mpr
    ⟨2, by decide, _, twoScripts_stand, .program rfl fun _ h => absurd h.1 (by decide)⟩

/-- Five scripts, each of which names the next file, and a program. -/
def fiveScripts : ExecFiles Unit :=
  letterFiles [['#', '!', '/', 'b'], ['#', '!', '/', 'c'], ['#', '!', '/', 'd'], ['#', '!', '/', 'e'],
    ['#', '!', '/', 'f'], []]

theorem shebangParts_letter {c : Char} (h : ¬ isTrailing c) : ShebangParts ['/', c] ['/', c] none := by
  apply shebangParts_of_word
  · intro d hd
    rcases mem_pair.mp hd with rfl | rfl
    · decide
    · exact h
  · exact cons_ne_nil _ _

/-- Scripts of the kernel are scripts, and a chain of them is one for any notion of a script that has them. -/
theorem StandsFor.mono {isScript isScript' : List Char → Prop} {files : ExecFiles σ} {k : ℕ}
    {call call' : σ × List Char × List (List Char)} (himp : ∀ content, isScript content → isScript' content)
    (h : StandsFor isScript files k call call') : StandsFor isScript' files k call call' := by
  induction h with
  | same call => exact .same call
  | script hopen hscript hparts hclose _ ih => exact .script hopen (himp _ hscript) hparts hclose ih

theorem StandsFor.trans {isScript : List Char → Prop} {files : ExecFiles σ} {k k' : ℕ}
    {call call' call'' : σ × List Char × List (List Char)} (h : StandsFor isScript files k call call')
    (h' : StandsFor isScript files k' call' call'') : StandsFor isScript files (k + k') call call'' := by
  induction h with
  | same call => rwa [Nat.zero_add]
  | script hopen hscript hparts hclose _ ih =>
    rw [Nat.succ_add]
    exact .script hopen hscript hparts hclose (ih h')

/-- The fifth script of a chain is taken for the program, and so is a script of three characters. -/
theorem execveProgram_stops :
    (StandsFor HashBang fiveScripts 5 ((), ['/', 'a'], [['a']])
        ((), ['/', 'f'], [['/', 'f'], ['/', 'e'], ['/', 'd'], ['/', 'c'], ['/', 'b'], ['/', 'a']]) ∧
      fiveScripts.openNode () ['/', 'f'] = some ((), some 5) ∧ ¬ HashBang (fiveScripts.content 5) ∧
      execveProgram fiveScripts (fun _ => true) () ['/', 'a'] ['/', 'a'] [['a']] =
        some ((), .ok (4, ['/', 'e'], [['/', 'e'], ['/', 'd'], ['/', 'c'], ['/', 'b'], ['/', 'a']]))) ∧
    (StandsFor HashBang (letterFiles [['#', '!', '/']]) 1 ((), ['/', 'a'], [['a']]) ((), ['/'], [['/'], ['/', 'a']]) ∧
      execveProgram (letterFiles [['#', '!', '/']]) (fun _ => true) () ['/', 'a'] ['/', 'a'] [['a']] =
        some ((), .ok (0, ['/', 'a'], [['a']]))) := by
  have hfits : ∀ node, IsScript (fiveScripts.content node) → FirstLineFits (fiveScripts.content node) := by
    intro node _
    match node with
    | 0 => exact ⟨by decide, by decide⟩
    | 1 => exact ⟨by decide, by decide⟩
    | 2 => exact ⟨by decide, by decide⟩
    | 3 => exact ⟨by decide, by decide⟩
    | 4 => exact ⟨by decide, by decide⟩
    | 5 => exact ⟨by decide, by decide⟩
    | _ + 6 => exact ⟨Nat.zero_le _, List.not_mem_nil⟩
  have hfour : StandsFor IsScript fiveScripts 4 ((), ['/', 'a'], [['a']])
      ((), ['/', 'e'], [['/', 'e'], ['/', 'd'], ['/', 'c'], ['/', 'b'], ['/', 'a']]) :=
    .script rfl ⟨by decide, rfl⟩ (shebangParts_letter (by decide)) rfl <|
      .script rfl ⟨by decide, rfl⟩ (shebangParts_letter (by decide)) rfl <|
      .script rfl ⟨by decide, rfl⟩ (shebangParts_letter (by decide)) rfl <|
      .script rfl ⟨by decide, rfl⟩ (shebangParts_letter (by decide)) rfl <| .same _
  have hlast : StandsFor HashBang fiveScripts 1
      ((), ['/', 'e'], [['/', 'e'], ['/', 'd'], ['/', 'c'], ['/', 'b'], ['/', 'a']])
      ((), ['/', 'f'], [['/', 'f'], ['/', 'e'], ['/', 'd'], ['/', 'c'], ['/', 'b'], ['/', 'a']]) :=
    .script rfl rfl (shebangParts_letter (by decide)) rfl (.same _)
  have hroot : ShebangParts ['/'] ['/'] none := shebangParts_of_word (by simp [isTrailing]) (by decide)
  refine ⟨⟨?_, rfl, by unfold HashBang; decide, ?_⟩, ?_, ?_⟩
  · exact StandsFor.trans (hfour.mono fun _ h => h.2) hlast
  · exact (shebangRetry_iff hfits 4 () ['/', 'a'] [['a']] _).mpr
      ⟨4, le_rfl, _, hfour, .program rfl fun h => absurd h (lt_irrefl 4)⟩
  · exact .script rfl rfl hroot rfl (.same _)
  · exact shebangRetry_program _ rfl fun _ h => absurd h.1 (by decide)

end CoolPotOS
