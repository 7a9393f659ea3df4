import CoolPotOS.Fs.Path

namespace CoolPotOS

open List

/-- `strtok`: the token, and what the static variable `last` holds for the next call. -/
def strtok (str last : Option (List Char)) (delim : List Char) :
    Option (List Char) × Option (List Char) :=
  match str.or last with
  | none => (none, none)
  | some s =>
    match s.dropWhile (· ∈ delim) with
    | [] => (none, none)
    | start =>
      match start.dropWhile (· ∉ delim) with
      | [] => (some start, none)
      | _ :: rest => (some (start.takeWhile (· ∉ delim)), some rest)

/-- `strcat` to a string in a buffer of `size` characters; `none` stands for a write behind it. -/
def strcat (size : ℕ) (dest src : List Char) : Option (List Char) :=
  if dest.length + src.length + 1 ≤ size then some (dest ++ src) else none

/-- The turn of the loop of `normalize_path` for one token. -/
def normalizeTurn (size : ℕ) (result token : List Char) : Option (List Char) :=
  if token = ['.'] then some result
  else if token = ['.', '.'] then
    -- the last slash ends the string, and the first one stays
    some (if dirName result ≠ [] then dirName result else ['/'])
  else if result.getLast? ≠ some '/' then
    (strcat size result ['/']).bind fun result => strcat size result token
  else strcat size result token

/-- The loop of `normalize_path`; `none` also stands for tokens left when the fuel is used up. -/
def normalizeLoop (size : ℕ) :
    ℕ → Option (List Char) × Option (List Char) → List Char → Option (List Char)
  | 0, (token, _), result => if token = none then some result else none
  | fuel + 1, (token, last), result =>
    match token with
    | none => some result
    | some token =>
      (normalizeTurn size result token).bind fun result =>
        normalizeLoop size fuel (strtok none last ['/']) result

/-- `normalize_path` with memory at hand. -/
def normalizePathIn (path : List Char) : Option (List Char) :=
  let size := path.length + 1
  (strcat size [] ['/']).bind fun result =>
    if path = ['/'] then some result
    else
      let start := if path.head? = some '/' then path.tail else path
      normalizeLoop size path.length (strtok (some start) none ['/']) result

theorem strtok_some (s : List Char) :
    match pathtok s with
    | none => strtok (some s) none ['/'] = (none, none)
    | some (buf, rest) => ∃ last, strtok (some s) none ['/'] = (some buf, last) ∧
        strtok none last ['/'] = strtok (some rest) none ['/'] := by
  have hdelim : ∀ c : Char, decide (c ∈ ['/']) = decide (c = '/') := fun c => by simp
  have hdelim' : ∀ c : Char, decide (c ∉ ['/']) = decide (c ≠ '/') := fun c => by simp
  unfold strtok pathtok
  simp only [hdelim, hdelim', Option.some_or, Option.none_or]
  cases hstart : s.dropWhile (· = '/') with
  | nil => rfl
  | cons c start =>
    have happend := takeWhile_append_dropWhile (p := fun x => decide (x ≠ '/')) (l := c :: start)
    dsimp only
    cases hend : (c :: start).dropWhile (· ≠ '/') with
    | nil =>
      rw [hend, append_nil] at happend
      rw [happend]
      exact ⟨none, rfl, rfl⟩
    | cons d rest => exact ⟨some rest, rfl, rfl⟩

theorem splitOn_slash (s : List Char) : splitOn '/' ('/' :: s) = [] :: splitOn '/' s := by
  have hsplit := splitOn_append_cons_self_of_not_mem (not_mem_nil : '/' ∉ []) s
  rwa [nil_append] at hsplit

theorem tokens_eq_splitOn (s : List Char) :
    (pathTokens s).map Prod.fst = (s.splitOn '/').filter (· ≠ []) := by
  generalize hn : s.length = n
  induction n using Nat.strong_induction_on generalizing s with
  | _ n ih =>
    cases s with
    | nil => rfl
    | cons c t =>
      by_cases hc : c = '/'
      · -- a slash in front is an empty component
        subst hc
        have htok : pathtok ('/' :: t) = pathtok t := by simp [pathtok]
        rw [splitOn_slash, filter_cons_of_neg (by simp), pathTokens_eq, htok, ← pathTokens_eq]
        exact ih t.length (by simp at hn; omega) t rfl
      · have hbuf : IsToken ((c :: t).takeWhile (· ≠ '/')) := by
          refine ⟨by simp [hc], fun hmem => ?_⟩
          simpa using mem_takeWhile_imp hmem
        have happend := takeWhile_append_dropWhile (p := fun x => decide (x ≠ '/')) (l := c :: t)
        cases hrest : (c :: t).dropWhile (· ≠ '/') with
        | nil =>
          rw [hrest, append_nil] at happend
          rw [happend] at hbuf
          rw [pathTokens_eq, pathtok_token hbuf, splitOn_eq_singleton hbuf.2,
            filter_cons_of_pos (by simp)]
          rfl
        | cons d rest =>
          have hd : d = '/' := by
            have hhead := head?_dropWhile_not (fun c : Char => decide (c ≠ '/')) (c :: t)
            rw [hrest] at hhead
            simpa using hhead
          subst hd
          rw [hrest] at happend
          have hlen := congrArg length happend
          rw [length_append, length_cons, hn] at hlen
          rw [← happend, pathTokens_eq, pathtok_token_slash hbuf,
            splitOn_append_cons_self_of_not_mem hbuf.2,
            filter_cons_of_pos (by simpa using hbuf.1), map_cons]
          simp only
          rw [ih rest.length (by omega) rest rfl]

/-- The stack of the components of a path: an empty component and `.` do nothing, `..` pops. -/
def canonicalStack (path : List Char) : List (List Char) := (path.splitOn '/').foldl stackStep []

theorem foldl_stackStep_filter (components : List (List Char)) (names : List (List Char)) :
    (components.filter (· ≠ [])).foldl stackStep names = components.foldl stackStep names := by
  induction components generalizing names with
  | nil => rfl
  | cons component components ih =>
    by_cases h : component = []
    · rw [filter_cons_of_neg (by simpa using h), foldl_cons, stackStep, if_pos (.inl h)]
      exact ih names
    · rw [filter_cons_of_pos (by simpa using h), foldl_cons, foldl_cons]
      exact ih _

theorem canonicalStack_eq (path : List Char) :
    canonicalStack path = ((pathTokens path).map Prod.fst).foldl stackStep [] := by
  rw [tokens_eq_splitOn, foldl_stackStep_filter]
  rfl

theorem validName_canonicalStack (path : List Char) : ∀ n ∈ canonicalStack path, ValidName n := by
  rw [canonicalStack_eq]
  exact (foldl_normalizeToken isToken_of_mem_tokens (fun n hn => absurd hn not_mem_nil)).1

theorem normalizePath_canonical (path : List Char) : normalizePath path = joinPath (canonicalStack path) := by
  rw [canonicalStack_eq]
  exact (foldl_normalizeToken isToken_of_mem_tokens (fun n hn => absurd hn not_mem_nil)).2

theorem canonicalStack_slash (path : List Char) : canonicalStack ('/' :: path) = canonicalStack path := by
  unfold canonicalStack
  rw [splitOn_slash, foldl_cons]
  rfl

variable {names : List (List Char)} {size : ℕ}

theorem foldl_stackStep_valid (h : ∀ n ∈ names, ValidName n) (init : List (List Char)) :
    names.foldl stackStep init = init ++ names := by
  induction names generalizing init with
  | nil => exact (append_nil init).symm
  | cons name names ih =>
    obtain ⟨⟨⟨hne, -⟩, hdot, hdots⟩, h⟩ := forall_mem_cons.mp h
    rw [foldl_cons, stackStep, if_neg (not_or.mpr ⟨hne, hdot⟩), if_neg hdots, ih h,
      append_assoc, singleton_append]

theorem canonicalStack_joinPath (h : ∀ n ∈ names, ValidName n) : canonicalStack (joinPath names) = names := by
  unfold joinPath
  rw [canonicalStack_slash, canonicalStack_eq, pathTokens_names fun n hn => (h n hn).1,
    foldl_stackStep_valid h, nil_append]

theorem pathWeight_concat (names : List (List Char)) (name : List Char) :
    pathWeight (names ++ [name]) = pathWeight names + (name.length + 1) := by
  simp [pathWeight]

theorem pathWeight_dropLast (names : List (List Char)) : pathWeight names.dropLast ≤ pathWeight names := by
  obtain rfl | ⟨init, name, rfl⟩ := eq_nil_or_concat' names
  · exact le_rfl
  · rw [dropLast_concat, pathWeight_concat]
    omega

theorem pathWeight_stackStep (names : List (List Char)) (token : List Char) :
    pathWeight (stackStep names token) ≤ pathWeight names + (token.length + 1) := by
  have hdrop := pathWeight_dropLast names
  unfold stackStep
  split
  · omega
  · split
    · omega
    · exact (pathWeight_concat names token).le

theorem length_of_pathtok {s buf rest : List Char} (h : pathtok s = some (buf, rest)) :
    buf.length + 1 + rest.length ≤ s.length + 1 ∧ (rest ≠ [] → buf.length + 1 + rest.length ≤ s.length) := by
  have hle := (dropWhile_suffix (fun c : Char => decide (c = '/')) (l := s)).length_le
  unfold pathtok at h
  split at h
  · simp at h
  · rename_i e he
    obtain ⟨rfl, rfl⟩ := Prod.mk.inj (Option.some.inj h)
    have happend := congrArg length
      (takeWhile_append_dropWhile (p := fun x => decide (x ≠ '/')) (l := s.dropWhile (· = '/')))
    rw [length_append] at happend
    rw [length_tail]
    constructor
    · omega
    · intro hne
      have hpos : (dropWhile (fun x => decide (x ≠ '/')) (s.dropWhile (· = '/'))).length ≠ 0 := by
        intro hzero
        rw [eq_nil_of_length_eq_zero hzero] at hne
        exact hne rfl
      omega

theorem pathWeight_tokens (s : List Char) : pathWeight ((pathTokens s).map Prod.fst) ≤ s.length + 1 := by
  generalize hn : s.length = n
  induction n using Nat.strong_induction_on generalizing s with
  | _ n ih =>
    rw [pathTokens_eq]
    cases htok : pathtok s with
    | none =>
      exact Nat.zero_le _
    | some tok =>
      obtain ⟨buf, rest⟩ := tok
      obtain ⟨hlast, hmore⟩ := length_of_pathtok htok
      have hshort := (isToken_of_pathtok htok).2
      have hrest := ih rest.length (by omega) rest rfl
      simp only [map_cons]
      rw [pathWeight_cons]
      by_cases hnil : rest = []
      · subst hnil
        have hzero : pathWeight ((pathTokens []).map Prod.fst) = 0 := rfl
        simp at hlast
        omega
      · have := hmore hnil
        omega

theorem strcat_of_le {dest src : List Char} (h : (dest ++ src).length + 1 ≤ size) :
    strcat size dest src = some (dest ++ src) := by
  rw [length_append] at h
  exact if_pos h

theorem normalizeTurn_eq {result token : List Char} (h : (normalizeToken result token).length + 1 ≤ size) :
    normalizeTurn size result token = some (normalizeToken result token) := by
  unfold normalizeToken at h ⊢
  unfold normalizeTurn
  split_ifs at h ⊢ with hdot hdots hdir hslash
  · rfl
  · rfl
  · rfl
  · have hlen : (result ++ '/' :: token).length = result.length + 1 + token.length := by
      simp
      omega
    rw [strcat_of_le (by simp; omega), Option.bind_some, strcat_of_le (by simpa using h)]
    simp
  · exact strcat_of_le h

/-- The loop takes the tokens one after the other, and never leaves the buffer while the names and
the tokens still to come fit in it. -/
theorem normalizeLoop_eq {fuel : ℕ} {s : List Char} (hfuel : s.length ≤ fuel)
    (hvalid : ∀ n ∈ names, ValidName n) (hsize : 2 ≤ size)
    (hfits : pathWeight names + pathWeight ((pathTokens s).map Prod.fst) + 1 ≤ size) :
    normalizeLoop size fuel (strtok (some s) none ['/']) (joinPath names) =
      some (((pathTokens s).map Prod.fst).foldl normalizeToken (joinPath names)) := by
  induction fuel generalizing s names with
  | zero =>
    rw [eq_nil_of_length_eq_zero (Nat.le_zero.mp hfuel)]
    rfl
  | succ fuel ih =>
    have htoken := strtok_some s
    rw [pathTokens_eq] at hfits ⊢
    cases htok : pathtok s with
    | none =>
      rw [htok] at htoken
      rw [show strtok (some s) none ['/'] = (none, none) from htoken]
      rfl
    | some tok =>
      obtain ⟨buf, rest⟩ := tok
      rw [htok] at htoken hfits
      obtain ⟨last, hcut, hnext⟩ := htoken
      obtain ⟨hbuf, hshort⟩ := isToken_of_pathtok htok
      have hstep := normalizeToken_joinPath (fun n hn => (hvalid n hn).1) hbuf
      have hweight := pathWeight_stackStep names buf
      simp only [map_cons, pathWeight_cons] at hfits
      have hroom : (normalizeToken (joinPath names) buf).length + 1 ≤ size := by
        rw [hstep, length_joinPath]
        omega
      rw [hcut]
      unfold normalizeLoop
      simp only
      rw [normalizeTurn_eq hroom, Option.bind_some, hnext, hstep, map_cons, foldl_cons, hstep]
      exact ih (by omega) (validName_stackStep hvalid hbuf) (by omega)

theorem normalizePathIn_eq (path : List Char) :
    normalizePathIn ('/' :: path) = some (joinPath (canonicalStack path)) := by
  have hslash : strcat (('/' :: path).length + 1) [] ['/'] = some ['/'] := by
    apply strcat_of_le
    simp
  have hweight := pathWeight_tokens path
  unfold normalizePathIn
  dsimp only
  rw [hslash, Option.bind_some]
  split
  · rename_i hroot
    rw [(cons.inj hroot).2]
    rfl
  · rw [head?_cons, if_pos rfl, tail_cons]
    have hfuel : path.length ≤ ('/' :: path).length := Nat.le_succ _
    have hvalid : ∀ n ∈ ([] : List (List Char)), ValidName n := by simp
    have hsize : 2 ≤ ('/' :: path).length + 1 := by simp
    have hfits : pathWeight [] + pathWeight ((pathTokens path).map Prod.fst) + 1 ≤
        ('/' :: path).length + 1 := by
      simp [pathWeight] at hweight ⊢
      exact hweight
    refine (normalizeLoop_eq hfuel hvalid hsize hfits).trans (congrArg some ?_)
    exact normalizePath_canonical path

theorem length_canonical (path : List Char) : (joinPath (canonicalStack path)).length ≤ path.length + 1 := by
  have hfold : ∀ (components names : List (List Char)),
      pathWeight (components.foldl stackStep names) ≤ pathWeight names + pathWeight components := by
    intro components
    induction components with
    | nil => exact fun names => Nat.le_add_right _ _
    | cons component components ih =>
      intro names
      have hrest := ih (stackStep names component)
      have hstep := pathWeight_stackStep names component
      rw [foldl_cons, pathWeight_cons]
      omega
  have hle := hfold ((pathTokens path).map Prod.fst) []
  have hweight := pathWeight_tokens path
  rw [length_joinPath, canonicalStack_eq]
  have hnil : pathWeight [] = 0 := rfl
  omega

/-- For every absolute path, `normalize_path` does not leave its buffer; the result is the path
along the stack of the components, is not longer than the path, and is its own normal form. -/
theorem normalizePath_canonical_form (path : List Char) :
    ∃ result, normalizePathIn ('/' :: path) = some result ∧
      result = joinPath (canonicalStack ('/' :: path)) ∧
      result.length ≤ ('/' :: path).length ∧ normalizePathIn result = some result := by
  refine ⟨_, normalizePathIn_eq path, by rw [canonicalStack_slash], ?_, ?_⟩
  · rw [List.length_cons]
    exact length_canonical path
  · have hidem := canonicalStack_joinPath (validName_canonicalStack path)
    unfold joinPath at hidem ⊢
    rw [canonicalStack_slash] at hidem
    rw [normalizePathIn_eq, hidem]
    rfl

example : normalizePathIn "/a//./b/../../..".toList = some "/".toList := by decide

end CoolPotOS
