import Mathlib

namespace CoolPotOS

open List

/-- `pathtok`: the next token of a path and the path behind it. One slash behind the token is skipped
with it. -/
def pathtok (s : List Char) : Option (List Char × List Char) :=
  match s.dropWhile (· = '/') with
  | [] => none
  | e => some (e.takeWhile (· ≠ '/'), (e.dropWhile (· ≠ '/')).tail)

def pathTokensFrom : ℕ → List Char → List (List Char × Bool)
  | 0, _ => []
  | fuel + 1, s =>
    match pathtok s with
    | none => []
    | some (buf, rest) => (buf, rest.isEmpty) :: pathTokensFrom fuel rest

/-- The tokens that a loop over `pathtok` sees, each with whether the path ends behind it. -/
def pathTokens (s : List Char) : List (List Char × Bool) := pathTokensFrom s.length s

def pathacat (p₁ p₂ : List Char) : List Char :=
  if p₁.getLast? = some '/' then p₁ ++ p₂ else p₁ ++ '/' :: p₂

def dirName (path : List Char) : List Char := (path.rdropWhile (· ≠ '/')).dropLast

def fileName (path : List Char) : List Char := path.rtakeWhile (· ≠ '/')

/-- What the loop of `normalize_path` does with one token. -/
def normalizeToken (result token : List Char) : List Char :=
  if token = ['.'] then result
  else if token = ['.', '.'] then
    if dirName result ≠ [] then dirName result else ['/']
  else if result.getLast? ≠ some '/' then result ++ '/' :: token
  else result ++ token

/-- `normalize_path`. The tokens of its `strtok` are those of `pathtok`. -/
def normalizePath (path : List Char) : List Char :=
  ((pathTokens path).map Prod.fst).foldl normalizeToken ['/']

def IsToken (name : List Char) : Prop := name ≠ [] ∧ '/' ∉ name

def ValidName (name : List Char) : Prop :=
  IsToken name ∧ name ≠ ['.'] ∧ name ≠ ['.', '.']

instance : DecidablePred IsToken := fun _ => inferInstanceAs (Decidable (_ ∧ _))

instance : DecidablePred ValidName := fun _ => inferInstanceAs (Decidable (_ ∧ _))

variable {name s : List Char} {names : List (List Char)}

theorem dropWhile_slash_token (h : IsToken name) (rest : List Char) :
    (name ++ rest).dropWhile (· = '/') = name ++ rest := by
  obtain ⟨hne, hslash⟩ := h
  cases name with
  | nil => contradiction
  | cons c name =>
    have hc : c ≠ '/' := fun hc => hslash (hc ▸ mem_cons_self)
    simp [hc]

theorem takeWhile_token (h : IsToken name) (rest : List Char) :
    (name ++ '/' :: rest).takeWhile (· ≠ '/') = name := by
  have hall : ∀ c ∈ name, decide (c ≠ '/') = true :=
    fun c hc => decide_eq_true fun hslash => h.2 (hslash ▸ hc)
  rw [takeWhile_append_of_pos hall]
  simp

theorem dropWhile_token (h : IsToken name) (rest : List Char) :
    (name ++ '/' :: rest).dropWhile (· ≠ '/') = '/' :: rest := by
  have hall : ∀ c ∈ name, decide (c ≠ '/') = true :=
    fun c hc => decide_eq_true fun hslash => h.2 (hslash ▸ hc)
  rw [dropWhile_append_of_pos hall]
  simp

theorem pathtok_token_slash (h : IsToken name) (rest : List Char) :
    pathtok (name ++ '/' :: rest) = some (name, rest) := by
  unfold pathtok
  rw [dropWhile_slash_token h]
  split
  · next he => simp at he
  · rw [takeWhile_token h, dropWhile_token h, tail_cons]

theorem pathtok_token (h : IsToken name) : pathtok name = some (name, []) := by
  have hall : ∀ c ∈ name, decide (c ≠ '/') = true :=
    fun c hc => decide_eq_true fun hslash => h.2 (hslash ▸ hc)
  have hdrop := dropWhile_slash_token h []
  rw [append_nil] at hdrop
  unfold pathtok
  rw [hdrop]
  split
  · exact absurd rfl h.1
  · rw [takeWhile_eq_self_iff.mpr hall, dropWhile_eq_nil_iff.mpr hall, tail_nil]

theorem isToken_of_pathtok {buf rest : List Char} (h : pathtok s = some (buf, rest)) :
    IsToken buf ∧ rest.length < s.length := by
  unfold pathtok at h
  have hhead := head?_dropWhile_not (fun c : Char => decide (c = '/')) s
  have hlen := (dropWhile_suffix (fun c : Char => decide (c = '/')) (l := s)).length_le
  generalize s.dropWhile (· = '/') = e at h hhead hlen
  cases e with
  | nil => cases h
  | cons c e =>
    have hc : c ≠ '/' := by simpa using hhead
    simp only [Option.some.injEq, Prod.mk.injEq] at h
    obtain ⟨rfl, rfl⟩ := h
    refine ⟨⟨?_, ?_⟩, ?_⟩
    · simp [hc]
    · intro hmem
      simpa using mem_takeWhile_imp hmem
    · have hle := (dropWhile_suffix (fun c : Char => decide (c ≠ '/')) (l := e)).length_le
      have hdrop : (c :: e).dropWhile (· ≠ '/') = e.dropWhile (· ≠ '/') := by simp [hc]
      rw [hdrop, length_tail]
      rw [length_cons] at hlen
      omega

theorem pathTokensFrom_eq {fuel : ℕ} (h : s.length ≤ fuel) : pathTokensFrom fuel s = pathTokens s := by
  unfold pathTokens
  generalize hn : s.length = n
  have hnf : n ≤ fuel := hn ▸ h
  clear h
  induction n using Nat.strong_induction_on generalizing fuel s with
  | _ n ih =>
    cases fuel with
    | zero =>
      obtain rfl : n = 0 := by omega
      rfl
    | succ fuel =>
      cases n with
      | zero =>
        rw [eq_nil_of_length_eq_zero hn]
        rfl
      | succ n =>
        unfold pathTokensFrom
        cases htok : pathtok s with
        | none => rfl
        | some tok =>
          obtain ⟨buf, rest⟩ := tok
          have hrest := (isToken_of_pathtok htok).2
          simp only
          have hn' : pathTokensFrom n rest = pathTokensFrom rest.length rest :=
            ih rest.length (by omega) rfl (by omega)
          rw [ih rest.length (by omega) rfl (by omega), hn']

theorem pathTokens_eq (s : List Char) : pathTokens s =
      match pathtok s with
      | none => []
      | some (buf, rest) => (buf, rest.isEmpty) :: pathTokens rest := by
  rw [← pathTokensFrom_eq (Nat.le_succ s.length)]
  rw [pathTokensFrom]
  cases htok : pathtok s with
  | none => rfl
  | some tok =>
    obtain ⟨buf, rest⟩ := tok
    simp only
    rw [pathTokensFrom_eq (isToken_of_pathtok htok).2.le]

theorem pathTokens_induction {P : List (List Char × Bool) → Prop} (nil : P [])
    (cons : ∀ buf rest, IsToken buf → P (pathTokens rest) →
      P ((buf, rest.isEmpty) :: pathTokens rest)) (s : List Char) : P (pathTokens s) := by
  generalize hn : s.length = n
  induction n using Nat.strong_induction_on generalizing s with
  | _ n ih =>
    rw [pathTokens_eq]
    cases htok : pathtok s with
    | none => exact nil
    | some tok =>
      obtain ⟨buf, rest⟩ := tok
      obtain ⟨hbuf, hlen⟩ := isToken_of_pathtok htok
      exact cons buf rest hbuf (ih rest.length (hn ▸ hlen) rest rfl)

theorem isToken_of_mem_pathTokens {tok : List Char × Bool} (h : tok ∈ pathTokens s) : IsToken tok.1 := by
  revert h
  refine pathTokens_induction (P := fun toks => tok ∈ toks → IsToken tok.1) ?_ ?_ s
  · exact fun h => absurd h not_mem_nil
  · intro buf rest hbuf ih h
    obtain rfl | h := mem_cons.mp h
    · exact hbuf
    · exact ih h

def joinPath (names : List (List Char)) : List Char := '/' :: ['/'].intercalate names

theorem intercalate_concat (h : names ≠ []) (name : List Char) :
    ['/'].intercalate (names ++ [name]) = ['/'].intercalate names ++ '/' :: name := by
  induction names with
  | nil => contradiction
  | cons n names ih =>
    cases names with
    | nil => simp
    | cons n' names =>
      have h' := ih (cons_ne_nil n' names)
      rw [cons_append] at h'
      rw [cons_append, cons_append, intercalate_cons_cons, h', intercalate_cons_cons]
      simp

theorem intercalate_isEmpty (h : ∀ n ∈ names, IsToken n) :
    (['/'].intercalate names).isEmpty = names.isEmpty := by
  cases names with
  | nil => rfl
  | cons name names =>
    have hname := (h name mem_cons_self).1
    cases names with
    | nil => simpa using hname
    | cons n names => simp

theorem pathTokens_cons (hname : IsToken name) (h : ∀ n ∈ names, IsToken n) :
    pathTokens (['/'].intercalate (name :: names)) =
      (name, names.isEmpty) :: pathTokens (['/'].intercalate names) := by
  rw [pathTokens_eq]
  cases names with
  | nil =>
    rw [intercalate_singleton, pathtok_token hname]
    rfl
  | cons n names =>
    rw [intercalate_cons_of_ne_nil (cons_ne_nil n names), append_assoc,
      singleton_append, pathtok_token_slash hname]
    simp only
    rw [intercalate_isEmpty h]

theorem pathTokens_names (h : ∀ n ∈ names, IsToken n) :
    (pathTokens (['/'].intercalate names)).map Prod.fst = names := by
  induction names with
  | nil => rfl
  | cons name names ih =>
    obtain ⟨hname, h⟩ := forall_mem_cons.mp h
    rw [pathTokens_cons hname h, map_cons, ih h]

theorem dirName_append (h : IsToken name) (pre : List Char) : dirName (pre ++ '/' :: name) = pre := by
  have hall : ∀ c ∈ name.reverse, decide (c ≠ '/') = true :=
    fun c hc => decide_eq_true fun hslash => h.2 (hslash ▸ mem_reverse.mp hc)
  have hrev : (pre ++ '/' :: name).reverse = name.reverse ++ '/' :: pre.reverse := by simp
  unfold dirName rdropWhile
  rw [hrev, dropWhile_append_of_pos hall]
  simp

theorem joinPath_concat_of_ne_nil (h : names ≠ []) (name : List Char) :
    joinPath (names ++ [name]) = joinPath names ++ '/' :: name := by
  unfold joinPath
  rw [intercalate_concat h, cons_append]

theorem getLast?_joinPath (h : ∀ n ∈ names, IsToken n) (hne : names ≠ []) :
    (joinPath names).getLast? ≠ some '/' := by
  obtain ⟨init, name, rfl⟩ := eq_nil_or_concat' names |>.resolve_left hne
  have hname := h name (by simp)
  have hsuffix : name <:+ joinPath (init ++ [name]) := by
    by_cases hinit : init = []
    · subst hinit
      exact ⟨['/'], by simp [joinPath]⟩
    · rw [joinPath_concat_of_ne_nil hinit]
      exact (suffix_cons '/' name).trans (suffix_append _ _)
  obtain ⟨pre, hpre⟩ := hsuffix
  rw [← hpre, List.getLast?_append_of_ne_nil _ hname.1]
  intro hlast
  exact hname.2 (List.mem_of_getLast? hlast)

def pathWeight (names : List (List Char)) : ℕ := (names.map fun n => n.length + 1).sum

theorem pathWeight_cons (name : List Char) (names : List (List Char)) :
    pathWeight (name :: names) = name.length + 1 + pathWeight names := by
  unfold pathWeight
  rw [map_cons, sum_cons]

theorem length_intercalate (name : List Char) (names : List (List Char)) :
    (['/'].intercalate (name :: names)).length + 1 = pathWeight (name :: names) := by
  induction names generalizing name with
  | nil => simp [pathWeight]
  | cons n names ih =>
    have hrest := ih n
    rw [intercalate_cons_cons, pathWeight_cons, ← hrest]
    simp
    omega

theorem length_joinPath (names : List (List Char)) : (joinPath names).length = max 1 (pathWeight names) := by
  cases names with
  | nil => rfl
  | cons name names =>
    have hlen := length_intercalate name names
    unfold joinPath
    rw [length_cons, hlen, pathWeight_cons]
    omega

/-- What a component of a path does to the names before it. -/
def stackStep (names : List (List Char)) (component : List Char) : List (List Char) :=
  if component = [] ∨ component = ['.'] then names
  else if component = ['.', '.'] then names.dropLast
  else names ++ [component]

theorem validName_stackStep (h : ∀ n ∈ names, ValidName n) {token : List Char} (htoken : IsToken token) :
    ∀ n ∈ stackStep names token, ValidName n := by
  intro n hn
  unfold stackStep at hn
  split at hn
  · exact h n hn
  · rename_i hdot
    split at hn
    · exact h n (mem_of_mem_dropLast hn)
    · rename_i hdots
      obtain hn | hn := mem_append.mp hn
      · exact h n hn
      · exact mem_singleton.mp hn ▸ ⟨htoken, fun h => hdot (.inr h), hdots⟩

theorem normalizeToken_joinPath (h : ∀ n ∈ names, IsToken n) {token : List Char} (htoken : IsToken token) :
    normalizeToken (joinPath names) token = joinPath (stackStep names token) := by
  unfold normalizeToken stackStep
  by_cases hdot : token = ['.']
  · rw [if_pos hdot, if_pos (.inr hdot)]
  rw [if_neg hdot, if_neg (not_or.mpr ⟨htoken.1, hdot⟩)]
  by_cases hdots : token = ['.', '.']
  · rw [if_pos hdots, if_pos hdots]
    -- the last name goes, if there is one
    obtain rfl | ⟨init, name, rfl⟩ := eq_nil_or_concat' names
    · rfl
    · have hname := h name (by simp)
      rw [dropLast_concat]
      by_cases hinit : init = []
      · subst hinit
        have hdir := dirName_append hname []
        rw [nil_append] at hdir
        rw [nil_append, joinPath, intercalate_singleton, hdir]
        rfl
      · rw [joinPath_concat_of_ne_nil hinit, dirName_append hname, if_pos]
        exact cons_ne_nil _ _
  · rw [if_neg hdots, if_neg hdots]
    by_cases hne : names = []
    · subst hne
      simp [joinPath]
    · rw [if_pos (getLast?_joinPath h hne), joinPath_concat_of_ne_nil hne]

theorem foldl_normalizeToken {toks : List (List Char)} (htoks : ∀ tok ∈ toks, IsToken tok)
    (h : ∀ n ∈ names, ValidName n) : (∀ n ∈ toks.foldl stackStep names, ValidName n) ∧
      toks.foldl normalizeToken (joinPath names) = joinPath (toks.foldl stackStep names) := by
  induction toks generalizing names with
  | nil => exact ⟨h, rfl⟩
  | cons tok toks ih =>
    obtain ⟨htok, htoks⟩ := forall_mem_cons.mp htoks
    rw [foldl_cons, foldl_cons, normalizeToken_joinPath (fun n hn => (h n hn).1) htok]
    exact ih htoks (validName_stackStep h htok)

theorem isToken_of_mem_tokens : ∀ tok ∈ (pathTokens s).map Prod.fst, IsToken tok := by
  intro tok htok
  obtain ⟨tok', htok', rfl⟩ := mem_map.mp htok
  exact isToken_of_mem_pathTokens htok'

theorem normalizePath_eq (path : List Char) :
    ∃ names, (∀ n ∈ names, ValidName n) ∧ normalizePath path = joinPath names := by
  have hnil : ∀ n ∈ ([] : List (List Char)), ValidName n := by simp
  have htoks : ∀ tok ∈ (pathTokens path).map Prod.fst, IsToken tok := isToken_of_mem_tokens
  obtain ⟨hvalid, heq⟩ := foldl_normalizeToken htoks hnil
  exact ⟨_, hvalid, heq⟩

end CoolPotOS
