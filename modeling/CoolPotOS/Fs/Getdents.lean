import CoolPotOS.Lib.Runs

namespace CoolPotOS

open Runs List Option

/-- A child of the directory: its address, its `file_delete` mark, and which of the nodes ever created it is. An address
may be used again. -/
structure DirEntry where
  node : ℕ
  deleted : Bool
  serial : ℕ
  deriving DecidableEq

def direntSize : ℕ := 280

/-- Where the call starts, and `dir_last` then. -/
def getdentsStart (child : List DirEntry) : Option ℕ → List DirEntry × Option ℕ
  | none => (child, none)
  | some last =>
    match child.dropWhile fun it => it.node ≠ last with
    | [] => (child, none)
    | _ :: rest => (rest, some last)

/-- The loop: the entries that it returns, and `dir_last`. -/
def getdentsLoop (max : ℕ) : List DirEntry → ℕ → Option ℕ → List DirEntry × Option ℕ
  | [], _, last => ([], last)
  | it :: rest, count, last =>
    if max ≤ count then ([], last)
    else if it.deleted then getdentsLoop max rest count (some it.node)
    else
      let r := getdentsLoop max rest (count + 1) (some it.node)
      (it :: r.1, r.2)

def getdents (child : List DirEntry) (last : Option ℕ) (size : ℕ) : List DirEntry × Option ℕ :=
  let max := size / direntSize
  if max = 0 then ([], last)
  else
    let start := getdentsStart child last
    getdentsLoop max start.1 0 start.2

/-- The directory, the descriptor, and the history: the number of nodes created, the entries returned, the entries that
have been there unmarked since the first call, and whether the last call has returned 0. -/
structure DirState where
  child : List DirEntry
  dirLast : Option ℕ
  created : ℕ
  returned : List ℕ
  staying : Option (List ℕ)
  ended : Bool

inductive DirOp
  | getdents (size : ℕ)
  | create (node : ℕ)
  | delete (serial : ℕ)
  | mark (serial : ℕ)

def liveEntries (child : List DirEntry) : List DirEntry := child.filter fun it => !it.deleted

def markEntry (serial : ℕ) (it : DirEntry) : DirEntry :=
  if it.serial = serial then { it with deleted := true } else it

/-- A buffer has room for an entry, and a new node is at an address that no child has. A new child is put in front, and
`vfs_delete` takes a child out. -/
def dirStep (s : DirState) : DirOp → Option DirState
  | .getdents size =>
    if size < direntSize then none
    else
      let r := getdents s.child s.dirLast size
      some { s with
        dirLast := r.2
        returned := s.returned ++ r.1.map DirEntry.serial
        staying := some (s.staying.getD ((liveEntries s.child).map DirEntry.serial))
        ended := r.1.isEmpty }
  | .create node =>
    if node ∈ s.child.map DirEntry.node then none
    else some { s with child := ⟨node, false, s.created⟩ :: s.child, created := s.created + 1 }
  | .delete serial =>
    some { s with
      child := s.child.filter fun it => it.serial ≠ serial
      staying := s.staying.map fun l => l.filter (· ≠ serial) }
  | .mark serial =>
    some { s with
      child := s.child.map (markEntry serial)
      staying := s.staying.map fun l => l.filter (· ≠ serial) }

/-- A directory, and a descriptor that has just been opened. -/
structure DirStart (s : DirState) : Prop where
  nodes : (s.child.map DirEntry.node).Nodup
  serials : (s.child.map DirEntry.serial).Nodup
  serial_lt : ∀ it ∈ s.child, it.serial < s.created
  fresh : s.dirLast = none ∧ s.returned = [] ∧ s.staying = none ∧ s.ended = false

def RemembersOk (s : DirState) : DirOp → Prop
  | .delete serial => ∀ it ∈ s.child, it.serial = serial → s.dirLast ≠ some it.node
  | _ => True

instance decidableRemembersOk (s : DirState) (op : DirOp) : Decidable (RemembersOk s op) :=
  match op with
  | .delete serial => inferInstanceAs (Decidable (∀ it ∈ s.child, it.serial = serial → s.dirLast ≠ some it.node))
  | .getdents _ | .create _ | .mark _ => .isTrue trivial

theorem getdentsLoop_spec (max : ℕ) (start : List DirEntry) (count : ℕ) (last : Option ℕ) :
    ∃ visited rest, start = visited ++ rest ∧ getdentsLoop max start count last =
        (liveEntries visited, (visited.getLast?.map DirEntry.node).or last) ∧
      (rest = [] ∨ max ≤ count + (liveEntries visited).length) := by
  induction start generalizing count last with
  | nil => exact ⟨[], [], rfl, rfl, .inl rfl⟩
  | cons it start ih =>
    by_cases hfull : max ≤ count
    · exact ⟨[], it :: start, rfl, if_pos hfull, .inr (by simpa [liveEntries] using hfull)⟩
    · have hlast : ∀ visited : List DirEntry, ((it :: visited).getLast?.map DirEntry.node).or last =
          (visited.getLast?.map DirEntry.node).or (some it.node) := by
        intro visited
        cases visited with
        | nil => rfl
        | cons next visited =>
          rw [getLast?_cons_cons, getLast?_cons]
          rfl
      by_cases hdel : it.deleted
      · obtain ⟨visited, rest, hstart, hloop, hend⟩ := ih count (some it.node)
        have hlive : liveEntries (it :: visited) = liveEntries visited := by
          unfold liveEntries
          exact filter_cons_of_neg (by simp [hdel])
        refine ⟨it :: visited, rest, by rw [hstart, cons_append], ?_, by rw [hlive]; exact hend⟩
        rw [getdentsLoop, if_neg hfull, if_pos hdel, hloop, hlive, hlast]
      · obtain ⟨visited, rest, hstart, hloop, hend⟩ := ih (count + 1) (some it.node)
        have hlive : liveEntries (it :: visited) = it :: liveEntries visited := by
          unfold liveEntries
          exact filter_cons_of_pos (by simp [hdel])
        refine ⟨it :: visited, rest, by rw [hstart, cons_append], ?_, ?_⟩
        · rw [getdentsLoop, if_neg hfull, if_neg hdel, hloop, hlive, hlast]
        · rw [hlive, length_cons]
          exact hend.imp_right fun h => by omega

theorem getdentsStart_spec {seen rest : List DirEntry} (hnodes : ((seen ++ rest).map DirEntry.node).Nodup) :
    getdentsStart (seen ++ rest) (seen.getLast?.map DirEntry.node) = (rest, seen.getLast?.map DirEntry.node) := by
  rcases eq_nil_or_concat seen with rfl | ⟨before, it, rfl⟩
  · rfl
  · rw [concat_eq_append, append_assoc] at hnodes
    have hother : ∀ e ∈ before, decide (e.node ≠ it.node) = true := by
      intro e he
      rw [map_append, nodup_append] at hnodes
      exact decide_eq_true (hnodes.2.2 _ (List.mem_map_of_mem he) _ (List.mem_map_of_mem mem_cons_self))
    rw [concat_eq_append, append_assoc, getLast?_concat, map_some, getdentsStart,
      dropWhile_append_of_pos hother, singleton_append, dropWhile_cons_of_neg (by simp)]

/-- What holds between calls, with the children that the descriptor has passed and the ones that are left. -/
structure Listing (s : DirState) (seen rest : List DirEntry) : Prop where
  child : s.child = seen ++ rest
  last : s.dirLast = seen.getLast?.map DirEntry.node
  nodes : (s.child.map DirEntry.node).Nodup
  serials : (s.child.map DirEntry.serial).Nodup
  serial_lt : ∀ it ∈ s.child, it.serial < s.created
  returned_lt : ∀ x ∈ s.returned, x < s.created
  once : s.returned.Nodup
  left_new : ∀ it ∈ rest, it.serial ∉ s.returned
  idle : s.staying = none → seen = [] ∧ s.returned = [] ∧ s.ended = false
  stay : ∀ l, s.staying = some l → ∀ x ∈ l, ∃ it ∈ s.child, it.serial = x ∧ it.deleted = false
  passed : ∀ l, s.staying = some l → ∀ it ∈ seen, it.serial ∈ l → it.serial ∈ s.returned
  complete : ∀ l, s.staying = some l → s.ended → ∀ x ∈ l, x ∈ s.returned

theorem DirStart.listing {s : DirState} (h : DirStart s) : Listing s [] s.child := by
  obtain ⟨hlast, hreturned, hstaying, hended⟩ := h.fresh
  refine ⟨rfl, hlast, h.nodes, h.serials, h.serial_lt, ?_, ?_, ?_, fun _ => ⟨rfl, hreturned, hended⟩, ?_, ?_, ?_⟩
  · rw [hreturned]
    exact fun x hx => absurd hx not_mem_nil
  · rw [hreturned]
    exact nodup_nil
  · rw [hreturned]
    exact fun it _ => not_mem_nil
  all_goals
    intro l hl
    rw [hstaying] at hl
    cases hl

theorem mem_liveEntries {child : List DirEntry} {it : DirEntry} :
    it ∈ liveEntries child ↔ it ∈ child ∧ it.deleted = false := by
  unfold liveEntries
  rw [mem_filter, Bool.not_eq_true']

theorem eq_of_serial {child : List DirEntry} (h : (child.map DirEntry.serial).Nodup) {it it' : DirEntry}
    (hit : it ∈ child) (hit' : it' ∈ child) (heq : it.serial = it'.serial) : it = it' :=
  inj_on_of_nodup_map h hit hit' heq

variable {s s' : DirState} {seen rest : List DirEntry}

theorem Listing.getdents (h : Listing s seen rest) {size : ℕ} (hstep : dirStep s (.getdents size) = some s') :
    ∃ seen' rest', Listing s' seen' rest' := by
  have hsize : ¬ size < direntSize := fun hsmall => by
    rw [dirStep, if_pos hsmall] at hstep
    cases hstep
  have hmax : ¬ size / direntSize = 0 := by
    have hpos : 0 < direntSize := by decide
    have := Nat.div_pos (not_lt.mp hsize) hpos
    omega
  have hnodes := h.nodes
  have hserials := h.serials
  rw [h.child] at hnodes hserials
  obtain ⟨visited, left, hrest, hloop, hend⟩ :=
    getdentsLoop_spec (size / direntSize) rest 0 (seen.getLast?.map DirEntry.node)
  have hcall : CoolPotOS.getdents s.child s.dirLast size =
      (liveEntries visited, (visited.getLast?.map DirEntry.node).or (seen.getLast?.map DirEntry.node)) := by
    unfold CoolPotOS.getdents
    rw [if_neg hmax, h.child, h.last, getdentsStart_spec hnodes]
    exact hloop
  rw [dirStep, if_neg hsize, hcall] at hstep
  cases hstep
  subst hrest
  have hmem : ∀ {it}, it ∈ visited → it ∈ s.child := fun hit => by
    rw [h.child]
    exact mem_append_right _ (mem_append_left _ hit)
  have hstay : ∀ x ∈ s.staying.getD ((liveEntries s.child).map DirEntry.serial),
      ∃ it ∈ s.child, it.serial = x ∧ it.deleted = false := by
    intro x hx
    cases hs : s.staying with
    | some l =>
      rw [hs] at hx
      exact h.stay l hs x hx
    | none =>
      rw [hs] at hx
      obtain ⟨it, hit, rfl⟩ := List.mem_map.mp hx
      obtain ⟨hin, hlive⟩ := mem_liveEntries.mp hit
      exact ⟨it, hin, rfl, hlive⟩
  have hpassed : ∀ it ∈ seen ++ visited, it.serial ∈ s.staying.getD ((liveEntries s.child).map DirEntry.serial) →
      it.serial ∈ s.returned ++ (liveEntries visited).map DirEntry.serial := by
    intro it hit hin
    obtain hit | hit := mem_append.mp hit
    · cases hs : s.staying with
      | some l =>
        rw [hs] at hin
        exact mem_append_left _ (h.passed l hs it hit hin)
      | none =>
        rw [(h.idle hs).1] at hit
        cases hit
    · obtain ⟨it', hit', hserial, hlive⟩ := hstay _ hin
      obtain rfl := eq_of_serial h.serials hit' (hmem hit) hserial
      exact mem_append_right _ (List.mem_map_of_mem (mem_liveEntries.mpr ⟨hit, hlive⟩))
  have hapart : ∀ it ∈ left, ∀ it' ∈ visited, it'.serial ≠ it.serial := by
    intro it hit it' hit'
    rw [map_append, map_append, nodup_append] at hserials
    rw [nodup_append] at hserials
    exact hserials.2.1.2.2 _ (List.mem_map_of_mem hit') _ (List.mem_map_of_mem hit)
  refine ⟨seen ++ visited, left, ?_, ?_, h.nodes, h.serials, h.serial_lt, ?_, ?_, ?_, ?_, ?_, ?_, ?_⟩
  · rw [h.child, append_assoc]
  · change (visited.getLast?.map DirEntry.node).or (seen.getLast?.map DirEntry.node) = _
    rw [getLast?_append, ← map_or]
  · intro x hx
    obtain hx | hx := mem_append.mp hx
    · exact h.returned_lt x hx
    · obtain ⟨it, hit, rfl⟩ := List.mem_map.mp hx
      exact h.serial_lt it (hmem (mem_liveEntries.mp hit).1)
  · rw [nodup_append]
    refine ⟨h.once, ?_, ?_⟩
    · rw [map_append, map_append, nodup_append] at hserials
      exact ((nodup_append.mp hserials.2.1).1).sublist (List.Sublist.map _ filter_sublist)
    · intro x hx y hy heq
      obtain ⟨it, hit, rfl⟩ := List.mem_map.mp hy
      exact h.left_new it (mem_append_left _ (mem_liveEntries.mp hit).1) (heq ▸ hx)
  · intro it hit hin
    obtain hin | hin := mem_append.mp hin
    · exact h.left_new it (mem_append_right _ hit) hin
    · obtain ⟨it', hit', heq⟩ := List.mem_map.mp hin
      exact hapart it hit it' (mem_liveEntries.mp hit').1 heq
  · intro hnone
    cases hnone
  · intro l hl
    cases hl
    exact hstay
  · intro l hl
    cases hl
    exact hpassed
  · intro l hl hended x hx
    cases hl
    -- nothing was returned, so the loop has come to the end of the list
    have hnone : liveEntries visited = [] := List.isEmpty_iff.mp hended
    have hleft : left = [] := by
      obtain hleft | hfull := hend
      · exact hleft
      · rw [hnone] at hfull
        exact absurd (Nat.le_zero.mp hfull) hmax
    obtain ⟨it, hit, rfl, -⟩ := hstay x hx
    rw [h.child, hleft, append_nil] at hit
    exact hpassed it hit hx

theorem Listing.create (h : Listing s seen rest) {node : ℕ} (hstep : dirStep s (.create node) = some s') :
    ∃ seen' rest', Listing s' seen' rest' := by
  rw [dirStep] at hstep
  split at hstep
  · cases hstep
  · rename_i hfresh
    cases hstep
    have hnew : s.created ∉ s.child.map DirEntry.serial := by
      intro hmem
      obtain ⟨it, hit, heq⟩ := List.mem_map.mp hmem
      exact absurd (h.serial_lt it hit) (by omega)
    have hlt : ∀ it ∈ (⟨node, false, s.created⟩ : DirEntry) :: s.child, it.serial < s.created + 1 := by
      intro it hit
      obtain rfl | hit := mem_cons.mp hit
      · exact Nat.lt_succ_self _
      · exact (h.serial_lt it hit).trans (Nat.lt_succ_self _)
    have hreturned : s.created ∉ s.returned := fun hmem => absurd (h.returned_lt _ hmem) (lt_irrefl _)
    have hnodes : (((⟨node, false, s.created⟩ : DirEntry) :: s.child).map DirEntry.node).Nodup :=
      nodup_cons.mpr ⟨hfresh, h.nodes⟩
    have hserials : (((⟨node, false, s.created⟩ : DirEntry) :: s.child).map DirEntry.serial).Nodup :=
      nodup_cons.mpr ⟨hnew, h.serials⟩
    have hstay : ∀ l, s.staying = some l → ∀ x ∈ l,
        ∃ it ∈ (⟨node, false, s.created⟩ : DirEntry) :: s.child, it.serial = x ∧ it.deleted = false := by
      intro l hl x hx
      obtain ⟨it, hit, heq⟩ := h.stay l hl x hx
      exact ⟨it, mem_cons_of_mem _ hit, heq⟩
    have hreturned_lt : ∀ x ∈ s.returned, x < s.created + 1 := fun x hx =>
      (h.returned_lt x hx).trans (Nat.lt_succ_self _)
    cases hseen : seen with
    | nil =>
      have hlast := h.last
      have hchild := h.child
      rw [hseen] at hlast hchild
      refine ⟨[], ⟨node, false, s.created⟩ :: rest, congrArg _ hchild, hlast, hnodes, hserials, hlt, hreturned_lt, h.once,
        ?_, fun hs => ⟨rfl, (h.idle hs).2⟩, hstay, fun _ _ it hit => absurd hit not_mem_nil, h.complete⟩
      intro it hit
      obtain rfl | hit := mem_cons.mp hit
      · exact hreturned
      · exact h.left_new it hit
    | cons first seen =>
      have hlast := h.last
      have hchild := h.child
      rw [hseen] at hlast hchild
      refine ⟨⟨node, false, s.created⟩ :: first :: seen, rest, congrArg _ hchild, ?_, hnodes, hserials, hlt, hreturned_lt,
        h.once, h.left_new, ?_, hstay, ?_, h.complete⟩
      · rw [getLast?_cons_cons]
        exact hlast
      · intro hs
        have hnil := (h.idle hs).1
        rw [hseen] at hnil
        cases hnil
      · intro l hl it hit hin
        obtain rfl | hit := mem_cons.mp hit
        · -- the new node is none of those that have stayed
          obtain ⟨it', hit', heq, -⟩ := h.stay l hl _ hin
          exact absurd (List.mem_map.mpr ⟨it', hit', heq⟩) hnew
        · exact h.passed l hl it (hseen ▸ hit) hin

theorem getLast?_filter {α : Type*} {p : α → Bool} {l : List α} (h : ∀ a, l.getLast? = some a → p a = true) :
    (l.filter p).getLast? = l.getLast? := by
  rcases eq_nil_or_concat l with rfl | ⟨before, a, rfl⟩
  · rfl
  · rw [concat_eq_append] at h ⊢
    have ha := h a List.getLast?_concat
    rw [filter_append, filter_cons_of_pos ha, filter_nil, List.getLast?_concat, List.getLast?_concat]

theorem Listing.delete (h : Listing s seen rest) {serial : ℕ} (hok : RemembersOk s (.delete serial))
    (hstep : dirStep s (.delete serial) = some s') : ∃ seen' rest', Listing s' seen' rest' := by
  cases hstep
  have hsub : ∀ l : List DirEntry, (l.filter fun it => it.serial ≠ serial).Sublist l := fun l => filter_sublist
  have hmem : ∀ {l : List DirEntry} {it}, it ∈ l.filter (fun it => it.serial ≠ serial) ↔ it ∈ l ∧ it.serial ≠ serial := by
    intro l it
    rw [mem_filter, decide_eq_true_iff]
  have hstays : ∀ {l}, (s.staying.map fun l => l.filter (· ≠ serial)) = some l →
      ∃ l0, s.staying = some l0 ∧ ∀ x, x ∈ l ↔ x ∈ l0 ∧ x ≠ serial := by
    intro l hl
    obtain ⟨l0, hl0, rfl⟩ := map_eq_some_iff.mp hl
    exact ⟨l0, hl0, fun x => by rw [mem_filter, decide_eq_true_iff]⟩
  refine ⟨seen.filter fun it => it.serial ≠ serial, rest.filter fun it => it.serial ≠ serial, ?_, ?_, ?_, ?_, ?_,
    h.returned_lt, h.once, ?_, ?_, ?_, ?_, ?_⟩
  · change s.child.filter _ = _
    rw [h.child, filter_append]
  · change s.dirLast = _
    rw [getLast?_filter, h.last]
    intro it hit
    have hin : it ∈ s.child := by
      rw [h.child]
      exact mem_append_left _ (List.mem_of_getLast? hit)
    refine decide_eq_true fun heq => hok it hin heq ?_
    rw [h.last, hit]
    rfl
  · exact h.nodes.sublist ((hsub s.child).map _)
  · exact h.serials.sublist ((hsub s.child).map _)
  · exact fun it hit => h.serial_lt it (hmem.mp hit).1
  · exact fun it hit => h.left_new it (hmem.mp hit).1
  · intro hnone
    obtain ⟨hseen, hrest⟩ := h.idle (map_eq_none_iff.mp hnone)
    exact ⟨by rw [hseen]; rfl, hrest⟩
  · intro l hl x hx
    obtain ⟨l0, hl0, hin⟩ := hstays hl
    obtain ⟨hx0, hne⟩ := (hin x).mp hx
    obtain ⟨it, hit, rfl, hlive⟩ := h.stay l0 hl0 x hx0
    exact ⟨it, hmem.mpr ⟨hit, hne⟩, rfl, hlive⟩
  · intro l hl it hit hx
    obtain ⟨l0, hl0, hin⟩ := hstays hl
    exact h.passed l0 hl0 it (hmem.mp hit).1 ((hin _).mp hx).1
  · intro l hl hended x hx
    obtain ⟨l0, hl0, hin⟩ := hstays hl
    exact h.complete l0 hl0 hended x ((hin x).mp hx).1

theorem markEntry_serial (serial : ℕ) (it : DirEntry) : (markEntry serial it).serial = it.serial := by
  unfold markEntry
  split <;> rfl

theorem markEntry_node (serial : ℕ) (it : DirEntry) : (markEntry serial it).node = it.node := by
  unfold markEntry
  split <;> rfl

theorem Listing.mark (h : Listing s seen rest) {serial : ℕ} (hstep : dirStep s (.mark serial) = some s') :
    ∃ seen' rest', Listing s' seen' rest' := by
  cases hstep
  have hserials : ∀ l : List DirEntry, (l.map (markEntry serial)).map DirEntry.serial = l.map DirEntry.serial := by
    intro l
    rw [List.map_map]
    exact map_congr_left fun it _ => markEntry_serial serial it
  have hnodes : ∀ l : List DirEntry, (l.map (markEntry serial)).map DirEntry.node = l.map DirEntry.node := by
    intro l
    rw [List.map_map]
    exact map_congr_left fun it _ => markEntry_node serial it
  have hmem : ∀ {l : List DirEntry} {it}, it ∈ l.map (markEntry serial) → ∃ it' ∈ l, it'.serial = it.serial := by
    intro l it hit
    obtain ⟨it', hit', rfl⟩ := List.mem_map.mp hit
    exact ⟨it', hit', (markEntry_serial serial it').symm⟩
  have hstays : ∀ {l}, (s.staying.map fun l => l.filter (· ≠ serial)) = some l →
      ∃ l0, s.staying = some l0 ∧ ∀ x, x ∈ l ↔ x ∈ l0 ∧ x ≠ serial := by
    intro l hl
    obtain ⟨l0, hl0, rfl⟩ := map_eq_some_iff.mp hl
    exact ⟨l0, hl0, fun x => by rw [mem_filter, decide_eq_true_iff]⟩
  refine ⟨seen.map (markEntry serial), rest.map (markEntry serial), ?_, ?_, ?_, ?_, ?_, h.returned_lt, h.once, ?_, ?_, ?_,
    ?_, ?_⟩
  · change s.child.map _ = _
    rw [h.child, map_append]
  · change s.dirLast = _
    rw [h.last, getLast?_map, Option.map_map]
    congr 1
    funext it
    exact (markEntry_node serial it).symm
  · change ((s.child.map _).map _).Nodup
    rw [hnodes]
    exact h.nodes
  · change ((s.child.map _).map _).Nodup
    rw [hserials]
    exact h.serials
  · intro it hit
    obtain ⟨it', hit', heq⟩ := hmem hit
    exact heq ▸ h.serial_lt it' hit'
  · intro it hit
    obtain ⟨it', hit', heq⟩ := hmem hit
    exact heq ▸ h.left_new it' hit'
  · intro hnone
    obtain ⟨hseen, hrest⟩ := h.idle (map_eq_none_iff.mp hnone)
    exact ⟨by rw [hseen]; rfl, hrest⟩
  · intro l hl x hx
    obtain ⟨l0, hl0, hin⟩ := hstays hl
    obtain ⟨hx0, hne⟩ := (hin x).mp hx
    obtain ⟨it, hit, rfl, hlive⟩ := h.stay l0 hl0 x hx0
    refine ⟨it, List.mem_map.mpr ⟨it, hit, ?_⟩, rfl, hlive⟩
    exact if_neg hne
  · intro l hl it hit hx
    obtain ⟨l0, hl0, hin⟩ := hstays hl
    obtain ⟨it', hit', heq⟩ := hmem hit
    rw [← heq] at hx ⊢
    exact h.passed l0 hl0 it' hit' ((hin _).mp hx).1
  · intro l hl hended x hx
    obtain ⟨l0, hl0, hin⟩ := hstays hl
    exact h.complete l0 hl0 hended x ((hin x).mp hx).1

/-- A call of `getdents` never meets a node twice, and when one has returned 0, all that has stayed has been met. -/
theorem getdents_exactly_once {s₀ s : DirState} {ops : List DirOp} (hstart : DirStart s₀)
    (hok : Meets dirStep RemembersOk ops s₀) (hrun : run dirStep ops s₀ = some s) :
    s.returned.Nodup ∧ ∀ l, s.staying = some l → s.ended → ∀ x ∈ l, s.returned.count x = 1 := by
  have hkeeps : ∀ s op s', (∃ seen rest, Listing s seen rest) → RemembersOk s op → dirStep s op = some s' →
      ∃ seen rest, Listing s' seen rest := by
    rintro s op s' ⟨seen, rest, h⟩ hok hstep
    cases op with
    | getdents size => exact h.getdents hstep
    | create node => exact h.create hstep
    | delete serial => exact h.delete hok hstep
    | mark serial => exact h.mark hstep
  obtain ⟨seen, rest, h⟩ := run_keeps hkeeps ⟨[], s₀.child, hstart.listing⟩ hok hrun
  refine ⟨h.once, fun l hl hended x hx => ?_⟩
  exact List.count_eq_one_of_mem h.once (h.complete l hl hended x hx)

def twoEntries : DirState := ⟨[⟨0x2000, false, 1⟩, ⟨0x1000, false, 0⟩], none, 2, [], none, false⟩

theorem getdents_exactly_once_two :
    ∃ s, run dirStep [.getdents 280, .create 0x3000, .delete 0, .getdents 560] twoEntries = some s ∧
      s.ended = true ∧ s.staying = some [1] ∧ s.returned.count 1 = 1 := by
  have hstart : DirStart twoEntries := ⟨by decide, by decide, by decide, rfl, rfl, rfl, rfl⟩
  have hok : Meets dirStep RemembersOk [.getdents 280, .create 0x3000, .delete 0, .getdents 560] twoEntries := by
    decide
  exact ⟨_, rfl, rfl, rfl, (getdents_exactly_once hstart hok rfl).2 [1] rfl rfl 1 List.mem_cons_self⟩

/-- The node that the descriptor remembers is deleted, and the next call starts at the front. -/
theorem getdents_returns_twice : ∃ s₀ s, DirStart s₀ ∧
    run dirStep [.getdents 560, .delete 0, .getdents 280] s₀ = some s ∧ ¬ s.returned.Nodup :=
  ⟨twoEntries, _, ⟨by decide, by decide, by decide, rfl, rfl, rfl, rfl⟩, rfl, by decide⟩

end CoolPotOS
