import CoolPotOS.Machine

namespace CoolPotOS

open List Multiset Option

/-- `page_list_t`, a 16-byte header followed by the entries. -/
structure PageList where
  phys : ℕ
  entries : List ℕ

/-- The `metadata_*` variables of `buddy.c`. -/
structure Metadata where
  poolPhys : ℕ
  poolPages : ℕ
  poolUsed : ℕ
  freeList : List ℕ

def pageListEntryCapacity : ℕ := (pageSize - 16) / 8

/-- `metadata_page_alloc`; `none` is the failing assertion, which never returns. -/
def metadataPageAlloc (md : Metadata) : Option (Metadata × ℕ) :=
  match md.freeList with
  | phys :: rest => some ({ md with freeList := rest }, phys)
  | [] =>
    if md.poolUsed < md.poolPages then
      some ({ md with poolUsed := md.poolUsed + 1 }, md.poolPhys + md.poolUsed * pageSize)
    else none

def metadataPageFree (md : Metadata) (phys : ℕ) : Metadata :=
  { md with freeList := phys :: md.freeList }

/-- The loop of `page_list_push`: `first` says that `prev_phys` is still zero.
The last component tells whether a page with room was found. -/
def pushWalk (block : ℕ) : Bool → Metadata → List PageList → Metadata × List PageList × Bool
  | _, md, [] => (md, [], false)
  | first, md, list :: next =>
    if list.entries.length < pageListEntryCapacity then
      (md, { list with entries := list.entries ++ [block] } :: next, true)
    else if !first ∧ list.entries.length = 0 then
      pushWalk block first (metadataPageFree md list.phys) next
    else
      let r := pushWalk block false md next
      (r.1, list :: r.2.1, r.2.2)

def pageListPush (md : Metadata) (head : List PageList) (block : ℕ) :
    Option (Metadata × List PageList) :=
  match pushWalk block true md head with
  | (md, chain, true) => some (md, chain)
  | (md, chain, false) => do
    let (md, newHead) ← metadataPageAlloc md
    return (md, { phys := newHead, entries := [block] } :: chain)

def popWalk : Bool → Metadata → List PageList → Metadata × List PageList × ℕ
  | _, md, [] => (md, [], 0)
  | first, md, list :: next =>
    if h : list.entries ≠ [] then
      let block := list.entries.getLast h
      let list' := { list with entries := list.entries.dropLast }
      if list'.entries.length = 0 ∧ !first then (metadataPageFree md list.phys, next, block)
      else (md, list' :: next, block)
    else if !first then popWalk first (metadataPageFree md list.phys) next
    else
      let r := popWalk false md next
      (r.1, list :: r.2.1, r.2.2)

/-- `page_list_pop`: the returned address is zero when the chain holds no block. -/
def pageListPop (md : Metadata) (head : List PageList) : Metadata × List PageList × ℕ :=
  popWalk true md head

/-- `entries[i] = entries[entry_num - 1]; entry_num--` at the first `i` with
`entries[i] == target`. -/
def takeEntry (target : ℕ) (entries : List ℕ) : List ℕ :=
  (entries.set (entries.idxOf target) (entries.getLastD 0)).dropLast

def takeWalk (target : ℕ) : Bool → Metadata → List PageList → Metadata × List PageList × Bool
  | _, md, [] => (md, [], false)
  | first, md, list :: next =>
    if target ∈ list.entries then
      let list' := { list with entries := takeEntry target list.entries }
      if list'.entries.length = 0 ∧ !first then (metadataPageFree md list.phys, next, true)
      else (md, list' :: next, true)
    else if !first ∧ list.entries.length = 0 then
      takeWalk target first (metadataPageFree md list.phys) next
    else
      let r := takeWalk target false md next
      (r.1, list :: r.2.1, r.2.2)

def pageListTake (md : Metadata) (head : List PageList) (target : ℕ) :
    Metadata × List PageList × Bool :=
  takeWalk target true md head

def blocksOf (chain : List PageList) : Multiset ℕ := ↑(chain.flatMap PageList.entries)

@[simp] theorem blocksOf_nil : blocksOf [] = 0 := rfl

@[simp] theorem blocksOf_cons (p : PageList) (ps : List PageList) :
    blocksOf (p :: ps) = ↑p.entries + blocksOf ps := by
  simp [blocksOf, coe_add]

/-- The metadata pages handed out by the pool and not given back. -/
def pagesOut (md : Metadata) : ℤ := md.poolUsed - md.freeList.length

@[simp] theorem pagesOut_free (md : Metadata) (phys : ℕ) :
    pagesOut (metadataPageFree md phys) = pagesOut md - 1 := by
  simp only [pagesOut, metadataPageFree, length_cons]
  push_cast
  ring

/-- What every operation on a chain leaves alone, and how it moves pages between
the chain and the pool. -/
structure Moved (md : Metadata) (chain : List PageList) (md' : Metadata)
    (chain' : List PageList) : Prop where
  poolPages : md'.poolPages = md.poolPages
  out : pagesOut md' - pagesOut md = (chain'.length : ℤ) - chain.length

variable {md md' : Metadata} {c c' : List PageList} {b t : ℕ}

theorem Moved.cons (h : Moved md c md' c') (p q : PageList) : Moved md (p :: c) md' (q :: c') :=
  ⟨h.poolPages, by rw [h.out]; simp⟩

theorem Moved.drop {phys : ℕ} (h : Moved (metadataPageFree md phys) c md' c') (p : PageList) :
    Moved md (p :: c) md' c' := by
  refine ⟨h.poolPages, ?_⟩
  have ho := h.out
  rw [pagesOut_free] at ho
  simp only [length_cons]
  push_cast
  linarith

theorem metadataPageAlloc_eq_some {phys : ℕ} (h : metadataPageAlloc md = some (md', phys)) :
    md'.poolPages = md.poolPages ∧ pagesOut md' = pagesOut md + 1 ∧
      md'.poolUsed ≤ max md.poolUsed md.poolPages := by
  unfold metadataPageAlloc at h
  split at h
  · rename_i hl
    cases h
    refine ⟨rfl, ?_, le_max_left _ _⟩
    simp only [pagesOut, hl, length_cons]
    push_cast
    ring
  · rename_i hl
    split at h
    · cases h
      refine ⟨rfl, ?_, by dsimp only; omega⟩
      simp only [pagesOut]
      push_cast
      ring
    · cases h

theorem metadataPageAlloc_eq_none (h : metadataPageAlloc md = none) : (md.poolPages : ℤ) ≤ pagesOut md := by
  unfold metadataPageAlloc at h
  split at h
  · cases h
  · rename_i hl
    split at h
    · cases h
    · simp only [pagesOut, hl, length_nil]
      omega

theorem pushWalk_spec (b : ℕ) (first : Bool) (md : Metadata) (c : List PageList) :
    (pushWalk b first md c).1 = md ∧
    ((pushWalk b first md c).2.2 = true → blocksOf (pushWalk b first md c).2.1 = b ::ₘ blocksOf c ∧
        (pushWalk b first md c).2.1.length = c.length) ∧
    ((pushWalk b first md c).2.2 = false →
      (pushWalk b first md c).2.1 = c ∧ c.length * pageListEntryCapacity ≤ (blocksOf c).card) := by
  induction c generalizing first with
  | nil => simp [pushWalk]
  | cons p ps ih =>
    by_cases hp : p.entries.length < pageListEntryCapacity
    · rw [pushWalk, if_pos hp]
      refine ⟨rfl, fun _ => ⟨?_, rfl⟩, fun h => by cases h⟩
      rw [blocksOf_cons, blocksOf_cons, ← cons_add]
      congr 1
      exact coe_eq_coe.mpr perm_append_comm
    · have hne : ¬(!first ∧ p.entries.length = 0) := by
        rintro ⟨-, h0⟩
        exact hp (by rw [h0]; decide)
      obtain ⟨hm, ht, hf⟩ := ih false
      rw [pushWalk, if_neg hp, if_neg hne]
      refine ⟨hm, fun h => ?_, fun h => ?_⟩
      · obtain ⟨hb, hl⟩ := ht h
        exact ⟨by simp [hb], by simp [hl]⟩
      · obtain ⟨hb, hl⟩ := hf h
        refine ⟨by simp only [hb], ?_⟩
        simp only [length_cons, blocksOf_cons, card_add, coe_card]
        nlinarith

theorem pageListPush_eq_some (h : pageListPush md c b = some (md', c')) :
    blocksOf c' = b ::ₘ blocksOf c ∧ Moved md c md' c' ∧ (c'.length = c.length ∨
        c'.length = c.length + 1 ∧ c.length * pageListEntryCapacity ≤ (blocksOf c).card) := by
  obtain ⟨hm, ht, hf⟩ := pushWalk_spec b true md c
  revert h
  rw [pageListPush]
  split <;> rename_i md1 c1 hw <;> intro h
  · simp only [hw] at hm ht
    obtain ⟨hb, hl⟩ := ht trivial
    cases h
    subst hm
    exact ⟨hb, ⟨rfl, by rw [hl]; ring⟩, .inl hl⟩
  · simp only [hw] at hm hf
    obtain ⟨rfl, hl⟩ := hf trivial
    subst hm
    rcases ha : metadataPageAlloc md1 with - | ⟨md2, phys⟩
    · simp [ha] at h
    · obtain ⟨hp, ho, -⟩ := metadataPageAlloc_eq_some ha
      simp only [ha, bind_eq_bind, bind_some] at h
      cases h
      refine ⟨by simp, ⟨hp, by rw [ho]; simp⟩, .inr ⟨by simp, hl⟩⟩

theorem pageListPush_poolUsed (h : pageListPush md c b = some (md', c')) (hu : md.poolUsed ≤ md.poolPages) :
    md'.poolUsed ≤ md'.poolPages := by
  obtain ⟨hm, -, -⟩ := pushWalk_spec b true md c
  revert h
  rw [pageListPush]
  split <;> rename_i md1 c1 hw <;> intro h
  · cases h
    rw [hw] at hm
    obtain rfl : md' = md := hm
    exact hu
  · rw [hw] at hm
    obtain rfl : md1 = md := hm
    rcases ha : metadataPageAlloc md1 with - | ⟨md2, phys⟩
    · simp [ha] at h
    · obtain ⟨hp, -, hu'⟩ := metadataPageAlloc_eq_some ha
      simp only [ha, bind_eq_bind, bind_some] at h
      cases h
      omega

theorem pageListPush_eq_none (h : pageListPush md c b = none) :
    (md.poolPages : ℤ) ≤ pagesOut md ∧ c.length * pageListEntryCapacity ≤ (blocksOf c).card := by
  obtain ⟨hm, -, hf⟩ := pushWalk_spec b true md c
  revert h
  rw [pageListPush]
  split <;> rename_i md1 c1 hw <;> intro h
  · cases h
  · simp only [hw] at hm hf
    obtain ⟨-, hl⟩ := hf trivial
    subst hm
    rcases ha : metadataPageAlloc md1 with - | ⟨md2, phys⟩
    · exact ⟨metadataPageAlloc_eq_none ha, hl⟩
    · simp [ha] at h

/-- No page of the chain holds more entries than it has room for. -/
def Capped (chain : List PageList) : Prop :=
  ∀ list ∈ chain, list.entries.length ≤ pageListEntryCapacity

theorem Capped.card_le (h : Capped c) : (blocksOf c).card ≤ c.length * pageListEntryCapacity := by
  induction c with
  | nil => simp
  | cons list next ih =>
    have h1 := h list List.mem_cons_self
    have h2 := ih fun l hl => h l (List.mem_cons_of_mem list hl)
    rw [blocksOf_cons, card_add, coe_card, length_cons, Nat.succ_mul]
    omega

theorem pushWalk_capped (b : ℕ) (first : Bool) (md : Metadata) (h : Capped c) :
    Capped (pushWalk b first md c).2.1 := by
  induction c generalizing first md with
  | nil => exact h
  | cons list next ih =>
    have hnext : Capped next := fun l hl => h l (List.mem_cons_of_mem list hl)
    rw [pushWalk]
    split_ifs with h1 h2
    · intro l hl
      rcases List.mem_cons.mp hl with rfl | hl
      · simpa using h1
      · exact hnext l hl
    · exact ih first _ hnext
    · intro l hl
      rcases List.mem_cons.mp hl with rfl | hl
      · exact h l List.mem_cons_self
      · exact ih false md hnext l hl

theorem pageListPush_capped (hc : Capped c) (h : pageListPush md c b = some (md', c')) : Capped c' := by
  have hw := pushWalk_capped b true md hc
  revert h
  rw [pageListPush]
  split <;> rename_i md1 c1 he <;> intro h
  · cases h
    rwa [he] at hw
  · rw [he] at hw
    rcases ha : metadataPageAlloc md1 with - | ⟨md2, phys⟩
    · simp [ha] at h
    · simp only [ha, bind_eq_bind, bind_some] at h
      cases h
      intro l hl
      rcases List.mem_cons.mp hl with rfl | hl
      · simp [pageListEntryCapacity, pageSize]
      · exact hw l hl

theorem popWalk_spec (first : Bool) (md : Metadata) (c : List PageList) :
    Moved md c (popWalk first md c).1 (popWalk first md c).2.1 ∧ (popWalk first md c).2.1.length ≤ c.length ∧
    ((blocksOf c = 0 ∧ (popWalk first md c).2.2 = 0 ∧ blocksOf (popWalk first md c).2.1 = 0) ∨
      blocksOf c = (popWalk first md c).2.2 ::ₘ blocksOf (popWalk first md c).2.1) := by
  induction c generalizing first md with
  | nil => exact ⟨⟨rfl, by simp [popWalk]⟩, le_rfl, .inl ⟨rfl, rfl, rfl⟩⟩
  | cons p ps ih =>
    rw [popWalk]
    by_cases hp : p.entries ≠ []
    · have hl : (↑p.entries : Multiset ℕ) = p.entries.getLast hp ::ₘ ↑p.entries.dropLast := by
        rw [cons_coe, coe_eq_coe]
        conv_lhs => rw [← dropLast_append_getLast hp]
        exact perm_append_comm
      simp only [dif_pos hp]
      split_ifs with h
      · refine ⟨Moved.drop ⟨rfl, by ring⟩ p, Nat.le_succ _, .inr ?_⟩
        have h0 : p.entries.dropLast = [] := length_eq_zero_iff.mp h.1
        rw [blocksOf_cons, hl, h0]
        simp
      · refine ⟨Moved.cons ⟨rfl, by ring⟩ p _, le_rfl, .inr ?_⟩
        rw [blocksOf_cons, blocksOf_cons, hl, cons_add]
    · have h0 : p.entries = [] := not_not.mp hp
      simp only [dif_neg hp]
      split_ifs with h
      · obtain ⟨hm, hlen, hb⟩ := ih first (metadataPageFree md p.phys)
        refine ⟨Moved.drop hm p, hlen.trans (Nat.le_succ _), ?_⟩
        simpa [h0] using hb
      · obtain ⟨hm, hlen, hb⟩ := ih false md
        refine ⟨Moved.cons hm p p, Nat.succ_le_succ hlen, ?_⟩
        simpa [h0] using hb

theorem pageListPop_moved (md : Metadata) (c : List PageList) :
    Moved md c (pageListPop md c).1 (pageListPop md c).2.1 := (popWalk_spec true md c).1

theorem pageListPop_length_le (md : Metadata) (c : List PageList) :
    (pageListPop md c).2.1.length ≤ c.length := (popWalk_spec true md c).2.1

theorem pageListPop_eq_zero (h0 : 0 ∉ blocksOf c) (h : (pageListPop md c).2.2 = 0) :
    blocksOf c = 0 ∧ blocksOf (pageListPop md c).2.1 = 0 := by
  rcases (popWalk_spec true md c).2.2 with ⟨hc, -, hb⟩ | hb
  · exact ⟨hc, hb⟩
  · refine absurd ?_ h0
    rw [hb, show (popWalk true md c).2.2 = 0 from h]
    exact Multiset.mem_cons_self _ _

theorem pageListPop_of_ne_zero (h : (pageListPop md c).2.2 ≠ 0) :
    blocksOf c = (pageListPop md c).2.2 ::ₘ blocksOf (pageListPop md c).2.1 := by
  rcases (popWalk_spec true md c).2.2 with ⟨-, hz, -⟩ | hb
  · exact absurd hz h
  · exact hb

theorem takeEntry_perm {es : List ℕ} (h : t ∈ es) : (t :: takeEntry t es).Perm es := by
  have hne : es ≠ [] := ne_nil_of_mem h
  have hi : es.idxOf t < es.length := idxOf_lt_length_iff.mpr h
  obtain ⟨pre, x, rfl⟩ : ∃ pre x, es = pre ++ [x] :=
    ⟨es.dropLast, es.getLast hne, (dropLast_append_getLast hne).symm⟩
  unfold takeEntry
  rw [getLastD_concat]
  by_cases ht : t ∈ pre
  · have hlt : pre.idxOf t < pre.length := idxOf_lt_length_iff.mpr ht
    rw [idxOf_append_of_mem ht, set_append_left _ _ hlt, dropLast_concat]
    have hset : (pre.set (pre.idxOf t) x).Perm (x :: pre.eraseIdx (pre.idxOf t)) :=
      set_perm_cons_eraseIdx hlt x
    have her : (t :: pre.eraseIdx (pre.idxOf t)).Perm pre := by
      have := getElem_cons_eraseIdx_perm hlt
      rwa [getElem_idxOf hlt] at this
    refine ((hset.cons t).trans (List.Perm.swap x t _)).trans ?_
    exact (her.cons x).trans (perm_append_singleton x _).symm
  · have htx : t = x := by simpa [ht] using h
    subst htx
    rw [idxOf_append_of_notMem ht]
    simp only [idxOf_cons_self, Nat.add_zero, set_append_right _ _ le_rfl, Nat.sub_self,
      set_cons_zero, dropLast_concat]
    exact (perm_append_singleton t _).symm

theorem takeWalk_spec (t : ℕ) (first : Bool) (md : Metadata) (c : List PageList) :
    Moved md c (takeWalk t first md c).1 (takeWalk t first md c).2.1 ∧
    (takeWalk t first md c).2.1.length ≤ c.length ∧ (t ∉ blocksOf c ∧ (takeWalk t first md c).2.2 = false ∧
        blocksOf (takeWalk t first md c).2.1 = blocksOf c ∨
      (takeWalk t first md c).2.2 = true ∧ blocksOf c = t ::ₘ blocksOf (takeWalk t first md c).2.1) := by
  induction c generalizing first md with
  | nil => exact ⟨⟨rfl, by simp [takeWalk]⟩, le_rfl, .inl ⟨by simp, rfl, rfl⟩⟩
  | cons p ps ih =>
    rw [takeWalk]
    by_cases hp : t ∈ p.entries
    · have hl : (↑p.entries : Multiset ℕ) = t ::ₘ ↑(takeEntry t p.entries) :=
        (coe_eq_coe.mpr (takeEntry_perm hp)).symm
      simp only [if_pos hp]
      split_ifs with h
      · refine ⟨Moved.drop ⟨rfl, by ring⟩ p, Nat.le_succ _, .inr ⟨rfl, ?_⟩⟩
        have h0 : takeEntry t p.entries = [] := length_eq_zero_iff.mp h.1
        rw [blocksOf_cons, hl, h0]
        simp
      · refine ⟨Moved.cons ⟨rfl, by ring⟩ p _, le_rfl, .inr ⟨rfl, ?_⟩⟩
        rw [blocksOf_cons, blocksOf_cons, hl, cons_add]
    · simp only [if_neg hp]
      split_ifs with h
      · obtain ⟨hm, hlen, hb⟩ := ih first (metadataPageFree md p.phys)
        have h0 : p.entries = [] := length_eq_zero_iff.mp h.2
        refine ⟨Moved.drop hm p, hlen.trans (Nat.le_succ _), ?_⟩
        simpa [h0] using hb
      · obtain ⟨hm, hlen, hb⟩ := ih false md
        refine ⟨Moved.cons hm p p, Nat.succ_le_succ hlen, ?_⟩
        rcases hb with ⟨hn, hr, hb⟩ | ⟨hr, hb⟩
        · refine .inl ⟨?_, hr, by simp [hb]⟩
          simp [hp, hn]
        · exact .inr ⟨hr, by simp [hb]⟩

theorem pageListTake_moved (md : Metadata) (c : List PageList) (t : ℕ) :
    Moved md c (pageListTake md c t).1 (pageListTake md c t).2.1 := (takeWalk_spec t true md c).1

theorem pageListTake_length_le (md : Metadata) (c : List PageList) (t : ℕ) :
    (pageListTake md c t).2.1.length ≤ c.length := (takeWalk_spec t true md c).2.1

theorem pageListTake_eq_true (h : (pageListTake md c t).2.2 = true) :
    blocksOf c = t ::ₘ blocksOf (pageListTake md c t).2.1 := by
  rcases (takeWalk_spec t true md c).2.2 with ⟨-, hr, -⟩ | ⟨-, hb⟩
  · exact absurd (hr.symm.trans h) (by decide)
  · exact hb

theorem pageListTake_eq_false (h : (pageListTake md c t).2.2 = false) :
    t ∉ blocksOf c ∧ blocksOf (pageListTake md c t).2.1 = blocksOf c := by
  rcases (takeWalk_spec t true md c).2.2 with ⟨hn, -, hb⟩ | ⟨hr, -⟩
  · exact ⟨hn, hb⟩
  · exact absurd (hr.symm.trans h) (by decide)

end CoolPotOS
