import CoolPotOS.Mem.UserCover

namespace CoolPotOS

open List Multiset Option

structure LazyPage extends VirtPage where
  flags : BitVec 64
  deriving DecidableEq

def LazyPage.attrs (e : LazyPage) : BitVec 64 × BitVec 64 := (e.pteFlags, e.flags)

/-- The entries that `unmap_virtual_page` makes for one that meets the range. -/
def lazyPieces (vaddr stop : ℕ) (e : LazyPage) : List LazyPage :=
  (virtPieces vaddr stop e.toVirtPage).map fun p => { toVirtPage := p, flags := e.flags }

/-- The loop of `unmap_virtual_page`; `none` when the fuel is used up. -/
def unmapLazyLoop (vaddr stop : ℕ) : ℕ → List LazyPage → Option (List LazyPage)
  | 0, _ => none
  | fuel + 1, queue =>
    match queue.findIdx? (fun e => e.meets vaddr stop) with
    | none => some queue
    | some k =>
      unmapLazyLoop vaddr stop fuel
        (queue.eraseIdx k ++ ((queue[k]?.map (lazyPieces vaddr stop)).getD []))

/-- The entries that `lazy_tryalloc` makes for the pages before and behind page `i`. Their `flags` are not
written; `junk` is what `malloc` has left there. -/
def lazyFragments (junk : BitVec 64 × BitVec 64) (e : LazyPage) (i : ℕ) : List LazyPage :=
  (if i > 0 then [{ start := e.start, count := i, pteFlags := e.pteFlags, flags := junk.1 }] else []) ++
    (if i + 1 < e.count then
      [{ start := wrap (e.start + (i + 1) * pageSize), count := e.count - i - 1,
         pteFlags := e.pteFlags, flags := junk.2 }] else [])

/-- What `lazy_tryalloc` does to the queue. -/
def lazyTryallocQueue (junk : BitVec 64 × BitVec 64) (queue : List LazyPage) (address : ℕ) : List LazyPage :=
  if address = 0 then queue
  else
    match queue.findIdx? fun e => decide (address ≥ e.start ∧ address < e.stop) with
    | none => queue
    | some k =>
      match queue[k]? with
      | none => queue
      | some e => (queue ++ lazyFragments junk e ((address - e.start) / pageSize)).eraseIdx k

instance VirtPage.decidableCovers (e : VirtPage) (x : ℕ) : Decidable (e.Covers x) :=
  inferInstanceAs (Decidable (_ ∧ _))

def lazyAt (queue : List LazyPage) (x : ℕ) : Multiset (BitVec 64 × BitVec 64) :=
  ((queue.filter fun e => e.Covers x).map LazyPage.attrs : List _)

def LazyDisjoint (queue : List LazyPage) : Prop := ∀ x, (lazyAt queue x).card ≤ 1

/-- The pages of the queue that are removed are these; all others keep their attributes. -/
structure RemovesPages (removed : ℕ → Prop) (queue queue' : List LazyPage) : Prop where
  gone : ∀ x, removed x → lazyAt queue' x = 0
  kept : ∀ x, ¬ removed x → lazyAt queue' x = lazyAt queue x
  disjoint : LazyDisjoint queue'

/-- `unmap_virtual_page` terminates and removes the pages of its range. -/
def UnmapsExactly (queue : List LazyPage) (vaddr length : ℕ) : Prop :=
  ∃ fuel queue', unmapLazyLoop vaddr (wrap (vaddr + length)) fuel queue = some queue' ∧
    RemovesPages (fun x => vaddr ≤ x ∧ x < vaddr + length) queue queue'

/-- `lazy_tryalloc` removes the page of the address. -/
def FaultsExactly (junk : BitVec 64 × BitVec 64) (queue : List LazyPage) (address : ℕ) : Prop :=
  RemovesPages (fun x => x / pageSize = address / pageSize) queue (lazyTryallocQueue junk queue address)

/-- No sum of `unmap_virtual_page` wraps around, where the range has lazy pages at all. -/
def UnmapFits (queue : List LazyPage) (vaddr length : ℕ) : Prop :=
  ∀ e ∈ queue, (∃ x, e.Covers x ∧ vaddr ≤ x ∧ x < vaddr + length) →
    vaddr + length < 2 ^ 64 ∧ e.start + e.count * pageSize < 2 ^ 64

/-- The entry of the page, if there is one, ends below `2 ^ 64`, and what `malloc` returns for the pages
before and behind it holds the flags of the entry already. -/
def FaultFits (junk : BitVec 64 × BitVec 64) (queue : List LazyPage) (address : ℕ) : Prop :=
  ∀ e ∈ queue, e.Covers address → address ≠ 0 ∧ e.start + e.count * pageSize < 2 ^ 64 ∧
    (0 < (address - e.start) / pageSize → junk.1 = e.flags) ∧
    ((address - e.start) / pageSize + 1 < e.count → junk.2 = e.flags)

section At

variable {queue rest : List LazyPage} {e : LazyPage} {x k : ℕ}

theorem lazyAt_append (queue rest : List LazyPage) (x : ℕ) :
    lazyAt (queue ++ rest) x = lazyAt queue x + lazyAt rest x := by
  unfold lazyAt
  rw [filter_append, map_append]
  rfl

theorem lazyAt_singleton (e : LazyPage) (x : ℕ) : lazyAt [e] x = if e.Covers x then {e.attrs} else 0 := by
  unfold lazyAt
  split_ifs with h
  · rw [List.filter_cons_of_pos (by simpa using h)]
    rfl
  · rw [List.filter_cons_of_neg (by simpa using h)]
    rfl

theorem lazyAt_eraseIdx (hk : k < queue.length) (x : ℕ) :
    lazyAt queue x = lazyAt [queue[k]] x + lazyAt (queue.eraseIdx k) x := by
  rw [← lazyAt_append]
  apply coe_eq_coe.mpr
  exact ((getElem_cons_eraseIdx_perm hk).symm.filter _).map _

theorem lazyAt_eq_zero_iff : lazyAt queue x = 0 ↔ ∀ e ∈ queue, ¬ e.Covers x := by
  unfold lazyAt
  rw [coe_eq_zero, map_eq_nil_iff, filter_eq_nil_iff]
  simp

theorem LazyDisjoint.at_eq (h : LazyDisjoint queue) (he : e ∈ queue) (hx : e.Covers x) :
    lazyAt queue x = {e.attrs} := by
  have hmem : e.attrs ∈ lazyAt queue x := by
    apply mem_coe.mpr
    exact List.mem_map_of_mem (List.mem_filter.mpr ⟨he, by simpa using hx⟩)
  obtain ⟨s, hs⟩ := exists_cons_of_mem hmem
  have hcard := h x
  rw [hs, card_cons] at hcard
  have hnil : s = 0 := card_eq_zero.mp (by omega)
  rw [hs, hnil]
  rfl

theorem LazyDisjoint.eq_of_covers (h : LazyDisjoint queue) {e' : LazyPage} (he : e ∈ queue) (he' : e' ∈ queue)
    (hx : e.Covers x) (hx' : e'.Covers x) : e = e' := by
  obtain ⟨k, hk, rfl⟩ := mem_iff_getElem.mp he'
  have hsum := congrArg card (lazyAt_eraseIdx hk x)
  rw [lazyAt_singleton, if_pos hx', card_add, card_singleton] at hsum
  have hcard := h x
  have hrest : lazyAt (queue.eraseIdx k) x = 0 := card_eq_zero.mp (by omega)
  rcases List.mem_cons.mp ((getElem_cons_eraseIdx_perm hk).mem_iff.mpr he) with heq | hmem
  · exact heq
  · exact absurd hx (lazyAt_eq_zero_iff.mp hrest e hmem)

theorem lazyAt_part {start stop : ℕ} (hstart : pageSize ∣ start) (hstop : pageSize ∣ stop) (hle : start ≤ stop)
    (pteFlags flags : BitVec 64) (x : ℕ) :
    lazyAt [{ start := start, count := (stop - start) / pageSize, pteFlags := pteFlags, flags := flags }] x =
      if start ≤ x ∧ x < stop then {(pteFlags, flags)} else 0 := by
  have hend : start + (stop - start) / pageSize * pageSize = stop := by
    obtain ⟨a, rfl⟩ := hstart
    obtain ⟨b, rfl⟩ := hstop
    unfold pageSize at *
    omega
  have hcovers : VirtPage.Covers ⟨start, (stop - start) / pageSize, pteFlags⟩ x ↔ start ≤ x ∧ x < stop := by
    unfold VirtPage.Covers
    dsimp only
    rw [hend]
  rw [lazyAt_singleton]
  exact if_congr hcovers rfl rfl

end At

section Unmap

variable {queue queue' : List LazyPage} {e : LazyPage} {vaddr stop x fuel : ℕ}

theorem VirtPage.Below.stop_cases {e : VirtPage} (h : e.Below (2 ^ 64)) :
    e.start + e.count * pageSize = 2 ^ 64 ∧ e.stop = 0 ∨
      e.start + e.count * pageSize < 2 ^ 64 ∧ e.stop = e.start + e.count * pageSize := by
  rcases h.2.eq_or_lt with heq | hlt
  · left
    unfold VirtPage.stop wrap
    omega
  · exact .inr ⟨hlt, wrap_of_lt hlt⟩

theorem lazyAt_lazyPieces (hvaddr : pageSize ∣ vaddr) (hstop : pageSize ∣ stop) (hle : vaddr ≤ stop)
    (h : e.Below (2 ^ 64)) (hmeets : e.meets vaddr stop = true) (x : ℕ) :
    lazyAt (lazyPieces vaddr stop e) x = if vaddr ≤ x ∧ x < stop then 0 else lazyAt [e] x := by
  rw [VirtPage.meets, decide_eq_true_eq] at hmeets
  obtain ⟨-, hend⟩ : e.start + e.count * pageSize < 2 ^ 64 ∧ e.stop = e.start + e.count * pageSize :=
    h.stop_cases.resolve_left (by omega)
  have hend_dvd : pageSize ∣ e.stop := hend ▸ dvd_add h.1 (Dvd.intro_left _ rfl)
  have hself : lazyAt [e] x = if e.start ≤ x ∧ x < e.stop then {(e.pteFlags, e.flags)} else 0 := by
    rw [lazyAt_singleton, hend]
    rfl
  have hleft := fun hlt : e.start ≤ vaddr => lazyAt_part h.1 hvaddr hlt e.pteFlags e.flags x
  have hright := fun hlt : stop ≤ e.stop => lazyAt_part hstop hend_dvd hlt e.pteFlags e.flags x
  rw [hself]
  unfold lazyPieces virtPieces
  dsimp only
  by_cases hlow : vaddr ≤ e.start
  · by_cases hhigh : stop ≥ e.stop
    · rw [if_pos ⟨hlow, hhigh⟩]
      show (0 : Multiset (BitVec 64 × BitVec 64)) = _
      split_ifs <;> first | rfl | omega
    · rw [if_neg (by omega), if_pos (by omega)]
      refine (hright (by omega)).trans ?_
      split_ifs <;> first | rfl | omega
  · by_cases hhigh : stop ≥ e.stop
    · rw [if_neg (by omega), if_neg (by omega), if_pos (by omega)]
      refine (hleft (by omega)).trans ?_
      split_ifs <;> first | rfl | omega
    · rw [if_neg (by omega), if_neg (by omega), if_neg (by omega)]
      -- an address is in the left piece, in the range or in the right piece
      refine (lazyAt_append [_] [_] x).trans ?_
      rw [hleft (by omega), hright (by omega)]
      split_ifs <;> first | rfl | omega

theorem lazyPieces_spec (hvaddr : pageSize ∣ vaddr) (hstop : pageSize ∣ stop) (h : e.Below (2 ^ 64))
    (hmeets : e.meets vaddr stop = true) :
    ∀ p ∈ lazyPieces vaddr stop e, p.Below (2 ^ 64) ∧ p.meets vaddr stop = false := by
  intro p hp
  obtain ⟨q, hq, rfl⟩ := List.mem_map.mp hp
  have hlimit : e.Below (2 ^ 64 - 1) := by
    rw [VirtPage.meets, decide_eq_true_eq] at hmeets
    have hend := h.stop_cases
    exact ⟨h.1, by omega⟩
  obtain ⟨hbelow, hout, -⟩ := virtPieces_spec hlimit (by norm_num) hvaddr hstop hmeets hq
  exact ⟨⟨hbelow.1, hbelow.2.trans (Nat.sub_le _ _)⟩, hout⟩

/-- The loop ends when its fuel is more than the number of entries that meet the range, and what is left says
nothing of the range and the same of all other addresses. -/
theorem unmapLazyLoop_exact (hvaddr : pageSize ∣ vaddr) (hstop : pageSize ∣ stop) (hle : vaddr ≤ stop)
    (hq : ∀ e ∈ queue, e.Below (2 ^ 64))
    (hfits : ∀ e ∈ queue, (∃ x, e.Covers x ∧ vaddr ≤ x ∧ x < stop) → e.start + e.count * pageSize < 2 ^ 64)
    (hfuel : queue.countP (fun e => e.meets vaddr stop) < fuel) :
    ∃ queue', unmapLazyLoop vaddr stop fuel queue = some queue' ∧
      ∀ x, lazyAt queue' x = if vaddr ≤ x ∧ x < stop then 0 else lazyAt queue x := by
  induction fuel generalizing queue with
  | zero => exact absurd hfuel (Nat.not_lt_zero _)
  | succ fuel ih =>
    rw [unmapLazyLoop]
    split
    case h_1 hnone =>
      refine ⟨queue, rfl, fun x => ?_⟩
      split_ifs with hx
      · rw [lazyAt_eq_zero_iff]
        intro e he hcovers
        have hmeets := findIdx?_eq_none_iff.mp hnone e he
        rw [VirtPage.meets, decide_eq_false_iff_not] at hmeets
        have hend := hfits e he ⟨x, hcovers, hx⟩
        rw [VirtPage.stop, wrap_of_lt hend] at hmeets
        unfold VirtPage.Covers at hcovers
        omega
      · rfl
    case h_2 k hk =>
      obtain ⟨hlt, hmeets, -⟩ := findIdx?_eq_some_iff_getElem.mp hk
      have hmem : queue[k] ∈ queue := getElem_mem hlt
      have hbelow := hq _ hmem
      have hpieces := lazyAt_lazyPieces hvaddr hstop hle hbelow hmeets
      have hspec := lazyPieces_spec hvaddr hstop hbelow hmeets
      rw [List.getElem?_eq_getElem hlt, map_some, getD_some]
      have hcount := (getElem_cons_eraseIdx_perm hlt).countP_eq (fun e => e.meets vaddr stop)
      simp only [List.countP_cons, hmeets, if_true] at hcount
      have hzero : (lazyPieces vaddr stop queue[k]).countP (fun e => e.meets vaddr stop) = 0 := by
        apply List.countP_eq_zero.mpr
        intro p hp
        rw [(hspec p hp).2]
        exact Bool.false_ne_true
      have hq' : ∀ p ∈ queue.eraseIdx k ++ lazyPieces vaddr stop queue[k], p.Below (2 ^ 64) := by
        intro p hp
        rcases mem_append.mp hp with hold | hnew
        · exact hq p (mem_of_mem_eraseIdx hold)
        · exact (hspec p hnew).1
      have hfits' : ∀ p ∈ queue.eraseIdx k ++ lazyPieces vaddr stop queue[k],
          (∃ x, p.Covers x ∧ vaddr ≤ x ∧ x < stop) → p.start + p.count * pageSize < 2 ^ 64 := by
        intro p hp hin
        rcases mem_append.mp hp with hold | hnew
        · exact hfits p (mem_of_mem_eraseIdx hold) hin
        · -- a piece has no address of the range
          obtain ⟨x, hcovers, hx⟩ := hin
          have hnone := hpieces x
          rw [if_pos hx, lazyAt_eq_zero_iff] at hnone
          exact absurd hcovers (hnone p hnew)
      obtain ⟨queue', hloop, hqueue'⟩ := ih hq' hfits' (by rw [countP_append, hzero]; omega)
      refine ⟨queue', hloop, fun x => ?_⟩
      rw [hqueue']
      split_ifs with hx
      · rfl
      · rw [lazyAt_append, hpieces, if_neg hx, add_comm, ← lazyAt_eraseIdx hlt]

/-- An address at or above the range that the loop does not see stays in the queue: its entry ends at `2 ^ 64`, or
the end of the range has wrapped around. -/
theorem unmapLazyLoop_stays (hvaddr : pageSize ∣ vaddr) (hstop : pageSize ∣ stop) (hx : vaddr ≤ x)
    (h : ∃ p ∈ queue, p.Below (2 ^ 64) ∧ p.Covers x ∧ (p.start + p.count * pageSize = 2 ^ 64 ∨ stop < vaddr))
    (hloop : unmapLazyLoop vaddr stop fuel queue = some queue') : ∃ p ∈ queue', p.Covers x := by
  induction fuel generalizing queue with
  | zero => cases hloop
  | succ fuel ih =>
    rw [unmapLazyLoop] at hloop
    obtain ⟨p, hp, hbelow, hcovers, hunseen⟩ := h
    split at hloop
    case h_1 hnone =>
      cases hloop
      exact ⟨p, hp, hcovers⟩
    case h_2 k hk =>
      obtain ⟨hlt, hmeets, -⟩ := findIdx?_eq_some_iff_getElem.mp hk
      rw [List.getElem?_eq_getElem hlt, map_some, getD_some] at hloop
      refine ih ?_ hloop
      rcases List.mem_cons.mp ((getElem_cons_eraseIdx_perm hlt).mem_iff.mpr hp) with heq | hmem
      · -- the entry is split, and the right piece goes on over the whole range
        rw [← heq, VirtPage.meets, decide_eq_true_eq] at hmeets
        obtain ⟨hend, hstop_eq⟩ : p.start + p.count * pageSize < 2 ^ 64 ∧ p.stop = p.start + p.count * pageSize :=
          hbelow.stop_cases.resolve_left (by omega)
        have hwrapped : stop < vaddr := hunseen.resolve_left hend.ne
        refine ⟨{ start := stop, count := (p.stop - stop) / pageSize, pteFlags := p.pteFlags, flags := p.flags },
          mem_append_right _ ?_, ?_⟩
        · rw [← heq]
          unfold lazyPieces virtPieces
          dsimp only
          rw [if_neg (by omega), if_neg (by omega), if_neg (by omega)]
          simp
        · have hcount : stop + (p.stop - stop) / pageSize * pageSize = p.stop := by
            obtain ⟨a, ha⟩ := hbelow.1
            obtain ⟨b, hb⟩ := hstop
            rw [hstop_eq, ha, hb]
            rw [hstop_eq, ha, hb] at hmeets
            unfold pageSize at *
            omega
          unfold VirtPage.Covers at hcovers
          refine ⟨⟨hstop, ?_⟩, ⟨?_, ?_⟩, .inr hwrapped⟩
          · exact (hcount.trans hstop_eq).trans_le hbelow.2
          · exact hwrapped.le.trans hx
          · exact hcovers.2.trans_eq (hcount.trans hstop_eq).symm
      · exact ⟨p, mem_append_left _ hmem, hbelow, hcovers, hunseen⟩

theorem unmapsExactly_iff (hq : ∀ e ∈ queue, e.Below (2 ^ 64)) (hdisjoint : LazyDisjoint queue) {length : ℕ}
    (hvaddr : pageSize ∣ vaddr) (hlength : pageSize ∣ length) (hv : vaddr < 2 ^ 64) (hl : length < 2 ^ 64) :
    UnmapsExactly queue vaddr length ↔ UnmapFits queue vaddr length := by
  have hstop : pageSize ∣ wrap (vaddr + length) := by
    have hpage : pageSize ∣ 2 ^ 64 := by decide
    exact (Nat.dvd_mod_iff hpage).mpr (dvd_add hvaddr hlength)
  constructor
  · rintro ⟨fuel, queue', hloop, hremoves⟩ e he ⟨x, hcovers, hx⟩
    by_contra hwrong
    have hstays : ∃ p ∈ queue', p.Covers x := by
      refine unmapLazyLoop_stays hvaddr hstop hx.1 ⟨e, he, hq e he, hcovers, ?_⟩ hloop
      have hend := (hq e he).2
      unfold wrap
      omega
    obtain ⟨p, hp, hpx⟩ := hstays
    exact absurd hpx (lazyAt_eq_zero_iff.mp (hremoves.gone x hx) p hp)
  · intro hfits
    have hdone : ∃ fuel queue', unmapLazyLoop vaddr (wrap (vaddr + length)) fuel queue = some queue' ∧
        ∀ x, lazyAt queue' x = if vaddr ≤ x ∧ x < vaddr + length then 0 else lazyAt queue x := by
      by_cases hrange : vaddr + length < 2 ^ 64
      · rw [wrap_of_lt hrange] at hstop ⊢
        exact ⟨_, unmapLazyLoop_exact hvaddr hstop (Nat.le_add_right _ _) hq
          (fun e he hin => (hfits e he hin).2) (Nat.lt_succ_self _)⟩
      · -- the queue has nothing in the range, and nothing that meets the range that the code computes
        have hnone : ∀ e ∈ queue, ∀ x, e.Covers x → ¬ (vaddr ≤ x ∧ x < vaddr + length) :=
          fun e he x hcovers hx => hrange (hfits e he ⟨x, hcovers, hx⟩).1
        refine ⟨1, queue, ?_, fun x => ?_⟩
        · have hidx : queue.findIdx? (fun e => e.meets vaddr (wrap (vaddr + length))) = none := by
            apply findIdx?_eq_none_iff.mpr
            intro e he
            rw [VirtPage.meets, decide_eq_false_iff_not]
            intro hmeets
            have hend := (hq e he).stop_cases
            have hcovers := hnone e he vaddr
            unfold VirtPage.Covers at hcovers
            unfold wrap at hmeets
            omega
          rw [unmapLazyLoop, hidx]
        · split_ifs with hx
          · exact lazyAt_eq_zero_iff.mpr fun e he hcovers => hnone e he x hcovers hx
          · rfl
    obtain ⟨fuel, queue', hloop, hat⟩ := hdone
    refine ⟨fuel, queue', hloop, fun x hx => ?_, fun x hx => ?_, fun x => ?_⟩
    · rw [hat, if_pos hx]
    · rw [hat, if_neg hx]
    · rw [hat]
      split_ifs
      · exact Nat.zero_le _
      · exact hdisjoint x

end Unmap

section Fault

variable {queue : List LazyPage} {e : LazyPage} {address x i k : ℕ} {junk : BitVec 64 × BitVec 64}

theorem lazyAt_lazyFragments (hend : e.start + e.count * pageSize < 2 ^ 64) (hi : i < e.count) (x : ℕ) :
    lazyAt (lazyFragments junk e i) x =
      (if e.start ≤ x ∧ x < e.start + i * pageSize then {(e.pteFlags, junk.1)} else 0) +
        if e.start + (i + 1) * pageSize ≤ x ∧ x < e.start + e.count * pageSize then {(e.pteFlags, junk.2)}
        else 0 := by
  unfold lazyFragments
  rw [lazyAt_append]
  congr 1
  · by_cases hpos : i > 0
    · rw [if_pos hpos, lazyAt_singleton]
      rfl
    · rw [if_neg hpos, if_neg]
      · rfl
      · have hzero : i = 0 := by omega
        rw [hzero]
        omega
  · by_cases hmore : i + 1 < e.count
    · have hstart : wrap (e.start + (i + 1) * pageSize) = e.start + (i + 1) * pageSize := by
        have hlt : (i + 1) * pageSize ≤ e.count * pageSize := Nat.mul_le_mul_right pageSize hmore.le
        exact wrap_of_lt (by omega)
      have hsum : e.start + (i + 1) * pageSize + (e.count - i - 1) * pageSize = e.start + e.count * pageSize := by
        unfold pageSize
        omega
      have hcovers : VirtPage.Covers ⟨e.start + (i + 1) * pageSize, e.count - i - 1, e.pteFlags⟩ x ↔
          e.start + (i + 1) * pageSize ≤ x ∧ x < e.start + e.count * pageSize := by
        unfold VirtPage.Covers
        dsimp only
        rw [hsum]
      rw [if_pos hmore, hstart, lazyAt_singleton]
      exact if_congr hcovers rfl rfl
    · rw [if_neg hmore, if_neg]
      · rfl
      · have hlast : i + 1 = e.count := by omega
        rw [hlast]
        omega

theorem lazyAt_fragments_of_flags (hend : e.start + e.count * pageSize < 2 ^ 64) (hi : i < e.count)
    (hleft : 0 < i → junk.1 = e.flags) (hright : i + 1 < e.count → junk.2 = e.flags) (x : ℕ) :
    lazyAt (lazyFragments junk e i) x =
      if e.start + i * pageSize ≤ x ∧ x < e.start + (i + 1) * pageSize then 0 else lazyAt [e] x := by
  have hle : (i + 1) * pageSize ≤ e.count * pageSize := Nat.mul_le_mul_right pageSize hi
  have hsucc : (i + 1) * pageSize = i * pageSize + pageSize := Nat.succ_mul i pageSize
  rw [lazyAt_lazyFragments hend hi, lazyAt_singleton]
  by_cases hlow : e.start ≤ x ∧ x < e.start + i * pageSize
  · have hpos : 0 < i := by
      by_contra hzero
      rw [Nat.eq_zero_of_not_pos hzero, Nat.zero_mul] at hlow
      omega
    have hcovers : e.Covers x := ⟨hlow.1, by omega⟩
    rw [if_pos hlow, if_neg (by omega), if_neg (by omega), if_pos hcovers, hleft hpos]
    rfl
  · by_cases hhigh : e.start + (i + 1) * pageSize ≤ x ∧ x < e.start + e.count * pageSize
    · have hmore : i + 1 < e.count := by
        by_contra hlast
        have heq : i + 1 = e.count := by omega
        rw [heq] at hhigh
        omega
      have hcovers : e.Covers x := ⟨by omega, hhigh.2⟩
      rw [if_neg hlow, if_pos hhigh, if_neg (by omega), if_pos hcovers, hright hmore]
      rfl
    · rw [if_neg hlow, if_neg hhigh]
      split_ifs with hpage hcovers
      · rfl
      · unfold VirtPage.Covers at hcovers
        omega
      · rfl

theorem covers_of_found (h : e.Below (2 ^ 64)) :
    (address ≥ e.start ∧ address < e.stop) ↔ e.Covers address ∧ e.start + e.count * pageSize < 2 ^ 64 := by
  have hend := h.stop_cases
  unfold VirtPage.Covers
  omega

theorem lazyTryallocQueue_of_not_found (hq : ∀ e ∈ queue, e.Below (2 ^ 64))
    (hnone : address = 0 ∨ ∀ e ∈ queue, e.Covers address → e.start + e.count * pageSize = 2 ^ 64) :
    lazyTryallocQueue junk queue address = queue := by
  unfold lazyTryallocQueue
  split_ifs with hzero
  · rfl
  have hidx : (queue.findIdx? fun e => decide (address ≥ e.start ∧ address < e.stop)) = none := by
    apply findIdx?_eq_none_iff.mpr
    intro e he
    rw [decide_eq_false_iff_not, covers_of_found (hq e he)]
    rintro ⟨hcovers, hend⟩
    exact hend.ne (hnone.resolve_left hzero e he hcovers)
  rw [hidx]

/-- When an entry is found, the queue says of other addresses what the other entries and the fragments say. -/
theorem lazyTryallocQueue_of_found (junk : BitVec 64 × BitVec 64) (hq : ∀ e ∈ queue, e.Below (2 ^ 64))
    (hdisjoint : LazyDisjoint queue) (hne : address ≠ 0) (he : e ∈ queue) (hcovers : e.Covers address)
    (hend : e.start + e.count * pageSize < 2 ^ 64) :
    ∃ rest, (∀ x, lazyAt queue x = lazyAt [e] x + lazyAt rest x) ∧
      ∀ x, lazyAt (lazyTryallocQueue junk queue address) x =
        lazyAt rest x + lazyAt (lazyFragments junk e ((address - e.start) / pageSize)) x := by
  unfold lazyTryallocQueue
  rw [if_neg hne]
  cases hidx : queue.findIdx? fun e => decide (address ≥ e.start ∧ address < e.stop) with
  | none =>
    have hnot := findIdx?_eq_none_iff.mp hidx e he
    rw [decide_eq_false_iff_not, covers_of_found (hq e he)] at hnot
    exact absurd ⟨hcovers, hend⟩ hnot
  | some k =>
    obtain ⟨hlt, hfound, -⟩ := findIdx?_eq_some_iff_getElem.mp hidx
    rw [decide_eq_true_eq, covers_of_found (hq _ (getElem_mem hlt))] at hfound
    obtain rfl := hdisjoint.eq_of_covers he (getElem_mem hlt) hcovers hfound.1
    refine ⟨queue.eraseIdx k, lazyAt_eraseIdx hlt, fun x => ?_⟩
    dsimp only
    rw [List.getElem?_eq_getElem hlt]
    dsimp only
    rw [eraseIdx_append_of_lt_length hlt, lazyAt_append]

theorem covers_congr (h : e.Below (2 ^ 64)) (hx : x / pageSize = address / pageSize) :
    e.Covers x ↔ e.Covers address := by
  obtain ⟨a, ha⟩ := h.1
  unfold VirtPage.Covers
  unfold pageSize at *
  omega

theorem same_page_iff (h : e.Below (2 ^ 64)) (hcovers : e.Covers address) (x : ℕ) :
    x / pageSize = address / pageSize ↔ e.start + (address - e.start) / pageSize * pageSize ≤ x ∧
      x < e.start + ((address - e.start) / pageSize + 1) * pageSize := by
  obtain ⟨a, ha⟩ := h.1
  unfold VirtPage.Covers at hcovers
  unfold pageSize at *
  omega

theorem rest_eq_zero {rest : List LazyPage} (hdisjoint : LazyDisjoint queue) (he : e ∈ queue)
    (hold : ∀ x, lazyAt queue x = lazyAt [e] x + lazyAt rest x) (hx : e.Covers x) : lazyAt rest x = 0 := by
  have hsum := hold x
  rw [hdisjoint.at_eq he hx, lazyAt_singleton, if_pos hx] at hsum
  exact left_eq_add.mp hsum

theorem faultsExactly_iff (hq : ∀ e ∈ queue, e.Below (2 ^ 64)) (hdisjoint : LazyDisjoint queue) :
    FaultsExactly junk queue address ↔ FaultFits junk queue address := by
  constructor
  · intro hremoves e he hcovers
    have hsays : lazyAt queue address ≠ 0 := fun hzero => lazyAt_eq_zero_iff.mp hzero e he hcovers
    have hchanged : lazyTryallocQueue junk queue address ≠ queue := by
      intro hsame
      have hgone := hremoves.gone address rfl
      rw [hsame] at hgone
      exact hsays hgone
    have hne : address ≠ 0 := fun hzero => hchanged (lazyTryallocQueue_of_not_found hq (.inl hzero))
    have hend : e.start + e.count * pageSize < 2 ^ 64 := by
      by_contra hwrap
      apply hchanged
      apply lazyTryallocQueue_of_not_found hq
      right
      intro e' he' hcovers'
      obtain rfl := hdisjoint.eq_of_covers he he' hcovers hcovers'
      exact ((hq e he).stop_cases.resolve_right fun hlt => hwrap hlt.1).1
    obtain ⟨rest, hold, hnew⟩ := lazyTryallocQueue_of_found junk hq hdisjoint hne he hcovers hend
    have hpage := same_page_iff (hq e he) hcovers
    have hi : (address - e.start) / pageSize < e.count := by
      unfold VirtPage.Covers at hcovers
      unfold pageSize at *
      omega
    generalize (address - e.start) / pageSize = i at hnew hpage hi ⊢
    have hfrags : ∀ x, e.Covers x → ¬ x / pageSize = address / pageSize →
        lazyAt (lazyFragments junk e i) x = {e.attrs} := by
      intro x hx hout
      have hkept := hremoves.kept x hout
      rw [hnew, rest_eq_zero hdisjoint he hold hx, zero_add, hdisjoint.at_eq he hx] at hkept
      exact hkept
    refine ⟨hne, hend, fun hpos => ?_, fun hmore => ?_⟩
    · have hcount : 1 * pageSize ≤ i * pageSize := Nat.mul_le_mul_right pageSize hpos
      have hle : i * pageSize < e.count * pageSize := Nat.mul_lt_mul_of_pos_right hi (by decide)
      have hfirst := hfrags e.start ⟨le_rfl, by omega⟩ (by rw [hpage]; unfold pageSize at *; omega)
      have hpast : ¬ (e.start + (i + 1) * pageSize ≤ e.start) := by
        unfold pageSize
        omega
      rw [lazyAt_lazyFragments hend hi, if_pos (by unfold pageSize at *; omega), if_neg fun h => hpast h.1,
        add_zero] at hfirst
      exact (Prod.mk.inj (Multiset.singleton_inj.mp hfirst)).2
    · have hlt : (i + 1) * pageSize < e.count * pageSize := Nat.mul_lt_mul_of_pos_right hmore (by decide)
      have hlast := hfrags (e.start + (i + 1) * pageSize) ⟨by omega, by omega⟩ (by rw [hpage]; omega)
      have hpast : ¬ (e.start + (i + 1) * pageSize < e.start + i * pageSize) := by
        unfold pageSize
        omega
      rw [lazyAt_lazyFragments hend hi, if_neg fun h => hpast h.2, if_pos (by omega), zero_add] at hlast
      exact (Prod.mk.inj (Multiset.singleton_inj.mp hlast)).2
  · intro hfits
    by_cases hheld : ∃ e ∈ queue, e.Covers address
    · obtain ⟨e, he, hcovers⟩ := hheld
      obtain ⟨hne, hend, hleft, hright⟩ := hfits e he hcovers
      obtain ⟨rest, hold, hnew⟩ := lazyTryallocQueue_of_found junk hq hdisjoint hne he hcovers hend
      have hpage := same_page_iff (hq e he) hcovers
      have hi : (address - e.start) / pageSize < e.count := by
        unfold VirtPage.Covers at hcovers
        unfold pageSize at *
        omega
      generalize (address - e.start) / pageSize = i at hnew hpage hi hleft hright
      have hfrags := lazyAt_fragments_of_flags hend hi hleft hright
      have hinside : ∀ x, x / pageSize = address / pageSize → e.Covers x :=
        fun x hx => (covers_congr (hq e he) hx).mpr hcovers
      have hat : ∀ x, lazyAt (lazyTryallocQueue junk queue address) x =
          if x / pageSize = address / pageSize then 0 else lazyAt queue x := by
        intro x
        rw [hnew, hfrags]
        by_cases hx : x / pageSize = address / pageSize
        · rw [if_pos ((hpage x).mp hx), if_pos hx, rest_eq_zero hdisjoint he hold (hinside x hx), add_zero]
        · rw [if_neg fun hin => hx ((hpage x).mpr hin), if_neg hx, hold, add_comm]
      refine ⟨fun x hx => ?_, fun x hx => ?_, fun x => ?_⟩
      · rw [hat, if_pos hx]
      · rw [hat, if_neg hx]
      · rw [hat]
        split_ifs
        · exact Nat.zero_le _
        · exact hdisjoint x
    · have hsame : lazyTryallocQueue junk queue address = queue :=
        lazyTryallocQueue_of_not_found hq (.inr fun e he hcovers => absurd ⟨e, he, hcovers⟩ hheld)
      unfold FaultsExactly
      rw [hsame]
      refine ⟨fun x hx => ?_, fun x _ => rfl, hdisjoint⟩
      rw [lazyAt_eq_zero_iff]
      intro e he hcovers
      exact hheld ⟨e, he, (covers_congr (hq e he) hx).mp hcovers⟩

end Fault

/-- When the two edits of the queue are exact: `unmap_virtual_page` when no sum wraps around, and `lazy_tryalloc`
when the memory of its fragments holds the flags already. -/
theorem lazy_queue_exact {queue : List LazyPage} (hq : ∀ e ∈ queue, e.Below (2 ^ 64))
    (hdisjoint : LazyDisjoint queue) :
    (∀ vaddr length, pageSize ∣ vaddr → pageSize ∣ length → vaddr < 2 ^ 64 → length < 2 ^ 64 →
      (UnmapsExactly queue vaddr length ↔ UnmapFits queue vaddr length)) ∧
    ∀ junk address, FaultsExactly junk queue address ↔ FaultFits junk queue address :=
  ⟨fun _ _ hvaddr hlength hv hl => unmapsExactly_iff hq hdisjoint hvaddr hlength hv hl,
    fun _ _ => faultsExactly_iff hq hdisjoint⟩

def threeLazy : List LazyPage := [{ start := 0x10000, count := 3, pteFlags := 0x7, flags := 0x22 }]

theorem below_threeLazy : ∀ e ∈ threeLazy, e.Below (2 ^ 64) := by
  intro e he
  obtain rfl := List.mem_singleton.mp he
  exact ⟨by decide, by decide⟩

theorem lazyDisjoint_threeLazy : LazyDisjoint threeLazy := by
  intro x
  unfold threeLazy
  rw [lazyAt_singleton]
  split_ifs <;> simp

theorem lazy_queue_exact_threeLazy : UnmapsExactly threeLazy 0x11000 0x1000 := by
  apply ((lazy_queue_exact below_threeLazy lazyDisjoint_threeLazy).1 0x11000 0x1000 (by decide) (by decide)
    (by norm_num) (by norm_num)).mpr
  intro e he _
  obtain rfl := List.mem_singleton.mp he
  exact ⟨by norm_num, by decide⟩

/-- A fault in the middle leaves two ranges with the flags that `malloc` returns, here 0. -/
theorem lazy_fault_loses_flags :
    lazyAt threeLazy 0x10000 = {(0x7, 0x22)} ∧
      lazyAt (lazyTryallocQueue (0, 0) threeLazy 0x11000) 0x10000 = {(0x7, 0)} ∧
      ¬ FaultsExactly (0, 0) threeLazy 0x11000 := by
  have hbefore : lazyAt threeLazy 0x10000 = {(0x7, 0x22)} := by decide
  have hafter : lazyAt (lazyTryallocQueue (0, 0) threeLazy 0x11000) 0x10000 = {(0x7, 0)} := by decide
  refine ⟨hbefore, hafter, fun h => ?_⟩
  have hkept := h.kept 0x10000 (by decide)
  rw [hbefore, hafter] at hkept
  have hflags := (Prod.mk.inj (Multiset.singleton_inj.mp hkept)).2
  revert hflags
  decide

end CoolPotOS
