import CoolPotOS.Mem.UserAgree

namespace CoolPotOS

def accessFlag (store : Bool) : BitVec 64 := if store then vmaWriteFlag else vmaRead

/-- What `validate_user_range` tests at an address. -/
def UserSpace.Copyable (s : UserSpace) (required : BitVec 64) (x : ℕ) : Prop :=
  (∃ f, s.mgr.flagsAt x = some f ∧ f &&& required = required) ∧ s.virtToPhys x ≠ 0

section Copies

variable {kernel : PageEntries} {s : UserSpace} {ps : List (ℕ × Vma)} {x y addr size : ℕ}
  {required : BitVec 64}

theorem AccessInv.virtToPhys_ne_zero_iff (h : AccessInv kernel s ps) (hx : x < userHalf) :
    s.virtToPhys x ≠ 0 ↔ s.Present (x / pageSize) := by
  have hi : x / pageSize < userPages := by
    unfold userHalf at hx
    unfold userPages pageSize
    omega
  have hlimit : userHalf < 2 ^ 48 := by decide
  unfold UserSpace.virtToPhys UserSpace.Present
  rw [pageIndex_of_lt (by omega)]
  cases hp : s.pages (x / pageSize) with
  | none => simp
  | some e =>
    obtain ⟨frame, flags⟩ := e
    dsimp only
    constructor
    · intro hne
      split_ifs at hne with hpresent
      · exact ⟨frame, flags, rfl, hpresent⟩
      · exact absurd rfl hne
    · rintro ⟨_, _, heq, hpresent⟩
      cases heq
      obtain ⟨hframe, -⟩ := h.present _ hi _ hp hpresent
      dsimp only at hframe
      rw [if_pos hpresent]
      omega

theorem AccessInv.copyable_congr (h : AccessInv kernel s ps) (hxy : x / pageSize = y / pageSize)
    (hx : s.Copyable required x) : s.Copyable required y := by
  obtain ⟨⟨f, hf, hreq⟩, hphys⟩ := hx
  have hf' : s.mgr.flagsAt y = some f := by
    rw [← hf]
    exact h.paged.flagsAt_congr hxy.symm
  refine ⟨⟨f, hf', hreq⟩, ?_⟩
  rw [h.virtToPhys_ne_zero_iff (h.lt_userHalf hf), hxy] at hphys
  exact (h.virtToPhys_ne_zero_iff (h.lt_userHalf hf')).mpr hphys

theorem paddingUp_succ {n : ℕ} (hn : n + pageSize < 2 ^ 64) : paddingUp (n + 1) = (n / pageSize + 1) * pageSize := by
  unfold paddingUp paddingDown pageSize at *
  rw [wrap_of_lt (by omega)]
  omega

theorem AccessInv.validateWalk_iff (h : AccessInv kernel s ps) (required : BitVec 64) {stop fuel cursor : ℕ}
    (hstop : stop ≤ kernelAreaMem) (hfuel : stop - cursor ≤ fuel) : ∃ ok, s.validateWalk required stop fuel cursor = some ok ∧
      (ok = true ↔ ∀ x, cursor ≤ x → x < stop → s.Copyable required x) := by
  induction fuel generalizing cursor with
  | zero => exact ⟨true, if_neg (by omega), iff_of_true rfl fun x h1 h2 => by omega⟩
  | succ fuel ih =>
    rw [UserSpace.validateWalk]
    by_cases hlt : cursor < stop
    swap
    · exact ⟨true, if_neg hlt, iff_of_true rfl fun x h1 h2 => by omega⟩
    rw [if_pos hlt]
    have hrefused : ¬s.Copyable required cursor →
        ((false = true) ↔ ∀ x, cursor ≤ x → x < stop → s.Copyable required x) :=
      fun hnot => iff_of_false Bool.false_ne_true fun hall => hnot (hall cursor le_rfl hlt)
    obtain ⟨hnone, hfree⟩ | ⟨l1, p, v, l2, hfind, rfl, hv⟩ := h.paged.find_cases cursor
    · refine ⟨false, by rw [hnone]; rfl, hrefused fun ⟨⟨f, hf, _⟩, _⟩ => ?_⟩
      obtain ⟨v, hv, hx⟩ := h.paged.toInv.covered_iff.mpr ⟨f, hf⟩
      exact hfree v hv hx
    have hf : s.mgr.flagsAt cursor = some v.vmFlags := by
      rw [h.paged.flagsAt_eq]
      exact h.paged.ok.flagsOf_of_mem (by simp) hv
    simp only [hfind, h.paged.linked.get, Option.bind_eq_bind, Option.bind_some]
    by_cases hreq : v.vmFlags &&& required = required
    swap
    · refine ⟨false, if_pos hreq, hrefused fun ⟨⟨f, hf', hreq'⟩, _⟩ => ?_⟩
      cases hf.symm.trans hf'
      exact hreq hreq'
    by_cases hphys : s.virtToPhys cursor = 0
    · exact ⟨false, by rw [if_neg (not_not.mpr hreq), if_pos hphys]; rfl, hrefused fun hx => hx.2 hphys⟩
    rw [if_neg (not_not.mpr hreq), if_neg hphys]
    have hnext : paddingUp (cursor + 1) = (cursor / pageSize + 1) * pageSize := by
      apply paddingUp_succ
      unfold kernelAreaMem at hstop
      unfold pageSize
      omega
    have hpos : cursor < (cursor / pageSize + 1) * pageSize := by
      unfold pageSize
      omega
    rw [hnext]
    obtain ⟨ok, hok, hiff⟩ :=  ih (show stop - min stop ((cursor / pageSize + 1) * pageSize) ≤ fuel by omega)
    refine ⟨ok, hok, hiff.trans ⟨fun hall x h1 h2 => ?_, fun hall x h1 h2 => hall x (by omega) h2⟩⟩
    by_cases hx : x < (cursor / pageSize + 1) * pageSize
    · -- the page that has been tested
      refine h.copyable_congr (x := cursor) ?_ ⟨⟨_, hf, hreq⟩, hphys⟩
      unfold pageSize at hx ⊢
      omega
    · exact hall x (by omega) h2

theorem AccessInv.canAccess_iff (h : AccessInv kernel s ps) (store : Bool) (hx : ¬Queued s.virtQueue x) :
    s.CanAccess store x ↔ s.Allows store x := by
  refine ⟨fun haccess => ?_, .allowed⟩
  cases haccess with
  | allowed hallows => exact hallows
  | fault _ _ hfault _ =>
    obtain ⟨hnone, -⟩ | ⟨s', e, -, he, hcovers, -⟩ := UserSpace.lazyTryalloc_cases h.queue x _
    · cases hnone.symm.trans hfault
    · exact absurd ⟨e, he, hcovers⟩ hx

theorem Fits.allows {pte vm : BitVec 64} (h : Fits pte vm) (store : Bool) :
    (store = true → hasFlag pte pteWriteable = true) ↔ vm &&& accessFlag store = accessFlag store := by
  cases store with
  | false =>
    refine iff_of_true (fun hnot => absurd hnot Bool.false_ne_true) ?_
    exact (and_eq_iff_hasFlag vm (k := 0) (by decide)).mpr h.read
  | true =>
    rw [h.write]
    refine (forall_prop_of_true rfl).trans ?_
    exact (and_eq_iff_hasFlag vm (k := 1) (by decide)).symm

theorem AccessInv.allows_iff (h : AccessInv kernel s ps) (store : Bool) :
    s.Allows store x ↔ s.Copyable (accessFlag store) x := by
  have hlimit : userHalf < 2 ^ 48 := by decide
  have hpage : ∀ f, s.mgr.flagsAt x = some f → x / pageSize < userPages ∧ pageIndex x = x / pageSize ∧
      s.mgr.flagsAt (x / pageSize * pageSize) = some f := by
    intro f hf
    have hx := h.lt_userHalf hf
    refine ⟨?_, pageIndex_of_lt (by omega), ?_⟩
    · unfold userHalf at hx
      unfold userPages pageSize
      omega
    · rw [← hf]
      exact h.paged.flagsAt_congr (Nat.mul_div_cancel _ (by decide))
  constructor
  · rintro ⟨hx, e, he, hpresent, -, hwrite⟩
    have hidx : pageIndex x = x / pageSize := pageIndex_of_lt (by omega)
    have hi : x / pageSize < userPages := by
      unfold userHalf at hx
      unfold userPages pageSize
      omega
    rw [hidx] at he
    obtain ⟨hframe, f, hf, hfits⟩ := h.present _ hi e he hpresent
    refine ⟨⟨f, ?_, (hfits.allows store).mp hwrite⟩, (h.virtToPhys_ne_zero_iff hx).mpr ⟨e.1, e.2, he, hpresent⟩⟩
    rw [← hf]
    exact h.paged.flagsAt_congr (Nat.mul_div_cancel _ (by decide)).symm
  · rintro ⟨⟨f, hf, hreq⟩, hphys⟩
    have hx := h.lt_userHalf hf
    obtain ⟨hi, hidx, hf'⟩ := hpage f hf
    obtain ⟨frame, pte, he, hpresent⟩ := (h.virtToPhys_ne_zero_iff hx).mp hphys
    obtain ⟨-, f1, hf1, hfits⟩ := h.present _ hi _ he hpresent
    obtain rfl : f1 = f := Option.some.inj (hf1.symm.trans hf')
    refine ⟨hx, (frame, pte), ?_, hpresent, hfits.user, (hfits.allows store).mpr hreq⟩
    rw [hidx]
    exact he

theorem AccessInv.validate_iff (h : AccessInv kernel s ps) (store : Bool) (hwrap : addr + size < 2 ^ 64)
    (hsize : size ≠ 0) (hq : ∀ x, addr ≤ x → x < addr + size → ¬Queued s.virtQueue x) :
    ∃ ok, s.validateUserRange addr size (accessFlag store) = some ok ∧
      (ok = true ↔ ∀ x, addr ≤ x → x < addr + size → s.CanAccess store x) := by
  have haccess : ∀ x, addr ≤ x → x < addr + size → (s.CanAccess store x ↔ s.Copyable (accessFlag store) x) :=
    fun x h1 h2 => (h.canAccess_iff store (hq x h1 h2)).trans (h.allows_iff store)
  unfold UserSpace.validateUserRange
  by_cases hover : checkUserOverflow addr size = true
  · -- the last byte is above the lower half
    refine ⟨false, if_pos hover, iff_of_false Bool.false_ne_true fun hall => ?_⟩
    unfold checkUserOverflow at hover
    rw [decide_eq_true_eq, wrap_of_lt hwrap] at hover
    have hlast := (haccess (addr + size - 1) (by omega) (by omega)).mp (hall _ (by omega) (by omega))
    obtain ⟨⟨f, hf, -⟩, -⟩ := hlast
    have hlt := h.lt_userHalf hf
    unfold userHalf at hlt
    unfold kernelAreaMem at hover
    omega
  · rw [if_neg hover]
    unfold checkUserOverflow at hover
    rw [decide_eq_true_eq, not_lt, wrap_of_lt hwrap] at hover
    rw [wrap_of_lt hwrap]
    obtain ⟨ok, hok, hiff⟩ := h.validateWalk_iff (accessFlag store) hover le_rfl
    refine ⟨ok, hok, hiff.trans ?_⟩
    exact forall_congr' fun x => forall_congr' fun h1 => forall_congr' fun h2 => (haccess x h1 h2).symm

theorem AccessInv.copiesAsUser (h : AccessInv kernel s ps) (hwrap : addr + size < 2 ^ 64)
    (hq : ∀ x, addr ≤ x → x < addr + size → ¬Queued s.virtQueue x) : s.CopiesAsUser addr size := by
  constructor
  · rintro mem src rfl
    unfold UserSpace.copyToUser
    by_cases hsize : src.length = 0
    · rw [if_pos hsize]
      exact ⟨mem, true, rfl, iff_of_true rfl fun x h1 h2 => by omega, nofun⟩
    rw [if_neg hsize]
    obtain ⟨ok, hok, hiff⟩ := h.validate_iff true hwrap hsize hq
    rw [show s.validateUserRange addr src.length vmaWriteFlag = some ok from hok]
    cases ok with
    | true => exact ⟨_, true, rfl, hiff, nofun⟩
    | false => exact ⟨mem, false, rfl, hiff, fun _ => rfl⟩
  · rintro mem dst rfl
    unfold UserSpace.copyFromUser
    by_cases hsize : dst.length = 0
    · rw [if_pos hsize]
      exact ⟨dst, true, rfl, iff_of_true rfl fun x h1 h2 => by omega, nofun⟩
    rw [if_neg hsize]
    obtain ⟨ok, hok, hiff⟩ := h.validate_iff false hwrap hsize hq
    rw [show s.validateUserRange addr dst.length vmaRead = some ok from hok]
    cases ok with
    | true => exact ⟨_, true, rfl, hiff, nofun⟩
    | false => exact ⟨dst, false, rfl, hiff, fun _ => rfl⟩

theorem AccessInv.step (h : AccessInv kernel s ps) {call : AccessCall} (hok : call.Agrees s) :
    ∃ s' ps', s.accessStep call = some s' ∧ AccessInv kernel s' ps' := by
  cases call with
  | mmap addr length prot flags fd offset fdOpen mapped file => exact h.mmap mapped hok.1 hok.2.1 hok.2.2
  | munmap addr size => exact h.munmap hok
  | mprotect addr length prot files frames tabled => exact h.mprotect tabled hok
  | fault address phys => exact ⟨_, ps, rfl, h.fault address hok⟩

end Copies

/-- In a run from an empty space whose calls meet the condition, copies agree with user accesses for every
range that does not wrap around and of which no page waits for its first access. -/
theorem copies_as_user (heap : ℕ → Bool) (pages : PageEntries) (hempty : ∀ i < userPages, pages i = none)
    (calls : List AccessCall)
    (hcalls : Runs.Meets UserSpace.accessStep AccessCall.Agrees calls (.empty heap pages)) :
    ∀ done, done <+: calls → ∃ s, Runs.run UserSpace.accessStep done (.empty heap pages) = some s ∧
      ∀ addr size, addr + size < 2 ^ 64 → (∀ x, addr ≤ x → x < addr + size → ¬Queued s.virtQueue x) →
        s.CopiesAsUser addr size := by
  have hinit : ∃ ps, AccessInv pages (.empty heap pages) ps := by
    refine ⟨[], ⟨⟨inv_empty heap, nofun⟩, fun x hx => absurd hx covered_nil, nofun, fun _ _ => rfl⟩,
      fun i hi e he => ?_, nofun⟩
    cases (hempty i hi).symm.trans he
  have hstep : ∀ s call, (∃ ps, AccessInv pages s ps) → call.Agrees s →
      ∃ s', s.accessStep call = some s' ∧ ∃ ps, AccessInv pages s' ps := by
    rintro s call ⟨ps, h⟩ hok
    obtain ⟨s', ps', hs', h'⟩ := h.step hok
    exact ⟨s', hs', ps', h'⟩
  intro done hdone
  obtain ⟨s, hrun, ps, hinv⟩ := Runs.run_total hstep hinit (hcalls.of_isPrefix hdone)
  exact ⟨s, hrun, fun addr size hwrap hq => hinv.copiesAsUser hwrap hq⟩

/-- A page that can be read and written, at `0x10000`. -/
def mapWritable : AccessCall :=
  .mmap 0x10000 0x1000 (protRead ||| protWrite) mapAnonymous (-1) 0 false 0 []

theorem mapWritable_agrees (heap : ℕ → Bool) (pages : PageEntries) :
    mapWritable.Agrees (.empty heap pages) := by
  refine ⟨fun _ _ => ?_, fun hfixed => ?_, fun _ => Or.inr (by decide), fun hfile => ?_, fun hfixed => ?_⟩
  · rw [if_neg (by decide), if_pos (by decide)]
    exact fun _ _ => by decide
  · exact absurd hfixed (by decide)
  · exact absurd hfile (by decide)
  · exact absurd hfixed (by decide)

/-- After its first access the page can be copied to. -/
theorem copies_as_user_mapWritable : ∃ s,
    Runs.run UserSpace.accessStep [mapWritable, .fault 0x10800 0x5000] (.empty (fun _ => true) fun _ => none) =
      some s ∧ s.CopiesAsUser 0x10000 0x1000 := by
  have hcalls : Runs.Meets UserSpace.accessStep AccessCall.Agrees [mapWritable, .fault 0x10800 0x5000]
      (.empty (fun _ => true) fun _ => none) :=
    ⟨mapWritable_agrees _ _, fun _ _ => ⟨(by decide : (0x5000 : ℕ) ≠ 0), fun _ _ => trivial⟩⟩
  obtain ⟨s, hrun, hcopies⟩ := copies_as_user (fun _ => true) (fun _ => none) (fun _ _ => rfl) _ hcalls _
    List.prefix_rfl
  have hqueue : (Runs.run UserSpace.accessStep [mapWritable, .fault 0x10800 0x5000]
      (.empty (fun _ => true) fun _ => none)).map UserSpace.virtQueue = some [] := by
    decide
  rw [hrun, Option.map_some, Option.some.injEq] at hqueue
  refine ⟨s, hrun, hcopies _ _ (by decide) fun x _ _ hx => ?_⟩
  rw [hqueue] at hx
  obtain ⟨e, he, -⟩ := hx
  cases he

/-- Before its first access a user store to the page succeeds, and a copy to it fails. -/
theorem copies_not_as_user : ∃ s,
    Runs.run UserSpace.accessStep [mapWritable] (.empty (fun _ => true) fun _ => none) = some s ∧
      ¬s.CopiesAsUser 0x10000 1 := by
  have hcopy : (Runs.run UserSpace.accessStep [mapWritable] (.empty (fun _ => true) fun _ => none)).bind (fun s =>
      (s.copyToUser (fun _ => 0) 0x10000 [7]).map Prod.snd) = some false := by
    decide
  have hfault : (Runs.run UserSpace.accessStep [mapWritable] (.empty (fun _ => true) fun _ => none)).bind (fun s =>
      (s.lazyTryalloc 0x10000 0x5000).map fun s' => s'.pages (pageIndex 0x10000)) =
        some (some (0x5000, 0x8000000000000007)) := by
    decide
  obtain ⟨s, hrun, hcopy⟩ := Option.bind_eq_some_iff.mp hcopy
  rw [hrun, Option.bind_some] at hfault
  obtain ⟨s', hs', hentry⟩ := Option.map_eq_some_iff.mp hfault
  have hallows : s'.Allows true 0x10000 :=
    ⟨by decide, _, hentry, by decide, by decide, fun _ => by decide⟩
  have haccess : s.CanAccess true 0x10000 := by
    by_cases h : s.Allows true 0x10000
    · exact .allowed h
    · exact .fault h (by decide) hs' (.allowed hallows)
  refine ⟨s, hrun, fun h => ?_⟩
  obtain ⟨mem', ok, hrun', hiff, -⟩ := h.to_user (fun _ => 0) [7] rfl
  rw [hrun', Option.map_some, Option.some.injEq] at hcopy
  have hok : ok = true := hiff.mpr fun x h1 h2 => by
    obtain rfl : x = 0x10000 := by omega
    exact haccess
  cases hcopy.symm.trans hok

end CoolPotOS
