import CoolPotOS.Mem.UserHalf

namespace CoolPotOS

def UserSpace.Present (s : UserSpace) (i : ℕ) : Prop :=
  ∃ frame flags, s.pages i = some (frame, flags) ∧ hasFlag flags ptePresent = true

/-- The condition on the arguments of a call. `mmap` is anonymous, and has the memory to replace areas. A
fixed mapping without access replaces no page that is present. `munmap` has the memory to split an area.
`mremap` cuts off nothing that is present or queued. -/
def UserCall.Clean (s : UserSpace) : UserCall → Prop
  | .mmap addr length prot flags _ _ _ _ _ =>
    let a := paddingDown addr.toNat
    let len := paddingUp length.toNat
    hasFlag flags mapAnonymous = true ∧ FixedMemory s.mgr flags a (a + len) ∧
      (hasFlag flags mapFixed = true → prot = 0 → checkUserOverflow a len = false →
        ∀ i, a ≤ i * pageSize → i * pageSize < a + len → ¬s.Present i)
  | .munmap addr size =>
    let a := paddingDown addr.toNat
    let b := a + paddingUp size.toNat
    ∀ v ∈ s.mgr.areas, v.spans a b →
      a < b ∧ s.mgr.heap s.mgr.mallocs = true ∧ s.mgr.heap (s.mgr.mallocs + 1) = true
  | .mremap oldAddr _ newSize _ =>
    ∀ v ∈ s.mgr.areas, v.vmStart = paddingDown oldAddr.toNat →
      ∀ x, v.vmStart + paddingUp newSize.toNat ≤ x → x < v.vmEnd →
        ¬s.Present (x / pageSize) ∧ ¬Queued s.virtQueue x
  | .fault .. => True

/-- The call replaces or removes what is mapped at the page. -/
def UserCall.Clears (s : UserSpace) (i : ℕ) : UserCall → Prop
  | .mmap addr length prot flags fd offset fdOpen mapped file =>
    hasFlag flags mapFixed = true ∧
      (∃ s' r, s.mmap addr length prot flags fd offset fdOpen mapped file = some (s', .ok r)) ∧
      paddingDown addr.toNat ≤ i * pageSize ∧
      i * pageSize < paddingDown addr.toNat + paddingUp length.toNat
  | .munmap addr size =>
    (size ≠ 0 ∧ ∃ s' r, s.munmap addr size = some (s', .ok r)) ∧
      paddingDown addr.toNat ≤ i * pageSize ∧ i * pageSize < paddingDown addr.toNat + paddingUp size.toNat
  | _ => False

/-- The user pages that are present, and those that a fault can make so, lie in areas. -/
structure NoStale (s : UserSpace) : Prop where
  present : ∀ x < userHalf, s.Present (x / pageSize) → Covered s.mgr.areas x
  queued : ∀ e ∈ s.virtQueue, ∀ x, x ≥ e.start → x < e.stop → Covered s.mgr.areas x

structure StaleInv (kernel : PageEntries) (s : UserSpace) (ps : List (ℕ × Vma)) : Prop
    extends HalfInv kernel s ps where
  present : ∀ x < userHalf, s.Present (x / pageSize) → Covered (ps.map Prod.snd) x
  queued : ∀ x, Queued s.virtQueue x → Covered (ps.map Prod.snd) x

section Stale

variable {kernel : PageEntries} {s s' : UserSpace} {ps ps' : List (ℕ × Vma)} {a b i : ℕ}

theorem StaleInv.noStale (h : StaleInv kernel s ps) : NoStale s := by
  have hareas := h.paged.areas_eq
  constructor
  · rw [hareas]
    exact h.present
  · intro e he x hlow hhigh
    rw [hareas]
    rw [(h.queue e he).stop_eq (by decide)] at hhigh
    exact h.queued x ⟨e, he, hlow, hhigh⟩

theorem UserSpace.Present.congr (h : s'.Present i) (hi : s'.pages i = s.pages i) : s.Present i := by
  unfold UserSpace.Present at h ⊢
  rwa [hi] at h

theorem PagedInv.covered_congr {mgr : VmaManager} (h : PagedInv mgr ps) {x y : ℕ}
    (hxy : x / pageSize = y / pageSize) (hx : Covered (ps.map Prod.snd) x) : Covered (ps.map Prod.snd) y := by
  obtain ⟨v, hv, hvx⟩ := hx
  obtain ⟨hstart, hend⟩ := h.aligned v hv
  refine ⟨v, hv, ?_⟩
  rw [← mem_pages_iff hstart hend] at hvx ⊢
  rw [← hxy]
  exact hvx

theorem StaleInv.removed (h : StaleInv kernel s ps) (hr : RangeRemoved userHalf s ps a b s' ps')
    (hheap : ∀ v ∈ ps.map Prod.snd, v.spans a b →
      a < b ∧ s.mgr.heap s.mgr.mallocs = true ∧ s.mgr.heap (s.mgr.mallocs + 1) = true) :
    StaleInv kernel s' ps' := by
  refine ⟨h.toHalfInv.removed hr, fun x hx hpresent => ?_, fun x hx => ?_⟩
  · have hout : ¬(a ≤ x ∧ x < b) := by
      rw [← mem_pages_iff hr.dvd.1 hr.dvd.2]
      intro hin
      obtain ⟨frame, flags, hsome, -⟩ := hpresent
      rw [hr.pages, if_pos hin] at hsome
      cases hsome
    have hsame : s'.pages (x / pageSize) = s.pages (x / pageSize) := by
      rw [hr.pages, if_neg]
      rw [mem_pages_iff hr.dvd.1 hr.dvd.2]
      exact hout
    exact (hr.same hheap x).mpr ⟨h.present x hx (hpresent.congr hsame), hout⟩
  · obtain ⟨hq, hout⟩ := hr.queue x hx
    exact (hr.same hheap x).mpr ⟨h.queued x hq, hout⟩

theorem StaleInv.added (h : StaleInv kernel s ps) (hb : b ≤ userHalf) (ha : RangeAdded s ps a b s' ps') :
    StaleInv kernel s' ps' := by
  refine ⟨h.toHalfInv.added hb ha, fun x hx hpresent => ?_, fun x hx => ?_⟩
  · by_cases hin : a ≤ x ∧ x < b
    · exact (ha.covered x).mpr (Or.inr hin)
    · have hsame : s'.pages (x / pageSize) = s.pages (x / pageSize) := by
        apply ha.pages
        rw [mem_pages_iff ha.dvd.1 ha.dvd.2]
        exact hin
      exact (ha.covered x).mpr (Or.inl (h.present x hx (hpresent.congr hsame)))
  · rw [ha.queue] at hx
    exact (ha.covered x).mpr (Or.inl (h.queued x hx))

theorem StaleInv.cut (h : StaleInv kernel s ps) (hc : AreaCut s ps a b s' ps')
    (hunused : ∀ x, a ≤ x → x < b → ¬s.Present (x / pageSize) ∧ ¬Queued s.virtQueue x) :
    StaleInv kernel s' ps' := by
  refine ⟨h.toHalfInv.cut hc, fun x hx hpresent => ?_, fun x hx => ?_⟩
  · replace hpresent : s.Present (x / pageSize) := hpresent.congr (congrFun hc.pages _)
    exact (hc.covered x).mpr ⟨h.present x hx hpresent, fun hin => (hunused x hin.1 hin.2).1 hpresent⟩
  · rw [hc.queue] at hx
    exact (hc.covered x).mpr ⟨h.queued x hx, fun hin => (hunused x hin.1 hin.2).2 hx⟩

theorem StaleInv.same (h : StaleInv kernel s ps) (hinv : PagedInv s'.mgr ps')
    (hsub : ∀ x, Covered (ps'.map Prod.snd) x → Covered (ps.map Prod.snd) x)
    (hsup : ∀ x, Covered (ps.map Prod.snd) x → Covered (ps'.map Prod.snd) x) (hpages : s'.pages = s.pages)
    (hqueue : s'.virtQueue = s.virtQueue) : StaleInv kernel s' ps' := by
  refine ⟨h.toHalfInv.same hinv hsub hpages hqueue, fun x hx hpresent => ?_, fun x hx => ?_⟩
  · exact hsup x (h.present x hx (hpresent.congr (congrFun hpages _)))
  · rw [hqueue] at hx
    exact hsup x (h.queued x hx)

theorem StaleInv.mmap (h : StaleInv kernel s ps) {addr length prot flags offset : BitVec 64} {fd : ℤ}
    {fdOpen : Bool} {mapped : ℕ} {file : List (ℕ × BitVec 64)}
    (hbelow : MmapBelow userHalf s.mgr addr length flags fdOpen)
    (hclean : (UserCall.mmap addr length prot flags fd offset fdOpen mapped file).Clean s) :
    ∃ s' r ps', s.mmap addr length prot flags fd offset fdOpen mapped file = some (s', r) ∧
      StaleInv kernel s' ps' ∧ (hasFlag flags mapFixed = true → (∃ c, r = .ok c) →
        ∀ i, paddingDown addr.toNat ≤ i * pageSize →
          i * pageSize < paddingDown addr.toNat + paddingUp length.toNat → ¬s'.Present i) := by
  obtain ⟨hanon, hmem, hnone⟩ := hclean
  obtain ⟨s', r, ps', hrun, hinv, hcases⟩ :=
    h.paged.mmap_cases (by decide) h.queue prot offset fd mapped file hbelow
  refine ⟨s', r, ps', hrun, ?_⟩
  obtain ⟨⟨e, rfl⟩, hpages, hqueue, hfailed⟩ | ⟨b, hplace, hfixed, hdone, hmapped⟩ := hcases
  · refine ⟨h.same hinv hfailed.sub (hfailed.same hanon hmem) hpages hqueue, fun _ hok => ?_⟩
    obtain ⟨c, hc⟩ := hok
    cases hc
  have hmem' : FixedMemory s.mgr flags b (b + paddingUp length.toNat) := by
    intro hf
    rw [hfixed hf]
    exact hmem hf
  have hlen : pageSize ∣ paddingUp length.toNat := Nat.dvd_mul_left _ _
  refine ⟨⟨h.toHalfInv.mapped hinv hdone hmapped, fun x hx hpresent => ?_, fun x hx => ?_⟩, ?_⟩
  · by_cases hin : b ≤ x ∧ x < b + paddingUp length.toNat
    · exact hdone.range x hin.1 hin.2
    · have hsame : s'.pages (x / pageSize) = s.pages (x / pageSize) := by
        apply hmapped.pages
        rw [mem_pages_iff hdone.dvd (dvd_add hdone.dvd hlen)]
        exact hin
      exact hdone.same hmem' x hin (h.present x hx (hpresent.congr hsame))
  · by_cases hin : b ≤ x ∧ x < b + paddingUp length.toNat
    · exact hdone.range x hin.1 hin.2
    · exact hdone.same hmem' x hin (h.queued x ((hmapped.queue x hx).resolve_right hin))
  · intro hf hok i hlow hhigh hpresent
    rw [← hfixed hf] at hlow hhigh
    by_cases hprot : prot = 0
    · -- the pages are those from before
      have hover : checkUserOverflow (paddingDown addr.toNat) (paddingUp length.toNat) = false := by
        by_contra hover
        obtain ⟨c, rfl⟩ := hok
        cases mmap_refused (by simpa using hover) hrun
      rw [hfixed hf] at hlow hhigh
      exact hnone hf hprot hover i hlow hhigh
        (hpresent.congr (congrFun (hmapped.kept hanon (Or.inr hprot)) i))
    · obtain ⟨frame, flags, hsome, -⟩ := hpresent
      rw [hmapped.cleared hanon hf hprot i hlow hhigh] at hsome
      cases hsome

theorem StaleInv.munmap (h : StaleInv kernel s ps) {addr size : BitVec 64}
    (hbelow : MunmapBelow userHalf s.mgr addr size) (hclean : (UserCall.munmap addr size).Clean s) :
    ∃ s' r ps', s.munmap addr size = some (s', r) ∧ StaleInv kernel s' ps' ∧
      (size ≠ 0 → (∃ c, r = .ok c) → ∀ i, paddingDown addr.toNat ≤ i * pageSize →
        i * pageSize < paddingDown addr.toNat + paddingUp size.toNat → ¬s'.Present i) := by
  unfold UserCall.Clean at hclean
  rw [h.paged.areas_eq] at hclean
  obtain ⟨s', r, hrun, ⟨rfl, hrefused⟩ | ⟨ps', hremoved⟩⟩ := h.paged.munmap_cases (by decide) h.queue hbelow
  · refine ⟨s', r, ps, hrun, h, fun hsize hok => ?_⟩
    obtain ⟨c, rfl⟩ := hok
    cases hrefused.resolve_left hsize
  · refine ⟨s', r, ps', hrun, h.removed hremoved hclean, fun _ _ i hlow hhigh hpresent => ?_⟩
    obtain ⟨frame, flags, hsome, -⟩ := hpresent
    rw [hremoved.pages, if_pos ⟨hlow, hhigh⟩] at hsome
    cases hsome

theorem StaleInv.mremap (h : StaleInv kernel s ps) {oldAddr oldSize newSize flags : BitVec 64}
    (hbelow : MremapBelow userHalf s.mgr oldAddr oldSize newSize flags)
    (hclean : (UserCall.mremap oldAddr oldSize newSize flags).Clean s) :
    ∃ s' r ps', s.mremap oldAddr oldSize newSize flags = some (s', r) ∧ StaleInv kernel s' ps' := by
  unfold UserCall.Clean at hclean
  rw [h.paged.areas_eq] at hclean
  obtain ⟨s', r, hrun, -, hcases⟩ := h.paged.mremap_cases (by decide) h.queue hbelow
  obtain ⟨hinv, hpages, hqueue⟩ | ⟨v, hv, hstart, ps', hcut⟩ | ⟨a, b, ps', hb, hadded⟩ |
    ⟨a, b, s1, ps1, hb, hadded, rfl | ⟨ps', hremoved, hspans⟩⟩ := hcases
  · exact ⟨s', r, ps, hrun, h.same hinv (fun _ hx => hx) (fun _ hx => hx) hpages hqueue⟩
  · exact ⟨s', r, ps', hrun, h.cut hcut (hclean v hv hstart)⟩
  · exact ⟨s', r, ps', hrun, h.added hb hadded⟩
  · exact ⟨s', r, ps1, hrun, h.added hb hadded⟩
  · exact ⟨s', r, ps', hrun, (h.added hb hadded).removed hremoved fun v hv hs => absurd hs (hspans v hv)⟩

theorem StaleInv.fault (h : StaleInv kernel s ps) (address phys : ℕ) :
    StaleInv kernel (s.pageFault address phys) ps := by
  obtain ⟨-, -, hqueued, hpages⟩ := pageFault_cases (by decide) h.queue address phys
  refine ⟨h.toHalfInv.fault address phys, fun x hx hpresent => ?_, fun x hx => h.queued x (hqueued x hx)⟩
  obtain ⟨y, hy, hq⟩ | hsame := hpages (x / pageSize)
  · exact h.paged.covered_congr hy (h.queued y hq)
  · exact h.present x hx (hpresent.congr hsame)

theorem StaleInv.step (h : StaleInv kernel s ps) {call : UserCall} (hhalf : call.InHalf s)
    (hclean : call.Clean s) :
    ∃ s' ps', s.step call = some s' ∧ StaleInv kernel s' ps' ∧ ∀ i, call.Clears s i → ¬s'.Present i := by
  cases call with
  | mmap addr length prot flags fd offset fdOpen mapped file =>
    obtain ⟨s', r, ps', hrun, hinv, hcleared⟩ := h.mmap hhalf hclean
    refine ⟨s', ps', by rw [UserSpace.step, hrun]; rfl, hinv, ?_⟩
    rintro i ⟨hfixed, ⟨s1, c, hs1⟩, hlow, hhigh⟩
    rw [hrun] at hs1
    cases hs1
    exact hcleared hfixed ⟨c, rfl⟩ i hlow hhigh
  | munmap addr size =>
    obtain ⟨s', r, ps', hrun, hinv, hcleared⟩ := h.munmap hhalf hclean
    refine ⟨s', ps', by rw [UserSpace.step, hrun]; rfl, hinv, ?_⟩
    rintro i ⟨⟨hsize, s1, c, hs1⟩, hlow, hhigh⟩
    rw [hrun] at hs1
    cases hs1
    exact hcleared hsize ⟨c, rfl⟩ i hlow hhigh
  | mremap oldAddr oldSize newSize flags =>
    obtain ⟨s', r, ps', hrun, hinv⟩ := h.mremap hhalf hclean
    exact ⟨s', ps', by rw [UserSpace.step, hrun]; rfl, hinv, fun _ hc => absurd hc id⟩
  | fault address phys =>
    exact ⟨_, ps, rfl, h.fault address phys, fun _ hc => absurd hc id⟩

/-- In a run from an empty space whose calls meet both conditions, every state is free of stale pages, and
no page of a range that was replaced or unmapped is present afterwards. -/
theorem no_stale (heap : ℕ → Bool) (pages : PageEntries) (hempty : ∀ i < userPages, pages i = none)
    (calls : List UserCall)
    (hcalls : Runs.Meets UserSpace.step (fun s call => call.InHalf s ∧ call.Clean s) calls
      (.empty heap pages)) :
    ∀ done, done <+: calls → ∃ s, Runs.run UserSpace.step done (.empty heap pages) = some s ∧ NoStale s ∧
      ∀ call, done ++ [call] <+: calls → ∃ s', s.step call = some s' ∧
        ∀ i, call.Clears s i → ¬s'.Present i := by
  have hstart : ∃ ps, StaleInv pages (.empty heap pages) ps := by
    refine ⟨[], ⟨⟨inv_empty heap, nofun⟩, fun x hx => absurd hx covered_nil, nofun, fun _ _ => rfl⟩,
      fun x hx hpresent => ?_, fun x hx => ?_⟩
    · obtain ⟨frame, flags, hsome, -⟩ := hpresent
      have hi : x / pageSize < userPages := by
        unfold userPages
        unfold userHalf at hx
        unfold pageSize
        omega
      cases (hempty _ hi).symm.trans hsome
    · obtain ⟨e, he, -⟩ := hx
      cases he
  have hstep : ∀ s call, (∃ ps, StaleInv pages s ps) → call.InHalf s ∧ call.Clean s →
      ∃ s', s.step call = some s' ∧ ∃ ps, StaleInv pages s' ps := by
    intro s call h hok
    obtain ⟨ps, h⟩ := h
    obtain ⟨s', ps', hs', h', -⟩ := h.step hok.1 hok.2
    exact ⟨s', hs', ps', h'⟩
  intro done hdone
  obtain ⟨s, hrun, ps, hinv⟩ := Runs.run_total hstep hstart (hcalls.of_isPrefix hdone)
  refine ⟨s, hrun, hinv.noStale, fun call hcall => ?_⟩
  obtain ⟨hhalf, hclean⟩ := (hcalls.of_isPrefix hcall).last hrun
  obtain ⟨s', ps', hs', -, hcleared⟩ := hinv.step hhalf hclean
  exact ⟨s', hs', hcleared⟩

end Stale

theorem twoPages_clean : Runs.Meets UserSpace.step UserCall.Clean twoPages
    (.empty (fun _ => true) fun _ => none) := by
  refine ⟨⟨by decide, ?_, ?_⟩, fun s hs => ⟨trivial, fun s' hs' => ⟨?_, fun _ _ => trivial⟩⟩⟩
  · exact fun hf => absurd hf (by decide)
  · exact fun hf => absurd hf (by decide)
  · have hspans : ∀ v ∈ s'.mgr.areas, ¬v.spans 0x10000 0x11000 := by
      revert s'
      revert s
      decide
    exact fun v hv hs => absurd hs (hspans v hv)

theorem no_stale_twoPages : ∃ s, Runs.run UserSpace.step twoPages (.empty (fun _ => true) fun _ => none) =
    some s ∧ NoStale s := by
  obtain ⟨s, hrun, hkept, -⟩ := no_stale (fun _ => true) (fun _ => none) (fun _ _ => rfl) twoPages
    (twoPages_inHalf.and twoPages_clean) twoPages List.prefix_rfl
  exact ⟨s, hrun, hkept⟩

def usedPages : List UserCall :=
  [.mmap 0x10000 0x2000 (protRead ||| protWrite) mapAnonymous (-1) 0 false 0 [], .fault 0x10800 0x5000,
    .fault 0x11800 0x6000]

def noAccess : UserCall := .mmap 0x10000 0x2000 0 (mapFixed ||| mapAnonymous) (-1) 0 false 0 []

/-- `mremap` to one page leaves the second one, and a fixed mapping without access leaves both. -/
theorem stale_exists :
    (∃ s, Runs.run UserSpace.step (usedPages ++ [.mremap 0x10000 0x2000 0x1000 0])
        (.empty (fun _ => true) fun _ => none) = some s ∧ ¬NoStale s) ∧
    ∃ s s', Runs.run UserSpace.step usedPages (.empty (fun _ => true) fun _ => none) = some s ∧
      s.step noAccess = some s' ∧ noAccess.Clears s 0x10 ∧ s'.Present 0x10 := by
  constructor
  · have hend : (Runs.run UserSpace.step (usedPages ++ [.mremap 0x10000 0x2000 0x1000 0])
        (.empty (fun _ => true) fun _ => none)).map (fun s =>
          (s.pages 0x11, s.mgr.areas.map fun v => (v.vmStart, v.vmEnd))) =
        some (some (0x6000, ptFlagsFromProt (protRead ||| protWrite)), [(0x10000, 0x11000)]) := by
      decide
    obtain ⟨s, hrun, hs⟩ := Option.map_eq_some_iff.mp hend
    obtain ⟨hpage, hareas⟩ := Prod.mk.inj hs
    refine ⟨s, hrun, fun hkept => ?_⟩
    obtain ⟨v, hv, hlow, hhigh⟩ := hkept.present 0x11000 (by decide) ⟨_, _, hpage, by decide⟩
    have hbounds : (v.vmStart, v.vmEnd) ∈ s.mgr.areas.map fun v => (v.vmStart, v.vmEnd) :=
      List.mem_map_of_mem hv
    rw [hareas, List.mem_singleton, Prod.mk.injEq] at hbounds
    omega
  · have hend : ((Runs.run UserSpace.step usedPages (.empty (fun _ => true) fun _ => none)).bind fun s =>
        (s.mmap 0x10000 0x2000 0 (mapFixed ||| mapAnonymous) (-1) 0 false 0 []).map fun r =>
          (r.1.pages 0x10, r.2.toOption)) =
        some (some (0x5000, ptFlagsFromProt (protRead ||| protWrite)), some 0x10000) := by
      decide
    obtain ⟨s, hrun, hs⟩ := Option.bind_eq_some_iff.mp hend
    obtain ⟨⟨s', r⟩, hmmap, hr⟩ := Option.map_eq_some_iff.mp hs
    obtain ⟨hpage, hok⟩ := Prod.mk.inj hr
    cases r with
    | error e => cases hok
    | ok c =>
      refine ⟨s, s', hrun, ?_, ⟨by decide, ⟨s', c, hmmap⟩, by decide, by decide⟩, _, _, hpage, by decide⟩
      rw [noAccess, UserSpace.step, hmmap]
      rfl

end CoolPotOS
