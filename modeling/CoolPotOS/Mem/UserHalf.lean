import CoolPotOS.Mem.UserCalls
import CoolPotOS.Mem.VmaRun
import CoolPotOS.Lib.Runs

namespace CoolPotOS

def userHalf : ℕ := 2 ^ 47

def userPages : ℕ := 2 ^ 35

def UserSpace.empty (heap : ℕ → Bool) (pages : PageEntries) : UserSpace := ⟨.empty heap, pages, []⟩

/-- The accepted ranges of the call end in the lower half, and their areas can be split. -/
def UserCall.InHalf (s : UserSpace) : UserCall → Prop
  | .mmap addr length _ flags _ _ fdOpen _ _ => MmapBelow userHalf s.mgr addr length flags fdOpen
  | .munmap addr size => MunmapBelow userHalf s.mgr addr size
  | .mremap oldAddr oldSize newSize flags => MremapBelow userHalf s.mgr oldAddr oldSize newSize flags
  | .fault .. => True

/-- An end address that the call computes for a range, as a number. -/
def UserCall.Computes (s : UserSpace) (e : ℕ) : UserCall → Prop
  | .mmap addr length prot flags fd offset fdOpen mapped file =>
    (∃ s' r, s.mmap addr length prot flags fd offset fdOpen mapped file = some (s', .ok r)) ∧
      ∃ b, mmapPlace s.mgr (paddingDown addr.toNat) (paddingUp length.toNat) flags = some (some b) ∧
        e = b + paddingUp length.toNat
  | .munmap addr size =>
    (size ≠ 0 ∧ ∃ s' r, s.munmap addr size = some (s', .ok r)) ∧
      e = paddingDown addr.toNat + paddingUp size.toNat
  | .mremap oldAddr oldSize newSize flags =>
    ∃ s' r, s.mremap oldAddr oldSize newSize flags = some (s', .ok r) ∧ e = r + paddingUp newSize.toNat
  | .fault .. => False

/-- The areas end below the kernel, and the entries of the upper half are those of `kernel`. -/
structure HalvesKept (kernel : PageEntries) (s : UserSpace) : Prop where
  areas : ∀ v ∈ s.mgr.areas, v.vmStart < v.vmEnd ∧ v.vmEnd ≤ kernelAreaMem
  pages : ∀ i, userPages ≤ i → s.pages i = kernel i

structure HalfInv (kernel : PageEntries) (s : UserSpace) (ps : List (ℕ × Vma)) : Prop where
  paged : PagedInv s.mgr ps
  below : ∀ x, Covered (ps.map Prod.snd) x → x < userHalf
  queue : QueueBelow userHalf s.virtQueue
  pages : ∀ i, userPages ≤ i → s.pages i = kernel i

section Half

variable {kernel : PageEntries} {s s' : UserSpace} {ps ps' : List (ℕ × Vma)} {a b : ℕ}

theorem HalfInv.halvesKept (h : HalfInv kernel s ps) : HalvesKept kernel s := by
  refine ⟨fun v hv => ?_, h.pages⟩
  rw [h.paged.areas_eq] at hv
  have hne := h.paged.ok.nonempty v hv
  have hlast : v.vmEnd - 1 < userHalf := h.below _ ⟨v, hv, by omega, by omega⟩
  have hle : userHalf ≤ kernelAreaMem := by decide
  exact ⟨hne, by omega⟩

theorem not_mem_of_userPages {i : ℕ} (hi : userPages ≤ i) (hb : b ≤ userHalf) :
    ¬(a ≤ i * pageSize ∧ i * pageSize < b) := by
  unfold userPages at hi
  unfold userHalf at hb
  unfold pageSize
  omega

theorem HalfInv.removed (h : HalfInv kernel s ps) (hr : RangeRemoved userHalf s ps a b s' ps') :
    HalfInv kernel s' ps' := by
  refine ⟨hr.inv, fun x hx => h.below x (hr.sub x hx), hr.below, fun i hi => ?_⟩
  rw [hr.pages i, if_neg (not_mem_of_userPages hi hr.le)]
  exact h.pages i hi

theorem HalfInv.added (h : HalfInv kernel s ps) (hb : b ≤ userHalf) (ha : RangeAdded s ps a b s' ps') :
    HalfInv kernel s' ps' := by
  refine ⟨ha.inv, fun x hx => ?_, ha.queue ▸ h.queue, fun i hi => ?_⟩
  · obtain hx | hx := (ha.covered x).mp hx
    · exact h.below x hx
    · exact hx.2.trans_le hb
  · rw [ha.pages i (not_mem_of_userPages hi hb)]
    exact h.pages i hi

theorem HalfInv.cut (h : HalfInv kernel s ps) (hc : AreaCut s ps a b s' ps') : HalfInv kernel s' ps' := by
  refine ⟨hc.inv, fun x hx => h.below x ((hc.covered x).mp hx).1, hc.queue ▸ h.queue, fun i hi => ?_⟩
  rw [hc.pages]
  exact h.pages i hi

theorem HalfInv.same (h : HalfInv kernel s ps) (hinv : PagedInv s'.mgr ps')
    (hsub : ∀ x, Covered (ps'.map Prod.snd) x → Covered (ps.map Prod.snd) x) (hpages : s'.pages = s.pages)
    (hqueue : s'.virtQueue = s.virtQueue) : HalfInv kernel s' ps' := by
  refine ⟨hinv, fun x hx => h.below x (hsub x hx), hqueue ▸ h.queue, fun i hi => ?_⟩
  rw [hpages]
  exact h.pages i hi

theorem HalfInv.mapped (h : HalfInv kernel s ps) (hinv : PagedInv s'.mgr ps') {prot flags : BitVec 64}
    {len : ℕ} (hdone : MmapDone userHalf s.mgr (ps.map Prod.snd) (ps'.map Prod.snd) flags len b)
    (hmapped : RangeMapped userHalf s prot flags b len s') : HalfInv kernel s' ps' := by
  refine ⟨hinv, fun x hx => ?_, hmapped.below, fun i hi => ?_⟩
  · by_cases hin : b ≤ x ∧ x < b + len
    · exact hin.2.trans_le hdone.le
    · exact h.below x (hdone.sub x hin hx)
  · rw [hmapped.pages i (not_mem_of_userPages hi hdone.le)]
    exact h.pages i hi

theorem HalfInv.mmap (h : HalfInv kernel s ps) {addr length flags : BitVec 64} {fdOpen : Bool}
    (prot offset : BitVec 64) (fd : ℤ) (mapped : ℕ) (file : List (ℕ × BitVec 64))
    (hbelow : MmapBelow userHalf s.mgr addr length flags fdOpen) :
    ∃ s' r ps', s.mmap addr length prot flags fd offset fdOpen mapped file = some (s', r) ∧
      HalfInv kernel s' ps' ∧ ((∃ c, r = .ok c) →
        ∀ b ∈ mmapPlace s.mgr (paddingDown addr.toNat) (paddingUp length.toNat) flags,
          ∀ c ∈ b, c + paddingUp length.toNat < 2 ^ 64) := by
  obtain ⟨s', r, ps', hrun, hinv, hcases⟩ :=
    h.paged.mmap_cases (by decide) h.queue prot offset fd mapped file hbelow
  refine ⟨s', r, ps', hrun, ?_⟩
  obtain ⟨⟨e, rfl⟩, hpages, hqueue, hfailed⟩ | ⟨b, hplace, -, hdone, hmapped⟩ := hcases
  · exact ⟨h.same hinv hfailed.sub hpages hqueue, nofun⟩
  · refine ⟨h.mapped hinv hdone hmapped, fun _ b' hb' c hc => ?_⟩
    obtain rfl := Option.some.inj (hplace.symm.trans hb')
    cases hc
    have hle := hdone.le
    unfold userHalf at hle
    omega

theorem HalfInv.munmap (h : HalfInv kernel s ps) {addr size : BitVec 64}
    (hbelow : MunmapBelow userHalf s.mgr addr size) :
    ∃ s' r ps', s.munmap addr size = some (s', r) ∧ HalfInv kernel s' ps' ∧
      (size ≠ 0 → (∃ c, r = .ok c) → paddingDown addr.toNat + paddingUp size.toNat < 2 ^ 64) := by
  obtain ⟨s', r, hrun, ⟨rfl, hrefused⟩ | ⟨ps', hremoved⟩⟩ := h.paged.munmap_cases (by decide) h.queue hbelow
  · refine ⟨s', r, ps, hrun, h, fun hsize hok => ?_⟩
    obtain ⟨c, rfl⟩ := hok
    cases hrefused.resolve_left hsize
  · refine ⟨s', r, ps', hrun, h.removed hremoved, fun _ _ => ?_⟩
    have hle := hremoved.le
    unfold userHalf at hle
    omega

theorem HalfInv.mremap (h : HalfInv kernel s ps) {oldAddr oldSize newSize flags : BitVec 64}
    (hbelow : MremapBelow userHalf s.mgr oldAddr oldSize newSize flags) :
    ∃ s' r ps', s.mremap oldAddr oldSize newSize flags = some (s', r) ∧ HalfInv kernel s' ps' ∧
      ∀ c, r = .ok c → c + paddingUp newSize.toNat < 2 ^ 64 := by
  obtain ⟨s', r, hrun, hend, hcases⟩ := h.paged.mremap_cases (by decide) h.queue hbelow
  obtain ⟨hinv, hpages, hqueue⟩ | ⟨v, -, -, ps', hcut⟩ | ⟨a, b, ps', hb, hadded⟩ |
    ⟨a, b, s1, ps1, hb, hadded, rfl | ⟨ps', hremoved, -⟩⟩ := hcases
  · exact ⟨s', r, ps, hrun, h.same hinv (fun _ hx => hx) hpages hqueue, hend⟩
  · exact ⟨s', r, ps', hrun, h.cut hcut, hend⟩
  · exact ⟨s', r, ps', hrun, h.added hb hadded, hend⟩
  · exact ⟨s', r, ps1, hrun, h.added hb hadded, hend⟩
  · exact ⟨s', r, ps', hrun, (h.added hb hadded).removed hremoved, hend⟩

theorem HalfInv.fault (h : HalfInv kernel s ps) (address phys : ℕ) :
    HalfInv kernel (s.pageFault address phys) ps := by
  obtain ⟨hmgr, hqueue, -, hpages⟩ := pageFault_cases (by decide) h.queue address phys
  refine ⟨hmgr ▸ h.paged, h.below, hqueue, fun i hi => ?_⟩
  obtain ⟨x, hx, e, he, hcovers⟩ | hsame := hpages i
  · exfalso
    have hlast : x < userHalf := hcovers.2.trans_le (h.queue e he).2
    unfold userPages at hi
    unfold userHalf at hlast
    unfold pageSize at hx
    omega
  · rw [hsame]
    exact h.pages i hi

theorem HalfInv.step (h : HalfInv kernel s ps) {call : UserCall} (hcall : call.InHalf s) :
    (∃ s' ps', s.step call = some s' ∧ HalfInv kernel s' ps') ∧ ∀ e, call.Computes s e → e < 2 ^ 64 := by
  cases call with
  | mmap addr length prot flags fd offset fdOpen mapped file =>
    obtain ⟨s', r, ps', hrun, hinv, hend⟩ := h.mmap prot offset fd mapped file hcall
    refine ⟨⟨s', ps', ?_, hinv⟩, ?_⟩
    · rw [UserSpace.step, hrun]
      rfl
    · rintro e ⟨⟨s1, c, hs1⟩, b, hb, rfl⟩
      rw [hrun] at hs1
      cases hs1
      exact hend ⟨c, rfl⟩ _ hb b rfl
  | munmap addr size =>
    obtain ⟨s', r, ps', hrun, hinv, hend⟩ := h.munmap hcall
    refine ⟨⟨s', ps', ?_, hinv⟩, ?_⟩
    · rw [UserSpace.step, hrun]
      rfl
    · rintro e ⟨⟨hsize, s1, c, hs1⟩, rfl⟩
      rw [hrun] at hs1
      cases hs1
      exact hend hsize ⟨c, rfl⟩
  | mremap oldAddr oldSize newSize flags =>
    obtain ⟨s', r, ps', hrun, hinv, hend⟩ := h.mremap hcall
    refine ⟨⟨s', ps', ?_, hinv⟩, ?_⟩
    · rw [UserSpace.step, hrun]
      rfl
    · rintro e ⟨s1, c, hs1, rfl⟩
      rw [hrun] at hs1
      cases hs1
      exact hend c rfl
  | fault address phys =>
    exact ⟨⟨_, ps, rfl, h.fault address phys⟩, fun e he => absurd he id⟩

/-- In a run from an empty space whose accepted ranges lie in the lower half, the areas end below the
kernel, the upper half of the page tables is not changed, and no end address wraps around. -/
theorem halves_kept (heap : ℕ → Bool) (kernel : PageEntries) (calls : List UserCall)
    (hcalls : Runs.Meets UserSpace.step UserCall.InHalf calls (.empty heap kernel)) :
    ∀ done, done <+: calls → ∃ s, Runs.run UserSpace.step done (.empty heap kernel) = some s ∧
      HalvesKept kernel s ∧ ∀ call, done ++ [call] <+: calls → ∀ e, call.Computes s e → e < 2 ^ 64 := by
  have hempty : ∃ ps, HalfInv kernel (.empty heap kernel) ps :=
    ⟨[], ⟨inv_empty heap, nofun⟩, fun x hx => absurd hx covered_nil, nofun, fun _ _ => rfl⟩
  have hstep : ∀ s call, (∃ ps, HalfInv kernel s ps) → call.InHalf s →
      ∃ s', s.step call = some s' ∧ ∃ ps, HalfInv kernel s' ps := by
    intro s call h hok
    obtain ⟨ps, h⟩ := h
    obtain ⟨⟨s', ps', hs', h'⟩, -⟩ := h.step hok
    exact ⟨s', hs', ps', h'⟩
  intro done hdone
  obtain ⟨s, hrun, ps, hinv⟩ := Runs.run_total hstep hempty (hcalls.of_isPrefix hdone)
  refine ⟨s, hrun, hinv.halvesKept, fun call hcall => ?_⟩
  exact (hinv.step ((hcalls.of_isPrefix hcall).last hrun)).2

end Half

/-- Two pages at `0x10000`, of which the first one is used and then unmapped. -/
def twoPages : List UserCall :=
  [.mmap 0x10000 0x2000 (protRead ||| protWrite) mapAnonymous (-1) 0 false 0 [], .fault 0x10800 0x5000,
    .munmap 0x10000 0x1000]

theorem twoPages_inHalf : Runs.Meets UserSpace.step UserCall.InHalf twoPages
    (.empty (fun _ => true) fun _ => none) := by
  refine ⟨fun _ _ => ?_, fun s hs => ⟨trivial, fun s' hs' => ⟨⟨fun _ _ => ?_, fun _ _ => by decide⟩, fun _ _ => trivial⟩⟩⟩
  · rw [if_neg (by decide), if_pos (by decide)]
    exact fun _ _ => by decide
  · revert s'
    revert s
    decide

theorem halves_kept_twoPages : ∃ s, Runs.run UserSpace.step twoPages (.empty (fun _ => true) fun _ => none) =
    some s ∧ HalvesKept (fun _ => none) s := by
  obtain ⟨s, hrun, hkept, -⟩ := halves_kept (fun _ => true) (fun _ => none) twoPages twoPages_inHalf twoPages
    List.prefix_rfl
  exact ⟨s, hrun, hkept⟩

/-- `munmap` takes the first page above the lower half for a user page and clears the entry of the kernel
that its table indices lead to. A fixed mapping at the last page gets an area that ends before it starts. -/
theorem halves_not_kept :
    (∃ s, Runs.run UserSpace.step [.munmap 0x800000000000 0x1000]
        (.empty (fun _ => true) fun _ => some (0, ptePresent)) = some s ∧
      ¬HalvesKept (fun _ => some (0, ptePresent)) s) ∧
    ∃ s, Runs.run UserSpace.step
        [.mmap 0xfffffffffffff000 0x2000 protRead (mapFixed ||| mapAnonymous) (-1) 0 false 0 []]
        (.empty (fun _ => true) fun _ => none) = some s ∧
      (∃ v ∈ s.mgr.areas, v.vmEnd < v.vmStart) ∧ ¬HalvesKept (fun _ => none) s := by
  constructor
  · have hentry : (Runs.run UserSpace.step [.munmap 0x800000000000 0x1000]
        (.empty (fun _ => true) fun _ => some (0, ptePresent))).map (fun s => s.pages userPages) =
          some none := by
      decide
    obtain ⟨s, hrun, hnone⟩ := Option.map_eq_some_iff.mp hentry
    refine ⟨s, hrun, fun hkept => ?_⟩
    cases hnone.symm.trans (hkept.pages userPages le_rfl)
  · have hareas : (Runs.run UserSpace.step
        [.mmap 0xfffffffffffff000 0x2000 protRead (mapFixed ||| mapAnonymous) (-1) 0 false 0 []]
        (.empty (fun _ => true) fun _ => none)).map (fun s => s.mgr.areas.any fun v => v.vmEnd < v.vmStart) =
          some true := by
      decide
    obtain ⟨s, hrun, hany⟩ := Option.map_eq_some_iff.mp hareas
    obtain ⟨v, hv, hlt⟩ := List.any_eq_true.mp hany
    have hwrapped : v.vmEnd < v.vmStart := of_decide_eq_true hlt
    refine ⟨s, hrun, ⟨v, hv, hwrapped⟩, fun hkept => ?_⟩
    have hle := (hkept.areas v hv).1
    omega

end CoolPotOS
