import CoolPotOS.Mem.VmaProtect
import CoolPotOS.Mem.UserCover

namespace CoolPotOS

open LinkedList List

/-- The flags of the area that `vma_find` returns. -/
def VmaManager.flagsAt (mgr : VmaManager) (x : ℕ) : Option (BitVec 64) := (mgr.lookup x).map Entry.flags

def VmaManager.Granted (mgr : VmaManager) : Prop := ∀ n, mgr.mallocs ≤ n → mgr.heap n = true

def flagsOf (vs : List Vma) (x : ℕ) : Option (BitVec 64) := (lookupAreas vs x).map Entry.flags

section Lists

variable {vs ws : List Vma} {v : Vma} {x : ℕ} {f : BitVec 64}

@[simp] theorem flagsOf_nil : flagsOf [] x = none := rfl

theorem flagsOf_cons :
    flagsOf (v :: vs) x = if v.vmStart ≤ x ∧ x < v.vmEnd then some v.vmFlags else flagsOf vs x := by
  unfold flagsOf
  rw [lookupAreas_cons]
  split <;> rfl

theorem flagsOf_append : flagsOf (vs ++ ws) x = (flagsOf vs x).or (flagsOf ws x) := by
  unfold flagsOf
  rw [lookupAreas_append]
  cases lookupAreas vs x <;> rfl

theorem AreasOk.flagsOf_of_mem (h : AreasOk vs) (hv : v ∈ vs) (hx : v.vmStart ≤ x ∧ x < v.vmEnd) :
    flagsOf vs x = some v.vmFlags := by
  unfold flagsOf
  rw [lookupAreas_of_mem h hv hx]
  rfl

theorem mem_of_flagsOf (h : flagsOf vs x = some f) :
    ∃ v ∈ vs, (v.vmStart ≤ x ∧ x < v.vmEnd) ∧ v.vmFlags = f := by
  obtain ⟨e, he, rfl⟩ := Option.map_eq_some_iff.mp h
  obtain ⟨v, hv, hx, rfl⟩ := lookupAreas_eq_some he
  exact ⟨v, hv, hx, rfl⟩

theorem AreasOk.flagsOf_congr (hvs : AreasOk vs) (hws : AreasOk ws)
    (h : ∀ v, v.vmStart ≤ x → x < v.vmEnd → (v ∈ vs ↔ v ∈ ws)) : flagsOf vs x = flagsOf ws x := by
  cases hf : flagsOf vs x with
  | some f =>
    obtain ⟨v, hv, hx, rfl⟩ := mem_of_flagsOf hf
    exact (hws.flagsOf_of_mem ((h v hx.1 hx.2).mp hv) hx).symm
  | none =>
    cases hf' : flagsOf ws x with
    | none => rfl
    | some f =>
      obtain ⟨v, hv, hx, rfl⟩ := mem_of_flagsOf hf'
      rw [hvs.flagsOf_of_mem ((h v hx.1 hx.2).mpr hv) hx] at hf
      cases hf

end Lists

section Unmap

variable {cutEnd cutStart : ℕ → Vma → ℕ × Vma} {start stop : ℕ} {heap : ℕ → Bool} {used n p x : ℕ} {v : Vma}

theorem unmapArea_flags (hc : Cuts start stop cutEnd cutStart)
    (hflags : ∀ used v, (cutStart used v).2.vmFlags = v.vmFlags) (hss : start < stop)
    (hheap : v.spans start stop → heap n = true ∧ heap (n + 1) = true) :
    flagsOf ((unmapArea cutEnd cutStart start stop heap used n p v).out.map Prod.snd) x =
      if start ≤ x ∧ x < stop then none else flagsOf [v] x := by
  obtain ⟨hstart, hend⟩ := hc.startAt used v
  have hupTo : (v.upTo start).vmFlags = v.vmFlags := rfl
  have hfrom : (v.from stop).vmFlags = v.vmFlags := rfl
  unfold unmapArea
  by_cases h1 : v.vmStart ≥ start ∧ v.vmEnd ≤ stop
  · simp only [if_pos h1, map_nil, flagsOf_cons, flagsOf_nil]
    split_ifs <;> first | rfl | omega
  rw [if_neg h1]
  by_cases h2 : v.vmEnd ≤ start ∨ v.vmStart ≥ stop
  · simp only [if_pos h2, map_cons, map_nil, flagsOf_cons, flagsOf_nil]
    split_ifs <;> first | rfl | omega
  rw [if_neg h2]
  by_cases h3 : v.vmStart < start ∧ v.vmEnd > stop
  · obtain ⟨hn, hn'⟩ := hheap (by unfold Vma.spans; omega)
    simp only [if_pos h3, unmapSpanned, hn, hn', hss, if_true, map_cons, map_nil, flagsOf_cons,
      flagsOf_nil, Vma.upTo_vmStart, Vma.upTo_vmEnd, Vma.from_vmStart, Vma.from_vmEnd, hupTo, hfrom]
    split_ifs <;> first | rfl | omega
  rw [if_neg h3]
  by_cases h4 : v.vmStart < start
  · simp only [if_pos h4, hc.endAt, map_cons, map_nil, flagsOf_cons, flagsOf_nil,
      Vma.upTo_vmStart, Vma.upTo_vmEnd, hupTo]
    split_ifs <;> first | rfl | omega
  · simp only [if_neg h4, map_cons, map_nil, flagsOf_cons, flagsOf_nil, hstart, hend, hflags]
    split_ifs <;> first | rfl | omega

theorem unmapList_flags (hc : Cuts start stop cutEnd cutStart)
    (hflags : ∀ used v, (cutStart used v).2.vmFlags = v.vmFlags) (hss : start < stop) {ps : List (ℕ × Vma)}
    (hheap : ∀ n, used ≤ n → heap n = true) {k : ℕ} (hk : used ≤ n) :
    flagsOf ((unmapList cutEnd cutStart start stop heap ps k n).out.map Prod.snd) x =
      if start ≤ x ∧ x < stop then none else flagsOf (ps.map Prod.snd) x := by
  induction ps generalizing k n with
  | nil => exact (ite_self none).symm
  | cons y ps ih =>
    simp only [unmapList, map_append, map_cons, flagsOf_append]
    rw [unmapArea_flags hc hflags hss fun _ => ⟨hheap n hk, hheap (n + 1) (by omega)⟩,
      ih (hk.trans unmapArea_mallocs_le.1), flagsOf_cons, flagsOf_cons]
    split_ifs <;> rfl

theorem Inv.unmapWalk_flags {mgr mgr' : VmaManager} {ps : List (ℕ × Vma)} (h : Inv mgr ps)
    (hgranted : mgr.Granted) (hc : Cuts start stop cutEnd cutStart)
    (hflags : ∀ used v, (cutStart used v).2.vmFlags = v.vmFlags) (hss : start < stop)
    (hrun : unmapWalk cutEnd cutStart start stop mgr.mallocs mgr mgr.list.head = some mgr') :
    mgr'.Granted ∧ ∀ x, mgr'.flagsAt x = if start ≤ x ∧ x < stop then none else mgr.flagsAt x := by
  have hsafe : SplitsSafe mgr.heap mgr.mallocs start stop (ps.map Prod.snd) :=
    splitsSafe_of_heap (.inl (hgranted _ le_rfl))
  obtain ⟨d, hwalk, hrep⟩ := unmapWalk_eq cutEnd cutStart [] h.toRep h.length_le h.ok.sorted hsafe
  rw [h.linked.head, hwalk, Option.some.injEq] at hrun
  subst hrun
  constructor
  · intro n hn
    exact hgranted n ((unmapList_mallocs_le h.ok).1.trans hn)
  · intro x
    unfold VmaManager.flagsAt
    rw [hrep.lookup_eq, h.lookup_eq]
    exact unmapList_flags hc hflags hss hgranted le_rfl

end Unmap

section Calls

variable {mgr mgr' : VmaManager} {ps : List (ℕ × Vma)} {a len x : ℕ}

theorem Rep.flagsAt_eq (h : Rep mgr ps) (x : ℕ) : mgr.flagsAt x = flagsOf (ps.map Prod.snd) x := by
  unfold VmaManager.flagsAt
  rw [h.lookup_eq]
  rfl

theorem flagsOf_insertArea {q : ℕ} {v : Vma} (h : AreasOk (ps.map Prod.snd))
    (hins : AreasOk ((insertArea (q, v) ps).map Prod.snd)) : flagsOf ((insertArea (q, v) ps).map Prod.snd) x =
      if v.vmStart ≤ x ∧ x < v.vmEnd then some v.vmFlags else flagsOf (ps.map Prod.snd) x := by
  have hmem : ∀ w, w ∈ (insertArea (q, v) ps).map Prod.snd ↔ w = v ∨ w ∈ ps.map Prod.snd := by
    intro w
    simp only [mem_map, mem_insertArea, Prod.exists]
    aesop
  split_ifs with hx
  · exact hins.flagsOf_of_mem ((hmem v).mpr (Or.inl rfl)) hx
  · refine hins.flagsOf_congr h fun w h1 h2 => ?_
    rw [hmem]
    refine or_iff_right fun hw => hx ?_
    subst hw
    exact ⟨h1, h2⟩

/-- What `mmap` gives the addresses of the range from `a` on, when it does not fail. -/
def Mapped (mgr : VmaManager) (a len : ℕ) (vmFlags : BitVec 64) (mgr' : VmaManager)
    (r : Except Errno ℕ) : Prop :=
  (∃ e, r = .error e) ∧ (∀ x, mgr'.flagsAt x = mgr.flagsAt x) ∨
    (∃ c, r = .ok c) ∧ ∀ x, mgr'.flagsAt x = if a ≤ x ∧ x < a + len then some vmFlags else mgr.flagsAt x

theorem mmapVma_vmFlags (a len : ℕ) (prot flags : BitVec 64) (fd : ℤ) (offset : BitVec 64) :
    (mmapVma a len prot flags fd offset).vmFlags = (mmapVma 0 0 prot flags fd offset).vmFlags := by
  unfold mmapVma
  split_ifs <;> rfl

theorem Inv.mmapAt_flags (h : Inv mgr ps) {limit : ℕ} (hlimit : limit < 2 ^ 64) (prot : BitVec 64)
    {flags : BitVec 64} (fd : ℤ) (offset : BitVec 64) {fdOpen : Bool} (mapped : ℕ) (hlen : len ≠ 0)
    (hle : Opens flags fdOpen → a + len ≤ limit)
    (hmeet : ∀ v ∈ ps.map Prod.snd, v.meets a (wrap (a + len)) = false) :
    ∃ mgr' r, mmapAt mgr a len prot flags fd offset fdOpen mapped = some (mgr', r) ∧
      Mapped mgr a len (mmapVma 0 0 prot flags fd offset).vmFlags mgr' r ∧
      (Opens flags fdOpen → mgr.heap mgr.mallocs = true → ∃ c, r = .ok c) := by
  have hwrap := fun ho : Opens flags fdOpen => (hle ho).trans_lt hlimit
  obtain ⟨mgr', r, ps', hrun, hk, hins⟩ := h.mmapAt_cases hlen prot fd offset mapped hwrap
  refine ⟨mgr', r, hrun, ?_⟩
  have hflags := hk.inv.flagsAt_eq
  cases hins with
  | unchanged hready e =>
    refine ⟨Or.inl ⟨⟨e, rfl⟩, fun x => ?_⟩, fun ho hheap => absurd ⟨ho, hheap⟩ hready⟩
    rw [hflags, h.flagsAt_eq]
  | refused hready hsub hmeet' e =>
    obtain ⟨hstart, hend⟩ := mmapVma_range (hwrap hready.1) prot flags fd offset
    exact absurd (by rwa [hstart, hend, ← wrap_of_lt (hwrap hready.1)]) hmeet'
  | linked hready hsub hsame c =>
    obtain ⟨hstart, hend⟩ := mmapVma_range (hwrap hready.1) prot flags fd offset
    -- nothing is in the way of the new area
    obtain rfl := hsame (by rwa [hstart, hend, ← wrap_of_lt (hwrap hready.1)])
    refine ⟨Or.inr ⟨⟨c, rfl⟩, fun x => ?_⟩, fun _ _ => ⟨c, rfl⟩⟩
    rw [hflags, h.flagsAt_eq, flagsOf_insertArea h.ok hk.inv.ok, mmapVma_vmFlags, hstart, hend]

theorem PagedInv.mmapFixed_flags (h : PagedInv mgr ps) {limit : ℕ} (hlimit : limit < 2 ^ 64)
    (prot : BitVec 64) {flags : BitVec 64} (fd : ℤ) (offset : BitVec 64) {fdOpen : Bool} (mapped : ℕ) (hlen : len ≠ 0)
    (hdvd : pageSize ∣ a) (hdvd' : pageSize ∣ len) (hopens : Opens flags fdOpen) (hle : a + len ≤ limit)
    (hgranted : mgr.Granted) : ∃ m mgr' r, vmaUnmapRange mgr a (wrap (a + len)) = some m ∧
      mmapAt m a len prot flags fd offset fdOpen mapped = some (mgr', r) ∧
      Mapped mgr a len (mmapVma 0 0 prot flags fd offset).vmFlags mgr' r := by
  have hwrap : wrap (a + len) = a + len := wrap_of_lt (hle.trans_lt hlimit)
  have hlt : a < a + len := Nat.lt_add_of_pos_right (Nat.pos_of_ne_zero hlen)
  obtain ⟨m, ps1, hm, hinv, -⟩ := h.unmapRange_covered (cuts_counted a (wrap (a + len))) hdvd
    (dvd_wrap (dvd_add hdvd hdvd')) (splitsSafe_of_heap (.inl (hgranted _ le_rfl)))
  rw [hwrap] at hm ⊢
  obtain ⟨hgranted', hflags⟩ := h.toInv.unmapWalk_flags hgranted (cuts_counted a (a + len)) (fun _ _ => rfl) hlt hm
  have hfree : ∀ v ∈ ps1.map Prod.snd, v.meets a (wrap (a + len)) = false := by
    intro v hv
    rw [hwrap]
    refine meets_eq_false_of_covered hinv.ok.nonempty (fun x h1 h2 hc => ?_) hv hlt
    obtain ⟨w, hw, hx⟩ := hc
    have hnone := hflags x
    rw [if_pos ⟨h1, h2⟩, hinv.flagsAt_eq, hinv.ok.flagsOf_of_mem hw hx] at hnone
    cases hnone
  obtain ⟨mgr', r, hrun, hmapped, hok⟩ :=
    hinv.toInv.mmapAt_flags hlimit prot fd offset mapped hlen (fun _ => hle) hfree
  obtain ⟨c, rfl⟩ := hok hopens (hgranted' _ le_rfl)
  refine ⟨m, mgr', _, hm, hrun, Or.inr ⟨⟨c, rfl⟩, fun x => ?_⟩⟩
  obtain ⟨⟨e, he⟩, -⟩ | ⟨-, hx⟩ := hmapped
  · cases he
  · rw [hx x, hflags x]
    split_ifs <;> rfl

/-- A fixed mapping over other areas opens its file, and has the memory to split them. -/
def FixedReady (mgr : VmaManager) (addr length flags : BitVec 64) (fdOpen : Bool) : Prop :=
  let a := paddingDown addr.toNat
  hasFlag flags mapFixed = true → (∃ v ∈ mgr.areas, v.meets a (wrap (a + paddingUp length.toNat)) = true) →
    Opens flags fdOpen ∧ mgr.Granted

theorem PagedInv.mmap_flags (h : PagedInv mgr ps) {limit : ℕ} (hlimit : limit < 2 ^ 64)
    {addr length flags : BitVec 64} (prot : BitVec 64) (fd : ℤ) (offset : BitVec 64) {fdOpen : Bool}
    (mapped : ℕ) (hbelow : MmapBelow limit mgr addr length flags fdOpen)
    (hready : FixedReady mgr addr length flags fdOpen) :
    ∃ mgr' r, mmap mgr addr length prot flags fd offset fdOpen mapped = some (mgr', r) ∧
      ((∃ e, r = .error e) ∧ (∀ x, mgr'.flagsAt x = mgr.flagsAt x) ∨
        ∃ b c, r = .ok c ∧ mmapPlace mgr (paddingDown addr.toNat) (paddingUp length.toNat) flags = some (some b) ∧
          ∀ x, mgr'.flagsAt x = if b ≤ x ∧ x < b + paddingUp length.toNat then
            some (mmapVma 0 0 prot flags fd offset).vmFlags else mgr.flagsAt x) := by
  have hdvd : pageSize ∣ paddingDown addr.toNat := Nat.dvd_mul_left _ _
  have hdvd' : pageSize ∣ paddingUp length.toNat := Nat.dvd_mul_left _ _
  rcases h.toInv.mmap_cases addr length prot flags fd offset fdOpen mapped with
    ⟨e, hrun⟩ | ⟨hover, hlen, ⟨b, hb, hrun⟩ | ⟨hfixed, ha, hmeet, hrun⟩⟩
  · exact ⟨mgr, .error e, hrun, Or.inl ⟨⟨e, rfl⟩, fun _ => rfl⟩⟩
  · obtain ⟨hmeet, -, hplace, -⟩ := hb.spec hdvd
    obtain ⟨m, r, hm, hmapped, -⟩ := h.toInv.mmapAt_flags hlimit prot fd offset mapped hlen
      (hbelow.chosen hover hlen hb) (h.areas_eq ▸ hmeet)
    exact ⟨m, r, hrun.trans hm, hmapped.imp_right fun ⟨⟨c, hc⟩, hx⟩ => ⟨b, c, hc, hplace, hx⟩⟩
  · obtain ⟨-, hle⟩ := (if_pos hfixed ▸ hbelow hover hlen) ha
    obtain ⟨hopens, hgranted⟩ := hready hfixed hmeet
    obtain ⟨m, m', r, hunmap, hm, hmapped⟩ :=
      h.mmapFixed_flags hlimit prot fd offset mapped hlen hdvd hdvd' hopens (hle hopens) hgranted
    refine ⟨m', r, by rw [hrun, hunmap]; exact hm, hmapped.imp_right fun ⟨⟨c, hc⟩, hx⟩ => ?_⟩
    exact ⟨_, c, hc, by simp [mmapPlace, hfixed], hx⟩

theorem PagedInv.munmap_flags (h : PagedInv mgr ps) {addr size : BitVec 64} (hgranted : mgr.Granted)
    (hsize : paddingUp size.toNat ≠ 0) (hle : paddingDown addr.toNat + paddingUp size.toNat < 2 ^ 64)
    {c : ℕ} (hrun : munmap mgr addr size = some (mgr', .ok c)) (x : ℕ) :
    mgr'.flagsAt x = if paddingDown addr.toNat ≤ x ∧ x < paddingDown addr.toNat + paddingUp size.toNat then none
      else mgr.flagsAt x := by
  have hne : size ≠ 0 := by
    rintro rfl
    exact hsize (by decide)
  unfold munmap munmapRange at hrun
  simp only [if_neg hne, wrap_of_lt hle] at hrun
  split_ifs at hrun with hover
  · cases hrun
  · obtain ⟨m, hm, hr⟩ := Option.bind_eq_some_iff.mp hrun
    cases hr
    exact (h.toInv.unmapWalk_flags hgranted (cuts_plain _ _) (fun _ _ => rfl) (by omega) hm).2 x

theorem mprotect_aligned (addr length prot : BitVec 64) (populate : Option Errno) :
    mprotect mgr addr length prot populate = mprotect mgr (BitVec.ofNat 64 (paddingDown addr.toNat))
      (BitVec.ofNat 64 (paddingUp length.toNat)) prot populate := by
  have haddr : (BitVec.ofNat 64 (paddingDown addr.toNat)).toNat = paddingDown addr.toNat := by
    rw [BitVec.toNat_ofNat, Nat.mod_eq_of_lt ((paddingDown_le _).trans_lt addr.isLt)]
  have hlength : (BitVec.ofNat 64 (paddingUp length.toNat)).toNat = paddingUp length.toNat := by
    rw [BitVec.toNat_ofNat, Nat.mod_eq_of_lt (paddingUp_lt _)]
  have hdown : paddingDown (paddingDown addr.toNat) = paddingDown addr.toNat :=
    paddingDown_of_dvd (Nat.dvd_mul_left _ _)
  unfold mprotect
  rw [haddr, hlength, paddingUp_idem, hdown]

theorem PagedInv.mprotect_flags (h : PagedInv mgr ps) {addr length : BitVec 64} (prot : BitVec 64)
    (hgranted : mgr.Granted)
    (hacc : checkUserOverflow (paddingDown addr.toNat) (paddingUp length.toNat) = false) :
    ∃ mgr' ps', mprotect mgr addr length prot none = some (mgr', .ok 0) ∧ PagedInv mgr' ps' ∧
      ∀ x, mgr'.flagsAt x = (mgr.flagsAt x).map fun f =>
        if paddingDown addr.toNat ≤ x ∧ x < wrap (paddingDown addr.toNat + paddingUp length.toNat) then
          protFlags f prot else f := by
  have hdvd : pageSize ∣ paddingDown addr.toNat := Nat.dvd_mul_left _ _
  have hdvd' : pageSize ∣ paddingUp length.toNat := Nat.dvd_mul_left _ _
  have haddr : (BitVec.ofNat 64 (paddingDown addr.toNat)).toNat = paddingDown addr.toNat := by
    rw [BitVec.toNat_ofNat, Nat.mod_eq_of_lt ((paddingDown_le _).trans_lt addr.isLt)]
  have hlength : (BitVec.ofNat 64 (paddingUp length.toNat)).toNat = paddingUp length.toNat := by
    rw [BitVec.toNat_ofNat, Nat.mod_eq_of_lt (paddingUp_lt _)]
  obtain ⟨m, ps', hrun, hinv, -, hends, hlookup⟩ := h.toInv.mprotect_eq (haddr ▸ hdvd) (hlength ▸ hdvd')
    (by rw [haddr, hlength]; exact hacc) hgranted prot {x | pageSize ∣ x}
  rw [haddr, hlength] at hlookup hends
  rw [mprotect_aligned]
  refine ⟨m, ps', hrun, ⟨hinv, fun v hv => ?_⟩, fun x => ?_⟩
  · obtain ⟨y, hy, rfl⟩ := mem_map.mp hv
    refine hends hdvd (dvd_wrap (dvd_add hdvd hdvd')) (fun z hz => ?_) y hy
    exact h.aligned _ (mem_map_of_mem hz)
  · unfold VmaManager.flagsAt
    rw [hlookup x]
    cases mgr.lookup x with
    | none => rfl
    | some e =>
      simp only [Option.map_some]
      split_ifs <;> rfl

end Calls

end CoolPotOS
