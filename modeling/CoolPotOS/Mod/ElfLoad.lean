import CoolPotOS.Machine
import CoolPotOS.Lib.Bytes

namespace CoolPotOS

open Bytes List

/-- The part of a program header that the loader reads. -/
structure Phdr where
  isLoad : Bool
  pOffset : ℕ
  pVaddr : ℕ
  pPaddr : ℕ
  pFilesz : ℕ
  pMemsz : ℕ
  deriving DecidableEq

/-- The pages of an address space, and the number of frames allocated so far. -/
structure ElfPages where
  mapped : ℕ → Bool
  byte : ℕ → UInt8
  frames : ℕ

/-- The number of the page of an address; the page tables do not look at the bits above the 48th. -/
def pageOf (addr : ℕ) : ℕ := addr / pageSize % 2 ^ 36

/-- `page_map_to(directory, i, alloc_frames(1), flags)`. `junk n` is what the `n`-th frame holds. -/
def ElfPages.pageMapTo (junk : ℕ → ℕ → UInt8) (s : ElfPages) (i : ℕ) : ElfPages where
  mapped := Function.update s.mapped (pageOf i) true
  byte := fun a => if pageOf a = pageOf i then junk s.frames (a % pageSize) else s.byte a
  frames := s.frames + 1

/-- Stores bytes, unless one of them is on a page that is not mapped. -/
def ElfPages.store (s : ElfPages) (dst : ℕ) (bytes : List UInt8) : Option ElfPages :=
  if (List.range bytes.length).all fun k => s.mapped (pageOf (dst + k)) then
    some { s with byte := overwrite s.byte dst bytes }
  else none

namespace Phdr

variable (p : Phdr) (offset : ℕ)

def hi : ℕ := wrap (paddingUp (wrap (p.pPaddr + p.pMemsz)) + offset)

def lo : ℕ := wrap (paddingDown p.pPaddr + offset)

/-- The addresses `i` of `for (i = lo; i < hi; i += 0x1000)`; the step divides the difference of the
ends. -/
def steps : List ℕ := (List.range ((p.hi offset - p.lo offset) / pageSize)).map fun k => p.lo offset + k * pageSize

end Phdr

/-- `load_segment`, with `none` for a page fault. -/
def loadSegment (elf : ℕ → UInt8) (junk : ℕ → ℕ → UInt8) (offset : ℕ) (p : Phdr) (s : ElfPages) :
    Option ElfPages := do
  let s := (p.steps offset).foldl (ElfPages.pageMapTo junk) s
  let pVaddr := wrap (p.pVaddr + offset)
  let s ← s.store pVaddr (slice elf p.pOffset p.pFilesz)
  if p.pMemsz > p.pFilesz then s.store (pVaddr + p.pFilesz) (List.replicate (p.pMemsz - p.pFilesz) 0)
  else return s

/-- The loop of `mmap_phdr_segment` over the segments to load, with `load_min` and `load_max`. -/
def loadSegments (elf : ℕ → UInt8) (junk : ℕ → ℕ → UInt8) (offset : ℕ) :
    List Phdr → ElfPages → ℕ → ℕ → Option (ElfPages × ℕ × ℕ)
  | [], s, loadMin, loadMax => some (s, loadMin, loadMax)
  | p :: phdrs, s, loadMin, loadMax => do
    let s ← loadSegment elf junk offset p s
    let stop := wrap (p.pVaddr + offset + p.pMemsz)
    let start := wrap (p.pVaddr + offset)
    loadSegments elf junk offset phdrs s (min start loadMin) (max stop loadMax)

/-- `mmap_phdr_segment`: the pages, whether there was a segment to load, and the values for `load_start`
and `load_size`. -/
def mmapPhdrSegment (elf : ℕ → UInt8) (junk : ℕ → ℕ → UInt8) (offset : ℕ) (phdrs : List Phdr)
    (s : ElfPages) : Option (ElfPages × Option (ℕ × ℕ)) :=
  let loads := phdrs.filter Phdr.isLoad
  if loads = [] then some (s, none)
  else do
    let (s, loadMin, loadMax) ← loadSegments elf junk offset loads s (2 ^ 64 - 1) 0
    return (s, some (loadMin, wrapSub loadMax loadMin))

namespace Phdr

variable (p : Phdr) (offset : ℕ)

def Within (addr : ℕ) : Prop :=
  p.pVaddr + offset ≤ addr ∧ addr < p.pVaddr + offset + max p.pFilesz p.pMemsz

def Meets (page : ℕ) : Prop := ∃ addr, p.Within offset addr ∧ pageOf addr = page

/-- The pages that `load_segment` maps. -/
def pages : List ℕ := (p.steps offset).map pageOf

def contents (elf : ℕ → UInt8) (i : ℕ) : UInt8 := if i < p.pFilesz then elf (p.pOffset + i) else 0

/-- The memory holds the segment: first the bytes of the file, then zeros. -/
def Placed (elf byte : ℕ → UInt8) : Prop :=
  ∀ i < max p.pFilesz p.pMemsz, byte (p.pVaddr + offset + i) = p.contents elf i

end Phdr

section Mapping

variable (junk : ℕ → ℕ → UInt8)

theorem foldl_pageMapTo_mapped (steps : List ℕ) (s : ElfPages) (page : ℕ) :
    (steps.foldl (ElfPages.pageMapTo junk) s).mapped page = true ↔
      s.mapped page = true ∨ page ∈ steps.map pageOf := by
  induction steps generalizing s with
  | nil => simp
  | cons i steps ih =>
    rw [foldl_cons, ih, map_cons, mem_cons, ← or_assoc]
    apply or_congr_left
    simp only [ElfPages.pageMapTo, Function.update_apply]
    split <;> simp_all

theorem foldl_pageMapTo_byte (steps : List ℕ) (s : ElfPages) {addr : ℕ} (h : pageOf addr ∉ steps.map pageOf) :
    (steps.foldl (ElfPages.pageMapTo junk) s).byte addr = s.byte addr := by
  induction steps generalizing s with
  | nil => rfl
  | cons i steps ih =>
    rw [map_cons, mem_cons, not_or] at h
    rw [foldl_cons, ih _ h.2]
    exact if_neg h.1

theorem foldl_pageMapTo_junk (steps : List ℕ) (s : ElfPages) {addr : ℕ} (h : pageOf addr ∈ steps.map pageOf) :
    ∃ frame, (steps.foldl (ElfPages.pageMapTo junk) s).byte addr = junk frame (addr % pageSize) := by
  induction steps generalizing s with
  | nil => exact absurd h not_mem_nil
  | cons i steps ih =>
    by_cases hlater : pageOf addr ∈ steps.map pageOf
    · exact ih _ hlater
    · -- the last mapping of the page is the one of `i`
      have hi : pageOf addr = pageOf i := (mem_cons.mp h).resolve_right hlater
      refine ⟨s.frames, ?_⟩
      rw [foldl_cons, foldl_pageMapTo_byte junk steps _ hlater]
      exact if_pos hi

theorem store_eq (s : ElfPages) (dst : ℕ) (bytes : List UInt8) (s' : ElfPages) : s.store dst bytes = some s' ↔
      (∀ k < bytes.length, s.mapped (pageOf (dst + k)) = true) ∧
        { s with byte := overwrite s.byte dst bytes } = s' := by
  unfold ElfPages.store
  simp only [all_eq_true, mem_range, Option.ite_none_right_eq_some, Option.some.injEq]

end Mapping

section Segment

variable {elf : ℕ → UInt8} {junk : ℕ → ℕ → UInt8} {offset : ℕ} {p : Phdr}

theorem loadSegment_eq_some (hfit : p.pVaddr + offset + max p.pFilesz p.pMemsz ≤ 2 ^ 47) (s s' : ElfPages) :
    loadSegment elf junk offset p s = some s' ↔ (∀ i < max p.pFilesz p.pMemsz,
        ((p.steps offset).foldl (ElfPages.pageMapTo junk) s).mapped (pageOf (p.pVaddr + offset + i)) = true) ∧
      { (p.steps offset).foldl (ElfPages.pageMapTo junk) s with
        byte := overwrite ((p.steps offset).foldl (ElfPages.pageMapTo junk) s).byte (p.pVaddr + offset)
          ((range (max p.pFilesz p.pMemsz)).map (p.contents elf)) } = s' := by
  have hwrap : wrap (p.pVaddr + offset) = p.pVaddr + offset := wrap_of_lt (by omega)
  have hfile : slice elf p.pOffset p.pFilesz = (range p.pFilesz).map (p.contents elf) := by
    unfold slice
    apply map_congr_left
    intro i hi
    exact (if_pos (mem_range.mp hi)).symm
  unfold loadSegment
  simp only [hwrap, Option.bind_eq_bind]
  generalize (p.steps offset).foldl (ElfPages.pageMapTo junk) s = t
  by_cases hbss : p.pMemsz > p.pFilesz
  · -- the zeros go behind the bytes of the file
    have hbytes : (range (max p.pFilesz p.pMemsz)).map (p.contents elf) =
        slice elf p.pOffset p.pFilesz ++ replicate (p.pMemsz - p.pFilesz) 0 := by
      obtain ⟨k, hk⟩ := Nat.exists_eq_add_of_le hbss.le
      rw [hfile, max_eq_right hbss.le, hk, Nat.add_sub_cancel_left, range_add, map_append]
      congr 1
      rw [map_map, eq_replicate_iff]
      simp [Phdr.contents]
    rw [hbytes, ← overwrite_append, length_slice, max_eq_right hbss.le]
    simp only [if_pos hbss, Option.bind_eq_some_iff, store_eq, length_slice, length_replicate]
    constructor
    · rintro ⟨t', ⟨hfirst, rfl⟩, hrest, rfl⟩
      refine ⟨fun i hi => ?_, rfl⟩
      by_cases hlt : i < p.pFilesz
      · exact hfirst i hlt
      · have := hrest (i - p.pFilesz) (by omega)
        rwa [show p.pVaddr + offset + p.pFilesz + (i - p.pFilesz) = p.pVaddr + offset + i by omega]
          at this
    · rintro ⟨hall, rfl⟩
      refine ⟨_, ⟨fun i hi => hall i (hi.trans hbss), rfl⟩, fun i hi => ?_, rfl⟩
      rw [Nat.add_assoc (p.pVaddr + offset)]
      exact hall _ (by omega)
  · rw [max_eq_left (not_lt.mp hbss), ← hfile]
    simp only [if_neg hbss, Option.pure_def, store_eq, length_slice, Option.bind_eq_some_iff,
      Option.some.injEq, exists_eq_right]

variable (hfit : p.pVaddr + offset + max p.pFilesz p.pMemsz ≤ 2 ^ 47)

include hfit

theorem loadSegment_isSome (elf : ℕ → UInt8) (junk : ℕ → ℕ → UInt8) (s : ElfPages) :
    (∃ s', loadSegment elf junk offset p s = some s') ↔
      ∀ page, p.Meets offset page → s.mapped page = true ∨ page ∈ p.pages offset := by
  simp only [loadSegment_eq_some hfit, exists_and_left, exists_eq', and_true]
  constructor
  · rintro hall page ⟨addr, ⟨hle, hlt⟩, rfl⟩
    obtain ⟨i, rfl⟩ := Nat.exists_eq_add_of_le hle
    exact (foldl_pageMapTo_mapped junk _ s _).mp (hall i (by omega))
  · intro hmeets i hi
    apply (foldl_pageMapTo_mapped junk _ s _).mpr
    exact hmeets _ ⟨_, ⟨Nat.le_add_right _ _, Nat.add_lt_add_left hi _⟩, rfl⟩

variable {s s' : ElfPages} (h : loadSegment elf junk offset p s = some s')

include h

theorem loadSegment_mapped (page : ℕ) :
    s'.mapped page = true ↔ s.mapped page = true ∨ page ∈ p.pages offset := by
  obtain ⟨-, rfl⟩ := (loadSegment_eq_some hfit s s').mp h
  exact foldl_pageMapTo_mapped junk _ s page

theorem loadSegment_placed : p.Placed offset elf s'.byte := by
  obtain ⟨-, rfl⟩ := (loadSegment_eq_some hfit s s').mp h
  intro i hi
  dsimp only
  rw [overwrite_add _ _ (by simpa using hi), getElem_map, getElem_range]

theorem loadSegment_outside {addr : ℕ} (hout : ¬ p.Within offset addr) :
    s'.byte addr = ((p.steps offset).foldl (ElfPages.pageMapTo junk) s).byte addr := by
  obtain ⟨-, rfl⟩ := (loadSegment_eq_some hfit s s').mp h
  dsimp only
  by_cases hlt : addr < p.pVaddr + offset
  · exact overwrite_of_lt _ _ hlt
  · apply overwrite_of_le
    rw [length_map, length_range]
    by_contra hin
    exact hout ⟨not_lt.mp hlt, not_le.mp hin⟩

end Segment

/-- Every page that a segment meets is mapped by the segments up to it, or was mapped before. -/
def PagesMapped (offset : ℕ) : (ℕ → Prop) → List Phdr → Prop
  | _, [] => True
  | mapped, p :: phdrs =>
    (∀ page, p.Meets offset page → mapped page ∨ page ∈ p.pages offset) ∧
      PagesMapped offset (fun page => mapped page ∨ page ∈ p.pages offset) phdrs

/-- The segments are in the user area and disjoint in memory. -/
structure LoadsFit (offset : ℕ) (loads : List Phdr) : Prop where
  fit : ∀ p ∈ loads, p.pVaddr + offset + max p.pFilesz p.pMemsz ≤ 2 ^ 47
  disjoint : loads.Pairwise fun p q => ∀ addr, p.Within offset addr → ¬ q.Within offset addr

section Segments

variable {elf : ℕ → UInt8} {junk : ℕ → ℕ → UInt8} {offset : ℕ} {loads : List Phdr}

theorem LoadsFit.tail {p : Phdr} (hfit : LoadsFit offset (p :: loads)) : LoadsFit offset loads where
  fit := fun q hq => hfit.fit q (mem_cons_of_mem p hq)
  disjoint := (pairwise_cons.mp hfit.disjoint).2

theorem loadSegments_cons (p : Phdr) (s : ElfPages) (loadMin loadMax : ℕ) (r : ElfPages × ℕ × ℕ) :
    loadSegments elf junk offset (p :: loads) s loadMin loadMax = some r ↔
      ∃ t, loadSegment elf junk offset p s = some t ∧
        loadSegments elf junk offset loads t (min (wrap (p.pVaddr + offset)) loadMin)
          (max (wrap (p.pVaddr + offset + p.pMemsz)) loadMax) = some r := by
  simp only [loadSegments, Option.bind_eq_bind, Option.bind_eq_some_iff]

theorem loadSegments_isSome (hfit : LoadsFit offset loads) (s : ElfPages) (loadMin loadMax : ℕ) :
    (∃ r, loadSegments elf junk offset loads s loadMin loadMax = some r) ↔
      PagesMapped offset (fun page => s.mapped page = true) loads := by
  induction loads generalizing s loadMin loadMax with
  | nil => simp [loadSegments, PagesMapped]
  | cons p loads ih =>
    have hp := hfit.fit p mem_cons_self
    have hafter : ∀ t, loadSegment elf junk offset p s = some t → (fun page => t.mapped page = true) =
          fun page => s.mapped page = true ∨ page ∈ p.pages offset := by
      intro t ht
      funext page
      exact propext (loadSegment_mapped hp ht page)
    simp only [loadSegments_cons, PagesMapped]
    constructor
    · rintro ⟨r, t, ht, hrest⟩
      refine ⟨(loadSegment_isSome hp elf junk s).mp ⟨t, ht⟩, ?_⟩
      rw [← hafter t ht]
      exact (ih hfit.tail t _ _).mp ⟨r, hrest⟩
    · rintro ⟨hmeets, hcovers⟩
      obtain ⟨t, ht⟩ := (loadSegment_isSome hp elf junk s).mpr hmeets
      rw [← hafter t ht] at hcovers
      obtain ⟨r, hr⟩ := (ih hfit.tail t _ _).mpr hcovers
      exact ⟨r, t, ht, hr⟩

variable {s : ElfPages} {loadMin loadMax : ℕ} {r : ElfPages × ℕ × ℕ} {addr : ℕ}

theorem loadSegments_kept (hfit : LoadsFit offset loads)
    (h : loadSegments elf junk offset loads s loadMin loadMax = some r)
    (hout : ∀ p ∈ loads, ¬ p.Within offset addr ∧ pageOf addr ∉ p.pages offset) :
    r.1.byte addr = s.byte addr := by
  induction loads generalizing s loadMin loadMax with
  | nil =>
    cases h
    rfl
  | cons p loads ih =>
    obtain ⟨t, ht, hrest⟩ := (loadSegments_cons p s loadMin loadMax r).mp h
    obtain ⟨hwithin, hpages⟩ := hout p mem_cons_self
    rw [ih hfit.tail hrest fun q hq => hout q (mem_cons_of_mem p hq),
      loadSegment_outside (hfit.fit p mem_cons_self) ht hwithin]
    exact foldl_pageMapTo_byte junk _ s hpages

theorem loadSegments_junk (hfit : LoadsFit offset loads)
    (h : loadSegments elf junk offset loads s loadMin loadMax = some r)
    (hout : ∀ p ∈ loads, ¬ p.Within offset addr) (hpage : ∃ p ∈ loads, pageOf addr ∈ p.pages offset) :
    ∃ frame, r.1.byte addr = junk frame (addr % pageSize) := by
  induction loads generalizing s loadMin loadMax with
  | nil => simp at hpage
  | cons p loads ih =>
    obtain ⟨t, ht, hrest⟩ := (loadSegments_cons p s loadMin loadMax r).mp h
    have hout' : ∀ q ∈ loads, ¬ q.Within offset addr := fun q hq => hout q (mem_cons_of_mem p hq)
    by_cases hlater : ∃ q ∈ loads, pageOf addr ∈ q.pages offset
    · exact ih hfit.tail hrest hout' hlater
    · have hp : pageOf addr ∈ p.pages offset := by
        obtain ⟨q, hq, hpage⟩ := hpage
        rcases mem_cons.mp hq with rfl | hq
        · exact hpage
        · exact absurd ⟨q, hq, hpage⟩ hlater
      rw [loadSegments_kept hfit.tail hrest fun q hq => ⟨hout' q hq, fun hin => hlater ⟨q, hq, hin⟩⟩,
        loadSegment_outside (hfit.fit p mem_cons_self) ht (hout p mem_cons_self)]
      exact foldl_pageMapTo_junk junk _ s hp

/-- No segment maps a page again on which an earlier one has bytes. -/
def NoneWiped (offset : ℕ) (loads : List Phdr) : Prop :=
  loads.Pairwise fun p q => ∀ page, p.Meets offset page → page ∉ q.pages offset

theorem loadSegments_placed (hfit : LoadsFit offset loads)
    (h : loadSegments elf junk offset loads s loadMin loadMax = some r)
    (hkept : NoneWiped offset loads) : ∀ p ∈ loads, p.Placed offset elf r.1.byte := by
  induction loads generalizing s loadMin loadMax with
  | nil => simp
  | cons p loads ih =>
    obtain ⟨t, ht, hrest⟩ := (loadSegments_cons p s loadMin loadMax r).mp h
    obtain ⟨hfirst, hkept⟩ := pairwise_cons.mp hkept
    intro q hq
    rcases mem_cons.mp hq with rfl | hq
    · -- the segments behind it leave it alone
      intro i hi
      have hwithin : q.Within offset (q.pVaddr + offset + i) :=
        ⟨Nat.le_add_right _ _, Nat.add_lt_add_left hi _⟩
      rw [loadSegments_kept hfit.tail hrest fun q' hq' =>
        ⟨(pairwise_cons.mp hfit.disjoint).1 q' hq' _ hwithin, hfirst q' hq' _ ⟨_, hwithin, rfl⟩⟩]
      exact loadSegment_placed (hfit.fit q mem_cons_self) ht i hi
    · exact ih hfit.tail hrest hkept q hq

theorem loadSegments_wiped (hfit : LoadsFit offset loads)
    (h : loadSegments elf junk offset loads s loadMin loadMax = some r) :
    loads.Pairwise fun p q => ∀ addr, p.Within offset addr → pageOf addr ∈ q.pages offset →
      ∃ frame, r.1.byte addr = junk frame (addr % pageSize) := by
  induction loads generalizing s loadMin loadMax with
  | nil => exact List.Pairwise.nil
  | cons p loads ih =>
    obtain ⟨t, ht, hrest⟩ := (loadSegments_cons p s loadMin loadMax r).mp h
    refine pairwise_cons.mpr ⟨fun q hq addr hwithin hpage => ?_, ih hfit.tail hrest⟩
    apply loadSegments_junk hfit.tail hrest _ ⟨q, hq, hpage⟩
    intro q' hq'
    exact (pairwise_cons.mp hfit.disjoint).1 q' hq' addr hwithin

end Segments

section Image

variable (elf : ℕ → UInt8) {offset : ℕ} {phdrs : List Phdr}

theorem mmapPhdrSegment_eq_some (junk : ℕ → ℕ → UInt8) (s s' : ElfPages) :
    (∃ size, mmapPhdrSegment elf junk offset phdrs s = some (s', size)) ↔
      ∃ size, loadSegments elf junk offset (phdrs.filter Phdr.isLoad) s (2 ^ 64 - 1) 0 = some (s', size) := by
  unfold mmapPhdrSegment
  by_cases hnone : phdrs.filter Phdr.isLoad = []
  · simp [hnone, loadSegments]
  · simp only [if_neg hnone, Option.bind_eq_bind, Option.bind_eq_some_iff, Option.pure_def]
    constructor
    · rintro ⟨size, ⟨t, size'⟩, hr, heq⟩
      cases heq
      exact ⟨size', hr⟩
    · rintro ⟨size, hr⟩
      exact ⟨_, _, hr, rfl⟩

/-- All segments are in their place after `mmap_phdr_segment`, whatever the new frames hold, if and only
if the pages mapped by physical addresses are the ones needed and no segment maps a page of an earlier
one again. -/
theorem mmapPhdrSegment_placed_iff (hfit : LoadsFit offset (phdrs.filter Phdr.isLoad))
    (s : ElfPages) :
    (∀ junk, ∃ s' size, mmapPhdrSegment elf junk offset phdrs s = some (s', size) ∧
        ∀ p ∈ phdrs.filter Phdr.isLoad, p.Placed offset elf s'.byte) ↔
      PagesMapped offset (fun page => s.mapped page = true) (phdrs.filter Phdr.isLoad) ∧
        NoneWiped offset (phdrs.filter Phdr.isLoad) := by
  have hsegments := fun junk s' => @mmapPhdrSegment_eq_some elf offset phdrs junk s s'
  simp only [exists_and_right, hsegments]
  generalize phdrs.filter Phdr.isLoad = loads at hfit
  constructor
  · intro hall
    constructor
    · obtain ⟨s', ⟨size, hr⟩, -⟩ := hall fun _ _ => 0
      exact (loadSegments_isSome hfit s _ _).mp ⟨_, hr⟩
    · refine List.pairwise_iff_forall_sublist.mpr fun {p q} hsub page hmeets hpage => ?_
      obtain ⟨addr, hwithin, rfl⟩ := hmeets
      obtain ⟨i, rfl⟩ := Nat.exists_eq_add_of_le hwithin.1
      -- frames that hold anything but the byte that belongs there
      obtain ⟨s', ⟨size, hr⟩, hplaced⟩ := hall fun _ _ => p.contents elf i + 1
      have hright := hplaced p (hsub.subset List.mem_cons_self) i
        (Nat.lt_of_add_lt_add_left hwithin.2)
      obtain ⟨frame, hwrong⟩ :=
        List.pairwise_iff_forall_sublist.mp (loadSegments_wiped hfit hr) hsub _ hwithin hpage
      rw [hright] at hwrong
      simp at hwrong
  · rintro ⟨hcovers, hkept⟩ junk
    obtain ⟨⟨s', size⟩, hr⟩ := (loadSegments_isSome hfit s (2 ^ 64 - 1) 0).mpr hcovers
    exact ⟨s', ⟨size, hr⟩, loadSegments_placed hfit hr hkept⟩

end Image

def reversedLoads : List Phdr := [⟨true, 0x20, 0x3008, 0x3000, 4, 16⟩, ⟨true, 0, 0x1010, 0x1010, 8, 8⟩]

theorem mmapPhdrSegment_placed_reversed :
    ∃ s' size,
      mmapPhdrSegment (fun i => UInt8.ofNat i) (fun _ _ => 0xff) 0 reversedLoads
        ⟨fun _ => false, fun _ => 0, 0⟩ = some (s', size) ∧
      ∀ p ∈ reversedLoads.filter Phdr.isLoad, p.Placed 0 (fun i => UInt8.ofNat i) s'.byte := by
  have hdata : Phdr.pages ⟨true, 0x20, 0x3008, 0x3000, 4, 16⟩ 0 = [3] := by decide
  have htext : Phdr.pages ⟨true, 0, 0x1010, 0x1010, 8, 8⟩ 0 = [1] := by decide
  have hfit : LoadsFit 0 (reversedLoads.filter Phdr.isLoad) := by
    refine ⟨by decide, List.pairwise_pair.mpr fun addr => ?_⟩
    simp only [Phdr.Within]
    omega
  have hmapped : PagesMapped 0 (fun _ => false = true) (reversedLoads.filter Phdr.isLoad) := by
    refine ⟨?_, ?_, trivial⟩
    · rintro page ⟨addr, hwithin, rfl⟩
      rw [hdata]
      simp only [Phdr.Within] at hwithin
      simp only [pageOf, pageSize, List.mem_singleton]
      omega
    · rintro page ⟨addr, hwithin, rfl⟩
      rw [htext]
      simp only [Phdr.Within] at hwithin
      simp only [pageOf, pageSize, List.mem_singleton]
      omega
  have hkept : NoneWiped 0 (reversedLoads.filter Phdr.isLoad) := by
    refine List.pairwise_pair.mpr ?_
    rintro page ⟨addr, hwithin, rfl⟩
    rw [htext]
    simp only [Phdr.Within] at hwithin
    simp only [pageOf, pageSize, List.mem_singleton]
    omega
  exact (mmapPhdrSegment_placed_iff _ hfit ⟨fun _ => false, fun _ => 0, 0⟩).mpr ⟨hmapped, hkept⟩ _

/-- Two segments of one page: mapping it for the second one loses the byte of the first, which was 7. And
with another physical address, the page of the segment is not mapped at all. -/
theorem mmapPhdrSegment_loses_byte :
    LoadsFit 0 [⟨true, 0, 0x1000, 0x1000, 1, 1⟩, ⟨true, 1, 0x1010, 0x1010, 1, 1⟩] ∧
      Phdr.contents ⟨true, 0, 0x1000, 0x1000, 1, 1⟩ (fun _ => 7) 0 = 7 ∧
      (mmapPhdrSegment (fun _ => 7) (fun _ _ => 0) 0
          [⟨true, 0, 0x1000, 0x1000, 1, 1⟩, ⟨true, 1, 0x1010, 0x1010, 1, 1⟩]
          ⟨fun _ => false, fun _ => 0, 0⟩).map (fun r => r.1.byte 0x1000) = some 0 ∧
      (mmapPhdrSegment (fun _ => 7) (fun _ _ => 0) 0 [⟨true, 0, 0x1000, 0x5000, 1, 1⟩]
          ⟨fun _ => false, fun _ => 0, 0⟩).isNone = true := by
  refine ⟨⟨by decide, ?_⟩, by decide, by decide, by decide⟩
  refine List.pairwise_pair.mpr fun addr => ?_
  simp only [Phdr.Within]
  omega

end CoolPotOS
