import CoolPotOS.Mem.UserHalf

namespace CoolPotOS

open List Option

/-- The frame of the entry that `page_map_to` writes. -/
def entryFrame (frame : ℕ) (flags : BitVec 64) : ℕ :=
  frameOf ((BitVec.ofNat 64 frame &&& pteFrameMask) ||| flags)

def EntryOk (e : ℕ × BitVec 64) : Prop := frameOf (BitVec.ofNat 64 e.1) = e.1 ∧ e.2 &&& pteFrameMask = 0

def Vma.access (v : Vma) : BitVec 64 := v.vmFlags &&& (vmaRead ||| vmaWriteFlag ||| vmaExec)

namespace UserSpace

variable (s : UserSpace)

def frameAt (x : ℕ) : Option ℕ :=
  match s.pages (pageIndex x) with
  | some (frame, flags) => if hasFlag flags ptePresent then some (entryFrame frame flags) else none
  | none => none

/-- The frames that `unmap_page_range` passes to `free_frame`. An empty entry holds frame `0`, which no
process has. -/
def freedFrames (vaddr size : ℕ) : List ℕ :=
  (List.range (pageCount (wrap (vaddr + size) - vaddr))).filterMap fun k =>
    (s.pages (pageIndex (wrap (vaddr + k * pageSize)))).map fun e => entryFrame e.1 e.2

def munmapFreed (addr size : ℕ) : List ℕ :=
  if size = 0 ∨ checkUserOverflow addr size = true then [] else s.freedFrames addr size

/-- The frames that `mremap` frees when it returns `r`. Only a move, which returns another address, calls
`munmap`, after it has mapped the new range. The loop that is to cut off pages does not run. -/
def mremapFreed (old oldSize newSize r : ℕ) : List ℕ :=
  if r = old then []
  else (s.pageMapRange r (s.virtToPhys old) newSize mremapFlags).munmapFreed old oldSize

/-- The byte of an area at an address. A page that waits for its first access reads as zero. -/
def Reads (mem : ℕ → BitVec 8) (x : ℕ) (byte : BitVec 8) : Prop :=
  Covered s.mgr.areas x ∧
    ((∃ f, s.frameAt x = some f ∧ byte = mem (f + x % pageSize)) ∨
      s.frameAt x = none ∧ Queued s.virtQueue x ∧ byte = 0)

/-- The page of the address has a frame that is allocated to the address space, and no page outside of the
range from `a` to `b` has it too. -/
def OwnFrame (allocated : ℕ → Prop) (a b x : ℕ) : Prop :=
  ∃ f, s.frameAt x = some f ∧ allocated f ∧
    ∀ y < userHalf, ¬(a ≤ y ∧ y < b) → s.frameAt y = some f → pageIndex y = pageIndex x

/-- The page of the address has a frame of its own, or waits for one, or needs none. -/
def Serves (allocated : ℕ → Prop) (access : BitVec 64) (a b x : ℕ) : Prop :=
  x < userHalf ∧
    (s.OwnFrame allocated a b x ∨ s.frameAt x = none ∧ (Queued s.virtQueue x ∨ access = 0))

/-- The area `v` is now at `r`, with its data and its rights, and with frames that are its own. -/
structure Remapped (mem : ℕ → BitVec 8) (allocated : ℕ → Prop) (v : Vma) (oldSize newSize : ℕ)
    (s' : UserSpace) (r : ℕ) : Prop where
  data : ∀ k < min oldSize newSize, ∀ byte, s.Reads mem (v.vmStart + k) byte → s'.Reads mem (r + k) byte
  area : ∃ w ∈ s'.mgr.areas, w.vmStart = r ∧ w.vmEnd = r + newSize ∧ w.access = v.access
  served : ∀ x, r ≤ x → x < r + newSize →
    s'.Serves (fun f => allocated f ∧ f ∉ s.mremapFreed v.vmStart oldSize newSize r) v.access 0 0 x
  kept : ∀ x < userHalf, ∀ f, s'.frameAt x = some f → f ∉ s.mremapFreed v.vmStart oldSize newSize r

/-- The frame that the code maps at a new page of the area. -/
def nextFrame (v : Vma) (x : ℕ) : ℕ :=
  entryFrame (wrap (s.virtToPhys v.vmStart + (paddingDown x - v.vmStart))) v.vmFlags

/-- The frame is allocated to the address space, and no page outside of the new part of the area has it. -/
structure NextOwn (allocated : ℕ → Prop) (v : Vma) (stop x : ℕ) : Prop where
  allocated : allocated (s.nextFrame v x)
  outside : ∀ y < userHalf, ¬(v.vmEnd ≤ y ∧ y < stop) → s.frameAt y ≠ some (s.nextFrame v x)
  inside : ∀ y, v.vmEnd ≤ y → y < stop → s.nextFrame v y = s.nextFrame v x → pageIndex y = pageIndex x

/-- The area can grow in place, its pages are served, and so are the new ones: by the next frames, which the
pages of an area that can be read get, or else by the queue. -/
structure Grows (allocated : ℕ → Prop) (v : Vma) (stop : ℕ) : Prop where
  free : ∀ w ∈ s.mgr.areas, w.meets v.vmEnd stop = false
  half : stop ≤ userHalf
  stay : ∀ x, v.vmStart ≤ x → x < v.vmEnd → s.Serves allocated v.access v.vmEnd stop x
  next : hasFlag v.vmFlags vmaRead = true → ∀ x, v.vmEnd ≤ x → x < stop → s.NextOwn allocated v stop x
  waits : hasFlag v.vmFlags vmaRead = false → ∀ x, v.vmEnd ≤ x → x < stop →
    Queued s.virtQueue x ∨ v.access = 0

def Stays (allocated : ℕ → Prop) (v : Vma) (newSize : ℕ) : Prop :=
  if newSize ≤ v.size then
    ∀ x, v.vmStart ≤ x → x < v.vmStart + newSize → s.Serves allocated v.access 0 0 x
  else s.Grows allocated v (v.vmStart + newSize)

end UserSpace

section Entries

variable {s : UserSpace} {pages : PageEntries} {es : List (Option (ℕ × BitVec 64))}
  {va size frame x k : ℕ} {flags : BitVec 64}

theorem entryFrame_eq (hflags : flags &&& pteFrameMask = 0) :
    entryFrame frame flags = frameOf (BitVec.ofNat 64 frame) := by
  unfold entryFrame frameOf
  congr 1
  rw [BitVec.and_or_distrib_right, hflags, BitVec.and_assoc, BitVec.and_self]
  exact BitVec.or_zero

theorem entryFrame_wrap (n : ℕ) (flags : BitVec 64) : entryFrame (wrap n) flags = entryFrame n flags := by
  unfold entryFrame wrap
  congr 3
  apply BitVec.eq_of_toNat_eq
  simp

theorem frameOf_ofNat_zero : frameOf (BitVec.ofNat 64 0) = 0 := by decide

theorem entryFrame_of_ok (h : EntryOk (frame, flags)) : entryFrame frame flags = frame :=
  (entryFrame_eq h.2).trans h.1

theorem UserSpace.pageMapRange_at (s : UserSpace) (frame : ℕ) (flags : BitVec 64) (hva : pageSize ∣ va) (hsize : pageSize ∣ size) (hle : va + size ≤ 2 ^ 48)
    (hlow : va ≤ x) (hhigh : x < va + size) : (s.pageMapRange va frame size flags).pages (pageIndex x) =
      some (wrap (frame + (paddingDown x - va)), flags) := by
  have hcount := pageCount_of_dvd hsize
  obtain ⟨j, rfl⟩ := hva
  have hdiv : pageSize * j / pageSize = j := Nat.mul_div_cancel_left j (by decide)
  have hk : x / pageSize - j < pageCount size := by
    unfold pageSize at hlow hhigh hcount ⊢
    omega
  have hidx : pageIndex x = pageSize * j / pageSize + (x / pageSize - j) := by
    rw [hdiv, pageIndex_of_lt (by omega)]
    unfold pageSize at hlow ⊢
    omega
  have hoffset : (x / pageSize - j) * pageSize = paddingDown x - pageSize * j := by
    unfold paddingDown pageSize
    omega
  unfold UserSpace.pageMapRange
  dsimp only
  rw [hidx, setPages_get]
  · rw [getElem_map, getElem_range, hoffset]
  · rw [length_map, length_range, hcount]
    exact hle
  · rw [length_map, length_range]
    exact hk

theorem UserSpace.frameAt_congr {s' : UserSpace} (h : s'.pages = s.pages) (x : ℕ) :
    s'.frameAt x = s.frameAt x := by
  unfold UserSpace.frameAt
  rw [h]

theorem UserSpace.frameAt_pageMapRange (hva : pageSize ∣ va) (hsize : pageSize ∣ size)
    (hle : va + size ≤ 2 ^ 48) (hx : x < 2 ^ 48) (hout : ¬(va ≤ x ∧ x < va + size)) :
    (s.pageMapRange va frame size flags).frameAt x = s.frameAt x := by
  unfold UserSpace.frameAt
  rw [UserSpace.pageMapRange_pages hva hsize hle]
  rw [pageIndex_of_lt hx, mem_pages_iff hva (dvd_add hva hsize)]
  exact hout

end Entries

section Calls

variable {s s' : UserSpace} {ps : List (ℕ × Vma)} {oldAddr oldSize newSize flags : BitVec 64} {r : ℕ}

/-- The area gets another end, the pages are now `pages`, and the rest stays. -/
structure MremapInPlace (s : UserSpace) (v : Vma) (newSize : ℕ) (pages : PageEntries) (s' : UserSpace)
    (r : ℕ) : Prop where
  ret : r = v.vmStart
  area : v.upTo (wrap (v.vmStart + newSize)) ∈ s'.mgr.areas
  pages : s'.pages = pages
  queue : s'.virtQueue = s.virtQueue

theorem PagedInv.mem_areas_write {l1 l2 : List (ℕ × Vma)} {p : ℕ} {v : Vma} {mgr : VmaManager}
    (h : PagedInv mgr (l1 ++ (p, v) :: l2)) (w : Vma) :
    ∃ mgr', vmaWrite mgr p w = some mgr' ∧ w ∈ mgr'.areas := by
  obtain ⟨d, hwrite, hlinked⟩ := vmaWrite_eq h.linked w
  have hrep : Rep { mgr with list := d } (l1 ++ (p, w) :: l2) := by
    refine ⟨hlinked, fun x hx => ?_⟩
    simp only [mem_append, mem_cons] at hx
    obtain hx | rfl | hx := hx
    · exact h.lt x (by simp [hx])
    · exact h.lt (p, v) (by simp)
    · exact h.lt x (by simp [hx])
  refine ⟨_, hwrite, ?_⟩
  rw [hrep.areas_eq]
  simp

theorem mremapMove_ret {v : Vma} {a old oldSize newSize : ℕ}
    (hrun : s.mremapMove v a old oldSize newSize = some (s', .ok r)) : r = a := by
  unfold UserSpace.mremapMove at hrun
  split at hrun
  · cases hrun
  · simp only [bind_eq_bind, bind_eq_some_iff] at hrun
    obtain ⟨mgr, -, ⟨mgr', ok⟩, -, hrest⟩ := hrun
    cases ok with
    | false => cases hrest
    | true =>
      simp only [Bool.not_true, Bool.false_eq_true, if_false, bind_eq_some_iff] at hrest
      obtain ⟨⟨s1, e⟩, -, hret⟩ := hrest
      cases hret
      rfl

theorem PagedInv.mremap_ok (h : PagedInv s.mgr ps)
    (hrun : s.mremap oldAddr oldSize newSize flags = some (s', .ok r)) :
    ∃ v ∈ s.mgr.areas, v.vmStart = paddingDown oldAddr.toNat ∧ (paddingUp newSize.toNat ≤ v.size ∧
          MremapInPlace s v (paddingUp newSize.toNat) s.pages s' r ∨
        v.size < paddingUp newSize.toNat ∧
          ((∀ w ∈ s.mgr.areas, w.meets v.vmEnd (wrap (v.vmStart + paddingUp newSize.toNat)) = false) ∧
              MremapInPlace s v (paddingUp newSize.toNat)
                (s.pageMapRange v.vmEnd (wrap (s.virtToPhys v.vmStart + v.size))
                  (wrapSub (wrap (v.vmStart + paddingUp newSize.toNat)) v.vmEnd) v.vmFlags).pages s' r ∨
            (∃ w ∈ s.mgr.areas, w.meets v.vmEnd (wrap (v.vmStart + paddingUp newSize.toNat)) = true) ∧
              FirstFit s.mgr.areas (paddingUp newSize.toNat) r ∧
              s.mremapMove v r v.vmStart (paddingUp oldSize.toNat) (paddingUp newSize.toNat) =
                some (s', .ok r))) := by
  unfold UserSpace.mremap at hrun
  rw [h.areas_eq]
  set old := paddingDown oldAddr.toNat
  set osize := paddingUp oldSize.toNat
  set nsize := paddingUp newSize.toNat
  dsimp only at hrun
  rcases h.find_cases old with ⟨hfind, -⟩ | ⟨l1, p, v, l2, hfind, rfl, -, -⟩
  · rw [hfind] at hrun
    cases hrun
  simp only [hfind, h.linked.get, bind_eq_bind, bind_some] at hrun
  have hv : v ∈ (l1 ++ (p, v) :: l2).map Prod.snd := by simp
  have hne := h.ok.nonempty v hv
  have hword := h.ok.word v hv
  refine ⟨v, hv, ?_⟩
  by_cases hstart : v.vmStart = old
  swap
  · rw [if_pos hstart] at hrun
    cases hrun
  refine ⟨hstart, ?_⟩
  rw [if_neg (not_not.mpr hstart), wrapSub_of_le hne.le hword] at hrun
  obtain ⟨m, hm, hmem⟩ := h.mem_areas_write (v.upTo (wrap (v.vmStart + nsize)))
  by_cases hle : nsize ≤ v.vmEnd - v.vmStart
  · rw [if_pos hle] at hrun
    left
    refine ⟨hle, ?_⟩
    have hwrite : vmaWrite (s.unmapPageRange v.vmEnd (wrapSub (wrap (v.vmStart + nsize)) v.vmEnd)).mgr p
        (v.upTo (wrap (v.vmStart + nsize))) = some m := hm
    simp only [hwrite, bind_some, Option.pure_def, Option.some.injEq, Prod.mk.injEq,
      Except.ok.injEq] at hrun
    obtain ⟨rfl, rfl⟩ := hrun
    refine ⟨hstart.symm, hmem, ?_, rfl⟩
    -- the size is negative, so that the loop ends before its first iteration
    have hstop : wrap (v.vmEnd + wrapSub (wrap (v.vmStart + nsize)) v.vmEnd) - v.vmEnd = 0 := by
      unfold wrap wrapSub
      omega
    show setPages s.pages v.vmEnd (replicate (pageCount (wrap (v.vmEnd +
      wrapSub (wrap (v.vmStart + nsize)) v.vmEnd) - v.vmEnd)) none) = s.pages
    rw [hstop]
    rfl
  · rw [if_neg hle] at hrun
    right
    refine ⟨not_le.mp hle, ?_⟩
    rcases h.findIntersection_cases v.vmEnd (wrap (v.vmStart + nsize)) with
      ⟨hnone, hmeet⟩ | ⟨k1, q, w, k2, hmeets, hl, hw⟩
    · left
      have hwrite : vmaWrite (s.pageMapRange v.vmEnd (wrap (s.virtToPhys old + (v.vmEnd - v.vmStart)))
          (wrapSub (wrap (v.vmStart + nsize)) v.vmEnd) v.vmFlags).mgr p
            (v.upTo (wrap (v.vmStart + nsize))) = some m := hm
      simp only [hnone, hwrite, bind_some, Option.pure_def, Option.some.injEq, Prod.mk.injEq,
        Except.ok.injEq] at hrun
      obtain ⟨rfl, rfl⟩ := hrun
      refine ⟨hmeet, hstart.symm, hmem, ?_, rfl⟩
      rw [show v.size = v.vmEnd - v.vmStart from rfl, hstart]
    · right
      refine ⟨⟨w, ?_, hw⟩, ?_⟩
      · rw [hl]
        simp
      rw [hmeets, bind_some] at hrun
      dsimp only at hrun
      by_cases hmay : hasFlag flags mremapMayMove = true
      swap
      · rw [if_pos (by simpa using hmay)] at hrun
        cases hrun
      rw [if_neg (by simpa using hmay)] at hrun
      rcases h.findFree_cases nsize with hnofit | ⟨a, hfound, hfirst⟩
      · rw [hnofit] at hrun
        cases hrun
      rw [hfound, bind_some, ← hstart] at hrun
      obtain rfl := mremapMove_ret hrun
      exact ⟨hfirst, hrun⟩

end Calls

end CoolPotOS
