import CoolPotOS.Mem.VmaUnmap
import CoolPotOS.Mem.MemSys

namespace CoolPotOS

open LinkedList List Option Prod

/-- The cells of `ps` make up the list of the manager, and the areas are well formed. -/
structure Inv (mgr : VmaManager) (ps : List (ℕ × Vma)) : Prop extends Rep mgr ps where
  ok : AreasOk (ps.map Prod.snd)

/-- The list is well formed again, and the bytes are counted right if `counted` holds. -/
structure Keeps (counted : Prop) (mgr : VmaManager) (ps : List (ℕ × Vma)) (mgr' : VmaManager)
    (ps' : List (ℕ × Vma)) : Prop where
  inv : Inv mgr' ps'
  heap : mgr'.heap = mgr.heap
  count : counted → mgr.vmUsed = total (ps.map Prod.snd) → mgr'.vmUsed = total (ps'.map Prod.snd)

section Edits

variable {mgr mgr' mgr'' : VmaManager} {ps ps' ps'' l1 l2 : List (ℕ × Vma)} {p q : ℕ} {v w : Vma}

theorem Keeps.trans {c : Prop} (h : Keeps c mgr ps mgr' ps') (h' : Keeps c mgr' ps' mgr'' ps'') :
    Keeps c mgr ps mgr'' ps'' :=
  ⟨h'.inv, h'.heap.trans h.heap, fun hc hu => h'.count hc (h.count hc hu)⟩

theorem Keeps.mono {c c' : Prop} (h : Keeps c mgr ps mgr' ps') (hc : c' → c) :
    Keeps c' mgr ps mgr' ps' := ⟨h.inv, h.heap, fun h' => h.count (hc h')⟩

theorem Inv.keeps (h : Inv mgr ps) (c : Prop) : Keeps c mgr ps mgr ps := ⟨h, rfl, fun _ hu => hu⟩

theorem Inv.keeps_malloc (h : Inv mgr ps) (c : Prop) (n : ℕ) :
    Keeps c mgr ps { mgr with mallocs := mgr.mallocs + n } ps :=
  ⟨⟨⟨h.linked, fun x hx => (h.lt x hx).trans_le (Nat.le_add_right _ _)⟩, h.ok⟩, rfl, fun _ hu => hu⟩

theorem Inv.keeps_free (h : Inv mgr ps) (c : Prop) (hq : q ∉ ps.map fst) :
    Keeps c mgr ps (vmaFree mgr q) ps :=
  ⟨⟨⟨h.linked.free hq, h.lt⟩, h.ok⟩, rfl, fun _ hu => hu⟩

theorem Inv.size_le_total (h : Inv mgr (l1 ++ (p, v) :: l2)) : wrapSub v.vmEnd v.vmStart = v.size ∧
      total ((l1 ++ (p, v) :: l2).map snd) = total ((l1 ++ l2).map snd) + v.size := by
  have hv := h.ok.nonempty v (by simp)
  have hw := h.ok.word v (by simp)
  refine ⟨wrapSub_of_le hv.le hw, ?_⟩
  simp only [map_append, map_cons, total_append, total_cons]
  omega

theorem Inv.remove (h : Inv mgr (l1 ++ (p, v) :: l2)) :
    ∃ mgr', (vmaRemove mgr (some p)).map (fun m => vmaFree m p) = some mgr' ∧
      Keeps True mgr (l1 ++ (p, v) :: l2) mgr' (l1 ++ l2) ∧ mgr'.mallocs = mgr.mallocs ∧
      ∀ q, q ∉ (l1 ++ (p, v) :: l2).map fst → mgr'.list.cells q = mgr.list.cells q := by
  obtain ⟨d, hd, hl, hf⟩ := vmaRemove_eq h.linked
  obtain ⟨hsize, htotal⟩ := h.size_le_total
  refine ⟨{ mgr with
      list := d.free p, vmUsed := wrapSub mgr.vmUsed (wrapSub v.vmEnd v.vmStart) },
    by rw [hd]; rfl, ⟨⟨⟨hl, fun x hx => h.lt x ?_⟩, ?_⟩, rfl, fun _ hu => ?_⟩, rfl, hf⟩
  · simp only [mem_append, mem_cons] at hx ⊢
    tauto
  · have hok := h.ok
    rw [map_append, map_cons] at hok
    have := hok.replace partsOf_nil
    rwa [append_nil, ← map_append] at this
  · show wrapSub mgr.vmUsed (wrapSub v.vmEnd v.vmStart) = _
    have hlt := h.ok.total_lt
    rw [hsize, wrapSub_of_le (by omega) (by omega)]
    omega

theorem mem_insertArea {x y : ℕ × Vma} : y ∈ insertArea x ps ↔ y = x ∨ y ∈ ps := by
  conv_rhs => rw [← takeWhile_append_dropWhile (l := ps) (p := startsBefore x.2.vmStart)]
  simp only [insertArea, mem_append, mem_cons]
  tauto

theorem Inv.insert {node : Node Vma} (h : Inv mgr ps) (hq : q ∉ ps.map fst)
    (hlt : q < mgr.mallocs) (hc : mgr.list.cells q = some node)
    (hne : node.data.vmStart < node.data.vmEnd) (hword : node.data.vmEnd < 2 ^ 64)
    (hmeet : ∀ v ∈ ps.map snd, v.meets node.data.vmStart node.data.vmEnd = false) :
    ∃ mgr', vmaInsert mgr q = some (mgr', true) ∧
      Keeps True mgr ps mgr' (insertArea (q, node.data) ps) ∧ mgr'.mallocs = mgr.mallocs := by
  obtain ⟨d, hd, hl⟩ := vmaInsert_eq h.toRep hq hc hmeet
  have hok : AreasOk ((insertArea (q, node.data) ps).map snd) := h.ok.insertArea hne hword hmeet
  refine ⟨_, hd, ⟨⟨⟨hl, fun x hx => ?_⟩, hok⟩, rfl, fun _ hu => ?_⟩, rfl⟩
  · rcases mem_insertArea.mp hx with rfl | hx
    · exact hlt
    · exact h.lt x hx
  · show wrap (mgr.vmUsed + wrapSub node.data.vmEnd node.data.vmStart) = _
    have htotal := hok.total_lt
    rw [total_insertArea] at htotal ⊢
    rw [wrapSub_of_le hne.le hword, hu]
    exact wrap_of_lt htotal

theorem Inv.write (h : Inv mgr (l1 ++ (p, v) :: l2)) (hok : AreasOk ((l1 ++ (p, w) :: l2).map snd)) :
    ∃ mgr', vmaWrite mgr p w = some mgr' ∧
      Keeps (w.size = v.size) mgr (l1 ++ (p, v) :: l2) mgr' (l1 ++ (p, w) :: l2) := by
  obtain ⟨d, hd, hl⟩ := vmaWrite_eq h.linked w
  refine ⟨_, hd, ⟨⟨hl, fun x hx => ?_⟩, hok⟩, rfl, fun hs hu => ?_⟩
  · rcases mem_append.mp hx with hx | hx
    · exact h.lt x (mem_append_left _ hx)
    · rcases mem_cons.mp hx with rfl | hx
      · exact h.lt (p, v) (by simp)
      · exact h.lt x (by simp [hx])
  · show mgr.vmUsed = _
    rw [hu]
    simp only [map_append, map_cons, total_append, total_cons, hs]

theorem Inv.split (h : Inv mgr (l1 ++ (p, v) :: l2)) (addr : ℕ) :
    ∃ mgr' ok, vmaSplit mgr p addr = some (mgr', ok) ∧
      ((ok = false ∧ Keeps True mgr (l1 ++ (p, v) :: l2) mgr' (l1 ++ (p, v) :: l2)) ∨
        (ok = true ∧ v.vmStart < addr ∧ addr < v.vmEnd ∧ Keeps True mgr (l1 ++ (p, v) :: l2) mgr'
          (l1 ++ (p, v.upTo addr) :: (mgr.mallocs, v.from addr) :: l2))) := by
  by_cases hin : addr ≤ v.vmStart ∨ addr ≥ v.vmEnd
  · exact ⟨mgr, false, vmaSplit_outside h.linked hin, .inl ⟨rfl, h.keeps True⟩⟩
  have h1 : v.vmStart < addr := by omega
  have h2 : addr < v.vmEnd := by omega
  by_cases hheap : mgr.heap mgr.mallocs = true
  · obtain ⟨d, hd, hr⟩ := vmaSplit_eq h.toRep h1 h2 hheap
    have hparts : PartsOf v [v.upTo addr, v.from addr] :=
      partsOf_pair (partsOf_singleton le_rfl h1 h2.le) (partsOf_singleton h1.le h2 le_rfl) le_rfl
    have hok := h.ok
    rw [map_append, map_cons] at hok
    refine ⟨_, true, hd, .inr ⟨rfl, h1, h2, ⟨hr, ?_⟩, rfl, fun _ hu => ?_⟩⟩
    · simpa using hok.replace hparts
    · show mgr.vmUsed = _
      rw [hu]
      simp only [map_append, map_cons, total_append, total_cons, Vma.size,
        Vma.upTo_vmStart, Vma.upTo_vmEnd, Vma.from_vmStart, Vma.from_vmEnd]
      omega
  · exact ⟨_, false, vmaSplit_fails h.linked h1 h2 (by simpa using hheap), .inl ⟨rfl, h.keeps_malloc True 1⟩⟩

theorem Inv.allocNew (h : Inv mgr ps) (v : Vma) (hheap : mgr.heap mgr.mallocs = true) :
    ∃ m m' : VmaManager, vmaAlloc mgr = (m, some mgr.mallocs) ∧
      vmaWrite m mgr.mallocs v = some m' ∧ Keeps True mgr ps m' ps ∧
      m'.list.cells mgr.mallocs = some ⟨v, none, none⟩ ∧ mgr.mallocs < m'.mallocs := by
  have hnew : (mgr.list.alloc mgr.mallocs freshVma).cells mgr.mallocs =
      some ⟨freshVma, none, none⟩ := Function.update_self _ _ _
  obtain ⟨d, hd, hl, hc, -⟩ := (h.linked.alloc h.fresh freshVma).setData_unlinked h.fresh hnew v
  refine ⟨_, { mgr with list := d, mallocs := mgr.mallocs + 1 }, by rw [vmaAlloc, if_pos hheap], ?_,
    ⟨⟨⟨hl, fun x hx => Nat.lt_succ_of_lt (h.lt x hx)⟩, h.ok⟩, rfl, fun _ hu => hu⟩, hc,
    Nat.lt_succ_self _⟩
  simp only [vmaWrite, hd, map_some]

end Edits

variable {stop a : ℕ} {flags addr : BitVec 64} {fdOpen : Bool} {vs : List Vma}

section Mmap

variable {mgr : VmaManager} {ps : List (ℕ × Vma)}

theorem Inv.dropRegion_cases (h : Inv mgr ps) (start stop : ℕ) :
    ∃ mgr' ps', dropRegion mgr start stop = some mgr' ∧ Keeps True mgr ps mgr' ps' ∧
      mgr'.mallocs = mgr.mallocs ∧ (∀ y ∈ ps', y ∈ ps) ∧
      ((∀ v ∈ ps.map snd, v.meets start stop = false) → ps' = ps) ∧
      ∀ q, q ∉ ps.map fst → mgr'.list.cells q = mgr.list.cells q := by
  rcases h.findIntersection_cases start stop with ⟨hfind, -⟩ | ⟨l1, p, w, l2, hfind, rfl, hw⟩
  · exact ⟨mgr, ps, by rw [dropRegion, hfind]; rfl, h.keeps True, rfl, fun _ hy => hy, fun _ => rfl,
      fun _ _ => rfl⟩
  · obtain ⟨m, hm, hk, hmallocs, hf⟩ := h.remove
    refine ⟨m, l1 ++ l2, by rw [dropRegion, hfind]; exact hm, hk, hmallocs, fun y hy => ?_,
      fun hfree => ?_, hf⟩
    · rw [mem_append] at hy
      rw [mem_append, mem_cons]
      tauto
    · rw [hfree w (by simp)] at hw
      cases hw

/-- The lowest page address from `USER_MMAP_START` on at which `len` bytes meet no area. -/
def FirstFit (vs : List Vma) (len a : ℕ) : Prop :=
  ∃ k, a = userMmapStart + k * pageSize ∧ a ≤ kernelAreaMem ∧
    (∀ v ∈ vs, v.meets a (wrap (a + len)) = false) ∧
    ∀ j < k, ∃ v ∈ vs, v.meets (userMmapStart + j * pageSize)
      (wrap (userMmapStart + j * pageSize + len)) = true

theorem Rep.searchWalk_cases (h : Rep mgr ps) (len : ℕ) {fuel k : ℕ}
    (hle : userMmapStart + k * pageSize ≤ kernelAreaMem)
    (hfuel : kernelAreaMem < userMmapStart + (k + fuel) * pageSize)
    (hk : ∀ j < k, ∃ v ∈ ps.map snd, v.meets (userMmapStart + j * pageSize)
      (wrap (userMmapStart + j * pageSize + len)) = true) :
    searchWalk mgr len fuel (userMmapStart + k * pageSize) = some none ∨
      ∃ a, searchWalk mgr len fuel (userMmapStart + k * pageSize) = some (some a) ∧
        FirstFit (ps.map snd) len a := by
  induction fuel generalizing k with
  | zero =>
    rw [Nat.add_zero] at hfuel
    omega
  | succ fuel ih =>
    rcases h.findIntersection_cases (userMmapStart + k * pageSize)
      (wrap (userMmapStart + k * pageSize + len)) with ⟨hfind, hmeet⟩ | ⟨l1, p, v, l2, hfind, rfl, hv⟩
    · refine .inr ⟨_, ?_, k, rfl, hle, hmeet, hk⟩
      simp only [searchWalk, hfind, bind_eq_bind, bind_some, Option.pure_def]
    · have hnext : userMmapStart + k * pageSize + pageSize = userMmapStart + (k + 1) * pageSize := by
        ring
      simp only [searchWalk, hfind, bind_eq_bind, bind_some, Option.pure_def, hnext]
      split_ifs with hend
      · exact .inl rfl
      · refine ih (not_lt.mp hend) (by rw [show k + 1 + fuel = k + (fuel + 1) by omega]; exact hfuel)
          fun j hj => ?_
        rcases Nat.lt_succ_iff_lt_or_eq.mp hj with hj | rfl
        · exact hk j hj
        · exact ⟨v, by simp, hv⟩

theorem Rep.findFree_cases (h : Rep mgr ps) (len : ℕ) : findFree mgr len = some none ∨
      ∃ a, findFree mgr len = some (some a) ∧ FirstFit (ps.map snd) len a := by
  have hfuel : kernelAreaMem < userMmapStart + (0 + searchFuel) * pageSize := by decide
  have hwalk := h.searchWalk_cases len (k := 0) (by decide) hfuel (by simp)
  simpa only [findFree, Nat.zero_mul, Nat.add_zero] using hwalk

/-- `vma_unmap_range` and the loop of `munmap`. The bytes are counted if no area is
truncated without counting. -/
theorem Inv.keeps_unmapRange (h : Inv mgr ps) {cutEnd cutStart : ℕ → Vma → ℕ × Vma} {start : ℕ}
    (hc : Cuts start stop cutEnd cutStart)
    (hsafe : SplitsSafe mgr.heap mgr.mallocs start stop (ps.map snd)) :
    ∃ mgr' ps', unmapWalk cutEnd cutStart start stop mgr.mallocs mgr mgr.list.head = some mgr' ∧
      Keeps (∀ v ∈ ps.map snd, v.oneSided start stop →
        cutEnd = cutEndCounted start ∧ cutStart = cutStartCounted stop) mgr ps mgr' ps' := by
  obtain ⟨d, hd, hr⟩ := unmapWalk_eq cutEnd cutStart [] (by simpa using h.toRep) h.length_le h.ok.sorted hsafe
  rw [h.linked.head]
  refine ⟨_, _, hd, ⟨hr, unmapList_ok hc [] (by simpa using h.ok)⟩, rfl, fun hcut hu => ?_⟩
  have hlt := h.ok.total_lt
  have hlt' : mgr.vmUsed < 2 ^ 64 := hu ▸ hlt
  set a := unmapList cutEnd cutStart start stop mgr.heap ps mgr.vmUsed mgr.mallocs
  have hused : a.used + total (ps.map snd) = mgr.vmUsed + total (a.out.map snd) :=
    unmapList_used h.ok hu.ge hlt' hcut
  show a.used = _
  rw [nil_append]
  omega

def Opens (flags : BitVec 64) (fdOpen : Bool) : Prop :=
  hasFlag flags mapAnonymous = true ∨ fdOpen = true

/-- The new mapping does not wrap around the end of the address space, and an area
around the range of a fixed mapping can be split. -/
def MmapSafe (mgr : VmaManager) (addr length flags : BitVec 64) (fdOpen : Bool) : Prop :=
  let addr := paddingDown addr.toNat
  let len := paddingUp length.toNat
  checkUserOverflow addr len = false → len ≠ 0 →
    if hasFlag flags mapFixed then
      addr ≠ 0 → SplitsSafe mgr.heap mgr.mallocs addr (wrap (addr + len)) mgr.areas ∧
        (Opens flags fdOpen → addr + len < 2 ^ 64)
    else if addr ≠ 0 then
      (∀ v ∈ mgr.areas, v.meets addr (wrap (addr + len)) = false) → Opens flags fdOpen →
        addr + len < 2 ^ 64
    else ∀ a, FirstFit mgr.areas len a → Opens flags fdOpen → a + len < 2 ^ 64

theorem mmapVma_range {len : ℕ} (h : a + len < 2 ^ 64) (prot flags : BitVec 64) (fd : ℤ) (offset : BitVec 64) :
    (mmapVma a len prot flags fd offset).vmStart = a ∧ (mmapVma a len prot flags fd offset).vmEnd = a + len := by
  unfold mmapVma
  rw [wrap_of_lt h]
  split_ifs <;> exact ⟨rfl, rfl⟩

/-- How `mmap` ends after the choice of the address. When it is `ready`, the area in the way is thrown out,
and the new area is linked unless yet another one is in the way. -/
inductive Inserted (ready : Prop) (id : ℕ) (v : Vma) (ps : List (ℕ × Vma)) :
    List (ℕ × Vma) → Except Errno ℕ → Prop
  | unchanged (hready : ¬ready) (e : Errno) : Inserted ready id v ps ps (.error e)
  | linked {ps' : List (ℕ × Vma)} (hready : ready) (hsub : ∀ y ∈ ps', y ∈ ps)
      (hsame : (∀ w ∈ ps.map Prod.snd, w.meets v.vmStart v.vmEnd = false) → ps' = ps) (c : ℕ) :
      Inserted ready id v ps (insertArea (id, v) ps') (.ok c)
  | refused {ps' : List (ℕ × Vma)} (hready : ready) (hsub : ∀ y ∈ ps', y ∈ ps)
      (hmeet : ¬∀ w ∈ ps.map Prod.snd, w.meets v.vmStart v.vmEnd = false) (e : Errno) :
      Inserted ready id v ps ps' (.error e)

theorem Inv.mmapAt_cases (h : Inv mgr ps) {len : ℕ} (hlen : len ≠ 0) (prot : BitVec 64) (fd : ℤ)
    (offset : BitVec 64) (mapped : ℕ) (hwrap : Opens flags fdOpen → a + len < 2 ^ 64) :
    ∃ mgr' r ps', mmapAt mgr a len prot flags fd offset fdOpen mapped = some (mgr', r) ∧
      Keeps True mgr ps mgr' ps' ∧ Inserted (Opens flags fdOpen ∧ mgr.heap mgr.mallocs = true) mgr.mallocs
        (mmapVma a len prot flags fd offset) ps ps' r := by
  have hopens : Opens flags fdOpen ↔ (!hasFlag flags mapAnonymous && !fdOpen) = false := by
    unfold Opens
    cases hasFlag flags mapAnonymous <;> cases fdOpen <;> simp
  unfold mmapAt
  by_cases hfd : (!hasFlag flags mapAnonymous && !fdOpen) = true
  · rw [if_pos hfd]
    refine ⟨mgr, _, ps, rfl, h.keeps True, .unchanged (fun hready => ?_) _⟩
    rw [hopens.mp hready.1] at hfd
    cases hfd
  rw [if_neg hfd]
  replace hopens := hopens.mpr (Bool.not_eq_true _ ▸ hfd)
  by_cases hheap : mgr.heap mgr.mallocs = true
  swap
  · refine ⟨_, .error .nomem, ps, ?_, h.keeps_malloc True 1, .unchanged (fun hready => hheap hready.2) _⟩
    rw [mmapInsert, vmaAlloc, if_neg hheap]
  obtain ⟨hstart, hend⟩ := mmapVma_range (hwrap hopens) prot flags fd offset
  set v := mmapVma a len prot flags fd offset with hvdef
  obtain ⟨m, m1, halloc, hwrite, hk1, hc1, hlt1⟩ := h.allocNew v hheap
  obtain ⟨m2, ps2, hdrop, hk2, hmallocs, hsub, hsame, hcells⟩ := hk1.inv.dropRegion_cases v.vmStart v.vmEnd
  have hout : mgr.mallocs ∉ ps2.map fst := fun hp => h.fresh (map_subset fst hsub hp)
  have hc2 := (hcells _ h.fresh).trans hc1
  rw [← hmallocs] at hlt1
  rw [hstart, hend, ← wrap_of_lt (hwrap hopens)] at hdrop
  by_cases hmeet : ∀ w ∈ ps2.map snd, w.meets v.vmStart v.vmEnd = false
  · obtain ⟨m3, hins, hk3, -⟩ := hk2.inv.insert hout hlt1 hc2 (show v.vmStart < v.vmEnd by omega)
      (hend ▸ hwrap hopens) hmeet
    refine ⟨m3, .ok (if !hasFlag flags mapAnonymous then mapped else a), _, ?_, (hk1.trans hk2).trans hk3,
      .linked ⟨hopens, hheap⟩ hsub hsame _⟩
    simp only [mmapInsert, halloc, ← hvdef, hwrite, hdrop, hins, bind_eq_bind,
      bind_some, Option.pure_def, Bool.not_true, Bool.false_eq_true, if_false]
    split_ifs <;> rfl
  · have hins := vmaInsert_refused hk2.inv.toRep hc2 (by simpa using hmeet)
    refine ⟨vmaFree m2 mgr.mallocs, .error .nomem, ps2, ?_,
      (hk1.trans hk2).trans (hk2.inv.keeps_free True hout), .refused ⟨hopens, hheap⟩ hsub (fun hfree => hmeet ?_) _⟩
    · simp only [mmapInsert, halloc, ← hvdef, hwrite, hdrop, hins, bind_eq_bind,
        bind_some, Option.pure_def, Bool.not_false, if_true]
    · rw [hsame hfree]
      exact hfree

/-- The address at which `mmap` puts a new area when no area is in the way. -/
inductive MmapChosen (mgr : VmaManager) (flags : BitVec 64) (a len : ℕ) : ℕ → Prop
  | fixed (hfixed : hasFlag flags mapFixed = true) (ha : a ≠ 0)
      (hmeet : ∀ v ∈ mgr.areas, v.meets a (wrap (a + len)) = false) : MmapChosen mgr flags a len a
  | hint (hfixed : ¬hasFlag flags mapFixed = true) (ha : a ≠ 0)
      (hmeet : ∀ v ∈ mgr.areas, v.meets a (wrap (a + len)) = false) : MmapChosen mgr flags a len a
  | search {b : ℕ} (hfixed : ¬hasFlag flags mapFixed = true) (ha : a = 0)
      (hfind : findFree mgr len = some (some b)) (hfit : FirstFit mgr.areas len b) : MmapChosen mgr flags a len b

theorem Inv.mmap_cases (h : Inv mgr ps) (addr length prot flags : BitVec 64) (fd : ℤ) (offset : BitVec 64)
    (fdOpen : Bool) (mapped : ℕ) :
    let a := paddingDown addr.toNat
    let len := paddingUp length.toNat
    (∃ e, mmap mgr addr length prot flags fd offset fdOpen mapped = some (mgr, .error e)) ∨
      checkUserOverflow a len = false ∧ len ≠ 0 ∧
        ((∃ b, MmapChosen mgr flags a len b ∧ mmap mgr addr length prot flags fd offset fdOpen mapped =
            mmapAt mgr b len prot flags fd offset fdOpen mapped) ∨
          hasFlag flags mapFixed = true ∧ a ≠ 0 ∧ (∃ v ∈ mgr.areas, v.meets a (wrap (a + len)) = true) ∧
            mmap mgr addr length prot flags fd offset fdOpen mapped =
              (vmaUnmapRange mgr a (wrap (a + len))).bind fun m =>
                mmapAt m a len prot flags fd offset fdOpen mapped) := by
  intro a len
  have hareas := h.areas_eq
  simp only [mmap, Option.pure_def, bind_eq_bind]
  by_cases hover : checkUserOverflow a len = true
  · exact .inl ⟨.fault, if_pos hover⟩
  by_cases hlen : len = 0
  · exact .inl ⟨.inval, by rw [if_neg hover, if_pos hlen]⟩
  rw [if_neg hover, if_neg hlen]
  by_cases hfixed : hasFlag flags mapFixed = true
  · rw [if_pos hfixed]
    by_cases ha : a = 0
    · exact .inl ⟨.inval, if_pos ha⟩
    rw [if_neg ha]
    refine .inr ⟨by simpa using hover, hlen, ?_⟩
    rcases h.findIntersection_cases a (wrap (a + len)) with ⟨hfind, hmeet⟩ | ⟨l1, p, w, l2, hfind, hps, hw⟩
    · exact .inl ⟨a, .fixed hfixed ha (hareas ▸ hmeet), by rw [hfind]; rfl⟩
    · exact .inr ⟨hfixed, ha, ⟨w, by simp [hareas, hps], hw⟩, by rw [hfind]; rfl⟩
  · rw [if_neg hfixed]
    by_cases ha : a = 0
    · rw [if_neg (not_not.mpr ha)]
      rcases h.findFree_cases len with hfind | ⟨b, hfind, hfit⟩
      · exact .inl ⟨.nomem, by rw [hfind]; rfl⟩
      · exact .inr ⟨by simpa using hover, hlen, .inl ⟨b, .search hfixed ha hfind (hareas ▸ hfit), by rw [hfind]; rfl⟩⟩
    · rw [if_pos ha]
      rcases h.findIntersection_cases a (wrap (a + len)) with ⟨hfind, hmeet⟩ | ⟨l1, p, w, l2, hfind, -, -⟩
      · exact .inr ⟨by simpa using hover, hlen, .inl ⟨a, .hint hfixed ha (hareas ▸ hmeet), by rw [hfind]; rfl⟩⟩
      · exact .inl ⟨.nomem, by rw [hfind]; rfl⟩

theorem MmapSafe.chosen {length : BitVec 64} {b : ℕ} (h : MmapSafe mgr addr length flags fdOpen)
    (hover : checkUserOverflow (paddingDown addr.toNat) (paddingUp length.toNat) = false)
    (hlen : paddingUp length.toNat ≠ 0)
    (hb : MmapChosen mgr flags (paddingDown addr.toNat) (paddingUp length.toNat) b)
    (hopens : Opens flags fdOpen) : b + paddingUp length.toNat < 2 ^ 64 := by
  replace h := h hover hlen
  cases hb with
  | fixed hfixed ha => exact (if_pos hfixed ▸ h) ha |>.2 hopens
  | hint hfixed ha hmeet =>
    rw [if_neg hfixed, if_pos ha] at h
    exact h hmeet hopens
  | search hfixed ha _ hfit =>
    rw [if_neg hfixed, if_neg (not_not.mpr ha)] at h
    exact h b hfit hopens

theorem Inv.keeps_mmap (h : Inv mgr ps) {length prot : BitVec 64} {fd : ℤ} {offset : BitVec 64} {mapped : ℕ}
    (hsafe : MmapSafe mgr addr length flags fdOpen) :
    ∃ mgr' r ps', mmap mgr addr length prot flags fd offset fdOpen mapped = some (mgr', r) ∧
      Keeps True mgr ps mgr' ps' := by
  rcases h.mmap_cases addr length prot flags fd offset fdOpen mapped with
    ⟨e, hrun⟩ | ⟨hover, hlen, ⟨b, hb, hrun⟩ | ⟨hfixed, ha, -, hrun⟩⟩
  · exact ⟨mgr, .error e, ps, hrun, h.keeps True⟩
  · obtain ⟨m, r, ps', hm, hk, -⟩ := h.mmapAt_cases hlen prot fd offset mapped (hsafe.chosen hover hlen hb)
    exact ⟨m, r, ps', hrun.trans hm, hk⟩
  · obtain ⟨hsplits, hnowrap⟩ := (if_pos hfixed ▸ hsafe hover hlen) ha
    rw [h.areas_eq] at hsplits
    obtain ⟨m, ps1, hm, hk⟩ := h.keeps_unmapRange (cuts_counted _ _) hsplits
    obtain ⟨m', r, ps2, hm', hk', -⟩ := hk.inv.mmapAt_cases hlen prot fd offset mapped hnowrap
    refine ⟨m', r, ps2, ?_, (hk.mono fun _ _ _ _ => ⟨rfl, rfl⟩).trans hk'⟩
    rw [hrun, vmaUnmapRange, hm]
    exact hm'

end Mmap

theorem cuts_plain (start stop : ℕ) : Cuts start stop (cutEndPlain start) (cutStartPlain stop) :=
  ⟨fun _ _ => rfl, fun _ _ => ⟨rfl, rfl⟩⟩

def MunmapSafe (mgr : VmaManager) (addr size : BitVec 64) : Prop :=
  let start := paddingDown addr.toNat
  let len := paddingUp size.toNat
  size ≠ 0 → checkUserOverflow start len = false →
    SplitsSafe mgr.heap mgr.mallocs start (wrap (start + len)) mgr.areas

def MunmapCounted (mgr : VmaManager) (addr size : BitVec 64) : Prop :=
  let start := paddingDown addr.toNat
  let len := paddingUp size.toNat
  size ≠ 0 → checkUserOverflow start len = false →
    ∀ v ∈ mgr.areas, ¬v.oneSided start (wrap (start + len))

theorem Inv.keeps_munmap {mgr : VmaManager} {ps : List (ℕ × Vma)} (h : Inv mgr ps) {size : BitVec 64}
    (hsafe : MunmapSafe mgr addr size) : ∃ mgr' r ps', munmap mgr addr size = some (mgr', r) ∧
      Keeps (MunmapCounted mgr addr size) mgr ps mgr' ps' := by
  unfold MunmapSafe at hsafe
  unfold MunmapCounted munmap
  rw [h.areas_eq] at hsafe ⊢
  by_cases hsize : size = 0
  · exact ⟨mgr, .ok 0, ps, if_pos hsize, h.keeps _⟩
  set start := paddingDown addr.toNat
  set len := paddingUp size.toNat
  by_cases hover : checkUserOverflow start len = true
  · exact ⟨mgr, .error .fault, ps, by simp only [if_neg hsize, if_pos hover], h.keeps _⟩
  have hover' : checkUserOverflow start len = false := by simpa using hover
  obtain ⟨m, ps', hm, hk⟩ := h.keeps_unmapRange (cuts_plain start (wrap (start + len))) (hsafe hsize hover')
  refine ⟨m, .ok 0, ps', ?_, hk.mono fun hcount v hv hone => ?_⟩
  · simp only [if_neg hsize, if_neg hover, munmapRange, hm, bind_eq_bind, bind_some,
      Option.pure_def]
  · exact absurd hone (hcount hsize hover' v hv)

section Mremap

variable {mgr : VmaManager} {ps l1 l2 : List (ℕ × Vma)} {p : ℕ} {v : Vma}

/-- The area keeps at least a page, and neither its new end nor its new place wraps
around the end of the address space. -/
def MremapSafe (mgr : VmaManager) (oldAddr newSize flags : BitVec 64) : Prop :=
  let newSize := paddingUp newSize.toNat
  ∀ v ∈ mgr.areas, v.vmStart = paddingDown oldAddr.toNat →
    newSize ≠ 0 ∧ (v.size < newSize → v.vmStart + newSize < 2 ^ 64 ∧
      ((∃ w ∈ mgr.areas, w.meets v.vmEnd (v.vmStart + newSize) = true) →
        hasFlag flags mremapMayMove = true →
          ∀ a, FirstFit mgr.areas newSize a → a + newSize < 2 ^ 64))

/-- The area is not resized in place, and when it moves, no area is truncated on one
side by the unmapping of the old range. -/
def MremapCounted (mgr : VmaManager) (oldAddr oldSize newSize flags : BitVec 64) : Prop :=
  let old := paddingDown oldAddr.toNat
  let oldSize := paddingUp oldSize.toNat
  let newSize := paddingUp newSize.toNat
  ∀ v ∈ mgr.areas, v.vmStart = old →
    v.size ≤ newSize ∧ (v.size < newSize →
      (∃ w ∈ mgr.areas, w.meets v.vmEnd (v.vmStart + newSize) = true) ∧
      (hasFlag flags mremapMayMove = true → ∀ a, FirstFit mgr.areas newSize a →
        oldSize ≠ 0 → checkUserOverflow old oldSize = false →
          ∀ w, w ∈ mgr.areas ∨ w = v.movedTo a newSize → ¬w.oneSided old (wrap (old + oldSize))))

theorem AreasOk.shrink {ws : List Vma} (h : AreasOk (vs ++ v :: ws)) (h1 : v.vmStart < stop)
    (h2 : stop ≤ v.vmEnd) : AreasOk (vs ++ v.upTo stop :: ws) := by
  have := h.replace (partsOf_singleton (w := v.upTo stop) le_rfl h1 h2)
  simpa using this

theorem AreasOk.grow {ws : List Vma} (h : AreasOk (vs ++ v :: ws)) (h1 : v.vmEnd < stop) (h2 : stop < 2 ^ 64)
    (hmeet : ∀ w ∈ vs ++ v :: ws, w.meets v.vmEnd stop = false) : AreasOk (vs ++ v.upTo stop :: ws) := by
  obtain ⟨hl, hr, hlr⟩ := areasOk_append.mp h
  obtain ⟨hv1, -, hr', hv3⟩ := areasOk_cons.mp hr
  refine areasOk_append.mpr ⟨hl, areasOk_cons.mpr ⟨hv1.trans h1, h2, hr', fun b hb => ?_⟩,
    fun a ha b hb => ?_⟩
  · have hm := Vma.meets_eq_false.mp (hmeet b (by simp [hb]))
    have hb1 := hr'.nonempty b hb
    have hb2 := hv3 b hb
    show stop ≤ b.vmStart
    omega
  · rcases mem_cons.mp hb with rfl | hb
    · exact hlr a ha v mem_cons_self
    · exact hlr a ha b (mem_cons_of_mem v hb)

theorem AreasOk.not_spans (h : AreasOk vs) (hv : v ∈ vs) {w : Vma} (hw : w ∈ vs) (stop : ℕ) :
    ¬w.spans v.vmStart stop := by
  rintro ⟨h1, h2, -, -⟩
  have := h.end_le_of_start_lt hv hw h1
  omega

theorem paddingDown_idem (n : ℕ) : paddingDown (paddingDown n) = paddingDown n :=
  paddingDown_of_dvd (Nat.dvd_mul_left _ _)

theorem paddingDown_le (n : ℕ) : paddingDown n ≤ n := Nat.div_mul_le_self n pageSize

theorem paddingUp_idem (n : ℕ) : paddingUp (paddingUp n) = paddingUp n :=
  paddingUp_of_dvd (Nat.dvd_mul_left _ _) ((paddingDown_le _).trans_lt (wrap_lt _))

theorem paddingUp_lt (n : ℕ) : paddingUp n < 2 ^ 64 := (paddingDown_le _).trans_lt (wrap_lt _)

theorem Inv.keeps_mremapMove (h : Inv mgr ps) (hv : v ∈ ps.map snd) {old oldSize newSize : ℕ}
    (hstart : v.vmStart = old) (hold : paddingDown old = old) (holdSize : paddingUp oldSize = oldSize)
    (hnew : newSize ≠ 0) (hwrap : a + newSize < 2 ^ 64)
    (hfree : ∀ w ∈ ps.map snd, w.meets a (a + newSize) = false) :
    ∃ mgr' r ps', mremapMove mgr v a old oldSize newSize = some (mgr', r) ∧
      Keeps (oldSize ≠ 0 → checkUserOverflow old oldSize = false →
        ∀ w, w ∈ ps.map snd ∨ w = v.movedTo a newSize → ¬w.oneSided old (wrap (old + oldSize)))
        mgr ps mgr' ps' := by
  by_cases hheap : mgr.heap mgr.mallocs = true
  swap
  · refine ⟨_, .error .nomem, ps, ?_, h.keeps_malloc _ 1⟩
    rw [mremapMove, vmaAlloc, if_neg hheap]
  have hword := h.ok.word v hv
  have hend : (v.movedTo a newSize).vmEnd = a + newSize := wrap_of_lt hwrap
  have hne : (v.movedTo a newSize).vmStart < (v.movedTo a newSize).vmEnd := by
    rw [hend]
    exact Nat.lt_add_of_pos_right (Nat.pos_of_ne_zero hnew)
  obtain ⟨m, m1, halloc, hwrite, hk1, hc1, hlt1⟩ := h.allocNew (v.movedTo a newSize) hheap
  obtain ⟨m2, hins, hk2, -⟩ := hk1.inv.insert h.fresh hlt1 hc1 hne (hend.trans_lt hwrap)
    (by rw [hend]; exact hfree)
  have hareas := hk2.inv.areas_eq
  have hmem : ∀ w, w ∈ m2.areas ↔ w ∈ ps.map snd ∨ w = v.movedTo a newSize := by
    intro w
    rw [hareas]
    simp only [List.mem_map, mem_insertArea, Prod.exists]
    aesop
  have hvold : v.vmStart < v.vmEnd := h.ok.nonempty v hv
  have hold64 : old % 2 ^ 64 = old := Nat.mod_eq_of_lt (by omega)
  have hsize64 : oldSize % 2 ^ 64 = oldSize := Nat.mod_eq_of_lt (holdSize ▸ paddingUp_lt oldSize)
  have hsafe : MunmapSafe m2 (BitVec.ofNat 64 old) (BitVec.ofNat 64 oldSize) := by
    intro _ _
    rw [BitVec.toNat_ofNat, BitVec.toNat_ofNat, hold64, hsize64, hold, holdSize, ← hstart]
    refine splitsSafe_of_not_spans fun w hw => ?_
    rw [hareas] at hw
    refine hk2.inv.ok.not_spans ?_ hw _
    rw [← hareas]
    exact (hmem v).mpr (.inl hv)
  obtain ⟨m3, r, ps3, hunmap, hk3⟩ := hk2.inv.keeps_munmap hsafe
  refine ⟨m3, .ok a, ps3, ?_, ((hk1.trans hk2).mono fun _ => trivial).trans (hk3.mono ?_)⟩
  · simp only [mremapMove, halloc, hwrite, hins, hunmap, bind_eq_bind, bind_some,
      Option.pure_def, Bool.not_true, Bool.false_eq_true, if_false]
  · intro hcount hsize hover w hw
    rw [BitVec.toNat_ofNat, BitVec.toNat_ofNat, hold64, hsize64, hold, holdSize] at hover ⊢
    exact hcount (fun e => hsize (by rw [e]; rfl)) hover w ((hmem w).mp hw)

theorem Inv.keeps_mremap (h : Inv mgr ps) {oldAddr oldSize newSize : BitVec 64}
    (hsafe : MremapSafe mgr oldAddr newSize flags) :
    ∃ mgr' r ps', mremap mgr oldAddr oldSize newSize flags = some (mgr', r) ∧
      Keeps (MremapCounted mgr oldAddr oldSize newSize flags) mgr ps mgr' ps' := by
  unfold MremapSafe at hsafe
  unfold MremapCounted mremap
  rw [h.areas_eq] at hsafe ⊢
  set old := paddingDown oldAddr.toNat
  have hold : paddingDown old = old := paddingDown_idem _
  set osize := paddingUp oldSize.toNat
  have hosize : paddingUp osize = osize := paddingUp_idem _
  set nsize := paddingUp newSize.toNat
  dsimp only at hsafe ⊢
  rcases h.find_cases old with ⟨hfind, -⟩ | ⟨l1, p, v, l2, hfind, rfl, -, -⟩
  · exact ⟨mgr, .error .inval, ps, by rw [hfind]; rfl, h.keeps _⟩
  simp only [hfind, h.linked.get, bind_eq_bind, bind_some]
  by_cases hstart : v.vmStart = old
  swap
  · exact ⟨mgr, .error .inval, _, if_pos hstart, h.keeps _⟩
  have hv : v ∈ (l1 ++ (p, v) :: l2).map snd := by simp
  have hne := h.ok.nonempty v hv
  have hword := h.ok.word v hv
  have hok := h.ok
  rw [map_append, map_cons] at hok
  obtain ⟨hnew, hgrow⟩ := hsafe v hv hstart
  simp only [ne_eq, hstart, not_true, if_false]
  rw [← hstart, wrapSub_of_le hne.le hword]
  by_cases hle : nsize ≤ v.size
  · -- the area is truncated
    have hsize : v.vmStart + nsize ≤ v.vmEnd := by
      unfold Vma.size at hle
      omega
    have hnowrap : wrap (v.vmStart + nsize) = v.vmStart + nsize := wrap_of_lt (by omega)
    have hpos : v.vmStart < v.vmStart + nsize := by omega
    obtain ⟨m, hm, hk⟩ := h.write (w := v.upTo (v.vmStart + nsize)) (by
      rw [map_append, map_cons]
      exact hok.shrink hpos hsize)
    refine ⟨m, .ok v.vmStart, _, ?_, hk.mono fun hcount => ?_⟩
    · rw [if_pos (show nsize ≤ v.vmEnd - v.vmStart from hle), hnowrap, hm]
      rfl
    · have := (hcount v hv rfl).1
      unfold Vma.size at hle this ⊢
      simp only [Vma.upTo_vmStart, Vma.upTo_vmEnd]
      omega
  · rw [if_neg (show ¬nsize ≤ v.vmEnd - v.vmStart from hle)]
    obtain ⟨hlt, hmove⟩ := hgrow (not_le.mp hle)
    rw [wrap_of_lt hlt]
    rcases h.findIntersection_cases v.vmEnd (v.vmStart + nsize) with
      ⟨hfree, hmeet⟩ | ⟨k1, q, w, k2, hmeets, hl, hw⟩
    · -- the area grows over free addresses
      have hmore : v.vmEnd < v.vmStart + nsize := by
        unfold Vma.size at hle
        omega
      obtain ⟨m, hm, hk⟩ := h.write (w := v.upTo (v.vmStart + nsize)) (by
        rw [map_append, map_cons] at hmeet ⊢
        exact hok.grow hmore hlt hmeet)
      refine ⟨m, .ok v.vmStart, _, by simp only [hfree, hm]; rfl, hk.mono fun hcount => ?_⟩
      obtain ⟨w, hw, hw'⟩ := ((hcount v hv rfl).2 (not_le.mp hle)).1
      rw [hmeet w hw] at hw'
      cases hw'
    · have hwmem : w ∈ (l1 ++ (p, v) :: l2).map snd := by
        rw [hl]
        simp
      simp only [hmeets, bind_some]
      by_cases hmay : hasFlag flags mremapMayMove = true
      swap
      · exact ⟨mgr, .error .nomem, _, by rw [if_pos (by simpa using hmay)]; rfl, h.keeps _⟩
      rw [if_neg (by simpa using hmay)]
      rcases h.findFree_cases nsize with hfit | ⟨a, hfit, hfirst⟩
      · exact ⟨mgr, .error .nomem, _, by rw [hfit]; rfl, h.keeps _⟩
      have hawrap := hmove ⟨w, hwmem, hw⟩ hmay a hfirst
      obtain ⟨k, -, -, hfree, -⟩ := id hfirst
      rw [wrap_of_lt hawrap] at hfree
      obtain ⟨m, r, ps', hm, hk⟩ := h.keeps_mremapMove hv hstart hold hosize hnew hawrap hfree
      rw [← hstart] at hm hk
      refine ⟨m, r, ps', by simpa only [hfit, bind_some] using hm, hk.mono fun hcount => ?_⟩
      exact ((hcount v hv rfl).2 (not_le.mp hle)).2 hmay a hfirst

end Mremap

end CoolPotOS
