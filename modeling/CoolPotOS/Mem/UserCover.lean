import CoolPotOS.Mem.VmaCalls
import CoolPotOS.Mem.UserSpace

namespace CoolPotOS

open Function List Prod

section Pages

variable {pages : PageEntries} {va j k : ℕ} {es : List (Option (ℕ × BitVec 64))}

theorem pageIndex_of_lt (h : va < 2 ^ 48) : pageIndex va = va / pageSize := by
  unfold pageIndex pageSize
  omega

theorem setPages_outside (h : va + es.length * pageSize ≤ 2 ^ 48)
    (hj : j < va / pageSize ∨ va / pageSize + es.length ≤ j) : setPages pages va es j = pages j := by
  induction es generalizing pages va with
  | nil => rfl
  | cons e es ih =>
    rw [length_cons] at h hj
    unfold pageSize at h hj ih
    have hnext : wrap (va + 4096) = va + 4096 := wrap_of_lt (by omega)
    show setPages (update pages (pageIndex va) e) (wrap (va + pageSize)) es j = pages j
    unfold pageSize
    rw [hnext, ih (by omega) (by omega), pageIndex_of_lt (by omega), update_of_ne]
    unfold pageSize
    omega

theorem setPages_inside (h : va + es.length * pageSize ≤ 2 ^ 48) (hlow : va / pageSize ≤ j)
    (hhigh : j < va / pageSize + es.length) : setPages pages va es j ∈ es := by
  induction es generalizing pages va with
  | nil =>
    rw [length_nil] at hhigh
    omega
  | cons e es ih =>
    rw [length_cons] at h hhigh
    unfold pageSize at h hlow hhigh ih
    have hnext : wrap (va + 4096) = va + 4096 := wrap_of_lt (by omega)
    show setPages (update pages (pageIndex va) e) (wrap (va + pageSize)) es j ∈ e :: es
    unfold pageSize
    rw [hnext]
    by_cases hj : j = va / 4096
    · -- the page of this iteration, which the later ones leave alone
      have hout : setPages (update pages (pageIndex va) e) (va + 4096) es j =
          update pages (pageIndex va) e j := by
        apply setPages_outside
        · unfold pageSize
          omega
        · unfold pageSize
          omega
      have hidx : pageIndex va = j := by
        rw [pageIndex_of_lt (by omega), hj]
        rfl
      rw [hout, hidx, update_self]
      exact mem_cons_self
    · exact mem_cons_of_mem _ (ih (by omega) (by omega) (by omega))

theorem setPages_get (h : va + es.length * pageSize ≤ 2 ^ 48) (hk : k < es.length) :
    setPages pages va es (va / pageSize + k) = es[k] := by
  induction es generalizing pages va k with
  | nil => exact absurd hk (Nat.not_lt_zero k)
  | cons e es ih =>
    rw [length_cons] at h hk
    unfold pageSize at h ih ⊢
    have hnext : wrap (va + pageSize) = va + 4096 := wrap_of_lt (by unfold pageSize; omega)
    show setPages (update pages (pageIndex va) e) (wrap (va + pageSize)) es (va / 4096 + k) = _
    rw [hnext]
    cases k with
    | zero =>
      -- the later iterations leave the page alone
      have hidx : pageIndex va = va / 4096 := pageIndex_of_lt (by omega)
      rw [setPages_outside, hidx]
      · exact update_self _ _ _
      · unfold pageSize
        omega
      · unfold pageSize
        omega
    | succ k =>
      rw [show va / 4096 + (k + 1) = (va + 4096) / 4096 + k by omega]
      apply ih
      omega

end Pages

def VirtPage.Covers (e : VirtPage) (x : ℕ) : Prop := e.start ≤ x ∧ x < e.start + e.count * pageSize

/-- The entry starts at a page and ends at or below the limit. -/
def VirtPage.Below (limit : ℕ) (e : VirtPage) : Prop :=
  pageSize ∣ e.start ∧ e.start + e.count * pageSize ≤ limit

variable {p : VirtPage} {ps : List (ℕ × Vma)} {limit : ℕ} {flags addr : BitVec 64} {fdOpen : Bool}

section Queue

variable {e : VirtPage} {queue : List VirtPage} {limit vaddr stop x : ℕ}

theorem VirtPage.Below.stop_eq (h : e.Below limit) (hl : limit < 2 ^ 64) :
    e.stop = e.start + e.count * pageSize := wrap_of_lt (h.2.trans_lt hl)

theorem virtPieces_spec (h : e.Below limit) (hl : limit < 2 ^ 64) (hvaddr : pageSize ∣ vaddr)
    (hstop : pageSize ∣ stop) (hmeets : e.meets vaddr stop = true) (hp : p ∈ virtPieces vaddr stop e) :
    p.Below limit ∧ p.meets vaddr stop = false ∧ ∀ x, p.Covers x → e.Covers x := by
  have hend := h.stop_eq hl
  obtain ⟨⟨a, ha⟩, hle⟩ := h
  obtain ⟨b, hb⟩ := hvaddr
  obtain ⟨c, hc⟩ := hstop
  rw [VirtPage.meets, decide_eq_true_eq, hend] at hmeets
  -- the two pieces that can be left
  have hleft : vaddr > e.start → p = { e with count := (vaddr - e.start) / pageSize } →
      p.Below limit ∧ p.meets vaddr stop = false ∧ ∀ x, p.Covers x → e.Covers x := by
    intro hgt heq
    have hcount : p.start + p.count * pageSize = vaddr := by
      rw [heq]
      show e.start + (vaddr - e.start) / pageSize * pageSize = vaddr
      unfold pageSize at *
      omega
    have hstart : p.start = e.start := by rw [heq]
    have hbelow : p.Below limit := by
      refine ⟨⟨a, hstart.trans ha⟩, ?_⟩
      omega
    refine ⟨hbelow, ?_, fun x hx => ?_⟩
    · rw [VirtPage.meets, decide_eq_false_iff_not, hbelow.stop_eq hl, hcount]
      omega
    · unfold VirtPage.Covers at hx ⊢
      omega
  have hright : stop < e.stop → p = { e with start := stop, count := (e.stop - stop) / pageSize } →
      p.Below limit ∧ p.meets vaddr stop = false ∧ ∀ x, p.Covers x → e.Covers x := by
    intro hlt heq
    have hcount : p.start + p.count * pageSize = e.start + e.count * pageSize := by
      rw [heq]
      show stop + (e.stop - stop) / pageSize * pageSize = _
      rw [hend] at hlt ⊢
      unfold pageSize at *
      omega
    have hstart : p.start = stop := by rw [heq]
    refine ⟨⟨⟨c, hstart.trans hc⟩, hcount.trans_le hle⟩, ?_, fun x hx => ?_⟩
    · rw [VirtPage.meets, decide_eq_false_iff_not, hstart]
      omega
    · unfold VirtPage.Covers at hx ⊢
      omega
  unfold virtPieces at hp
  split_ifs at hp with h1 h2 h3
  · cases hp
  · exact hright h2.2 (mem_singleton.mp hp)
  · exact hleft h3.1 (mem_singleton.mp hp)
  · rw [mem_cons, mem_singleton] at hp
    obtain hp | hp := hp
    · exact hleft (by omega) hp
    · exact hright (by omega) hp

theorem virtPieces_pteFlags (hp : p ∈ virtPieces vaddr stop e) : p.pteFlags = e.pteFlags := by
  simp only [virtPieces] at hp
  split_ifs at hp
  · cases hp
  · rw [mem_singleton.mp hp]
  · rw [mem_singleton.mp hp]
  · rw [mem_cons, mem_singleton] at hp
    obtain rfl | rfl := hp <;> rfl

/-- The loop of `unmap_virtual_page` leaves only entries that do not meet the range, each a part of one
that was there. -/
theorem unmapVirtualWalk_spec {fuel : ℕ} (hl : limit < 2 ^ 64) (hvaddr : pageSize ∣ vaddr)
    (hstop : pageSize ∣ stop) (hq : ∀ e ∈ queue, e.Below limit)
    (hfuel : queue.countP (VirtPage.meets vaddr stop) ≤ fuel) :
    ∀ p ∈ unmapVirtualWalk vaddr stop fuel queue, p.Below limit ∧ p.meets vaddr stop = false ∧
      ∃ e ∈ queue, p.pteFlags = e.pteFlags ∧ ∀ x, p.Covers x → e.Covers x := by
  induction fuel generalizing queue with
  | zero =>
    intro p hp
    have hnone := countP_eq_zero.mp (Nat.le_zero.mp hfuel) p hp
    exact ⟨hq p hp, Bool.not_eq_true _ ▸ hnone, p, hp, rfl, fun _ hx => hx⟩
  | succ fuel ih =>
    rw [unmapVirtualWalk]
    split
    case h_1 hnone =>
      intro p hp
      exact ⟨hq p hp, findIdx?_eq_none_iff.mp hnone p hp, p, hp, rfl, fun _ hx => hx⟩
    case h_2 k hk =>
      obtain ⟨hlt, hmeets, -⟩ := findIdx?_eq_some_iff_getElem.mp hk
      set e := queue[k] with he
      have hmem : e ∈ queue := getElem_mem hlt
      rw [List.getElem?_eq_getElem hlt, Option.map_some, Option.getD_some, ← he]
      have hpieces : ∀ p ∈ virtPieces vaddr stop e, p.Below limit ∧ p.meets vaddr stop = false ∧
          ∀ x, p.Covers x → e.Covers x :=
        fun p hp => virtPieces_spec (hq e hmem) hl hvaddr hstop hmeets hp
      have hperm := getElem_cons_eraseIdx_perm hlt
      have hcount := hperm.countP_eq (VirtPage.meets vaddr stop)
      rw [countP_cons_of_pos hmeets] at hcount
      have hzero : (virtPieces vaddr stop e).countP (VirtPage.meets vaddr stop) = 0 := by
        refine countP_eq_zero.mpr fun p hp => ?_
        rw [(hpieces p hp).2.1]
        exact Bool.false_ne_true
      intro p hp
      have hback : ∀ q ∈ queue.eraseIdx k ++ virtPieces vaddr stop e, q.Below limit ∧
          ∃ e ∈ queue, q.pteFlags = e.pteFlags ∧ ∀ x, q.Covers x → e.Covers x := by
        intro q hqmem
        obtain hqmem | hqmem := mem_append.mp hqmem
        · have hqueue := mem_of_mem_eraseIdx hqmem
          exact ⟨hq q hqueue, q, hqueue, rfl, fun _ hx => hx⟩
        · exact ⟨(hpieces q hqmem).1, e, hmem, virtPieces_pteFlags hqmem, (hpieces q hqmem).2.2⟩
      obtain ⟨h1, h2, q, hqmem, hflags, hqx⟩ := ih (fun q hqmem => (hback q hqmem).1)
        (by rw [countP_append, hzero]; omega) p hp
      obtain ⟨e', he', hflags', hx'⟩ := (hback q hqmem).2
      exact ⟨h1, h2, e', he', hflags.trans hflags', fun x hx => hx' x (hqx x hx)⟩

theorem unmapVirtualPage_parts {length : ℕ} (hl : limit < 2 ^ 64) (hvaddr : pageSize ∣ vaddr)
    (hlen : pageSize ∣ length) (hrange : vaddr + length < 2 ^ 64) (hq : ∀ e ∈ queue, e.Below limit) :
    ∀ p ∈ unmapVirtualPage queue vaddr length, p.Below limit ∧
      (∃ e ∈ queue, p.pteFlags = e.pteFlags ∧ ∀ x, p.Covers x → e.Covers x) ∧
      ∀ x, p.Covers x → ¬(vaddr ≤ x ∧ x < vaddr + length) := by
  intro p hp
  rw [unmapVirtualPage, wrap_of_lt hrange] at hp
  obtain ⟨h1, h2, h3⟩ := unmapVirtualWalk_spec hl hvaddr (dvd_add hvaddr hlen) hq countP_le_length p hp
  refine ⟨h1, h3, fun x hx => ?_⟩
  rw [VirtPage.meets, decide_eq_false_iff_not, h1.stop_eq hl] at h2
  unfold VirtPage.Covers at hx
  omega

theorem unmapVirtualPage_spec {length : ℕ} (hl : limit < 2 ^ 64) (hvaddr : pageSize ∣ vaddr)
    (hlen : pageSize ∣ length) (hrange : vaddr + length < 2 ^ 64) (hq : ∀ e ∈ queue, e.Below limit) :
    ∀ p ∈ unmapVirtualPage queue vaddr length, p.Below limit ∧ ∀ x, p.Covers x →
      (∃ e ∈ queue, e.Covers x) ∧ ¬(vaddr ≤ x ∧ x < vaddr + length) := by
  intro p hp
  obtain ⟨h1, ⟨e, he, -, hcovers⟩, hout⟩ := unmapVirtualPage_parts hl hvaddr hlen hrange hq p hp
  exact ⟨h1, fun x hx => ⟨⟨e, he, hcovers x hx⟩, hout x hx⟩⟩

theorem faultPieces_pteFlags {i : ℕ} (hp : p ∈ UserSpace.faultPieces e i) : p.pteFlags = e.pteFlags := by
  unfold UserSpace.faultPieces at hp
  obtain hp | hp := mem_append.mp hp
  · split_ifs at hp
    · rw [mem_singleton.mp hp]
    · cases hp
  · split_ifs at hp
    · rw [mem_singleton.mp hp]
    · cases hp

theorem faultPieces_spec (h : e.Below limit) (hl : limit < 2 ^ 64) {i : ℕ} (hi : i < e.count)
    (hp : p ∈ UserSpace.faultPieces e i) : p.Below limit ∧ ∀ x, p.Covers x → e.Covers x := by
  obtain ⟨hdvd, hle⟩ := h
  have hpage : (i + 1) * pageSize ≤ e.count * pageSize := Nat.mul_le_mul_right _ hi
  have hstart : wrap (e.start + (i + 1) * pageSize) = e.start + (i + 1) * pageSize := wrap_of_lt (by omega)
  unfold UserSpace.faultPieces at hp
  obtain hp | hp := mem_append.mp hp
  · split_ifs at hp with hpos
    · obtain rfl := mem_singleton.mp hp
      have hcount : i * pageSize ≤ e.count * pageSize := Nat.mul_le_mul_right _ hi.le
      refine ⟨⟨hdvd, ?_⟩, fun x hx => ?_⟩
      · show e.start + i * pageSize ≤ limit
        omega
      · obtain ⟨hlow, hhigh⟩ : e.start ≤ x ∧ x < e.start + i * pageSize := hx
        exact ⟨hlow, by omega⟩
    · cases hp
  · split_ifs at hp with hlt
    · obtain rfl := mem_singleton.mp hp
      rw [hstart]
      have hrest : (i + 1) * pageSize + (e.count - i - 1) * pageSize = e.count * pageSize := by
        rw [← Nat.add_mul]
        congr 1
        omega
      refine ⟨⟨dvd_add hdvd (Nat.dvd_mul_left _ _), ?_⟩, fun x hx => ?_⟩
      · show e.start + (i + 1) * pageSize + (e.count - i - 1) * pageSize ≤ limit
        omega
      · obtain ⟨hlow, hhigh⟩ : e.start + (i + 1) * pageSize ≤ x ∧
            x < e.start + (i + 1) * pageSize + (e.count - i - 1) * pageSize := hx
        exact ⟨by omega, by omega⟩
    · cases hp

end Queue

def Covered (vs : List Vma) (x : ℕ) : Prop := ∃ v ∈ vs, v.vmStart ≤ x ∧ x < v.vmEnd

section Areas

variable {vs ws : List Vma} {v : Vma} {x start stop : ℕ}

theorem covered_append : Covered (vs ++ ws) x ↔ Covered vs x ∨ Covered ws x := by
  unfold Covered
  simp only [mem_append, or_and_right, exists_or]

theorem covered_cons : Covered (v :: vs) x ↔ (v.vmStart ≤ x ∧ x < v.vmEnd) ∨ Covered vs x := by
  unfold Covered
  simp only [mem_cons, or_and_right, exists_or, exists_eq_left]

theorem covered_nil : ¬Covered [] x := by
  rintro ⟨v, hv, -⟩
  cases hv

theorem meets_eq_false_of_covered (hne : ∀ v ∈ vs, v.vmStart < v.vmEnd)
    (hfree : ∀ x, start ≤ x → x < stop → ¬Covered vs x) (hv : v ∈ vs) (hss : start < stop) :
    v.meets start stop = false := by
  rw [Vma.meets_eq_false]
  by_contra hmeets
  have hlt := hne v hv
  refine hfree (max v.vmStart start) (le_max_right _ _) ?_ ⟨v, hv, le_max_left _ _, ?_⟩
  · exact max_lt (by omega) hss
  · exact max_lt hlt (by omega)

theorem not_covered_of_meets (hmeets : ∀ v ∈ vs, v.meets start stop = false) (h1 : start ≤ x)
    (h2 : x < stop) : ¬Covered vs x := by
  rintro ⟨v, hv, hx⟩
  have hfalse := Vma.meets_eq_false.mp (hmeets v hv)
  omega

end Areas

section Unmap

variable {cutEnd cutStart : ℕ → Vma → ℕ × Vma} {start stop : ℕ} {heap : ℕ → Bool} {used n p x : ℕ} {v : Vma}

theorem unmapArea_covered (hc : Cuts start stop cutEnd cutStart)
    (hheap : v.spans start stop → start < stop ∧ heap n = true ∧ heap (n + 1) = true) :
    Covered ((unmapArea cutEnd cutStart start stop heap used n p v).out.map snd) x ↔
      Covered [v] x ∧ ¬(start ≤ x ∧ x < stop) := by
  obtain ⟨hstart, hend⟩ := hc.startAt used v
  unfold unmapArea
  by_cases h1 : v.vmStart ≥ start ∧ v.vmEnd ≤ stop
  · simp only [if_pos h1, map_nil, covered_cons, covered_nil, or_false, false_iff]
    omega
  rw [if_neg h1]
  by_cases h2 : v.vmEnd ≤ start ∨ v.vmStart ≥ stop
  · simp only [if_pos h2, map_cons, map_nil, covered_cons, covered_nil, or_false]
    omega
  rw [if_neg h2]
  by_cases h3 : v.vmStart < start ∧ v.vmEnd > stop
  · obtain ⟨hss, hn, hn'⟩ := hheap (by unfold Vma.spans; omega)
    simp only [if_pos h3, unmapSpanned, hn, hn', hss, if_true, map_cons, map_nil,
      covered_cons, covered_nil, or_false, Vma.upTo_vmStart, Vma.upTo_vmEnd, Vma.from_vmStart,
      Vma.from_vmEnd]
    omega
  rw [if_neg h3]
  by_cases h4 : v.vmStart < start
  · simp only [if_pos h4, hc.endAt, map_cons, map_nil, covered_cons, covered_nil, or_false,
      Vma.upTo_vmStart, Vma.upTo_vmEnd]
    omega
  · simp only [if_neg h4, map_cons, map_nil, covered_cons, covered_nil, or_false, hstart, hend]
    omega

theorem unmapArea_sub (hc : Cuts start stop cutEnd cutStart) (hv : v.vmStart < v.vmEnd)
    (hx : Covered ((unmapArea cutEnd cutStart start stop heap used n p v).out.map snd) x) :
    Covered [v] x := by
  obtain ⟨w, hw, hwx⟩ := hx
  have hinside := (unmapArea_parts hc hv).inside w hw
  exact ⟨v, mem_singleton_self v, by omega⟩

def Vma.Aligned (v : Vma) : Prop := pageSize ∣ v.vmStart ∧ pageSize ∣ v.vmEnd

theorem unmapArea_aligned (hc : Cuts start stop cutEnd cutStart) (hstart : pageSize ∣ start)
    (hstop : pageSize ∣ stop) (hv : v.Aligned) :
    ∀ w ∈ (unmapArea cutEnd cutStart start stop heap used n p v).out.map snd, w.Aligned := by
  obtain ⟨hstart', hend'⟩ := hc.startAt used v
  have hupTo : ∀ b, pageSize ∣ b → (v.upTo b).Aligned := fun b hb => ⟨hv.1, hb⟩
  have hfrom : ∀ b, pageSize ∣ b → (v.from b).Aligned := fun b hb => ⟨hb, hv.2⟩
  intro w hw
  unfold unmapArea unmapSpanned at hw
  split_ifs at hw
  all_goals simp only [map_nil, map_cons, mem_cons, not_mem_nil, or_false] at hw
  · rw [hw]
    exact hv
  · obtain rfl | rfl := hw
    · exact hupTo start hstart
    · exact hfrom stop hstop
  · rw [hw]
    exact hupTo stop hstop
  · rw [hw]
    exact hupTo stop hstop
  · rw [hw]
    exact hupTo start hstart
  · rw [hw]
    exact hv
  · rw [hw, hc.endAt]
    exact hupTo start hstart
  · rw [hw]
    exact ⟨hstart' ▸ hstop, hend' ▸ hv.2⟩

theorem unmapList_aligned (hc : Cuts start stop cutEnd cutStart) (hstart : pageSize ∣ start)
    (hstop : pageSize ∣ stop) (h : ∀ v ∈ ps.map snd, v.Aligned) :
    ∀ w ∈ (unmapList cutEnd cutStart start stop heap ps used n).out.map snd, w.Aligned := by
  induction ps generalizing used n with
  | nil => exact h
  | cons y ps ih =>
    intro w hw
    rw [map_cons] at h
    simp only [unmapList, map_append, mem_append] at hw
    obtain hw | hw := hw
    · exact unmapArea_aligned hc hstart hstop (h y.2 mem_cons_self) w hw
    · exact ih (fun v hv => h v (mem_cons_of_mem _ hv)) w hw

theorem unmapArea_mallocs_le : n ≤ (unmapArea cutEnd cutStart start stop heap used n p v).mallocs ∧
    (unmapArea cutEnd cutStart start stop heap used n p v).mallocs ≤ n + 2 := by
  unfold unmapArea unmapSpanned
  split_ifs <;> simp

theorem unmapList_sub (hc : Cuts start stop cutEnd cutStart) (h : AreasOk (ps.map snd))
    (hx : Covered ((unmapList cutEnd cutStart start stop heap ps used n).out.map snd) x) :
    Covered (ps.map snd) x := by
  induction ps generalizing used n with
  | nil => exact hx
  | cons y ps ih =>
    rw [map_cons] at h ⊢
    obtain ⟨h1, -, h3, -⟩ := areasOk_cons.mp h
    simp only [unmapList, map_append, covered_append] at hx
    obtain hx | hx := hx
    · obtain ⟨w, hw, hwx⟩ := unmapArea_sub hc h1 hx
      obtain rfl := mem_singleton.mp hw
      exact ⟨_, mem_cons_self, hwx⟩
    · obtain ⟨w, hw, hwx⟩ := ih h3 hx
      exact ⟨w, mem_cons_of_mem _ hw, hwx⟩

theorem unmapList_covered (hc : Cuts start stop cutEnd cutStart) (h : AreasOk (ps.map snd))
    (hheap : ∀ v ∈ ps.map snd, v.spans start stop → start < stop ∧ heap n = true ∧ heap (n + 1) = true) :
    Covered ((unmapList cutEnd cutStart start stop heap ps used n).out.map snd) x ↔
      Covered (ps.map snd) x ∧ ¬(start ≤ x ∧ x < stop) := by
  induction ps generalizing used n with
  | nil =>
    simp only [unmapList, map_nil]
    exact iff_of_false covered_nil fun hx => covered_nil hx.1
  | cons y ps ih =>
    rw [map_cons] at h hheap
    obtain ⟨h1, -, h3, h4⟩ := areasOk_cons.mp h
    have hrest : ∀ v ∈ ps.map snd, v.spans start stop → start < stop ∧
        heap (unmapArea cutEnd cutStart start stop heap used n y.1 y.2).mallocs = true ∧
        heap ((unmapArea cutEnd cutStart start stop heap used n y.1 y.2).mallocs + 1) = true := by
      intro w hw hspans
      by_cases hy : y.2.spans start stop
      · -- two areas of a sorted list are not both around the range
        have hyw := h4 w hw
        unfold Vma.spans at hy hspans
        omega
      · rw [unmapArea_mallocs _ _ hy]
        exact hheap w (mem_cons_of_mem _ hw) hspans
    have harea : Covered ((unmapArea cutEnd cutStart start stop heap used n y.1 y.2).out.map snd) x ↔
        Covered [y.2] x ∧ ¬(start ≤ x ∧ x < stop) :=
      unmapArea_covered hc (hheap y.2 mem_cons_self)
    simp only [unmapList, map_append, covered_append, map_cons, covered_cons]
    rw [harea, ih h3 hrest, covered_cons]
    simp only [covered_nil, or_false]
    tauto

theorem unmapList_mallocs_eq (h : ∀ v ∈ ps.map snd, ¬v.spans start stop) :
    (unmapList cutEnd cutStart start stop heap ps used n).mallocs = n := by
  induction ps generalizing used n with
  | nil => rfl
  | cons y ps ih =>
    rw [map_cons] at h
    simp only [unmapList]
    rw [ih fun v hv => h v (mem_cons_of_mem _ hv), unmapArea_mallocs _ _ (h y.2 mem_cons_self)]

theorem unmapList_mallocs_le (h : AreasOk (ps.map snd)) :
    n ≤ (unmapList cutEnd cutStart start stop heap ps used n).mallocs ∧
      (unmapList cutEnd cutStart start stop heap ps used n).mallocs ≤ n + 2 := by
  induction ps generalizing used n with
  | nil => exact ⟨le_refl n, Nat.le_add_right n 2⟩
  | cons y ps ih =>
    rw [map_cons] at h
    obtain ⟨h1, -, h3, h4⟩ := areasOk_cons.mp h
    simp only [unmapList]
    by_cases hy : y.2.spans start stop
    · rw [unmapList_mallocs_eq fun w hw hspans => ?_]
      · exact unmapArea_mallocs_le
      · have hle := h4 w hw
        unfold Vma.spans at hy hspans
        omega
    · rw [unmapArea_mallocs _ _ hy]
      exact ih h3

end Unmap

theorem dvd_wrap {n : ℕ} (h : pageSize ∣ n) : pageSize ∣ wrap n := by
  unfold wrap
  exact (Nat.dvd_mod_iff (by decide)).mpr h

/-- The list of areas is in order, and the areas start and end at pages. -/
structure PagedInv (mgr : VmaManager) (ps : List (ℕ × Vma)) : Prop extends Inv mgr ps where
  aligned : ∀ v ∈ ps.map Prod.snd, v.Aligned

section Calls

variable {mgr : VmaManager} {ps : List (ℕ × Vma)} {start stop a len : ℕ}

theorem PagedInv.unmapRange_covered (h : PagedInv mgr ps) {cutEnd cutStart : ℕ → Vma → ℕ × Vma}
    (hc : Cuts start stop cutEnd cutStart) (hstart : pageSize ∣ start) (hstop : pageSize ∣ stop)
    (hsafe : SplitsSafe mgr.heap mgr.mallocs start stop (ps.map snd)) :
    ∃ mgr' ps', unmapWalk cutEnd cutStart start stop mgr.mallocs mgr mgr.list.head = some mgr' ∧
      PagedInv mgr' ps' ∧ mgr'.heap = mgr.heap ∧
      (mgr.mallocs ≤ mgr'.mallocs ∧ mgr'.mallocs ≤ mgr.mallocs + 2) ∧
      ((∀ v ∈ ps.map snd, ¬v.spans start stop) → mgr'.mallocs = mgr.mallocs) ∧
      (∀ x, Covered (ps'.map snd) x → Covered (ps.map snd) x) ∧
      ((∀ v ∈ ps.map snd, v.spans start stop → start < stop ∧
          mgr.heap mgr.mallocs = true ∧ mgr.heap (mgr.mallocs + 1) = true) →
        ∀ x, Covered (ps'.map snd) x ↔ Covered (ps.map snd) x ∧ ¬(start ≤ x ∧ x < stop)) := by
  obtain ⟨d, hd, hr⟩ := unmapWalk_eq cutEnd cutStart [] (by simpa using h.toRep) h.length_le h.ok.sorted hsafe
  rw [h.linked.head]
  refine ⟨_, _, hd, ⟨⟨hr, unmapList_ok hc [] (by simpa using h.ok)⟩, ?_⟩, rfl, unmapList_mallocs_le h.ok,
    unmapList_mallocs_eq, ?_, ?_⟩
  · rw [nil_append]
    exact unmapList_aligned hc hstart hstop h.aligned
  · intro x hx
    rw [nil_append] at hx
    exact unmapList_sub hc h.ok hx
  · intro hheap x
    rw [nil_append]
    exact unmapList_covered hc h.ok hheap

theorem covered_insertArea {q x : ℕ} {v : Vma} : Covered ((insertArea (q, v) ps).map snd) x ↔
      Covered (ps.map snd) x ∨ v.vmStart ≤ x ∧ x < v.vmEnd := by
  unfold Covered
  constructor
  · rintro ⟨w, hw, hx⟩
    obtain ⟨y, hy, rfl⟩ := mem_map.mp hw
    obtain rfl | hy := mem_insertArea.mp hy
    · exact Or.inr hx
    · exact Or.inl ⟨y.2, mem_map_of_mem hy, hx⟩
  · rintro (⟨w, hw, hx⟩ | hx)
    · obtain ⟨y, hy, rfl⟩ := mem_map.mp hw
      exact ⟨y.2, mem_map_of_mem (mem_insertArea.mpr (Or.inr hy)), hx⟩
    · exact ⟨v, mem_map.mpr ⟨(q, v), mem_insertArea.mpr (Or.inl rfl), rfl⟩, hx⟩

/-- The new mapping ends at or below the limit, and an area around the range of a fixed mapping can be
split. -/
def MmapBelow (limit : ℕ) (mgr : VmaManager) (addr length flags : BitVec 64) (fdOpen : Bool) : Prop :=
  let addr := paddingDown addr.toNat
  let len := paddingUp length.toNat
  checkUserOverflow addr len = false → len ≠ 0 →
    if hasFlag flags mapFixed then
      addr ≠ 0 → SplitsSafe mgr.heap mgr.mallocs addr (wrap (addr + len)) mgr.areas ∧
        (Opens flags fdOpen → addr + len ≤ limit)
    else if addr ≠ 0 then
      (∀ v ∈ mgr.areas, v.meets addr (wrap (addr + len)) = false) → Opens flags fdOpen →
        addr + len ≤ limit
    else ∀ b, FirstFit mgr.areas len b → Opens flags fdOpen → b + len ≤ limit

/-- The allocations of a fixed mapping from `a` to `b` that replaces others succeed. -/
def FixedMemory (mgr : VmaManager) (flags : BitVec 64) (a b : ℕ) : Prop :=
  hasFlag flags mapFixed = true → (∃ v ∈ mgr.areas, v.meets a b = true) →
    mgr.heap mgr.mallocs = true ∧ ((∃ v ∈ mgr.areas, v.spans a b) →
      mgr.heap (mgr.mallocs + 1) = true ∧ mgr.heap (mgr.mallocs + 2) = true)

/-- `mmap` fails, and covers no new address. When the memory suffices, it changes nothing. -/
structure MmapFailed (mgr : VmaManager) (vs vs' : List Vma) (flags : BitVec 64) (a len : ℕ) : Prop where
  sub : ∀ x, Covered vs' x → Covered vs x
  same : hasFlag flags mapAnonymous = true → FixedMemory mgr flags a (a + len) → ∀ x, Covered vs x → Covered vs' x

/-- `mmap` covers the range at `b`, and a fixed mapping takes it from other areas. When the memory
suffices, nothing else changes. -/
structure MmapDone (limit : ℕ) (mgr : VmaManager) (vs vs' : List Vma) (flags : BitVec 64) (len b : ℕ) :
    Prop where
  dvd : pageSize ∣ b
  ne : len ≠ 0
  le : b + len ≤ limit
  range : ∀ x, b ≤ x → x < b + len → Covered vs' x
  sub : ∀ x, ¬(b ≤ x ∧ x < b + len) → Covered vs' x → Covered vs x
  free : hasFlag flags mapFixed = false → ∀ x, b ≤ x → x < b + len → ¬Covered vs x
  same : FixedMemory mgr flags b (b + len) → ∀ x, ¬(b ≤ x ∧ x < b + len) → Covered vs x → Covered vs' x

theorem covered_mono {qs : List (ℕ × Vma)} (h : ∀ y ∈ qs, y ∈ ps) {x : ℕ} (hx : Covered (qs.map snd) x) :
    Covered (ps.map snd) x := by
  obtain ⟨w, hw, hx⟩ := hx
  exact ⟨w, map_subset snd h hw, hx⟩

theorem PagedInv.mmapAt_covered (h : PagedInv mgr ps) (hlimit : limit < 2 ^ 64) (prot flags : BitVec 64)
    (fd : ℤ) (offset : BitVec 64) (fdOpen : Bool) (mapped : ℕ) (hlen : len ≠ 0) (hdvd : pageSize ∣ a)
    (hdvd' : pageSize ∣ len) (hle : Opens flags fdOpen → a + len ≤ limit) :
    ∃ mgr' r ps', mmapAt mgr a len prot flags fd offset fdOpen mapped = some (mgr', r) ∧ PagedInv mgr' ps' ∧
      (∀ x, Covered (ps'.map snd) x → Covered (ps.map snd) x ∨ a ≤ x ∧ x < a + len) ∧
      ((∃ b, r = .ok b) → a + len ≤ limit ∧ ∀ x, a ≤ x → x < a + len → Covered (ps'.map snd) x) ∧
      ((∃ e, r = .error e) → ∀ x, Covered (ps'.map snd) x → Covered (ps.map snd) x) ∧
      ((∀ v ∈ ps.map snd, v.meets a (wrap (a + len)) = false) →
        (∀ x, Covered (ps.map snd) x → Covered (ps'.map snd) x) ∧
        (hasFlag flags mapAnonymous = true → mgr.heap mgr.mallocs = true → ∃ b, r = .ok b)) := by
  have hwrap := fun ho : Opens flags fdOpen => (hle ho).trans_lt hlimit
  obtain ⟨mgr', r, ps', hrun, hk, hins⟩ := h.mmapAt_cases hlen prot fd offset mapped hwrap
  refine ⟨mgr', r, ps', hrun, ⟨hk.inv, ?_⟩, ?_⟩
  · cases hins with
    | unchanged _ _ => exact h.aligned
    | refused _ hsub _ _ => exact fun w hw => h.aligned w (map_subset snd hsub hw)
    | linked hready hsub _ _ =>
      obtain ⟨hstart, hend⟩ := mmapVma_range (hwrap hready.1) prot flags fd offset
      intro w hw
      obtain ⟨y, hy, rfl⟩ := mem_map.mp hw
      obtain rfl | hy := mem_insertArea.mp hy
      · exact ⟨hstart.symm ▸ hdvd, hend.symm ▸ dvd_add hdvd hdvd'⟩
      · exact h.aligned _ (mem_map_of_mem (hsub y hy))
  cases hins with
  | unchanged hready e =>
    refine ⟨fun x hx => Or.inl hx, nofun, fun _ x hx => hx, fun _ => ⟨fun x hx => hx, fun hanon hheap => ?_⟩⟩
    exact absurd ⟨Or.inl hanon, hheap⟩ hready
  | refused hready hsub hmeet e =>
    obtain ⟨hstart, hend⟩ := mmapVma_range (hwrap hready.1) prot flags fd offset
    refine ⟨fun x hx => Or.inl (covered_mono hsub hx), nofun, fun _ x hx => covered_mono hsub hx, fun hfree => ?_⟩
    exact absurd (by rwa [hstart, hend, ← wrap_of_lt (hwrap hready.1)]) hmeet
  | @linked ps' hready hsub hsame c =>
    obtain ⟨hstart, hend⟩ := mmapVma_range (hwrap hready.1) prot flags fd offset
    have hcov : ∀ x, Covered ((insertArea (mgr.mallocs, mmapVma a len prot flags fd offset) ps').map snd) x ↔
        Covered (ps'.map snd) x ∨ a ≤ x ∧ x < a + len := by
      intro x
      rw [covered_insertArea, hstart, hend]
    refine ⟨fun x hx => ((hcov x).mp hx).imp_left (covered_mono hsub),
      fun _ => ⟨hle hready.1, fun x h1 h2 => (hcov x).mpr (Or.inr ⟨h1, h2⟩)⟩, nofun, fun hfree => ⟨fun x hx => ?_, fun _ _ => ⟨c, rfl⟩⟩⟩
    refine (hcov x).mpr (Or.inl ?_)
    rw [hsame (by rwa [hstart, hend, ← wrap_of_lt (hwrap hready.1)])]
    exact hx

theorem PagedInv.mmapAt_free (h : PagedInv mgr ps) (hlimit : limit < 2 ^ 64) {prot : BitVec 64} {fd : ℤ}
    {offset : BitVec 64} {mapped : ℕ} (hlen : len ≠ 0) (hdvd : pageSize ∣ a) (hdvd' : pageSize ∣ len)
    (hle : Opens flags fdOpen → a + len ≤ limit)
    (hmeet : ∀ v ∈ ps.map snd, v.meets a (wrap (a + len)) = false) :
    ∃ mgr' r ps', mmapAt mgr a len prot flags fd offset fdOpen mapped = some (mgr', r) ∧ PagedInv mgr' ps' ∧
      ((∃ e, r = .error e) ∧ MmapFailed mgr (ps.map snd) (ps'.map snd) flags a len ∨
        (∃ b, r = .ok b) ∧ MmapDone limit mgr (ps.map snd) (ps'.map snd) flags len a) := by
  obtain ⟨mgr', r, ps', hrun, hinv, hsub, hrange, herr, hfree⟩ :=
    h.mmapAt_covered hlimit prot flags fd offset fdOpen mapped hlen hdvd hdvd' hle
  refine ⟨mgr', r, ps', hrun, hinv, ?_⟩
  cases r with
  | error e =>
    exact Or.inl ⟨⟨e, rfl⟩, herr ⟨e, rfl⟩, fun _ _ => (hfree hmeet).1⟩
  | ok b =>
    obtain ⟨hlim, hcov⟩ := hrange ⟨b, rfl⟩
    rw [wrap_of_lt (hlim.trans_lt hlimit)] at hmeet
    refine Or.inr ⟨⟨b, rfl⟩, hdvd, hlen, hlim, hcov, fun x hx hc => (hsub x hc).resolve_right hx,
      fun _ x h1 h2 => not_covered_of_meets hmeet h1 h2, fun _ x _ => ?_⟩
    rw [← wrap_of_lt (hlim.trans_lt hlimit)] at hmeet
    exact (hfree hmeet).1 x

theorem PagedInv.mmapAt_fixed (h : PagedInv mgr ps) (hlimit : limit < 2 ^ 64) {prot : BitVec 64} {fd : ℤ}
    {offset : BitVec 64} {mapped : ℕ} (hlen : len ≠ 0) (hdvd : pageSize ∣ a) (hdvd' : pageSize ∣ len)
    (hfixed : hasFlag flags mapFixed = true) (hle : Opens flags fdOpen → a + len ≤ limit)
    (hsplits : SplitsSafe mgr.heap mgr.mallocs a (wrap (a + len)) (ps.map snd))
    (hmeet : ∃ v ∈ ps.map snd, v.meets a (wrap (a + len)) = true) :
    ∃ m mgr' r ps', vmaUnmapRange mgr a (wrap (a + len)) = some m ∧
      mmapAt m a len prot flags fd offset fdOpen mapped = some (mgr', r) ∧ PagedInv mgr' ps' ∧
      ((∃ e, r = .error e) ∧ MmapFailed mgr (ps.map snd) (ps'.map snd) flags a len ∨
        (∃ b, r = .ok b) ∧ MmapDone limit mgr (ps.map snd) (ps'.map snd) flags len a) := by
  obtain ⟨m, ps1, hm, hinv1, hheap, ⟨hlow, hhigh⟩, hmallocs, hsub1, hiff⟩ :=
    h.unmapRange_covered (cuts_counted a (wrap (a + len))) hdvd (dvd_wrap (dvd_add hdvd hdvd')) hsplits
  obtain ⟨mgr', r, ps', hrun, hinv, hsub, hrange, herr, hfree⟩ :=
    hinv1.mmapAt_covered hlimit prot flags fd offset fdOpen mapped hlen hdvd hdvd' hle
  -- with enough memory the range is free afterwards, and the rest is untouched
  have hexact : FixedMemory mgr flags a (a + len) → a + len ≤ limit →
      (∀ v ∈ ps1.map snd, v.meets a (wrap (a + len)) = false) ∧ m.heap m.mallocs = true ∧
      ∀ x, ¬(a ≤ x ∧ x < a + len) → Covered (ps.map snd) x → Covered (ps1.map snd) x := by
    intro hmem hlim
    have hwrap : wrap (a + len) = a + len := wrap_of_lt (hlim.trans_lt hlimit)
    rw [hwrap] at hiff hmallocs hmeet ⊢
    unfold FixedMemory at hmem
    rw [h.areas_eq] at hmem
    obtain ⟨hmem, hspan⟩ := hmem hfixed hmeet
    have hcov := hiff fun v hv hs => ⟨by omega, hmem, (hspan ⟨v, hv, hs⟩).1⟩
    refine ⟨fun v hv => ?_, ?_, fun x hx hc => (hcov x).mpr ⟨hc, hx⟩⟩
    · refine meets_eq_false_of_covered hinv1.ok.nonempty (fun x h1 h2 hc => ?_) hv (by omega)
      exact ((hcov x).mp hc).2 ⟨h1, h2⟩
    · rw [hheap]
      by_cases hspans : ∃ v ∈ ps.map snd, v.spans a (a + len)
      · obtain ⟨hmem1, hmem2⟩ := hspan hspans
        have hk : m.mallocs = mgr.mallocs ∨ m.mallocs = mgr.mallocs + 1 ∨ m.mallocs = mgr.mallocs + 2 := by
          omega
        rcases hk with hk | hk | hk <;> rw [hk] <;> assumption
      · rw [hmallocs fun v hv hs => hspans ⟨v, hv, hs⟩]
        exact hmem
  refine ⟨m, mgr', r, ps', hm, hrun, hinv, ?_⟩
  cases r with
  | error e =>
    refine Or.inl ⟨⟨e, rfl⟩, fun x hx => hsub1 x (herr ⟨e, rfl⟩ x hx), fun hanon hmem => ?_⟩
    obtain ⟨hmeet, hmalloc, -⟩ := hexact hmem (hle (Or.inl hanon))
    obtain ⟨b, hb⟩ := (hfree hmeet).2 hanon hmalloc
    cases hb
  | ok b =>
    obtain ⟨hlim, hcov⟩ := hrange ⟨b, rfl⟩
    refine Or.inr ⟨⟨b, rfl⟩, hdvd, hlen, hlim, hcov, fun x hx hc => ?_, fun hnot => ?_, fun hmem x hx hc => ?_⟩
    · exact hsub1 x ((hsub x hc).resolve_right hx)
    · rw [hfixed] at hnot
      cases hnot
    · obtain ⟨hmeet, -, hkeep⟩ := hexact hmem hlim
      exact (hfree hmeet).1 x (hkeep x hx hc)

theorem MmapBelow.chosen {b : ℕ} {length : BitVec 64} (h : MmapBelow limit mgr addr length flags fdOpen)
    (hover : checkUserOverflow (paddingDown addr.toNat) (paddingUp length.toNat) = false)
    (hlen : paddingUp length.toNat ≠ 0)
    (hb : MmapChosen mgr flags (paddingDown addr.toNat) (paddingUp length.toNat) b)
    (hopens : Opens flags fdOpen) : b + paddingUp length.toNat ≤ limit := by
  replace h := h hover hlen
  cases hb with
  | fixed hfixed ha => exact ((if_pos hfixed ▸ h) ha).2 hopens
  | hint hfixed ha hmeet =>
    rw [if_neg hfixed, if_pos ha] at h
    exact h hmeet hopens
  | search hfixed ha _ hfit =>
    rw [if_neg hfixed, if_neg (not_not.mpr ha)] at h
    exact h b hfit hopens

theorem MmapChosen.spec {b : ℕ} (h : MmapChosen mgr flags a len b) (hdvd : pageSize ∣ a) :
    (∀ v ∈ mgr.areas, v.meets b (wrap (b + len)) = false) ∧ pageSize ∣ b ∧
      mmapPlace mgr a len flags = some (some b) ∧ (hasFlag flags mapFixed = true → b = a) := by
  unfold mmapPlace
  cases h with
  | fixed hfixed _ hmeet => exact ⟨hmeet, hdvd, by simp [hfixed], fun _ => rfl⟩
  | hint _ ha hmeet => exact ⟨hmeet, hdvd, by simp [ha], fun _ => rfl⟩
  | search hfixed ha hfind hfit =>
    obtain ⟨k, rfl, -, hmeet, -⟩ := hfit
    refine ⟨hmeet, dvd_add (by decide) (Nat.dvd_mul_left _ _), ?_, fun heq => absurd heq hfixed⟩
    simpa [hfixed, ha] using hfind

theorem PagedInv.mmap_covered (h : PagedInv mgr ps) (hlimit : limit < 2 ^ 64) {length : BitVec 64}
    (prot : BitVec 64) (fd : ℤ) (offset : BitVec 64) (mapped : ℕ)
    (hbelow : MmapBelow limit mgr addr length flags fdOpen) :
    ∃ mgr' r ps', mmap mgr addr length prot flags fd offset fdOpen mapped = some (mgr', r) ∧
      PagedInv mgr' ps' ∧ ((∃ e, r = .error e) ∧ MmapFailed mgr (ps.map snd) (ps'.map snd) flags
          (paddingDown addr.toNat) (paddingUp length.toNat) ∨
        ∃ b c, r = .ok c ∧ mmapPlace mgr (paddingDown addr.toNat) (paddingUp length.toNat) flags =
            some (some b) ∧ (hasFlag flags mapFixed = true → b = paddingDown addr.toNat) ∧
          MmapDone limit mgr (ps.map snd) (ps'.map snd) flags (paddingUp length.toNat) b) := by
  have hdvd : pageSize ∣ paddingDown addr.toNat := Nat.dvd_mul_left _ _
  have hdvd' : pageSize ∣ paddingUp length.toNat := Nat.dvd_mul_left _ _
  have hareas := h.areas_eq
  rcases h.mmap_cases addr length prot flags fd offset fdOpen mapped with
    ⟨e, hrun⟩ | ⟨hover, hlen, ⟨b, hb, hrun⟩ | ⟨hfixed, ha, hmeet, hrun⟩⟩
  · exact ⟨mgr, .error e, ps, hrun, h, Or.inl ⟨⟨e, rfl⟩, fun _ hx => hx, fun _ _ _ hx => hx⟩⟩
  · obtain ⟨hmeet, hdvdb, hplace, hfixed⟩ := hb.spec hdvd
    obtain ⟨m, r, ps', hm, hinv, hcases⟩ := h.mmapAt_free hlimit hlen hdvdb hdvd'
      (hbelow.chosen hover hlen hb) (hareas ▸ hmeet)
    refine ⟨m, r, ps', hrun.trans hm, hinv, hcases.imp ?_ ?_⟩
    · rintro ⟨herr, hfailed⟩
      refine ⟨herr, hfailed.sub, fun hanon hmemory => hfailed.same hanon ?_⟩
      intro hf
      rw [hfixed hf]
      exact hmemory hf
    · rintro ⟨⟨c, hc⟩, hdone⟩
      exact ⟨b, c, hc, hplace, hfixed, hdone⟩
  · obtain ⟨hsplits, hle⟩ := (if_pos hfixed ▸ hbelow hover hlen) ha
    rw [hareas] at hsplits hmeet
    obtain ⟨m, mgr', r, ps', hunmap, hm, hinv, hcases⟩ :=
      h.mmapAt_fixed hlimit hlen hdvd hdvd' hfixed hle hsplits hmeet
    refine ⟨mgr', r, ps', by rw [hrun, hunmap]; exact hm, hinv, hcases.imp_right ?_⟩
    rintro ⟨⟨c, hc⟩, hdone⟩
    exact ⟨_, c, hc, by simp [mmapPlace, hfixed], fun _ => rfl, hdone⟩

theorem PagedInv.munmap_covered (h : PagedInv mgr ps) {size : BitVec 64} (hsize : size ≠ 0)
    (hover : checkUserOverflow (paddingDown addr.toNat) (paddingUp size.toNat) = false)
    (hsafe : MunmapSafe mgr addr size) :
    let a := paddingDown addr.toNat
    let stop := wrap (a + paddingUp size.toNat)
    ∃ mgr' ps', munmap mgr addr size = some (mgr', .ok 0) ∧ PagedInv mgr' ps' ∧
      (∀ x, Covered (ps'.map snd) x → Covered (ps.map snd) x) ∧
      ((∀ v ∈ ps.map snd, v.spans a stop → a < stop ∧
          mgr.heap mgr.mallocs = true ∧ mgr.heap (mgr.mallocs + 1) = true) →
        ∀ x, Covered (ps'.map snd) x ↔ Covered (ps.map snd) x ∧ ¬(a ≤ x ∧ x < stop)) := by
  have hdvd : pageSize ∣ paddingDown addr.toNat := Nat.dvd_mul_left _ _
  have hdvd' : pageSize ∣ paddingUp size.toNat := Nat.dvd_mul_left _ _
  have hsplits := hsafe hsize hover
  rw [h.areas_eq] at hsplits
  obtain ⟨m, ps', hm, hinv, -, -, -, hsub, hiff⟩ := h.unmapRange_covered
    (cuts_plain (paddingDown addr.toNat) (wrap (paddingDown addr.toNat + paddingUp size.toNat))) hdvd
    (dvd_wrap (dvd_add hdvd hdvd')) hsplits
  refine ⟨m, ps', ?_, hinv, hsub, hiff⟩
  simp only [munmap, if_neg hsize, hover, munmapRange, hm, Option.bind_eq_bind, Option.bind_some,
    Option.pure_def, Bool.false_eq_true, if_false]

end Calls

end CoolPotOS
