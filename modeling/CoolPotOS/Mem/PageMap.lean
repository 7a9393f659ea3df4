import CoolPotOS.Mem.Page

namespace CoolPotOS

open Radix Function List Option

section Bits

variable {e : BitVec 64} {frame : ℕ}

theorem pteFrameMask_bit : ∀ i : Fin 64,
    pteFrameMask.getLsbD i = decide (12 ≤ i.val ∧ i.val < 47) := by decide

theorem bits_or_zero (x : BitVec 64) : x ||| 0 = x := BitVec.or_zero

theorem ofNat_and_frameMask (hlt : frame < 2 ^ 47) (hd : pageSize ∣ frame) :
    BitVec.ofNat 64 frame &&& pteFrameMask = BitVec.ofNat 64 frame := by
  apply BitVec.eq_of_getLsbD_eq
  intro i hi
  rw [BitVec.getLsbD_and, pteFrameMask_bit ⟨i, hi⟩, BitVec.getLsbD_ofNat]
  obtain ⟨k, rfl⟩ := hd
  by_cases h1 : i < 12
  · have hbit : (pageSize * k).testBit i = false := by
      rw [show pageSize = 2 ^ 12 by rfl, Nat.testBit_two_pow_mul, decide_eq_false (by omega)]
      rfl
    rw [hbit, Bool.and_false, Bool.false_and]
  by_cases h2 : i < 47
  · rw [decide_eq_true (show 12 ≤ i ∧ i < 47 by omega), Bool.and_true]
  · have hbit : (pageSize * k).testBit i = false :=
      Nat.testBit_eq_false_of_lt (hlt.trans_le (Nat.pow_le_pow_right (by norm_num) (by omega)))
    rw [hbit, Bool.and_false, Bool.false_and]

theorem toNat_ofNat_frame (hlt : frame < 2 ^ 47) : (BitVec.ofNat 64 frame).toNat = frame := by
  rw [BitVec.toNat_ofNat]
  exact Nat.mod_eq_of_lt (by omega)

theorem frameOf_ofNat_or {flags : BitVec 64} (hlt : frame < 2 ^ 47) (hd : pageSize ∣ frame)
    (hf : flags &&& pteFrameMask = 0) : frameOf (BitVec.ofNat 64 frame ||| flags) = frame := by
  rw [frameOf, BitVec.and_or_distrib_right, ofNat_and_frameMask hlt hd, hf, bits_or_zero,
    toNat_ofNat_frame hlt]

theorem hasFlag_ofNat_frame {mask : BitVec 64} (hlt : frame < 2 ^ 47) (hd : pageSize ∣ frame)
    (hm : mask &&& pteFrameMask = 0) : hasFlag (BitVec.ofNat 64 frame) mask = false := by
  have hzero : BitVec.ofNat 64 frame &&& mask = 0 := by
    rw [← ofNat_and_frameMask hlt hd, BitVec.and_assoc, BitVec.and_comm pteFrameMask, hm]
    exact BitVec.and_zero
  rw [hasFlag, hzero]
  rfl

theorem hasFlag_and_frameMask {mask : BitVec 64} (hm : mask &&& pteFrameMask = 0) :
    hasFlag (e &&& pteFrameMask) mask = false := by
  have hzero : e &&& pteFrameMask &&& mask = 0 := by
    rw [BitVec.and_assoc, BitVec.and_comm pteFrameMask, hm]
    exact BitVec.and_zero
  rw [hasFlag, hzero]
  rfl

theorem frameOf_or_user : frameOf (e ||| pteUser) = frameOf e := by
  unfold frameOf
  rw [BitVec.and_or_distrib_right, show pteUser &&& pteFrameMask = 0 by decide, bits_or_zero]

theorem pageTableEntryFlags_and_frameMask (flags : BitVec 64) :
    pageTableEntryFlags flags &&& pteFrameMask = 0 := by
  unfold pageTableEntryFlags
  split_ifs <;> decide

theorem hasFlag_pageTableEntryFlags_user (flags : BitVec 64) :
    hasFlag (pageTableEntryFlags flags) pteUser = hasFlag flags pteUser := by
  unfold pageTableEntryFlags
  cases hasFlag flags pteUser <;> decide

end Bits

/-- The entries that the processor reads for a page, one for each level. -/
structure PageWalk where
  l4 : BitVec 64
  l3 : BitVec 64
  l2 : BitVec 64
  l1 : BitVec 64
  deriving DecidableEq

/-- The walk to a 4-KiB page from the directory at `cr3`. -/
def hardwareWalk (mem : ℕ → ℕ → BitVec 64) (cr3 va : ℕ) : Option PageWalk :=
  let l4 := mem cr3 (tableIndex 39 va)
  if !hasFlag l4 ptePresent then none
  else
    let l3 := mem (frameOf l4) (tableIndex 30 va)
    if !hasFlag l3 ptePresent || hasFlag l3 pteHuge then none
    else
      let l2 := mem (frameOf l3) (tableIndex 21 va)
      if !hasFlag l2 ptePresent || hasFlag l2 pteHuge then none
      else
        let l1 := mem (frameOf l2) (tableIndex 12 va)
        if !hasFlag l1 ptePresent then none else some ⟨l4, l3, l2, l1⟩

def PageWalk.frame (w : PageWalk) : ℕ := frameOf w.l1

def PageWalk.flags (w : PageWalk) : BitVec 64 := w.l1 &&& ~~~pteFrameMask

def PageWalk.user (w : PageWalk) : Bool :=
  hasFlag w.l4 pteUser && hasFlag w.l3 pteUser && hasFlag w.l2 pteUser && hasFlag w.l1 pteUser

def Canonical (va : ℕ) : Prop := va < 2 ^ 47 ∨ 2 ^ 64 - 2 ^ 47 ≤ va ∧ va < 2 ^ 64

instance (va : ℕ) : Decidable (Canonical va) := inferInstanceAs (Decidable (_ ∨ _))

/-- The indices that lead to the table with the entry of a page. -/
def tablePath (va : ℕ) : List ℕ := [tableIndex 39 va, tableIndex 30 va, tableIndex 21 va]

theorem page_eq_of_index_eq {a b : ℕ} (ha : Canonical a) (hb : Canonical b)
    (hp : tablePath a = tablePath b) (hi : tableIndex 12 a = tableIndex 12 b) :
    a / pageSize = b / pageSize := by
  simp only [tablePath, cons.injEq, and_true] at hp
  simp only [tableIndex, pageSize] at *
  unfold Canonical at ha hb
  omega

theorem index_eq_of_page_eq {a b : ℕ} (h : a / pageSize = b / pageSize) :
    tablePath a = tablePath b ∧ tableIndex 12 a = tableIndex 12 b := by
  simp only [tablePath, cons.injEq, and_true]
  simp only [tableIndex, pageSize] at *
  omega

def tableOf (entry : BitVec 64) : Option ℕ :=
  if frameOf entry = 0 then none else some (frameOf entry)

theorem tableOf_eq_some {e : BitVec 64} {f : ℕ} : tableOf e = some f ↔ frameOf e = f ∧ f ≠ 0 := by
  unfold tableOf
  split_ifs with h
  · simp only [false_iff, not_and]
    rintro rfl
    exact fun hne => hne h
  · rw [Option.some.injEq]
    constructor
    · rintro rfl
      exact ⟨rfl, h⟩
    · exact And.left

theorem tableOf_zero : tableOf 0 = none := by decide

/-- An entry of an upper level is empty or points to a table. -/
def TableEntry (e : BitVec 64) : Prop :=
  e = 0 ∨ hasFlag e ptePresent = true ∧ hasFlag e pteHuge = false ∧ frameOf e ≠ 0

/-- The frames that `alloc_frames` will return, in order; freed frames are not reused. -/
def supplyOps : FrameOps (List ℕ) where
  alloc := fun supply => match supply with
    | [] => none
    | frame :: supply => some (supply, frame)
  free := fun supply _ => some supply

/-- The tables under the directory form a tree, and the frames that are still to come
are not part of it. -/
structure PageTree (s : Paging (List ℕ)) (root : ℕ) : Prop where
  separated : Separated tableOf s.mem root 3
  root_ne : root ≠ 0
  upper : ∀ p i e, p.length < 3 → entry tableOf s.mem root p i = some e → TableEntry e
  supply : ∀ f ∈ s.frames, f ≠ 0 ∧ f < 2 ^ 47 ∧ pageSize ∣ f ∧ Unreached tableOf s.mem root 3 f
  nodup : s.frames.Nodup

/-- The entry at the bottom of a path, 0 when a table is missing. -/
def leafAt (s : Paging (List ℕ)) (root : ℕ) (p : List ℕ) (i : ℕ) : BitVec 64 :=
  (entry tableOf s.mem root p i).getD 0

def HasUser (s : Paging (List ℕ)) (root : ℕ) (p : List ℕ) (i : ℕ) : Prop :=
  ∃ e, entry tableOf s.mem root p i = some e ∧ hasFlag e pteUser = true

/-- The entries of the upper levels on the way to a page have the user bit. -/
def UserPath (s : Paging (List ℕ)) (root va : ℕ) : Prop :=
  HasUser s root [] (tableIndex 39 va) ∧ HasUser s root [tableIndex 39 va] (tableIndex 30 va) ∧
    HasUser s root [tableIndex 39 va, tableIndex 30 va] (tableIndex 21 va)

@[simp] theorem Paging.write_self {σ : Type} (s : Paging σ) (t i : ℕ) (e : BitVec 64) :
    (s.write t i e).mem t i = e := set_self s.mem t i e

/-- What `page_table_create` preserves: the tree, the tables, the leaves and the user bits. -/
structure TreeGrows (root : ℕ) (s s' : Paging (List ℕ)) : Prop where
  tree : PageTree s' root
  keeps : ∀ q t, q.length ≤ 3 → follow tableOf s.mem root q = some t →
    follow tableOf s'.mem root q = some t
  leaf : ∀ q j, q.length = 3 → leafAt s' root q j = leafAt s root q j
  user : ∀ q j, q.length < 3 → HasUser s root q j → HasUser s' root q j
  supply : s.frames.length ≤ s'.frames.length + 1

section Create

variable {s s' : Paging (List ℕ)} {root t i : ℕ} {p : List ℕ} {flags : BitVec 64}

theorem entry_of_follow (ht : follow tableOf s.mem root p = some t) (i : ℕ) :
    entry tableOf s.mem root p i = some (s.mem t i) := by
  rw [entry, ht, map_some]

theorem PageTree.table_ne (h : PageTree s root) (ht : follow tableOf s.mem root p = some t) : t ≠ 0 := by
  rcases p.eq_nil_or_concat with rfl | ⟨p, i, rfl⟩
  · rw [← Option.some.inj ht]
    exact h.root_ne
  · rw [concat_eq_append, follow_concat] at ht
    obtain ⟨t', -, ht'⟩ := bind_eq_some_iff.mp ht
    exact (tableOf_eq_some.mp ht').2

theorem PageTree.grows_link (h : PageTree s root) (hp : p.length < 3)
    (ht : follow tableOf s.mem root p = some t) (hzero : s.mem t i = 0) {f : ℕ} {rest : List ℕ}
    (hsupply : s.frames = f :: rest) (flags : BitVec 64) :
    TreeGrows root s
      { mem := link s.mem t i (BitVec.ofNat 64 f ||| pageTableEntryFlags flags) f 0,
        frames := rest } := by
  set e := BitVec.ofNat 64 f ||| pageTableEntryFlags flags with he
  obtain ⟨hf0, hflt, hfd, hfree⟩ := h.supply f (by rw [hsupply]; exact mem_cons_self)
  have hframe : frameOf e = f := frameOf_ofNat_or hflt hfd (pageTableEntryFlags_and_frameMask flags)
  have hnew : tableOf e = some f := tableOf_eq_some.mpr ⟨hframe, hf0⟩
  have hold : tableOf (s.mem t i) = none := by rw [hzero]; exact tableOf_zero
  have hentry := fun (q : List ℕ) (hq : q.length ≤ 3) j =>
    entry_link h.separated hp ht hold hnew tableOf_zero hfree hq j
  have hfollow := fun (q : List ℕ) (hq : q.length ≤ 3) =>
    follow_link h.separated hp ht hold hnew tableOf_zero hfree hq
  have hnone : ∀ j, entry tableOf s.mem root (p ++ [i]) j = none := by
    intro j
    rw [entry, follow_concat, ht, bind_some, hold]
    rfl
  have hnodup := h.nodup
  rw [hsupply, nodup_cons] at hnodup
  refine ⟨⟨h.separated.link hp ht hold hnew tableOf_zero hfree, h.root_ne, ?_, ?_, hnodup.2⟩,
    ?_, ?_, ?_, ?_⟩
  · intro q j e' hq he'
    rw [hentry q hq.le j] at he'
    split_ifs at he' with h1 h2
    · exact .inl (Option.some.inj he').symm
    · rw [← Option.some.inj he']
      refine .inr ⟨?_, ?_, by rw [hframe]; exact hf0⟩
      · rw [he, hasFlag_or, Bool.or_eq_true]
        right
        unfold pageTableEntryFlags
        split_ifs <;> decide
      · rw [he, hasFlag_or, hasFlag_ofNat_frame hflt hfd (by decide)]
        unfold pageTableEntryFlags
        split_ifs <;> decide
    · exact h.upper q j e' hq he'
  · intro f' hf'
    obtain ⟨h1, h2, h3, h4⟩ := h.supply f' (by rw [hsupply]; exact mem_cons_of_mem f hf')
    refine ⟨h1, h2, h3, hfree.link h.separated hp ht hold hnew tableOf_zero h4 ?_⟩
    rintro rfl
    exact hnodup.1 hf'
  · intro q t' hq ht'
    show follow tableOf (link s.mem t i e f 0) root q = some t'
    rw [hfollow q hq, if_neg, ht']
    rintro rfl
    rw [follow_concat, ht, bind_some, hold] at ht'
    cases ht'
  · intro q j hq
    show (entry tableOf (link s.mem t i e f 0) root q j).getD 0 = _
    rw [hentry q hq.le j, leafAt]
    split_ifs with h1 h2
    · rw [h1, hnone j]
      rfl
    · rw [h2.1] at hq
      omega
    · rfl
  · rintro q j hq ⟨e', he', hu⟩
    show ∃ e'', entry tableOf (link s.mem t i e f 0) root q j = some e'' ∧ _
    rw [hentry q hq.le j]
    split_ifs with h1 h2
    · rw [h1, hnone j] at he'
      cases he'
    · rw [h2.1, h2.2, entry_of_follow ht, hzero] at he'
      rw [← Option.some.inj he'] at hu
      cases hu
    · exact ⟨e', he', hu⟩
  · rw [hsupply]
    exact le_rfl

theorem PageTree.grows_user (h : PageTree s root) (hp : p.length < 3)
    (ht : follow tableOf s.mem root p = some t) (hne : s.mem t i ≠ 0) :
    TreeGrows root s (s.write t i (s.mem t i ||| pteUser)) := by
  set e := s.mem t i ||| pteUser with he
  have hnext : tableOf e = tableOf (s.mem t i) := by
    unfold tableOf
    rw [he, frameOf_or_user]
  have hfollow := fun q : List ℕ => follow_set_of_next root hnext q
  have hentry := fun (q : List ℕ) (hq : q.length ≤ 3) j =>
    entry_set h.separated hp.le ht (fun q _ => hfollow q) hq j
  have hold := entry_of_follow ht i
  refine ⟨⟨h.separated.of_follow fun q _ => hfollow q, h.root_ne, ?_, ?_, h.nodup⟩, ?_, ?_, ?_,
    Nat.le_succ _⟩
  · intro q j e' hq he'
    rw [Paging.write, hentry q hq.le j] at he'
    split_ifs at he' with h1
    · rw [← Option.some.inj he']
      obtain hz | ⟨h2, h3, h4⟩ := h.upper p i _ hp hold
      · exact absurd hz hne
      · refine .inr ⟨by rw [he, hasFlag_or, h2]; rfl, ?_, by rw [he, frameOf_or_user]; exact h4⟩
        rw [he, hasFlag_or, h3]
        decide
    · exact h.upper q j e' hq he'
  · intro f hf
    obtain ⟨h1, h2, h3, h4⟩ := h.supply f hf
    exact ⟨h1, h2, h3, h4.of_follow fun q _ => hfollow q⟩
  · intro q t' _ ht'
    rw [Paging.write, hfollow q, ht']
  · intro q j hq
    rw [leafAt, Paging.write, hentry q hq.le j, if_neg, leafAt]
    rintro ⟨rfl, -⟩
    omega
  · rintro q j hq ⟨e', he', hu⟩
    rw [HasUser, Paging.write, hentry q hq.le j]
    split_ifs with h1
    · exact ⟨e, rfl, by rw [he, hasFlag_or, Bool.or_eq_true]; exact .inr (by decide)⟩
    · exact ⟨e', he', hu⟩

theorem PageTree.grows_refl (h : PageTree s root) : TreeGrows root s s :=
  ⟨h, fun _ _ _ ht => ht, fun _ _ _ => rfl, fun _ _ _ hu => hu, Nat.le_succ _⟩

/-- `page_table_create` returns the table behind the entry, which is now there and has the
user bit if the leaf has it. -/
theorem PageTree.create_cases (h : PageTree s root) (hp : p.length < 3)
    (ht : follow tableOf s.mem root p = some t) (i : ℕ) (flags : BitVec 64) :
    (pageTableCreate supplyOps s t i flags = none ∧ s.frames = []) ∨
    ∃ s' t', pageTableCreate supplyOps s t i flags = some (s', t') ∧ TreeGrows root s s' ∧
      follow tableOf s'.mem root (p ++ [i]) = some t' ∧
      (hasFlag flags pteUser = true → HasUser s' root p i) := by
  have ht0 := h.table_ne ht
  unfold pageTableCreate
  rw [if_neg ht0]
  by_cases hzero : s.mem t i = 0
  · simp only [if_pos hzero]
    cases hf : s.frames with
    | nil => exact .inl ⟨rfl, rfl⟩
    | cons f rest =>
      obtain ⟨hf0, hflt, hfd, hfree⟩ := h.supply f (by rw [hf]; exact mem_cons_self)
      set e := BitVec.ofNat 64 f ||| pageTableEntryFlags flags with he
      have hframe : frameOf e = f :=
        frameOf_ofNat_or hflt hfd (pageTableEntryFlags_and_frameMask flags)
      have hg := h.grows_link hp ht hzero hf flags
      have htf : t ≠ f := by
        rintro rfl
        exact hfree p hp.le ht
      have hte : link s.mem t i e f 0 t i = e := by rw [link, fill_of_ne _ _ htf, set_self]
      have hpath := hg.keeps p t hp.le ht
      refine .inr ⟨_, f, ?_, hg, ?_, fun hu => ⟨e, ?_, ?_⟩⟩
      · simp only [supplyOps, ← he, hframe, if_neg hf0, bind_eq_bind, bind_some,
          Option.pure_def]
        rfl
      · rw [follow_concat, hpath, bind_some]
        exact (congrArg tableOf hte).trans (tableOf_eq_some.mpr ⟨hframe, hf0⟩)
      · rw [entry_of_follow hpath]
        exact congrArg some hte
      · rw [he, hasFlag_or, hasFlag_pageTableEntryFlags_user, hu, Bool.or_true]
  · obtain hz | ⟨h1, h2, h3⟩ := h.upper p i _ hp (entry_of_follow ht i)
    · exact absurd hz hzero
    simp only [if_neg hzero]
    right
    by_cases hadd : (hasFlag (pageTableEntryFlags flags) pteUser &&
        !hasFlag (s.mem t i) pteUser) = true
    · have hg := h.grows_user hp ht hzero
      have hpath := hg.keeps p t hp.le ht
      refine ⟨_, frameOf (s.mem t i ||| pteUser), by rw [if_pos hadd], hg, ?_,
        fun _ => ⟨s.mem t i ||| pteUser, ?_, ?_⟩⟩
      · rw [follow_concat, hpath, bind_some, Paging.write_self]
        exact tableOf_eq_some.mpr ⟨rfl, by rw [frameOf_or_user]; exact h3⟩
      · rw [entry_of_follow hpath, Paging.write_self]
      · rw [hasFlag_or, Bool.or_eq_true]
        exact .inr (by decide)
    · refine ⟨s, frameOf (s.mem t i), by rw [if_neg hadd], h.grows_refl, ?_, fun hu => ?_⟩
      · rw [follow_concat, ht, bind_some]
        exact tableOf_eq_some.mpr ⟨rfl, h3⟩
      · refine ⟨_, entry_of_follow ht i, ?_⟩
        rw [hasFlag_pageTableEntryFlags_user, hu] at hadd
        simpa using hadd

theorem PageTree.write_leaf (h : PageTree s root) (hp : p.length = 3)
    (ht : follow tableOf s.mem root p = some t) (i : ℕ) (e : BitVec 64) : PageTree (s.write t i e) root ∧
      (∀ q j, q.length = 3 → leafAt (s.write t i e) root q j =
        if q = p ∧ j = i then e else leafAt s root q j) ∧
      ∀ q j, q.length < 3 → entry tableOf (s.write t i e).mem root q j = entry tableOf s.mem root q j := by
  have hfollow := fun (q : List ℕ) (hq : q.length ≤ 3) =>
    follow_set_leaf (i := i) (e := e) h.separated hp ht hq
  have hentry := fun (q : List ℕ) (hq : q.length ≤ 3) j =>
    entry_set h.separated hp.le ht hfollow hq j
  have hupper : ∀ q j, q.length < 3 →
      entry tableOf (s.write t i e).mem root q j = entry tableOf s.mem root q j := by
    intro q j hq
    rw [Paging.write, hentry q hq.le j, if_neg]
    rintro ⟨rfl, -⟩
    omega
  refine ⟨⟨h.separated.of_follow hfollow, h.root_ne, ?_, ?_, h.nodup⟩, ?_, hupper⟩
  · intro q j e' hq he'
    rw [hupper q j hq] at he'
    exact h.upper q j e' hq he'
  · intro f hf
    obtain ⟨h1, h2, h3, h4⟩ := h.supply f hf
    exact ⟨h1, h2, h3, h4.of_follow hfollow⟩
  · intro q j hq
    rw [leafAt, Paging.write, hentry q hq.le j, leafAt]
    split_ifs <;> rfl

/-- What a call for the page at `addr` does: its leaf becomes `value`, all other leaves stay. -/
structure SetsLeaf (root addr : ℕ) (value : BitVec 64) (s s' : Paging (List ℕ)) : Prop where
  tree : PageTree s' root
  leaf : ∀ q j, q.length = 3 → leafAt s' root q j =
    if q = tablePath addr ∧ j = tableIndex 12 addr then value else leafAt s root q j
  user : ∀ q j, q.length < 3 → HasUser s root q j → HasUser s' root q j

theorem PageTree.pageMapTo_cases (h : PageTree s root) (addr frame : ℕ) (flags : BitVec 64) :
    (pageMapTo supplyOps s root addr frame flags = none ∧ s.frames.length < 3) ∨
    ∃ s', pageMapTo supplyOps s root addr frame flags = some s' ∧
      SetsLeaf root addr ((BitVec.ofNat 64 frame &&& pteFrameMask) ||| flags) s s' ∧
      (hasFlag flags pteUser = true → UserPath s' root addr) ∧ s.frames.length ≤ s'.frames.length + 3 := by
  unfold pageMapTo
  rcases h.create_cases (p := []) (by simp) rfl (tableIndex 39 addr) flags with
    ⟨hnone, hnil⟩ | ⟨s1, l3, hc1, hg1, hp₁, hu1⟩
  · exact .inl ⟨by rw [hnone]; rfl, by rw [hnil]; simp⟩
  rcases hg1.tree.create_cases (by simp) hp₁ (tableIndex 30 addr) flags with
    ⟨hnone, hnil⟩ | ⟨s2, l2, hc2, hg2, hp₂, hu₂⟩
  · refine .inl ⟨by simp only [hc1, bind_eq_bind, bind_some, hnone, bind_none], ?_⟩
    have := hg1.supply
    rw [hnil, length_nil] at this
    omega
  rcases hg2.tree.create_cases (by simp) hp₂ (tableIndex 21 addr) flags with
    ⟨hnone, hnil⟩ | ⟨s3, l1, hc3, hg3, hp₃, hu₃⟩
  · refine .inl ⟨by simp only [hc1, hc2, bind_eq_bind, bind_some, hnone,
      bind_none], ?_⟩
    have := hg1.supply
    have := hg2.supply
    rw [hnil, length_nil] at this
    omega
  have hpath : follow tableOf s3.mem root (tablePath addr) = some l1 := hp₃
  have hl1 : l1 ≠ 0 := hg3.tree.table_ne hpath
  obtain ⟨htree, hleaf, hupper⟩ := hg3.tree.write_leaf rfl hpath (tableIndex 12 addr)
    ((BitVec.ofNat 64 frame &&& pteFrameMask) ||| flags)
  have hkeep : ∀ q j, q.length < 3 → HasUser s3 root q j → HasUser (s3.write l1 (tableIndex 12 addr)
      ((BitVec.ofNat 64 frame &&& pteFrameMask) ||| flags)) root q j := by
    intro q j hq hu
    unfold HasUser
    rw [hupper q j hq]
    exact hu
  refine .inr ⟨_, ?_, ⟨htree, ?_, ?_⟩, ?_, ?_⟩
  · simp only [hc1, hc2, hc3, bind_eq_bind, bind_some, if_neg hl1, Option.pure_def]
  · intro q j hq
    rw [hleaf q j hq, hg3.leaf q j hq, hg2.leaf q j hq, hg1.leaf q j hq]
  · intro q j hq hu
    exact hkeep q j hq (hg3.user q j hq (hg2.user q j hq (hg1.user q j hq hu)))
  · intro hu
    refine ⟨hkeep _ _ (by simp) ?_, hkeep _ _ (by simp) ?_, hkeep _ _ (by simp) (hu₃ hu)⟩
    · exact hg3.user _ _ (by simp) (hg2.user _ _ (by simp) (hu1 hu))
    · exact hg3.user _ _ (by simp) (hu₂ hu)
  · have h1 := hg1.supply
    have h2 := hg2.supply
    have h3 := hg3.supply
    show s.frames.length ≤ s3.frames.length + 3
    omega

theorem unmapPage_eq {σ : Type} (ops : FrameOps σ) (s : Paging σ) (root addr : ℕ) :
    unmapPage ops s root addr = match follow tableOf s.mem root (tablePath addr) with
      | none => some s
      | some l1 => (ops.free s.frames (frameOf (s.mem l1 (tableIndex 12 addr)))).map fun frames =>
        ({ s with frames := frames } : Paging σ).write l1 (tableIndex 12 addr) 0 := by
  unfold unmapPage
  simp only [tablePath, follow]
  by_cases h3 : frameOf (s.mem root (tableIndex 39 addr)) = 0
  · simp only [tableOf, if_pos h3, bind_none]
  have e3 := tableOf_eq_some.mpr ⟨rfl, h3⟩
  simp only [if_neg h3, e3, bind_some]
  by_cases h2 : frameOf (s.mem (frameOf (s.mem root (tableIndex 39 addr))) (tableIndex 30 addr)) = 0
  · simp only [tableOf, if_pos h2, bind_none]
  have e2 := tableOf_eq_some.mpr ⟨rfl, h2⟩
  simp only [if_neg h2, e2, bind_some]
  split_ifs with h1
  · simp only [tableOf, if_pos h1, bind_none]
  · rw [tableOf_eq_some.mpr ⟨rfl, h1⟩, bind_some]
    show (ops.free s.frames _).bind _ = (ops.free s.frames _).map _
    rw [map_eq_bind]
    rfl

theorem PageTree.unmapPage (h : PageTree s root) (addr : ℕ) :
    ∃ s', unmapPage supplyOps s root addr = some s' ∧ SetsLeaf root addr 0 s s' ∧ s'.frames = s.frames := by
  rw [unmapPage_eq]
  cases hpath : follow tableOf s.mem root (tablePath addr) with
  | none =>
    refine ⟨s, rfl, ⟨h, fun q j _ => ?_, fun _ _ _ hu => hu⟩, rfl⟩
    split_ifs with hq
    · rw [leafAt, entry, hq.1, hpath]
      rfl
    · rfl
  | some l1 =>
    obtain ⟨htree, hleaf, hupper⟩ := h.write_leaf rfl hpath (tableIndex 12 addr) 0
    refine ⟨_, rfl, ⟨htree, hleaf, fun q j hq hu => ?_⟩, rfl⟩
    show HasUser (s.write l1 (tableIndex 12 addr) 0) root q j
    unfold HasUser
    rw [hupper q j hq]
    exact hu

end Create

inductive PageOp
  | map (addr frame : ℕ) (flags : BitVec 64)
  | unmap (addr : ℕ)

def PageOp.addr : PageOp → ℕ
  | .map addr _ _ => addr
  | .unmap addr => addr

/-- Canonical addresses, page-aligned frames below `2^47`, and flags outside the frame field
and without the huge bit. -/
def PageOp.Valid : PageOp → Prop
  | .map addr frame flags => Canonical addr ∧ frame < 2 ^ 47 ∧ pageSize ∣ frame ∧
    flags &&& pteFrameMask = 0 ∧ hasFlag flags pteHuge = false
  | .unmap addr => Canonical addr

instance : DecidablePred PageOp.Valid
  | .map _ _ _ => inferInstanceAs (Decidable (_ ∧ _))
  | .unmap addr => inferInstanceAs (Decidable (Canonical addr))

def PageOp.run (root : ℕ) (s : Paging (List ℕ)) : PageOp → Option (Paging (List ℕ))
  | .map addr frame flags => pageMapTo supplyOps s root addr frame flags
  | .unmap addr => unmapPage supplyOps s root addr

def runPageOps (root : ℕ) : List PageOp → Paging (List ℕ) → Option (Paging (List ℕ))
  | [], s => some s
  | op :: ops, s => do
    let s ← op.run root s
    runPageOps root ops s

/-- The map from page numbers to the frame and the flags of the last call. -/
def PageOp.apply (m : ℕ → Option (ℕ × BitVec 64)) : PageOp → ℕ → Option (ℕ × BitVec 64)
  | .map addr frame flags => Function.update m (addr / pageSize) (some (frame, flags))
  | .unmap addr => Function.update m (addr / pageSize) none

def pageMapAfter (ops : List PageOp) : ℕ → Option (ℕ × BitVec 64) :=
  ops.foldl PageOp.apply fun _ => none

def pteOf : Option (ℕ × BitVec 64) → BitVec 64
  | none => 0
  | some (frame, flags) => (BitVec.ofNat 64 frame &&& pteFrameMask) ||| flags

/-- The tables under the directory hold the map `m`. -/
structure MapsAs (s : Paging (List ℕ)) (root : ℕ) (m : ℕ → Option (ℕ × BitVec 64)) : Prop where
  tree : PageTree s root
  leaf : ∀ va, Canonical va →
    leafAt s root (tablePath va) (tableIndex 12 va) = pteOf (m (va / pageSize))
  user : ∀ va, Canonical va →
    hasFlag (leafAt s root (tablePath va) (tableIndex 12 va)) pteUser = true → UserPath s root va

section Run

variable {s s' : Paging (List ℕ)} {root : ℕ} {m : ℕ → Option (ℕ × BitVec 64)}

theorem MapsAs.setsLeaf (h : MapsAs s root m) {addr : ℕ} (ha : Canonical addr)
    {x : Option (ℕ × BitVec 64)} (hs : SetsLeaf root addr (pteOf x) s s')
    (hu : hasFlag (pteOf x) pteUser = true → UserPath s' root addr) :
    MapsAs s' root (update m (addr / pageSize) x) := by
  have hsame : ∀ va, Canonical va → (tablePath va = tablePath addr ∧
      tableIndex 12 va = tableIndex 12 addr ↔ va / pageSize = addr / pageSize) := by
    intro va hva
    exact ⟨fun hi => page_eq_of_index_eq hva ha hi.1 hi.2, index_eq_of_page_eq⟩
  refine ⟨hs.tree, fun va hva => ?_, fun va hva hflag => ?_⟩
  · rw [hs.leaf _ _ rfl]
    by_cases he : va / pageSize = addr / pageSize
    · rw [if_pos ((hsame va hva).mpr he), he, update_self]
    · rw [if_neg fun hi => he ((hsame va hva).mp hi), update_of_ne he, h.leaf va hva]
  · rw [hs.leaf _ _ rfl] at hflag
    split_ifs at hflag with hi
    · have hup := hu hflag
      simp only [tablePath, cons.injEq, and_true] at hi
      unfold UserPath at hup ⊢
      rw [hi.1.1, hi.1.2.1, hi.1.2.2]
      exact hup
    · obtain ⟨h1, h2, h3⟩ := h.user va hva hflag
      exact ⟨hs.user _ _ (by simp) h1, hs.user _ _ (by simp) h2, hs.user _ _ (by simp) h3⟩

theorem MapsAs.run_cases (h : MapsAs s root m) {op : PageOp} (hv : op.Valid) :
    (op.run root s = none ∧ s.frames.length < 3) ∨
      ∃ s', op.run root s = some s' ∧ MapsAs s' root (op.apply m) ∧
        s.frames.length ≤ s'.frames.length + 3 := by
  cases op with
  | map addr frame flags =>
    obtain ⟨ha, -, -, hflags, -⟩ := hv
    rcases h.tree.pageMapTo_cases addr frame flags with hnone | ⟨s', hs', hset, hu, hlen⟩
    · exact .inl hnone
    · refine .inr ⟨s', hs', h.setsLeaf (x := some (frame, flags)) ha hset fun hflag => hu ?_, hlen⟩
      rwa [pteOf, hasFlag_or, hasFlag_and_frameMask (by decide), Bool.false_or] at hflag
  | unmap addr =>
    obtain ⟨s', hs', hset, hlen⟩ := h.tree.unmapPage addr
    refine .inr ⟨s', hs', h.setsLeaf (x := none) hv hset fun hflag => ?_, by rw [hlen]; omega⟩
    cases hflag

theorem MapsAs.runPageOps_cases {ops : List PageOp} (h : MapsAs s root m) (hops : ∀ op ∈ ops, op.Valid) :
    (runPageOps root ops s = none ∧ s.frames.length < 3 * ops.length) ∨
      ∃ s', runPageOps root ops s = some s' ∧ MapsAs s' root (ops.foldl PageOp.apply m) := by
  induction ops generalizing s m with
  | nil => exact .inr ⟨s, rfl, h⟩
  | cons op ops ih =>
    rcases h.run_cases (hops op mem_cons_self) with ⟨hnone, hlen⟩ | ⟨s1, hs1, h₁, hlen⟩
    · refine .inl ⟨by rw [runPageOps, hnone]; rfl, ?_⟩
      rw [length_cons]
      omega
    · rcases ih h₁ fun op' hop' => hops op' (mem_cons_of_mem op hop') with
        ⟨hnone, hlen'⟩ | ⟨s2, hs2, h₂⟩
      · refine .inl ⟨?_, by rw [length_cons]; omega⟩
        simp only [runPageOps, hs1, bind_eq_bind, bind_some, hnone]
      · refine .inr ⟨s2, ?_, h₂⟩
        simp only [runPageOps, hs1, bind_eq_bind, bind_some, hs2]

theorem PageTree.walk_cases (h : PageTree s root) (va : ℕ) : (hardwareWalk s.mem root va = none ∧
      hasFlag (leafAt s root (tablePath va) (tableIndex 12 va)) ptePresent = false) ∨
    ∃ w, hardwareWalk s.mem root va = some w ∧ w.l1 = leafAt s root (tablePath va) (tableIndex 12 va) ∧
      hasFlag (leafAt s root (tablePath va) (tableIndex 12 va)) ptePresent = true ∧
      (UserPath s root va → hasFlag w.l4 pteUser = true ∧ hasFlag w.l3 pteUser = true ∧
        hasFlag w.l2 pteUser = true) := by
  -- a missing table: the entry is empty, so neither the processor nor the path gets on
  have hzero : hasFlag 0 ptePresent = false := by decide
  have hmissing : follow tableOf s.mem root (tablePath va) = none →
      hasFlag (leafAt s root (tablePath va) (tableIndex 12 va)) ptePresent = false := by
    intro hnone
    rw [leafAt, entry, hnone]
    exact hzero
  unfold hardwareWalk
  dsimp only
  set l4 := s.mem root (tableIndex 39 va) with hl4
  have he4 : entry tableOf s.mem root [] (tableIndex 39 va) = some l4 := rfl
  rcases h.upper _ _ _ (by simp) he4 with hz | ⟨hp4, -, hf4⟩
  · refine .inl ⟨by simp only [hz, hzero, Bool.not_false, if_true], hmissing ?_⟩
    simp only [tablePath, follow, ← hl4, hz, tableOf_zero, bind_none]
  have ht4 := tableOf_eq_some.mpr ⟨rfl, hf4⟩
  set l3 := s.mem (frameOf l4) (tableIndex 30 va) with hl3
  have he3 : entry tableOf s.mem root [tableIndex 39 va] (tableIndex 30 va) = some l3 := by
    simp only [entry, follow, ← hl4, ht4, bind_some, map_some, ← hl3]
  simp only [hp4, Bool.not_true, Bool.false_eq_true, if_false]
  rcases h.upper _ _ _ (by simp) he3 with hz | ⟨hp3, hh3, hf3⟩
  · refine .inl ⟨by simp only [hz, hzero, Bool.not_false, Bool.true_or, if_true], hmissing ?_⟩
    simp only [tablePath, follow, ← hl4, ht4, bind_some, ← hl3, hz, tableOf_zero,
      bind_none]
  have ht3 := tableOf_eq_some.mpr ⟨rfl, hf3⟩
  set l2 := s.mem (frameOf l3) (tableIndex 21 va) with hl2
  have he2 : entry tableOf s.mem root [tableIndex 39 va, tableIndex 30 va] (tableIndex 21 va) =
      some l2 := by
    simp only [entry, follow, ← hl4, ht4, bind_some, ← hl3, ht3, map_some, ← hl2]
  simp only [hp3, hh3, Bool.not_true, Bool.or_self, Bool.false_eq_true, if_false]
  rcases h.upper _ _ _ (by simp) he2 with hz | ⟨hp2, hh2, hf2⟩
  · refine .inl ⟨by simp only [hz, hzero, Bool.not_false, Bool.true_or, if_true], hmissing ?_⟩
    simp only [tablePath, follow, ← hl4, ht4, bind_some, ← hl3, ht3, ← hl2, hz, tableOf_zero,
      bind_none]
  have ht2 := tableOf_eq_some.mpr ⟨rfl, hf2⟩
  have hleaf : leafAt s root (tablePath va) (tableIndex 12 va) =
      s.mem (frameOf l2) (tableIndex 12 va) := by
    simp only [leafAt, entry, tablePath, follow, ← hl4, ht4, bind_some, ← hl3, ht3, ← hl2,
      ht2, map_some, getD_some]
  simp only [hp2, hh2, Bool.not_true, Bool.or_self, Bool.false_eq_true, if_false]
  rw [hleaf]
  cases hp1 : hasFlag (s.mem (frameOf l2) (tableIndex 12 va)) ptePresent with
  | false => exact .inl ⟨by simp, rfl⟩
  | true =>
    refine .inr ⟨⟨l4, l3, l2, s.mem (frameOf l2) (tableIndex 12 va)⟩,
      by simp only [Bool.not_true, Bool.false_eq_true, if_false], rfl, rfl, ?_⟩
    rintro ⟨⟨e4, h4, hu4⟩, ⟨e3, h3, hu3⟩, ⟨e2, h2, hu2⟩⟩
    rw [← Option.some.inj (he4.symm.trans h4)] at hu4
    rw [← Option.some.inj (he3.symm.trans h3)] at hu3
    rw [← Option.some.inj (he2.symm.trans h2)] at hu2
    exact ⟨hu4, hu3, hu2⟩

theorem pteOf_some {frame : ℕ} {flags : BitVec 64} (hlt : frame < 2 ^ 47) (hd : pageSize ∣ frame)
    (hf : flags &&& pteFrameMask = 0) : frameOf (pteOf (some (frame, flags))) = frame ∧
      pteOf (some (frame, flags)) &&& ~~~pteFrameMask = flags := by
  rw [pteOf, ofNat_and_frameMask hlt hd]
  refine ⟨frameOf_ofNat_or hlt hd hf, ?_⟩
  have hkeep : flags &&& ~~~pteFrameMask = flags := by
    have hsplit : flags &&& (pteFrameMask ||| ~~~pteFrameMask) = flags := by
      rw [BitVec.or_not_self]
      exact BitVec.and_allOnes
    rw [BitVec.and_or_distrib_left, hf] at hsplit
    rwa [BitVec.or_comm, bits_or_zero] at hsplit
  rw [BitVec.and_or_distrib_right, hkeep, ← ofNat_and_frameMask hlt hd, BitVec.and_assoc,
    BitVec.and_not_self]
  have hzero : BitVec.ofNat 64 frame &&& 0 = 0 := BitVec.and_zero
  rw [hzero]
  exact BitVec.zero_or

theorem hasFlag_pteOf_some {frame : ℕ} {flags mask : BitVec 64} (hm : mask &&& pteFrameMask = 0) :
    hasFlag (pteOf (some (frame, flags))) mask = hasFlag flags mask := by
  rw [pteOf, hasFlag_or, hasFlag_and_frameMask hm, Bool.false_or]

def MapValid (m : ℕ → Option (ℕ × BitVec 64)) : Prop :=
  ∀ n frame flags, m n = some (frame, flags) →
    frame < 2 ^ 47 ∧ pageSize ∣ frame ∧ flags &&& pteFrameMask = 0

theorem mapValid_foldl {ops : List PageOp} (hops : ∀ op ∈ ops, op.Valid) (h : MapValid m) :
    MapValid (ops.foldl PageOp.apply m) := by
  induction ops generalizing m with
  | nil => exact h
  | cons op ops ih =>
    apply ih fun op' hop' => hops op' (mem_cons_of_mem op hop')
    intro n frame flags hn
    have hv := hops op mem_cons_self
    cases op with
    | map addr frame' flags' =>
      rw [PageOp.apply, update_apply] at hn
      split_ifs at hn with he
      · cases hn
        exact ⟨hv.2.1, hv.2.2.1, hv.2.2.2.1⟩
      · exact h n frame flags hn
    | unmap addr =>
      rw [PageOp.apply, update_apply] at hn
      split_ifs at hn with he
      exact h n frame flags hn

theorem MapsAs.walk (h : MapsAs s root m) (hv : MapValid m) {va : ℕ} (hva : Canonical va) :
    (hardwareWalk s.mem root va).map (fun w => (w.frame, w.flags, w.user)) =
      ((m (va / pageSize)).filter fun x => hasFlag x.2 ptePresent).map fun x =>
        (x.1, x.2, hasFlag x.2 pteUser) := by
  have hleaf := h.leaf va hva
  have huser := h.user va hva
  rcases h.tree.walk_cases va with ⟨hw, hp⟩ | ⟨w, hw, hl1, hp, hu⟩
  · rw [hw, map_none]
    rw [hleaf] at hp
    cases hm : m (va / pageSize) with
    | none => rfl
    | some x =>
      obtain ⟨frame, flags⟩ := x
      rw [hm, hasFlag_pteOf_some (by decide)] at hp
      rw [filter_some, hp]
      rfl
  · rw [hleaf] at hl1 hp huser
    cases hm : m (va / pageSize) with
    | none =>
      rw [hm] at hp
      cases hp
    | some x =>
      obtain ⟨frame, flags⟩ := x
      obtain ⟨h1, h2, h3⟩ := hv _ _ _ hm
      obtain ⟨hframe, hflags⟩ := pteOf_some h1 h2 h3
      rw [hm] at hl1 hp huser
      rw [hasFlag_pteOf_some (by decide)] at hp huser
      have hwuser : w.user = hasFlag flags pteUser := by
        unfold PageWalk.user
        rw [hl1, hasFlag_pteOf_some (by decide)]
        cases hf : hasFlag flags pteUser with
        | false => rw [Bool.and_false]
        | true =>
          obtain ⟨h4, h3, h2⟩ := hu (huser hf)
          rw [h4, h3, h2]
          rfl
      rw [hw, map_some, filter_some, hp, if_pos rfl, map_some, hwuser,
        PageWalk.frame, PageWalk.flags, hl1, hframe, hflags]

theorem MapsAs.unmap_none (h : MapsAs s root m) {va : ℕ} (hva : Canonical va)
    (hm : m (va / pageSize) = none) : unmapPage supplyOps s root va = some s := by
  have hleaf := h.leaf va hva
  rw [hm] at hleaf
  rw [unmapPage_eq]
  cases hpath : follow tableOf s.mem root (tablePath va) with
  | none => rfl
  | some l1 =>
    rw [leafAt, entry_of_follow hpath] at hleaf
    have hzero : s.mem l1 (tableIndex 12 va) = 0 := hleaf
    have hset : Radix.set s.mem l1 (tableIndex 12 va) 0 = s.mem := by
      unfold Radix.set
      rw [← hzero, update_eq_self, update_eq_self]
    show some (s.write l1 (tableIndex 12 va) 0) = some s
    rw [Paging.write, hset]

theorem pageMapAfter_eq_none {ops : List PageOp} {n : ℕ}
    (h : ∀ addr frame flags, PageOp.map addr frame flags ∈ ops → addr / pageSize ≠ n)
    (hm : m n = none) : ops.foldl PageOp.apply m n = none := by
  induction ops generalizing m with
  | nil => exact hm
  | cons op ops ih =>
    apply ih fun addr frame flags hop => h addr frame flags (mem_cons_of_mem op hop)
    cases op with
    | map addr frame flags =>
      rw [PageOp.apply, update_of_ne (h addr frame flags mem_cons_self).symm]
      exact hm
    | unmap addr =>
      rw [PageOp.apply, update_apply]
      split_ifs
      · rfl
      · exact hm

theorem PageOp.apply_of_ne {op : PageOp} {n : ℕ} (h : n ≠ op.addr / pageSize) : op.apply m n = m n := by
  cases op with
  | map addr frame flags => exact update_of_ne h _ _
  | unmap addr => exact update_of_ne h _ _

theorem mapsAs_empty {mem : ℕ → ℕ → BitVec 64} {supply : List ℕ} (hroot : root ≠ 0)
    (hempty : ∀ i, mem root i = 0) (hnodup : (root :: supply).Nodup)
    (hframes : ∀ f ∈ supply, f ≠ 0 ∧ f < 2 ^ 47 ∧ pageSize ∣ f) :
    MapsAs ⟨mem, supply⟩ root fun _ => none := by
  have hfollow : ∀ i p, follow tableOf mem root (i :: p) = none := by
    intro i p
    rw [follow, hempty, tableOf_zero]
    rfl
  have hnil : ∀ p t, follow tableOf mem root p = some t → p = [] ∧ t = root := by
    intro p t ht
    cases p with
    | nil => exact ⟨rfl, (Option.some.inj ht).symm⟩
    | cons i p =>
      rw [hfollow] at ht
      cases ht
  rw [nodup_cons] at hnodup
  refine ⟨⟨⟨fun p q t _ _ hp hq => ?_⟩, hroot, fun p i e _ he => ?_, fun f hf => ?_, hnodup.2⟩,
    fun va _ => ?_, fun va _ hu => ?_⟩
  · rw [(hnil p t hp).1, (hnil q t hq).1]
  · obtain ⟨t, ht, rfl⟩ := map_eq_some_iff.mp he
    rw [(hnil p t ht).2]
    exact .inl (hempty i)
  · obtain ⟨h1, h2, h3⟩ := hframes f hf
    refine ⟨h1, h2, h3, fun p _ hp => hnodup.1 ?_⟩
    rw [← (hnil p f hp).2]
    exact hf
  · rw [leafAt, entry, tablePath, hfollow]
    rfl
  · rw [leafAt, entry, tablePath, hfollow] at hu
    have hzero : hasFlag 0 pteUser = false := by decide
    exact absurd (hzero.symm.trans hu) Bool.false_ne_true

/-- Under an empty directory, after any valid calls whose table frames are fresh, the
processor finds for every page what the last call for this page left, provided that its
flags have the present bit, and nothing otherwise. -/
theorem pageTables_refine_pageMap {mem : ℕ → ℕ → BitVec 64} {supply : List ℕ} (hroot : root ≠ 0)
    (hempty : ∀ i, mem root i = 0) (hnodup : (root :: supply).Nodup)
    (hframes : ∀ f ∈ supply, f ≠ 0 ∧ f < 2 ^ 47 ∧ pageSize ∣ f) (ops : List PageOp)
    (hops : ∀ op ∈ ops, op.Valid) :
    (3 * ops.length ≤ supply.length → ∃ s, runPageOps root ops ⟨mem, supply⟩ = some s) ∧
    ∀ s, runPageOps root ops ⟨mem, supply⟩ = some s →
      (∀ va, Canonical va → (hardwareWalk s.mem root va).map (fun w => (w.frame, w.flags)) =
        (pageMapAfter ops (va / pageSize)).filter fun x => hasFlag x.2 ptePresent) ∧
      (∀ va w, Canonical va → hardwareWalk s.mem root va = some w →
        w.user = hasFlag w.flags pteUser) ∧
      (∀ va, Canonical va → (∀ addr frame flags, PageOp.map addr frame flags ∈ ops →
          addr / pageSize ≠ va / pageSize) → unmapPage supplyOps s root va = some s) ∧
      (∀ (op : PageOp) s' va, op.Valid → op.run root s = some s' → Canonical va →
        va / pageSize ≠ op.addr / pageSize →
        (hardwareWalk s'.mem root va).map (fun w => (w.frame, w.flags, w.user)) =
          (hardwareWalk s.mem root va).map fun w => (w.frame, w.flags, w.user)) ∧
      ∀ p q i j t₁ t₂ t, p.length < 3 → q.length < 3 → follow tableOf s.mem root p = some t₁ →
        follow tableOf s.mem root q = some t₂ → tableOf (s.mem t₁ i) = some t →
        tableOf (s.mem t₂ j) = some t → t ≠ root ∧ t₁ = t₂ ∧ i = j := by
  have hstart := mapsAs_empty hroot hempty hnodup hframes
  have hvalid : MapValid (pageMapAfter ops) := mapValid_foldl hops fun _ _ _ h => by cases h
  have hcases := hstart.runPageOps_cases hops
  refine ⟨fun hlen => ?_, fun s hs => ?_⟩
  · rcases hcases with ⟨-, hlt⟩ | ⟨s, hs, -⟩
    · exact absurd hlt (not_lt.mpr hlen)
    · exact ⟨s, hs⟩
  have hm : MapsAs s root (pageMapAfter ops) := by
    rcases hcases with ⟨hnone, -⟩ | ⟨s', hs', hm⟩
    · rw [hnone] at hs
      cases hs
    · rw [← Option.some.inj (hs'.symm.trans hs)]
      exact hm
  refine ⟨fun va hva => ?_, fun va w hva hw => ?_, fun va hva hnever => ?_,
    fun op s' va hv hrun hva hne => ?_, ?_⟩
  · have hwalk := congrArg (Option.map fun x : ℕ × BitVec 64 × Bool => (x.1, x.2.1))
      (hm.walk hvalid hva)
    simpa only [Option.map_map, Function.comp_def, Prod.mk.eta, Option.map_id'] using hwalk
  · have hwalk := hm.walk hvalid hva
    rw [hw, Option.map_some, eq_comm, Option.map_eq_some_iff] at hwalk
    obtain ⟨x, -, hx⟩ := hwalk
    simp only [Prod.mk.injEq] at hx
    rw [← hx.2.2, ← hx.2.1]
  · exact hm.unmap_none hva (pageMapAfter_eq_none hnever rfl)
  · rcases hm.run_cases hv with ⟨hnone, -⟩ | ⟨s₁, hs₁, hm₁, -⟩
    · rw [hnone] at hrun
      cases hrun
    rw [Option.some.inj (hs₁.symm.trans hrun)] at hm₁
    have hvalid₁ : MapValid ([op].foldl PageOp.apply (pageMapAfter ops)) :=
      mapValid_foldl (by simpa using hv) hvalid
    rw [hm₁.walk hvalid₁ hva, hm.walk hvalid hva, PageOp.apply_of_ne hne]
  · intro p q i j t₁ t₂ t hp hq ht₁ ht₂ hi hj
    have hpi : follow tableOf s.mem root (p ++ [i]) = some t := by
      rw [follow_concat, ht₁, Option.bind_some, hi]
    have hqj : follow tableOf s.mem root (q ++ [j]) = some t := by
      rw [follow_concat, ht₂, Option.bind_some, hj]
    have hlen : ∀ (p : List ℕ) i, p.length < 3 → (p ++ [i]).length ≤ 3 := by
      intro p i hp
      rw [List.length_append, List.length_singleton]
      omega
    have heq := hm.tree.separated.inj _ _ t (hlen p i hp) (hlen q j hq) hpi hqj
    obtain ⟨rfl, hij⟩ := List.append_inj' heq rfl
    refine ⟨?_, Option.some.inj (ht₁.symm.trans ht₂), by simpa using hij⟩
    rintro rfl
    have hnil := hm.tree.separated.inj _ [] t (hlen p i hp) (by simp) hpi rfl
    simp at hnil

end Run

/-- A page is mapped for the user, another one for the kernel, and the first is unmapped. -/
def smallPageOps : List PageOp :=
  [.map 0x400000 0x5000 (ptePresent ||| pteUser), .map 0x401000 0x6000 ptePresent, .unmap 0x400000]

def smallSupply : List ℕ := (List.range 9).map fun k => 0x2000 + k * 0x1000

theorem pageTables_refine_pageMap_small :
    ∃ s, runPageOps 0x1000 smallPageOps ⟨fun _ _ => 0, smallSupply⟩ = some s ∧
      (hardwareWalk s.mem 0x1000 0x401000).map (fun w => (w.frame, w.flags)) =
        some (0x6000, ptePresent) := by
  obtain ⟨hrun, hmap⟩ := @pageTables_refine_pageMap 0x1000 (fun _ _ => 0) smallSupply (by decide)
    (fun _ => rfl) (by decide) (by decide) smallPageOps (by decide)
  obtain ⟨s, hs⟩ := hrun (by decide)
  exact ⟨s, hs, (hmap s hs).1 0x401000 (by decide)⟩

/-- Flags without the present bit: the processor does not find the page. -/
theorem walk_eq_none_of_not_present :
    ∃ s, runPageOps 0x1000 [.map 0x400000 0x5000 pteUser] ⟨fun _ _ => 0, smallSupply⟩ = some s ∧
      (hardwareWalk s.mem 0x1000 0x400000).map (fun w => (w.frame, w.flags)) ≠
        pageMapAfter [.map 0x400000 0x5000 pteUser] (0x400000 / pageSize) := by
  refine (Option.isSome_iff_exists.mp ?_).imp fun s hs => ⟨hs, ?_⟩
  · decide
  · revert s
    decide

end CoolPotOS
