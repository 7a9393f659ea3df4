import CoolPotOS.Mem.Mpool
import CoolPotOS.Lib.Blocks

namespace CoolPotOS

open Blocks Intrusive Function List Option Mpool

/-- What a block is used for: a caller has it, an operation works on it, it is free but too small for a list,
or it is free and in a list. -/
inductive BlockUse
  | live
  | held
  | empty
  | listed (list : Option ℕ)
deriving DecidableEq

def BlockUse.flag : BlockUse → Option Bool
  | live => some false
  | held => none
  | empty => some true
  | listed _ => some true

def BlockUse.unlisted : BlockUse → Bool
  | listed _ => false
  | _ => true

abbrev PoolBlock := Block BlockUse

structure TagOk (tag size : ℕ) (use : BlockUse) : Prop where
  size_eq : tagSize tag = size
  not_area : hasTagFlag tag areaFlag = false
  free : ∀ f ∈ use.flag, hasTagFlag tag freeFlag = f

structure Tagged (mem : ℕ → ℕ) (b : PoolBlock) : Prop where
  head : TagOk (mem (b.addr - 8)) b.size b.use
  tail : TagOk (mem (b.addr + b.size)) b.size b.use

structure PoolOk (p : Mpool) (B : List PoolBlock) (L : Option ℕ → List ℕ) : Prop where
  base : pageSize ≤ p.ptr
  base_dvd : 16 ∣ p.ptr
  top : p.ptr + p.size < 2 ^ 64
  nonempty : B ≠ []
  fill : Fill 16 (p.ptr + 16) B (p.ptr + p.size)
  size_dvd : ∀ b ∈ B, 16 ∣ b.size
  first : hasTagFlag (p.mem p.ptr) areaFlag = true
  last : hasTagFlag (p.mem (p.ptr + p.size - 8)) areaFlag = true
  tags : ∀ b ∈ B, Tagged p.mem b
  chain : ∀ i, Chain p.mem 8 (p.list i) (L i)
  nodup : ∀ i, (L i).Nodup
  listed : ∀ i a, a ∈ L i ↔ ∃ b ∈ B, b.addr = a ∧ b.use = .listed i
  roomy : ∀ b ∈ B, ∀ i, b.use = .listed i → b.size ≠ 0

/-- The live blocks of `l` have the same contents, and the pool lies at the same place. -/
structure Kept (p p' : Mpool) (l : List PoolBlock) : Prop where
  ptr : p'.ptr = p.ptr
  contents : ∀ b ∈ l, b.use = .live → ∀ w, b.addr ≤ w → w < b.addr + b.size → p'.mem w = p.mem w

section Tags

variable {tag size : ℕ} {use : BlockUse}

theorem tagOk_iff : TagOk tag size use ↔
    tag / 8 * 8 = size ∧ tag / 2 % 2 = 0 ∧ (use.flag = some true → tag % 2 = 1) ∧
      (use.flag = some false → tag % 2 = 0) := by
  constructor
  · rintro ⟨hsize, harea, hfree⟩
    refine ⟨hsize, (hasTagFlag_eq_false_iff tag areaFlag).mp harea, fun hf => ?_, fun hf => ?_⟩
    · exact (hasTagFlag_free tag).mp (hfree true hf)
    · have := hfree false hf
      rw [hasTagFlag_eq_false_iff, freeFlag, Nat.div_one] at this
      exact this
  · rintro ⟨hsize, harea, htrue, hfalse⟩
    refine ⟨hsize, (hasTagFlag_eq_false_iff tag areaFlag).mpr harea, fun f hf => ?_⟩
    cases f with
    | true => exact (hasTagFlag_free tag).mpr (htrue hf)
    | false =>
      rw [hasTagFlag_eq_false_iff, freeFlag, Nat.div_one]
      exact hfalse hf

theorem TagOk.mono {use' : BlockUse} (h : TagOk tag size use) (huse : use'.flag = none ∨ use'.flag = use.flag) :
    TagOk tag size use' := by
  refine ⟨h.size_eq, h.not_area, fun f hf => ?_⟩
  rcases huse with huse | huse
  · rw [huse] at hf
    cases hf
  · exact h.free f (huse ▸ hf)

theorem TagOk.setFree (h : TagOk tag size use) : TagOk (setFlag tag freeFlag) size .empty := by
  rw [tagOk_iff] at h ⊢
  rw [setFlag_free]
  refine ⟨by omega, by omega, fun _ => by omega, fun hf => ?_⟩
  cases hf

theorem TagOk.clearFree (h : TagOk tag size use) : TagOk (clearFlag tag freeFlag) size .live := by
  rw [tagOk_iff] at h ⊢
  rw [clearFlag_free]
  refine ⟨by omega, by omega, fun hf => ?_, fun _ => by omega⟩
  cases hf

theorem TagOk.setSize (h : TagOk tag size use) : TagOk (setFlag tag sizeFlag) size use := by
  rw [tagOk_iff] at h ⊢
  rw [setFlag_size]
  refine ⟨by omega, by omega, fun hf => ?_, fun hf => ?_⟩
  · have := h.2.2.1 hf
    omega
  · have := h.2.2.2 hf
    omega

theorem TagOk.clearSize (h : TagOk tag size use) : TagOk (clearFlag tag sizeFlag) size use := by
  rw [tagOk_iff] at h ⊢
  rw [clearFlag_size]
  refine ⟨by omega, by omega, fun hf => ?_, fun hf => ?_⟩
  · have := h.2.2.1 hf
    omega
  · have := h.2.2.2 hf
    omega

theorem tagOk_self (h : 16 ∣ size) : TagOk size size .live := by
  rw [tagOk_iff]
  refine ⟨by omega, by omega, fun hf => ?_, fun _ => by omega⟩
  cases hf

end Tags

theorem Kept.refl (p : Mpool) (l : List PoolBlock) : Kept p p l := ⟨rfl, fun _ _ _ _ _ _ => rfl⟩

variable {l : List PoolBlock} {i : Option ℕ} {use : BlockUse} {n : ℕ}

theorem Kept.trans {p p' p'' : Mpool} (h : Kept p p' l) (h' : Kept p' p'' l) : Kept p p'' l :=
  ⟨h'.ptr.trans h.ptr, fun b hb huse w hlo hhi =>
    (h'.contents b hb huse w hlo hhi).trans (h.contents b hb huse w hlo hhi)⟩

theorem Kept.mono {p p' : Mpool} {l' : List PoolBlock} (h : Kept p p' l) (hl : ∀ b ∈ l', b.use = .live → b ∈ l) :
    Kept p p' l' :=
  ⟨h.ptr, fun b hb huse => h.contents b (hl b hb huse) huse⟩

section Pool

variable {p p' : Mpool} {B l1 l2 : List PoolBlock} {L L' : Option ℕ → List ℕ} {b c : PoolBlock}

theorem Mpool.setList_list (p : Mpool) (i j : Option ℕ) (head : ℕ) :
    (p.setList i head).list j = if j = i then head else p.list j := by
  cases i <;> cases j <;> simp [setList, list, update_apply]

theorem PoolOk.addr_dvd (h : PoolOk p B L) (hb : b ∈ B) : 16 ∣ b.addr :=
  h.fill.addr_dvd (h.base_dvd.add dvd_rfl) dvd_rfl h.size_dvd hb

theorem PoolOk.place (h : PoolOk p B L) (hb : b ∈ B) :
    p.ptr + 16 ≤ b.addr ∧ b.addr + b.size + 16 ≤ p.ptr + p.size := h.fill.mem hb

theorem PoolOk.onNode (h : PoolOk p B L) {w : ℕ} (hw : OnNode 8 (L i) w) :
    ∃ c ∈ B, c.use = .listed i ∧ c.addr ≤ w ∧ w < c.addr + c.size := by
  obtain ⟨a, ha, hw⟩ := hw
  obtain ⟨c, hc, rfl, huse⟩ := (h.listed i a).mp ha
  have hsize := h.size_dvd c hc
  have hroom := h.roomy c hc i huse
  exact ⟨c, hc, huse, by omega, by omega⟩

theorem PoolOk.blkSize_eq (h : PoolOk p B L) (hb : b ∈ B) : blkSize p b.addr = b.size :=
  (h.tags b hb).head.size_eq

theorem unlisted_of_ne (h : use.unlisted) (i : Option ℕ) : use ≠ .listed i := by
  rintro rfl
  cases h

theorem PoolOk.rebuild {k m : List PoolBlock} (h : PoolOk p (l1 ++ (k ++ l2)) L) (hptr : p'.ptr = p.ptr)
    (hsize : p'.size = p.size) (hlist : ∀ i, p'.list i = p.list i)
    (hfill : ∀ x y, Fill 16 x k y → Fill 16 x m y)
    (hmem : ∀ x y, Fill 16 x k y → ∀ w, w + 8 < x ∨ y ≤ w + 8 → p'.mem w = p.mem w)
    (hold : ∀ b ∈ k, b.use.unlisted) (hmid : ∀ b ∈ m, b.use.unlisted ∧ 16 ∣ b.size ∧ Tagged p'.mem b)
    (hne : m ≠ []) : PoolOk p' (l1 ++ (m ++ l2)) L ∧ Kept p p' (l1 ++ l2) := by
  obtain ⟨x, hl1, hrest⟩ := fill_append.mp h.fill
  obtain ⟨y, hplace, hl2⟩ := fill_append.mp hrest
  have hmem := hmem x y hplace
  have hmem1 : ∀ c ∈ l1 ++ l2, c ∈ l1 ++ (k ++ l2) := by
    intro c hc
    rw [mem_append] at hc
    exact mem_append.mpr (hc.imp_right (mem_append_right k))
  have hstay : ∀ c ∈ l1 ++ l2, ∀ w, c.addr ≤ w + 8 → w < c.addr + c.size + 8 → p'.mem w = p.mem w := by
    intro c hc w hlo hhi
    rcases mem_append.mp hc with hc | hc
    · have := (hl1.mem hc).2
      exact hmem w (.inl (by omega))
    · have := (hl2.mem hc).1
      exact hmem w (.inr (by omega))
  have hlisted : ∀ c i, c.use = .listed i → (c ∈ l1 ++ (m ++ l2) ↔ c ∈ l1 ++ (k ++ l2)) := by
    intro c i hc
    have hnew : c ∉ m := fun hm => unlisted_of_ne (hmid c hm).1 i hc
    have hgone : c ∉ k := fun hm => unlisted_of_ne (hold c hm) i hc
    simp only [mem_append, hnew, hgone, false_or]
  have hother : ∀ c ∈ l1 ++ (k ++ l2), ∀ i, c.use = .listed i → c ∈ l1 ++ l2 := by
    intro c hc i hi
    have hgone : c ∉ k := fun hm => unlisted_of_ne (hold c hm) i hi
    simp only [mem_append, hgone, false_or] at hc ⊢
    exact hc
  have hlow := hl1.le
  have hhigh := hl2.le
  have hxy := hplace.le
  refine ⟨⟨?_, ?_, ?_, ?_, ?_, ?_, ?_, ?_, ?_, ?_, h.nodup, ?_, ?_⟩, hptr, ?_⟩
  · rw [hptr]
    exact h.base
  · rw [hptr]
    exact h.base_dvd
  · rw [hptr, hsize]
    exact h.top
  · intro hnil
    simp only [append_eq_nil_iff] at hnil
    exact hne hnil.2.1
  · rw [hptr, hsize]
    exact fill_append.mpr ⟨x, hl1, fill_append.mpr ⟨y, hfill x y hplace, hl2⟩⟩
  · intro c hc
    rw [mem_append, mem_append] at hc
    rcases hc with hc | hc | hc
    · exact h.size_dvd c (mem_append_left _ hc)
    · exact (hmid c hc).2.1
    · exact h.size_dvd c (mem_append_right _ (mem_append_right _ hc))
  · rw [hptr, hmem p.ptr (.inl (by omega))]
    exact h.first
  · rw [hptr, hsize, hmem _ (.inr (by omega))]
    exact h.last
  · intro c hc
    rw [mem_append, mem_append] at hc
    have hsame : c ∈ l1 ++ l2 → Tagged p'.mem c := by
      intro hc
      have htags := h.tags c (hmem1 c hc)
      have hplace := h.place (hmem1 c hc)
      refine ⟨?_, ?_⟩
      · rw [hstay c hc _ (by omega) (by omega)]
        exact htags.head
      · rw [hstay c hc _ (by omega) (by omega)]
        exact htags.tail
    rcases hc with hc | hc | hc
    · exact hsame (mem_append_left _ hc)
    · exact (hmid c hc).2.2
    · exact hsame (mem_append_right _ hc)
  · intro i
    rw [hlist]
    refine (h.chain i).congr_words fun w hw => ?_
    obtain ⟨c, hc, huse, hlo, hhi⟩ := h.onNode hw
    exact hstay c (hother c hc i huse) w (by omega) (by omega)
  · intro i a
    rw [h.listed]
    constructor
    · rintro ⟨c, hc, haddr, huse⟩
      exact ⟨c, (hlisted c i huse).mpr hc, haddr, huse⟩
    · rintro ⟨c, hc, haddr, huse⟩
      exact ⟨c, (hlisted c i huse).mp hc, haddr, huse⟩
  · intro c hc i huse
    exact h.roomy c ((hlisted c i huse).mp hc) i huse
  · intro c hc _ w hlo hhi
    exact hstay c hc w (by omega) (by omega)

theorem PoolOk.relist (h : PoolOk p (l1 ++ b :: l2) L) (hptr : p'.ptr = p.ptr) (hsize : p'.size = p.size)
    (hflag : use.flag = none ∨ use.flag = b.use.flag)
    (hmem : ∀ w, p'.mem w ≠ p.mem w → ∃ c ∈ l1 ++ b :: l2, c.use ≠ .live ∧ c.addr ≤ w ∧ w < c.addr + c.size)
    (hchain : ∀ i, Chain p'.mem 8 (p'.list i) (L' i)) (hnodup : ∀ i, (L' i).Nodup)
    (hlisted : ∀ i a, a ∈ L' i ↔ ∃ c ∈ l1 ++ ⟨b.addr, b.size, use⟩ :: l2, c.addr = a ∧ c.use = .listed i)
    (hroom : ∀ i, use = .listed i → b.size ≠ 0) :
    PoolOk p' (l1 ++ ⟨b.addr, b.size, use⟩ :: l2) L' ∧ Kept p p' (l1 ++ l2) := by
  have hstay : ∀ c ∈ l1 ++ b :: l2, p'.mem (c.addr - 8) = p.mem (c.addr - 8) ∧
      p'.mem (c.addr + c.size) = p.mem (c.addr + c.size) := by
    intro c hc
    have hplace := h.place hc
    constructor
    · by_contra hne
      obtain ⟨d, hd, -, hlo, hhi⟩ := hmem _ hne
      rcases h.fill.apart hc hd with rfl | hlt | hlt <;> omega
    · by_contra hne
      obtain ⟨d, hd, -, hlo, hhi⟩ := hmem _ hne
      rcases h.fill.apart hc hd with rfl | hlt | hlt <;> omega
  have hnew : ∀ {c}, c ∈ l1 ++ (⟨b.addr, b.size, use⟩ : PoolBlock) :: l2 →
      c = ⟨b.addr, b.size, use⟩ ∨ c ∈ l1 ++ b :: l2 := by
    intro c hc
    simp only [mem_append, mem_cons] at hc ⊢
    tauto
  have hb : b ∈ l1 ++ b :: l2 := mem_append_right l1 mem_cons_self
  refine ⟨⟨?_, ?_, ?_, ?_, ?_, ?_, ?_, ?_, ?_, hchain, hnodup, hlisted, ?_⟩, hptr, ?_⟩
  · rw [hptr]
    exact h.base
  · rw [hptr]
    exact h.base_dvd
  · rw [hptr, hsize]
    exact h.top
  · exact append_ne_nil_of_right_ne_nil l1 (cons_ne_nil _ l2)
  · rw [hptr, hsize]
    obtain ⟨hbefore, hbehind⟩ := fill_middle.mp h.fill
    exact fill_middle.mpr ⟨hbefore, hbehind⟩
  · intro c hc
    rcases hnew hc with rfl | hc
    · exact h.size_dvd b hb
    · exact h.size_dvd c hc
  · rw [hptr]
    by_cases heq : p'.mem p.ptr = p.mem p.ptr
    · rw [heq]
      exact h.first
    · obtain ⟨d, hd, -, hlo, -⟩ := hmem _ heq
      have := (h.place hd).1
      omega
  · rw [hptr, hsize]
    by_cases heq : p'.mem (p.ptr + p.size - 8) = p.mem (p.ptr + p.size - 8)
    · rw [heq]
      exact h.last
    · obtain ⟨d, hd, -, -, hhi⟩ := hmem _ heq
      have := (h.place hd).2
      omega
  · intro c hc
    rcases hnew hc with rfl | hc
    · obtain ⟨hhead, htail⟩ := hstay b hb
      have htags := h.tags b hb
      refine ⟨?_, ?_⟩
      · rw [hhead]
        exact htags.head.mono hflag
      · rw [htail]
        exact htags.tail.mono hflag
    · obtain ⟨hhead, htail⟩ := hstay c hc
      have htags := h.tags c hc
      refine ⟨?_, ?_⟩
      · rw [hhead]
        exact htags.head
      · rw [htail]
        exact htags.tail
  · intro c hc i huse
    rcases hnew hc with rfl | hc
    · exact hroom i huse
    · exact h.roomy c hc i huse
  · intro c hc huse w hlo hhi
    have hc' : c ∈ l1 ++ b :: l2 := by
      simp only [mem_append, mem_cons] at hc ⊢
      tauto
    by_contra hne
    obtain ⟨d, hd, hd', hlo', hhi'⟩ := hmem w hne
    rcases h.fill.apart hc' hd with rfl | hlt | hlt
    · exact hd' huse
    · omega
    · omega

theorem mem_update_erase (h : PoolOk p (l1 ++ b :: l2) L) (huse : b.use = .listed i) (j : Option ℕ) (a : ℕ) :
    a ∈ update L i ((L i).erase b.addr) j ↔
      ∃ c ∈ l1 ++ ⟨b.addr, b.size, .held⟩ :: l2, c.addr = a ∧ c.use = .listed j := by
  have hb : b ∈ l1 ++ b :: l2 := mem_append_right l1 mem_cons_self
  have hiff : (∃ c ∈ l1 ++ (⟨b.addr, b.size, .held⟩ : PoolBlock) :: l2, c.addr = a ∧ c.use = .listed j) ↔
      a ≠ b.addr ∧ a ∈ L j := by
    rw [h.listed]
    constructor
    · rintro ⟨c, hc, rfl, hcuse⟩
      have hne : c ≠ ⟨b.addr, b.size, .held⟩ := by
        rintro rfl
        cases hcuse
      have hc : c ∈ l1 ∨ c ∈ l2 := by
        rw [mem_append, mem_cons] at hc
        exact hc.imp_right fun hc => hc.resolve_left hne
      refine ⟨fun haddr => ?_, c, ?_, rfl, hcuse⟩
      · have hnodup := h.fill.nodup (by norm_num)
        rw [map_append, map_cons, nodup_middle, nodup_cons] at hnodup
        refine hnodup.1 (haddr ▸ ?_)
        rw [← map_append]
        exact List.mem_map_of_mem (mem_append.mpr hc)
      · exact mem_append.mpr (hc.imp_right (mem_cons_of_mem b))
    · rintro ⟨hne, c, hc, rfl, hcuse⟩
      refine ⟨c, ?_, rfl, hcuse⟩
      rw [mem_append, mem_cons] at hc ⊢
      refine hc.imp_right fun hc => .inr (hc.resolve_left ?_)
      rintro rfl
      exact hne rfl
  rw [hiff, update_apply]
  split
  · rename_i hji
    rw [hji, (h.nodup i).mem_erase_iff]
  · rename_i hji
    refine ⟨fun ha => ⟨?_, ha⟩, And.right⟩
    rintro rfl
    obtain ⟨c, hc, haddr, hcuse⟩ := (h.listed j _).mp ha
    obtain rfl := h.fill.eq_of_addr (by norm_num) hc hb haddr
    rw [huse] at hcuse
    exact hji (BlockUse.listed.inj hcuse).symm

theorem PoolOk.detached (h : PoolOk p (l1 ++ b :: l2) L) (huse : b.use = .listed i) :
    ∃ p', freelistDetach p i b.addr = some p' ∧ p'.size = p.size ∧ p'.allocedSize = p.allocedSize ∧
      PoolOk p' (l1 ++ ⟨b.addr, b.size, .held⟩ :: l2) (update L i ((L i).erase b.addr)) ∧
        Kept p p' (l1 ++ l2) := by
  have hb : b ∈ l1 ++ b :: l2 := mem_append_right l1 mem_cons_self
  have hmem : b.addr ∈ L i := (h.listed i b.addr).mpr ⟨b, hb, rfl, huse⟩
  have hdvd : ∀ a, ∀ j, a ∈ L j → 2 * 8 ∣ a := by
    intro a j ha
    obtain ⟨c, hc, rfl, -⟩ := (h.listed j a).mp ha
    exact h.addr_dvd hc
  have hin : ∀ a ∈ L i, p.inPool a := by
    intro a ha
    obtain ⟨c, hc, rfl, -⟩ := (h.listed i a).mp ha
    have hplace := h.place hc
    exact decide_eq_true ⟨by omega, by omega⟩
  have hnodup : ∀ j, (update L i ((L i).erase b.addr) j).Nodup := by
    intro j
    rw [update_apply]
    split
    · exact (h.nodup i).erase _
    · exact h.nodup j
  obtain ⟨k1, k2, hk⟩ := append_of_mem hmem
  have hchain := h.chain i
  rw [hk] at hchain
  have hknodup := h.nodup i
  rw [hk] at hknodup
  have hne1 : b.addr ∉ k1 := by
    rw [nodup_middle, nodup_cons] at hknodup
    exact fun hmem => hknodup.1 (mem_append_left k2 hmem)
  have herase : (L i).erase b.addr = k1 ++ k2 := by
    rw [hk, erase_append_right _ hne1, erase_cons_head]
  cases k1 with
  | nil =>
    -- the first of its list
    have hhead : p.list i = b.addr := hchain.1
    refine ⟨p.setList i (p.mem b.addr), ?_, ?_, ?_, ?_⟩
    · unfold freelistDetach
      rw [if_pos hhead]
    · cases i <;> rfl
    · cases i <;> rfl
    · have hpm : (p.setList i (p.mem b.addr)).mem = p.mem := by cases i <;> rfl
      refine h.relist (by cases i <;> rfl) (by cases i <;> rfl) (.inl rfl) (fun w hw => ?_) (fun j => ?_) hnodup
        (mem_update_erase h huse) fun j hj => by cases hj
      · rw [hpm] at hw
        exact absurd rfl hw
      · rw [hpm, setList_list, update_apply]
        split
        · rw [herase]
          exact hchain.pop
        · exact h.chain j
  | cons a k1 =>
    have hunlink := hchain.unlink (cons_ne_nil a k1) (by norm_num) hknodup fun c hc => hdvd c i (hk ▸ hc)
    have hhead : p.list i ≠ b.addr := by
      rw [hchain.1]
      rintro rfl
      exact hne1 mem_cons_self
    obtain ⟨hnext, hprev⟩ := hchain.links
    have hlinks : (p.mem b.addr = 0 ∨ p.inPool (p.mem b.addr)) ∧
        (p.mem (b.addr + 8) = 0 ∨ p.inPool (p.mem (b.addr + 8))) := by
      constructor
      · rw [hnext]
        cases k2 with
        | nil => exact .inl rfl
        | cons c k2 =>
          refine .inr (hin c ?_)
          rw [hk]
          exact mem_append_right _ (mem_cons_of_mem _ mem_cons_self)
      · have hlast := getLast?_eq_some_getLast (cons_ne_nil a k1)
        rw [hprev _ hlast]
        refine .inr (hin _ ?_)
        rw [hk]
        exact mem_append_left _ (getLast_mem _)
    refine ⟨{ p with mem := Intrusive.unlink 8 p.mem b.addr }, ?_, rfl, rfl, ?_⟩
    · unfold freelistDetach
      rw [if_neg hhead, if_pos hlinks]
    · have hsame : ∀ w, ¬ OnNode 8 (L i) w → Intrusive.unlink 8 p.mem b.addr w = p.mem w := by
        intro w hw
        refine hunlink.2 w fun ⟨c, hc, hcw⟩ => hw ⟨c, ?_, hcw⟩
        rw [hk]
        rw [mem_append] at hc
        exact mem_append.mpr (hc.imp_right (mem_cons_of_mem _))
      refine h.relist rfl rfl (.inl rfl) (fun w hw => ?_) (fun j => ?_) hnodup
        (mem_update_erase h huse) fun j hj => by cases hj
      · have hon : OnNode 8 (L i) w := by
          by_contra hon
          exact hw (hsame w hon)
        obtain ⟨c, hc, hcuse, hlo, hhi⟩ := h.onNode hon
        refine ⟨c, hc, ?_, hlo, hhi⟩
        rw [hcuse]
        exact BlockUse.noConfusion
      · rw [update_apply]
        split
        · rename_i hji
          rw [herase, hji]
          exact hunlink.1
        · rename_i hji
          refine (h.chain j).congr_words fun w hw => hsame w fun hw' => ?_
          obtain ⟨c, hc, hcuse, hlo, hhi⟩ := h.onNode hw
          obtain ⟨d, hd, hduse, hlo', hhi'⟩ := h.onNode hw'
          rcases h.fill.apart hc hd with rfl | hlt | hlt
          · rw [hcuse] at hduse
            exact hji (BlockUse.listed.inj hduse)
          · omega
          · omega

theorem Kept.middle (h : Kept p p' (l1 ++ l2))
    (hb : b.use = .live → ∀ w, b.addr ≤ w → w < b.addr + b.size → p'.mem w = p.mem w) :
    Kept p p' (l1 ++ b :: l2) := by
  refine ⟨h.ptr, fun c hc huse => ?_⟩
  rw [mem_append, mem_cons] at hc
  rcases hc with hc | rfl | hc
  · exact h.contents c (mem_append_left l2 hc) huse
  · exact hb huse
  · exact h.contents c (mem_append_right l1 hc) huse

theorem Kept.without (h : Kept p p' (l1 ++ b :: l2)) : Kept p p' (l1 ++ l2) := by
  apply h.mono
  intro c hc _
  rw [mem_append] at hc ⊢
  exact hc.imp_right (mem_cons_of_mem b)

theorem PoolOk.retag (h : PoolOk p (l1 ++ b :: l2) L) (hb : b.use.unlisted) (huse : use.unlisted)
    (hptr : p'.ptr = p.ptr) (hsize : p'.size = p.size) (hlist : ∀ i, p'.list i = p.list i)
    (hmem : ∀ w, w ≠ b.addr - 8 → w ≠ b.addr + b.size → p'.mem w = p.mem w)
    (hhead : TagOk (p'.mem (b.addr - 8)) b.size use) (htail : TagOk (p'.mem (b.addr + b.size)) b.size use) :
    PoolOk p' (l1 ++ ⟨b.addr, b.size, use⟩ :: l2) L ∧ Kept p p' (l1 ++ b :: l2) := by
  have hmemb : b ∈ l1 ++ b :: l2 := mem_append_right l1 mem_cons_self
  have hplace := h.place hmemb
  have hwords : ∀ x y, Fill 16 x [b] y → ∀ w, w + 8 < x ∨ y ≤ w + 8 → p'.mem w = p.mem w := by
    intro x y hxy w hw
    obtain ⟨hx, hy⟩ := fill_singleton.mp hxy
    exact hmem w (by omega) (by omega)
  have hnew : ∀ c ∈ [(⟨b.addr, b.size, use⟩ : PoolBlock)], c.use.unlisted ∧ 16 ∣ c.size ∧ Tagged p'.mem c := by
    intro c hc
    obtain rfl := mem_singleton.mp hc
    exact ⟨huse, h.size_dvd b hmemb, hhead, htail⟩
  have hold : ∀ c ∈ [b], c.use.unlisted := by
    intro c hc
    obtain rfl := mem_singleton.mp hc
    exact hb
  obtain ⟨hok, hkept⟩ := PoolOk.rebuild (k := [b]) (m := [⟨b.addr, b.size, use⟩]) h hptr hsize hlist
    (fun x y hxy => hxy) hwords hold hnew (cons_ne_nil _ _)
  exact ⟨hok, hkept.middle fun _ w hlo hhi => hmem w (by omega) (by omega)⟩

theorem PoolOk.change (h : PoolOk p (l1 ++ b :: l2) L) (hb : b.use.unlisted) (huse : use.unlisted) (f : ℕ → ℕ)
    (hf : ∀ {tag}, TagOk tag b.size b.use → TagOk (f tag) b.size use)
    (hp : p' = let q := p.store (b.addr - 8) (f (p.mem (b.addr - 8)))
      q.store (b.addr + b.size) (f (q.mem (b.addr + b.size)))) :
    PoolOk p' (l1 ++ ⟨b.addr, b.size, use⟩ :: l2) L ∧ Kept p p' (l1 ++ b :: l2) := by
  have hmemb : b ∈ l1 ++ b :: l2 := mem_append_right l1 mem_cons_self
  have hplace := h.place hmemb
  have htags := h.tags b hmemb
  have hne : b.addr - 8 ≠ b.addr + b.size := by omega
  subst hp
  apply h.retag hb huse
  all_goals try rfl
  · intro i
    cases i <;> rfl
  · intro w hw hw'
    simp only [store, update_of_ne hw', update_of_ne hw]
  · simp only [store, update_of_ne hne, update_self]
    exact hf htags.head
  · simp only [store, update_of_ne hne.symm, update_self]
    exact hf htags.tail

theorem PoolOk.setfreed (h : PoolOk p (l1 ++ b :: l2) L) (hb : b.use.unlisted) :
    PoolOk (blkSetfreed p b.addr b.size) (l1 ++ ⟨b.addr, b.size, .empty⟩ :: l2) L ∧
      Kept p (blkSetfreed p b.addr b.size) (l1 ++ b :: l2) :=
  h.change hb rfl _ TagOk.setFree rfl

theorem PoolOk.setalloced (h : PoolOk p (l1 ++ b :: l2) L) (hb : b.use.unlisted) :
    PoolOk (blkSetalloced p b.addr b.size) (l1 ++ ⟨b.addr, b.size, .live⟩ :: l2) L ∧
      Kept p (blkSetalloced p b.addr b.size) (l1 ++ b :: l2) :=
  h.change hb rfl _ TagOk.clearFree rfl

theorem PoolOk.setArea2M (h : PoolOk p (l1 ++ b :: l2) L) (hb : b.use.unlisted) :
    PoolOk (blkSetArea2M p b.addr b.size) (l1 ++ b :: l2) L ∧
      Kept p (blkSetArea2M p b.addr b.size) (l1 ++ b :: l2) := by
  have htop := h.top
  have hplace := h.place (mem_append_right l1 mem_cons_self)
  have hwrap : wrap (b.addr + b.size) = b.addr + b.size := wrap_of_lt (by omega)
  apply h.change hb hb _ TagOk.setSize
  unfold blkSetArea2M
  rw [hwrap]

theorem PoolOk.setArea4k (h : PoolOk p (l1 ++ b :: l2) L) (hb : b.use.unlisted) :
    PoolOk (blkSetArea4k p b.addr b.size) (l1 ++ b :: l2) L ∧
      Kept p (blkSetArea4k p b.addr b.size) (l1 ++ b :: l2) :=
  h.change hb hb _ TagOk.clearSize rfl

theorem PoolOk.put (h : PoolOk p (l1 ++ b :: l2) L) (huse : b.use = .empty) (hroom : b.size ≠ 0)
    (i : Option ℕ) : PoolOk (freelistPut p i b.addr) (l1 ++ ⟨b.addr, b.size, .listed i⟩ :: l2)
        (update L i (b.addr :: L i)) ∧
      Kept p (freelistPut p i b.addr) (l1 ++ l2) := by
  have hb : b ∈ l1 ++ b :: l2 := mem_append_right l1 mem_cons_self
  have hplace := h.place hb
  have hsize := h.size_dvd b hb
  have hnew : ∀ j, b.addr ∉ L j := by
    intro j hmem
    obtain ⟨c, hc, haddr, hcuse⟩ := (h.listed j _).mp hmem
    rw [h.fill.eq_of_addr (by norm_num) hc hb haddr, huse] at hcuse
    cases hcuse
  have hdvd : ∀ a ∈ b.addr :: L i, 2 * 8 ∣ a := by
    intro a ha
    rcases mem_cons.mp ha with rfl | ha
    · exact h.addr_dvd hb
    · obtain ⟨c, hc, rfl, -⟩ := (h.listed i a).mp ha
      exact h.addr_dvd hc
  have hmem : (freelistPut p i b.addr).mem = Intrusive.push 8 p.mem (p.list i) b.addr := by
    cases i <;> rfl
  have hother : ∀ w, w ≠ b.addr → w ≠ b.addr + 8 → ¬ OnNode 8 (L i) w →
      Intrusive.push 8 p.mem (p.list i) b.addr w = p.mem w := by
    intro w hw hw' hon
    apply push_of_ne hw hw' _ (by norm_num)
    intro hhead hw''
    have hchain := h.chain i
    cases hL : L i with
    | nil =>
      rw [hL] at hchain
      exact hhead hchain
    | cons a l =>
      rw [hL] at hchain
      refine hon ⟨a, ?_, .inr ?_⟩
      · rw [hL]
        exact mem_cons_self
      · rw [← hchain.1]
        exact hw''
  apply h.relist
  · cases i <;> rfl
  · cases i <;> rfl
  · right
    rw [huse]
    rfl
  · intro w hw
    rw [hmem] at hw
    by_cases hown : b.addr ≤ w ∧ w < b.addr + b.size
    · refine ⟨b, hb, ?_, hown⟩
      rw [huse]
      exact BlockUse.noConfusion
    · have hon : OnNode 8 (L i) w := by
        by_contra hon
        exact hw (hother w (by omega) (by omega) hon)
      obtain ⟨c, hc, hcuse, hlo, hhi⟩ := h.onNode hon
      refine ⟨c, hc, ?_, hlo, hhi⟩
      rw [hcuse]
      exact BlockUse.noConfusion
  · intro j
    rw [hmem]
    unfold freelistPut
    rw [setList_list, update_apply]
    split
    · exact (h.chain i).push (by norm_num) (by omega) (hnew i) (h.nodup i) hdvd
    · rename_i hji
      have hlist : ({ p with mem := Intrusive.push 8 p.mem (p.list i) b.addr } : Mpool).list j = p.list j := by
        cases j <;> rfl
      rw [hlist]
      refine (h.chain j).congr_words fun w hw => ?_
      obtain ⟨c, hc, hcuse, hlo, hhi⟩ := h.onNode hw
      have hcb : c ≠ b := by
        rintro rfl
        rw [huse] at hcuse
        cases hcuse
      have hapart := (h.fill.apart hc hb).resolve_left hcb
      apply hother w (by omega) (by omega)
      intro hw'
      obtain ⟨d, hd, hduse, hlo', hhi'⟩ := h.onNode hw'
      rcases h.fill.apart hc hd with rfl | hlt | hlt
      · rw [hcuse] at hduse
        exact hji (BlockUse.listed.inj hduse)
      · omega
      · omega
  · intro j
    rw [update_apply]
    split
    · exact nodup_cons.mpr ⟨hnew i, h.nodup i⟩
    · exact h.nodup j
  · intro j a
    have hiff : (∃ c ∈ l1 ++ (⟨b.addr, b.size, .listed i⟩ : PoolBlock) :: l2, c.addr = a ∧ c.use = .listed j) ↔
        (a = b.addr ∧ j = i) ∨ a ∈ L j := by
      rw [h.listed]
      simp only [mem_append, mem_cons]
      constructor
      · rintro ⟨c, hc | rfl | hc, haddr, hcuse⟩
        · exact .inr ⟨c, .inl hc, haddr, hcuse⟩
        · exact .inl ⟨haddr.symm, (BlockUse.listed.inj hcuse).symm⟩
        · exact .inr ⟨c, .inr (.inr hc), haddr, hcuse⟩
      · rintro (⟨rfl, rfl⟩ | ⟨c, hc | rfl | hc, haddr, hcuse⟩)
        · exact ⟨_, .inr (.inl rfl), rfl, rfl⟩
        · exact ⟨c, .inl hc, haddr, hcuse⟩
        · rw [huse] at hcuse
          cases hcuse
        · exact ⟨c, .inr (.inr hc), haddr, hcuse⟩
    rw [hiff, update_apply]
    split
    · rename_i hji
      rw [mem_cons, hji]
      simp only [and_true]
    · rename_i hji
      simp only [hji, and_false, false_or]
  · intro j _
    exact hroom

def freeUse (size : ℕ) : BlockUse := if size = 0 then .empty else .listed (freelistsSize2id size)

theorem PoolOk.freed (h : PoolOk p (l1 ++ b :: l2) L) (hb : b.use.unlisted) :
    ∃ L', PoolOk (doFree p b.addr) (l1 ++ ⟨b.addr, b.size, freeUse b.size⟩ :: l2) L' ∧
      Kept p (doFree p b.addr) (l1 ++ l2) := by
  have hmemb : b ∈ l1 ++ b :: l2 := mem_append_right l1 mem_cons_self
  obtain ⟨hok, hkept⟩ := h.setfreed hb
  have hkept := hkept.without
  have hsize : blkSize (blkSetfreed p b.addr b.size) b.addr = b.size :=
    hok.blkSize_eq (b := ⟨b.addr, b.size, .empty⟩) (mem_append_right l1 mem_cons_self)
  unfold doFree freelistsPut freeUse
  rw [h.blkSize_eq hmemb, hsize]
  by_cases hroom : b.size = 0
  · rw [if_pos hroom, if_pos hroom]
    exact ⟨L, hok, hkept⟩
  · rw [if_neg hroom, if_neg hroom]
    obtain ⟨hok', hkept'⟩ := hok.put rfl hroom (freelistsSize2id b.size)
    exact ⟨_, hok', hkept.trans hkept'⟩

theorem setTags_spec (p : Mpool) (is2M : Bool) {a : ℕ} (ha : 8 ≤ a) (hn : 16 ∣ n) (htop : a + n < 2 ^ 64) :
    ∃ p', (if is2M then blkSetArea2M (blkSetsize p a n) a n else blkSetsize p a n) = p' ∧
      (p'.ptr = p.ptr ∧ p'.size = p.size ∧ p'.allocedSize = p.allocedSize ∧ ∀ i, p'.list i = p.list i) ∧
      (∀ w, w ≠ a - 8 → w ≠ a + n → p'.mem w = p.mem w) ∧ Tagged p'.mem ⟨a, n, .live⟩ := by
  have hwrap : wrap (a + n) = a + n := wrap_of_lt htop
  have hne : a - 8 ≠ a + n := by omega
  cases is2M with
  | false =>
    refine ⟨blkSetsize p a n, rfl, ⟨rfl, rfl, rfl, fun i => by cases i <;> rfl⟩, fun w hw hw' => ?_, ?_, ?_⟩
    · simp only [blkSetsize, hwrap, store, update_of_ne hw', update_of_ne hw]
    · simp only [blkSetsize, hwrap, store, update_of_ne hne, update_self]
      exact tagOk_self hn
    · simp only [blkSetsize, hwrap, store, update_self]
      exact tagOk_self hn
  | true =>
    refine ⟨blkSetArea2M (blkSetsize p a n) a n, rfl, ⟨rfl, rfl, rfl, fun i => by cases i <;> rfl⟩,
      fun w hw hw' => ?_, ?_, ?_⟩
    · simp only [blkSetArea2M, blkSetsize, hwrap, store, update_of_ne hw',
        update_of_ne hw]
    · simp only [blkSetArea2M, blkSetsize, hwrap, store, update_of_ne hne,
        update_self]
      exact (tagOk_self hn).setSize
    · simp only [blkSetArea2M, blkSetsize, hwrap, store, update_of_ne hne.symm,
        update_self]
      exact (tagOk_self hn).setSize

theorem PoolOk.split (h : PoolOk p (l1 ++ b :: l2) L) (hb : b.use.unlisted) (hn : 16 ∣ n)
    (hfit : n + 16 ≤ b.size) :
    ∃ p', blkSplit p b.addr n = (b.addr + n + 16, p') ∧ p'.size = p.size ∧ p'.allocedSize = p.allocedSize ∧
      PoolOk p' (l1 ++ ⟨b.addr, n, .live⟩ :: ⟨b.addr + n + 16, b.size - n - 16, .live⟩ :: l2) L ∧
      Kept p p' (l1 ++ ⟨b.addr, n, .live⟩ :: l2) := by
  have hmemb : b ∈ l1 ++ b :: l2 := mem_append_right l1 mem_cons_self
  have hplace := h.place hmemb
  have htop := h.top
  have hsize := h.size_dvd b hmemb
  have hoffset : wrap (n + 16) = n + 16 := wrap_of_lt (by omega)
  have hrest : wrapSub b.size (n + 16) = b.size - n - 16 := by
    unfold wrapSub
    omega
  have hsecond : wrap (b.addr + (n + 16)) = b.addr + n + 16 := by
    rw [← Nat.add_assoc]
    exact wrap_of_lt (by omega)
  obtain ⟨p1, hp1, ⟨hptr1, hsize1, halloced1, hlist1⟩, hmem1, htags1⟩ :=
    setTags_spec p (blkAreaIs2M p b.addr) (a := b.addr) (by omega) hn (by omega)
  obtain ⟨p2, hp2, ⟨hptr2, hsize2, halloced2, hlist2⟩, hmem2, htags2⟩ :=
    setTags_spec p1 (blkAreaIs2M p b.addr) (a := b.addr + n + 16) (n := b.size - n - 16) (by omega) (by omega)
      (by omega)
  have hmem : ∀ w, w ≠ b.addr - 8 → w ≠ b.addr + n → w ≠ b.addr + n + 8 → w ≠ b.addr + b.size →
      p2.mem w = p.mem w := by
    intro w h1 h2 h3 h4
    rw [hmem2 w (by omega) (by omega), hmem1 w h1 h2]
  have htags1' : Tagged p2.mem ⟨b.addr, n, .live⟩ := by
    refine ⟨?_, ?_⟩
    · rw [hmem2 _ (by dsimp only; omega) (by dsimp only; omega)]
      exact htags1.head
    · rw [hmem2 _ (by dsimp only; omega) (by dsimp only; omega)]
      exact htags1.tail
  obtain ⟨hok, hkept⟩ := PoolOk.rebuild (k := [b])
    (m := [⟨b.addr, n, .live⟩, ⟨b.addr + n + 16, b.size - n - 16, .live⟩]) h (hptr2.trans hptr1)
    (hsize2.trans hsize1) (fun i => (hlist2 i).trans (hlist1 i)) (fun x y hxy => by
      obtain ⟨hx, hy⟩ := fill_singleton.mp hxy
      exact ⟨hx, by dsimp only; omega, by dsimp only [Fill]; omega⟩) (fun x y hxy w hw => by
      obtain ⟨hx, hy⟩ := fill_singleton.mp hxy
      exact hmem w (by omega) (by omega) (by omega) (by omega)) (fun c hc => by
      rw [mem_singleton.mp hc]
      exact hb) (fun c hc => by
      simp only [mem_cons, not_mem_nil, or_false] at hc
      rcases hc with rfl | rfl
      · exact ⟨rfl, hn, htags1'⟩
      · exact ⟨rfl, by dsimp only; omega, htags2⟩) (cons_ne_nil _ _)
  refine ⟨p2, ?_, hsize2.trans hsize1, halloced2.trans halloced1, hok, hkept.middle fun _ w hlo hhi => ?_⟩
  · unfold blkSplit
    simp only [h.blkSize_eq hmemb, hoffset, hrest, hsecond, hp1, hp2]
  · dsimp only at hlo hhi
    exact hmem w (by omega) (by omega) (by omega) (by omega)

theorem PoolOk.fuse (h : PoolOk p (l1 ++ b :: c :: l2) L) (hb : b.use.unlisted) (hc : c.use.unlisted)
    (hn : n = b.size + c.size + 16) : PoolOk (blkSetsize p b.addr n) (l1 ++ ⟨b.addr, n, .live⟩ :: l2) L ∧
      Kept p (blkSetsize p b.addr n) (l1 ++ b :: l2) := by
  have hmemb : b ∈ l1 ++ b :: c :: l2 := mem_append_right l1 mem_cons_self
  have hmemc : c ∈ l1 ++ b :: c :: l2 := mem_append_right l1 (mem_cons_of_mem b mem_cons_self)
  have hplaceb := h.place hmemb
  have hplacec := h.place hmemc
  have hnext : c.addr = b.addr + b.size + 16 := (fill_middle.mp h.fill).2.1
  have htop := h.top
  have hwrap : wrap (b.addr + n) = b.addr + n := wrap_of_lt (by omega)
  have hdvd : 16 ∣ n := by
    have hdb := h.size_dvd b hmemb
    have hdc := h.size_dvd c hmemc
    omega
  have hne : b.addr - 8 ≠ b.addr + n := by omega
  have hmem : ∀ w, w ≠ b.addr - 8 → w ≠ b.addr + n → (blkSetsize p b.addr n).mem w = p.mem w := by
    intro w hw hw'
    simp only [blkSetsize, hwrap, store, update_of_ne hw', update_of_ne hw]
  have htags : Tagged (blkSetsize p b.addr n).mem ⟨b.addr, n, .live⟩ := by
    refine ⟨?_, ?_⟩
    · simp only [blkSetsize, hwrap, store, update_of_ne hne, update_self]
      exact tagOk_self hdvd
    · simp only [blkSetsize, hwrap, store, update_self]
      exact tagOk_self hdvd
  obtain ⟨hok, hkept⟩ : PoolOk (blkSetsize p b.addr n) (l1 ++ ([⟨b.addr, n, .live⟩] ++ l2)) L ∧
      Kept p (blkSetsize p b.addr n) (l1 ++ l2) := PoolOk.rebuild (k := [b, c]) h
    rfl rfl (fun i => by cases i <;> rfl) (fun x y hxy => by
      obtain ⟨hx, -, hy⟩ := hxy
      exact ⟨hx, by dsimp only [Fill] at hy ⊢; omega⟩) (fun x y hxy w hw => by
      obtain ⟨hx, -, hy⟩ := hxy
      dsimp only [Fill] at hy
      exact hmem w (by omega) (by omega)) (fun d hd => by
      simp only [mem_cons, not_mem_nil, or_false] at hd
      rcases hd with rfl | rfl
      · exact hb
      · exact hc) (fun d hd => by
      rw [mem_singleton.mp hd]
      exact ⟨rfl, hdvd, htags⟩) (cons_ne_nil _ _)
  exact ⟨hok, hkept.middle fun _ w hlo hhi => hmem w (by omega) (by omega)⟩

theorem PoolOk.blkNext_eq (h : PoolOk p (l1 ++ b :: c :: l2) L) :
    blkNonext p b.addr b.size = false ∧ b.addr + b.size + 8 = c.addr - 8 ∧ blkNext p b.addr = c.addr := by
  have hmemb : b ∈ l1 ++ b :: c :: l2 := mem_append_right l1 mem_cons_self
  have hmemc : c ∈ l1 ++ b :: c :: l2 := mem_append_right l1 (mem_cons_of_mem b mem_cons_self)
  have hnext : c.addr = b.addr + b.size + 16 := (fill_middle.mp h.fill).2.1
  have hword : b.addr + b.size + 8 = c.addr - 8 := by omega
  have hnonext : blkNonext p b.addr b.size = false := by
    unfold blkNonext
    rw [hword]
    exact (h.tags c hmemc).head.not_area
  refine ⟨hnonext, hword, ?_⟩
  unfold blkNext
  rw [h.blkSize_eq hmemb, hnonext, if_neg Bool.false_ne_true, hnext]

theorem PoolOk.blkNext_last (h : PoolOk p (l1 ++ [b]) L) :
    blkNonext p b.addr b.size = true ∧ blkNext p b.addr = 0 := by
  have hmemb : b ∈ l1 ++ [b] := mem_append_right l1 mem_cons_self
  have hplace := h.place hmemb
  have hend : b.addr + b.size + 16 = p.ptr + p.size := (fill_middle.mp h.fill).2
  have hnonext : blkNonext p b.addr b.size = true := by
    unfold blkNonext
    have hword : b.addr + b.size + 8 = p.ptr + p.size - 8 := by omega
    rw [hword]
    exact h.last
  refine ⟨hnonext, ?_⟩
  unfold blkNext
  rw [h.blkSize_eq hmemb, hnonext, if_pos rfl]

theorem PoolOk.blkPrev_eq (h : PoolOk p (l1 ++ c :: b :: l2) L) :
    blkNoprev p b.addr = false ∧ b.addr - 16 = c.addr + c.size ∧ blkPrev p b.addr = c.addr := by
  have hmemc : c ∈ l1 ++ c :: b :: l2 := mem_append_right l1 mem_cons_self
  have hnext : b.addr = c.addr + c.size + 16 := (fill_middle.mp h.fill).2.1
  have hword : b.addr - 16 = c.addr + c.size := by omega
  have htail := (h.tags c hmemc).tail
  have hnoprev : blkNoprev p b.addr = false := by
    unfold blkNoprev
    rw [hword]
    exact htail.not_area
  refine ⟨hnoprev, hword, ?_⟩
  unfold blkPrev
  rw [hnoprev, if_neg Bool.false_ne_true, hword, htail.size_eq]
  omega

theorem PoolOk.blkPrev_first (h : PoolOk p (b :: l2) L) : blkNoprev p b.addr = true := by
  have haddr : b.addr = p.ptr + 16 := h.fill.1
  unfold blkNoprev
  rw [haddr, Nat.add_sub_cancel]
  exact h.first

theorem PoolOk.mergedNext (h : PoolOk p (l1 ++ b :: c :: l2) L) (hb : b.use.unlisted)
    (hc : c.use = .listed (freelistsSize2id c.size)) :
    ∃ p' L', blkMergenext p b.addr = some (b.addr, p') ∧ p'.size = p.size ∧ p'.allocedSize = p.allocedSize ∧
      PoolOk p' (l1 ++ ⟨b.addr, b.size + c.size + 16, .live⟩ :: l2) L' ∧ Kept p p' (l1 ++ b :: l2) := by
  have hmemb : b ∈ l1 ++ b :: c :: l2 := mem_append_right l1 mem_cons_self
  have hmemc : c ∈ l1 ++ b :: c :: l2 := mem_append_right l1 (mem_cons_of_mem b mem_cons_self)
  obtain ⟨-, -, hnext⟩ := h.blkNext_eq
  have hassoc : l1 ++ b :: c :: l2 = (l1 ++ [b]) ++ c :: l2 := by
    rw [append_assoc, singleton_append]
  obtain ⟨p1, hdetach, hsize, halloced, hok, hkept⟩ := (hassoc ▸ h).detached hc
  rw [append_assoc, singleton_append] at hok hkept
  obtain ⟨hok', hkept'⟩ := hok.fuse (n := b.size + c.size + 16) hb (by rfl) rfl
  refine ⟨blkSetsize p1 b.addr (b.size + c.size + 16), _, ?_, hsize, halloced, hok', hkept.trans hkept'⟩
  unfold blkMergenext detach
  simp only [hnext, h.blkSize_eq hmemb, h.blkSize_eq hmemc, hdetach]
  rfl

theorem PoolOk.mergedPrev (h : PoolOk p (l1 ++ c :: b :: l2) L) (hb : b.use.unlisted)
    (hc : c.use = .listed (freelistsSize2id c.size)) :
    ∃ p' L', blkMergeprev p b.addr = some (c.addr, p') ∧ p'.size = p.size ∧ p'.allocedSize = p.allocedSize ∧
      PoolOk p' (l1 ++ ⟨c.addr, b.size + c.size + 16, .live⟩ :: l2) L' ∧ Kept p p' (l1 ++ l2) := by
  have hmemc : c ∈ l1 ++ c :: b :: l2 := mem_append_right l1 mem_cons_self
  have hmemb : b ∈ l1 ++ c :: b :: l2 := mem_append_right l1 (mem_cons_of_mem c mem_cons_self)
  obtain ⟨-, -, hprev⟩ := h.blkPrev_eq
  obtain ⟨p1, hdetach, hsize, halloced, hok, hkept⟩ := h.detached hc
  obtain ⟨hok', hkept'⟩ := hok.fuse (n := b.size + c.size + 16) (by rfl) hb (by dsimp only; omega)
  refine ⟨blkSetsize p1 c.addr (b.size + c.size + 16), _, ?_, hsize, halloced, hok', hkept.without.trans hkept'.without⟩
  · unfold blkMergeprev detach
    simp only [hprev, h.blkSize_eq hmemb, h.blkSize_eq hmemc, hdetach]
    rfl

theorem PoolOk.detach_empty (h : PoolOk p B L) (hb : b ∈ B) (huse : b.use = .empty) (hsize : b.size = 0) :
    detach p b.addr = none := by
  have hplace := h.place hb
  have hbase := h.base
  have htail := (h.tags b hb).tail
  rw [hsize, Nat.add_zero, huse, tagOk_iff] at htail
  have hodd := htail.2.2.1 rfl
  have hhead : p.list (some 0) ≠ b.addr := by
    intro hhead
    have hchain := h.chain (some 0)
    rw [hhead] at hchain
    cases hL : L (some 0) with
    | nil =>
      rw [hL] at hchain
      have : b.addr = 0 := hchain
      omega
    | cons a l =>
      rw [hL] at hchain
      have hmem : b.addr ∈ L (some 0) := by
        rw [hL, hchain.1]
        exact mem_cons_self
      obtain ⟨c, hc, haddr, hcuse⟩ := (h.listed _ _).mp hmem
      rw [h.fill.eq_of_addr (by norm_num) hc hb haddr, huse] at hcuse
      cases hcuse
  unfold detach freelistDetach
  rw [h.blkSize_eq hb, hsize]
  have hid : freelistsSize2id 0 = some 0 := rfl
  rw [hid, if_neg hhead, if_neg]
  rintro ⟨hnext | hnext, -⟩
  · omega
  · have := (of_decide_eq_true hnext).1
    unfold pageSize at hbase
    omega

/-- A block is in a caller's hands, or it is free and where blocks of its size are. -/
def Settled (b : PoolBlock) : Prop := b.use = .live ∨ b.use = freeUse b.size

/-- The blocks `k` are what is left of the blocks `l` on one side once the next of them is merged. -/
def Absorbed (l k : List PoolBlock) : Prop :=
  (l = k ∧ ∀ c ∈ l.head?, c.use = .live) ∨
    ∃ c, l = c :: k ∧ c.size ≠ 0 ∧ c.use = .listed (freelistsSize2id c.size)

theorem Settled.cases (h : Settled b) : b.use = .live ∨ (b.use = .empty ∧ b.size = 0) ∨
      b.size ≠ 0 ∧ b.use = .listed (freelistsSize2id b.size) := by
  unfold Settled freeUse at h
  split at h
  · rename_i hsize
    exact h.imp_right fun huse => .inl ⟨huse, hsize⟩
  · rename_i hsize
    exact h.imp_right fun huse => .inr ⟨hsize, huse⟩

theorem TagOk.hasTagFlag_live {tag size : ℕ} (h : TagOk tag size .live) : hasTagFlag tag freeFlag = false := h.free false rfl

theorem TagOk.hasTagFlag_free {tag size : ℕ} (h : TagOk tag size use) (huse : use.flag = some true) :
    hasTagFlag tag freeFlag = true := h.free true huse

theorem Absorbed.mem_of_live {k : List PoolBlock} (h : Absorbed l k) (hc : c ∈ l) (hlive : c.use = .live) :
    c ∈ k := by
  rcases h with ⟨rfl, -⟩ | ⟨d, rfl, -, hd⟩
  · exact hc
  · rcases mem_cons.mp hc with rfl | hc
    · rw [hd] at hlive
      cases hlive
    · exact hc

theorem PoolOk.tryMergenext_spec (h : PoolOk p (l1 ++ b :: l2) L) (hb : b.use = .live)
    (hset : ∀ c ∈ l2, Settled c) : ((∃ c ∈ l2.head?, c.use = .empty) ∧ tryMergenext p b.addr = none) ∨
    ∃ p' k n L', tryMergenext p b.addr = some (b.addr, p') ∧ p'.size = p.size ∧
      p'.allocedSize = p.allocedSize ∧ PoolOk p' (l1 ++ ⟨b.addr, n, .live⟩ :: k) L' ∧
      Kept p p' (l1 ++ b :: l2) ∧ Absorbed l2 k ∧ b.size ≤ n := by
  have hself : (⟨b.addr, b.size, .live⟩ : PoolBlock) = b := by
    rw [← hb]
  have hmemb : b ∈ l1 ++ b :: l2 := mem_append_right l1 mem_cons_self
  unfold tryMergenext
  rw [h.blkSize_eq hmemb]
  cases l2 with
  | nil =>
    right
    refine ⟨p, [], b.size, L, ?_, rfl, rfl, ?_, Kept.refl p _, .inl ⟨rfl, fun c hc => by cases hc⟩, le_rfl⟩
    · simp only [h.blkNext_last.1]
      rfl
    · rw [hself]
      exact h
  | cons c l2 =>
    have hmemc : c ∈ l1 ++ b :: c :: l2 := mem_append_right l1 (mem_cons_of_mem b mem_cons_self)
    obtain ⟨hnonext, hword, hnext⟩ := h.blkNext_eq
    have hhead := (h.tags c hmemc).head
    simp only [hnonext, hword]
    rcases (hset c mem_cons_self).cases with hc | ⟨hc, hsize⟩ | ⟨hsize, hc⟩
    · right
      rw [hc] at hhead
      refine ⟨p, c :: l2, b.size, L, ?_, rfl, rfl, ?_, Kept.refl p _, .inl ⟨rfl, fun d hd => ?_⟩, le_rfl⟩
      · rw [hhead.hasTagFlag_live]
        rfl
      · rw [hself]
        exact h
      · rw [← Option.some.inj hd]
        exact hc
    · left
      refine ⟨⟨c, rfl, hc⟩, ?_⟩
      rw [hhead.hasTagFlag_free (by rw [hc]; rfl)]
      unfold blkMergenext
      simp only [hnext, h.detach_empty hmemc hc hsize]
      rfl
    · right
      obtain ⟨p', L', hmerge, hsz, halloced, hok, hkept⟩ := h.mergedNext (by rw [hb]; rfl) hc
      refine ⟨p', l2, _, L', ?_, hsz, halloced, hok, ?_, .inr ⟨c, rfl, hsize, hc⟩, by omega⟩
      · rw [hhead.hasTagFlag_free (by rw [hc]; rfl)]
        exact hmerge
      · refine hkept.mono fun d hd hlive => ?_
        simp only [mem_append, mem_cons] at hd ⊢
        rcases hd with hd | rfl | rfl | hd
        · exact .inl hd
        · exact .inr (.inl rfl)
        · rw [hc] at hlive
          cases hlive
        · exact .inr (.inr hd)

theorem PoolOk.tryMergeprev_spec (h : PoolOk p (l1 ++ b :: l2) L) (hb : b.use = .live)
    (hset : ∀ c ∈ l1, Settled c) : ((∃ c ∈ l1.getLast?, c.use = .empty) ∧ tryMergeprev p b.addr = none) ∨
    ∃ a p' k n L', tryMergeprev p b.addr = some (a, p') ∧ p'.size = p.size ∧
      p'.allocedSize = p.allocedSize ∧ PoolOk p' (k ++ ⟨a, n, .live⟩ :: l2) L' ∧
      Kept p p' (l1 ++ l2) ∧ Absorbed l1.reverse k.reverse ∧ b.size ≤ n := by
  have hself : (⟨b.addr, b.size, .live⟩ : PoolBlock) = b := by
    rw [← hb]
  unfold tryMergeprev
  rcases eq_nil_or_concat l1 with rfl | ⟨l0, c, rfl⟩
  · right
    refine ⟨b.addr, p, [], b.size, L, ?_, rfl, rfl, ?_, Kept.refl p _, .inl ⟨rfl, fun c hc => by cases hc⟩, le_rfl⟩
    · rw [PoolOk.blkPrev_first h]
      rfl
    · rw [hself]
      exact h
  · rw [concat_eq_append] at hset ⊢
    rw [concat_eq_append, append_assoc, singleton_append] at h
    have hmemc : c ∈ l0 ++ c :: b :: l2 := mem_append_right l0 mem_cons_self
    obtain ⟨hnoprev, hword, hprev⟩ := h.blkPrev_eq
    have htail := (h.tags c hmemc).tail
    rw [hnoprev, hword]
    rcases (hset c (mem_append_right l0 (mem_singleton_self c))).cases with
      hc | ⟨hc, hsize⟩ | ⟨hsize, hc⟩
    · right
      rw [hc] at htail
      refine ⟨b.addr, p, l0 ++ [c], b.size, L, ?_, rfl, rfl, ?_, Kept.refl p _, .inl ⟨rfl, fun d hd => ?_⟩, le_rfl⟩
      · rw [htail.hasTagFlag_live]
        rfl
      · rw [hself, append_assoc]
        exact h
      · rw [reverse_concat, head?_cons] at hd
        rw [← Option.some.inj hd]
        exact hc
    · left
      refine ⟨⟨c, getLast?_concat, hc⟩, ?_⟩
      rw [htail.hasTagFlag_free (by rw [hc]; rfl)]
      unfold blkMergeprev
      simp only [hprev, h.detach_empty hmemc hc hsize]
      rfl
    · right
      obtain ⟨p', L', hmerge, hsz, halloced, hok, hkept⟩ := h.mergedPrev (by rw [hb]; rfl) hc
      refine ⟨c.addr, p', l0, _, L', ?_, hsz, halloced, hok, ?_, .inr ⟨c, ?_, hsize, hc⟩, by omega⟩
      · rw [htail.hasTagFlag_free (by rw [hc]; rfl)]
        exact hmerge
      · refine hkept.mono fun d hd hlive => ?_
        simp only [mem_append, mem_singleton] at hd ⊢
        rcases hd with (hd | rfl) | hd
        · exact .inl hd
        · rw [hc] at hlive
          cases hlive
        · exact .inr hd
      · rw [reverse_concat]

theorem PoolOk.blkTrymerge_spec (h : PoolOk p (l1 ++ b :: l2) L) (hb : b.use = .live)
    (hset : ∀ c ∈ l1 ++ l2, Settled c) :
    (((∃ c ∈ l1.getLast?, c.use = .empty) ∨ ∃ c ∈ l2.head?, c.use = .empty) ∧ blkTrymerge p b.addr = none) ∨
    ∃ a p' k1 n k2 L', blkTrymerge p b.addr = some (a, p') ∧ p'.size = p.size ∧
      p'.allocedSize = p.allocedSize ∧ PoolOk p' (k1 ++ ⟨a, n, .live⟩ :: k2) L' ∧
      Kept p p' (l1 ++ l2) ∧ Absorbed l1.reverse k1.reverse ∧ Absorbed l2 k2 ∧ b.size ≤ n := by
  unfold blkTrymerge
  rcases h.tryMergenext_spec hb (fun c hc => hset c (mem_append_right l1 hc)) with
    ⟨hempty, hnone⟩ | ⟨p1, k2, n1, L1, hsome1, hsize1, halloced1, hok1, hkept1, habs2, hn1⟩
  · left
    refine ⟨.inr hempty, ?_⟩
    rw [hnone]
    rfl
  rw [hsome1]
  rcases hok1.tryMergeprev_spec rfl (fun c hc => hset c (mem_append_left l2 hc)) with
    ⟨hempty, hnone⟩ | ⟨a, p2, k1, n2, L2, hsome2, hsize2, halloced2, hok2, hkept2, habs1, hn2⟩
  · left
    refine ⟨.inl hempty, ?_⟩
    dsimp only at hnone
    simp only [bind_eq_bind, bind_some, hnone, bind_none]
  right
  have hkept : Kept p p2 (l1 ++ l2) := by
    have hbehind : Kept p1 p2 (l1 ++ l2) := by
      refine hkept2.mono fun c hc hlive => ?_
      rw [mem_append] at hc ⊢
      exact hc.imp_right fun hc => habs2.mem_of_live hc hlive
    exact hkept1.without.trans hbehind
  dsimp only at hsome2
  cases h2M : blkAreaIs2M p b.addr with
  | false =>
    refine ⟨a, p2, k1, n2, k2, L2, ?_, hsize2.trans hsize1, halloced2.trans halloced1, hok2, hkept, habs1, habs2,
      hn1.trans hn2⟩
    simp only [bind_eq_bind, bind_some, hsome2]
    rfl
  | true =>
    have hmem : (⟨a, n2, .live⟩ : PoolBlock) ∈ k1 ++ ⟨a, n2, .live⟩ :: k2 :=
      mem_append_right k1 mem_cons_self
    obtain ⟨hok3, hkept3⟩ := hok2.setArea2M rfl
    refine ⟨a, blkSetArea2M p2 a n2, k1, n2, k2, L2, ?_, hsize2.trans hsize1, halloced2.trans halloced1, hok3, ?_,
      habs1, habs2, hn1.trans hn2⟩
    · have hsz := hok2.blkSize_eq hmem
      dsimp only at hsz
      simp only [bind_eq_bind, bind_some, hsome2, hsz]
      rfl
    · refine hkept.trans (hkept3.mono fun c hc hlive => ?_)
      rw [mem_append, mem_cons]
      rcases mem_append.mp hc with hc | hc
      · exact .inl (mem_reverse.mp (habs1.mem_of_live (mem_reverse.mpr hc) hlive))
      · exact .inr (.inr (habs2.mem_of_live hc hlive))

end Pool

end CoolPotOS
