import CoolPotOS.Mem.MpoolChanges

namespace CoolPotOS

open Blocks Intrusive List

section Free

variable {p p' : Mpool} {B l1 l2 : List PoolBlock} {L L' : Option ℕ → List ℕ} {b c : PoolBlock} {n : ℕ}

theorem PoolOk.written (h : PoolOk p B L) (hb : b ∈ B) (hlive : b.use = .live) (hptr : p'.ptr = p.ptr)
    (hsize : p'.size = p.size) (hlist : ∀ i, p'.list i = p.list i)
    (hmem : ∀ w, ¬(b.addr ≤ w ∧ w < b.addr + b.size) → p'.mem w = p.mem w) : PoolOk p' B L := by
  have hplace := h.place hb
  have hout : ∀ c ∈ B, p'.mem (c.addr - 8) = p.mem (c.addr - 8) ∧
      p'.mem (c.addr + c.size) = p.mem (c.addr + c.size) := by
    intro c hc
    have hc' := h.place hc
    constructor <;> apply hmem <;> rcases h.fill.apart hb hc with rfl | hlt | hlt <;> omega
  refine ⟨?_, ?_, ?_, h.nonempty, ?_, h.size_dvd, ?_, ?_, fun c hc => ?_, fun i => ?_, h.nodup, h.listed, h.roomy⟩
  · rw [hptr]
    exact h.base
  · rw [hptr]
    exact h.base_dvd
  · rw [hptr, hsize]
    exact h.top
  · rw [hptr, hsize]
    exact h.fill
  · rw [hptr, hmem _ (by omega)]
    exact h.first
  · rw [hptr, hsize, hmem _ (by omega)]
    exact h.last
  · obtain ⟨hhead, htail⟩ := hout c hc
    refine ⟨?_, ?_⟩
    · rw [hhead]
      exact (h.tags c hc).head
    · rw [htail]
      exact (h.tags c hc).tail
  · rw [hlist]
    refine (h.chain i).congr_words fun w hw => hmem w ?_
    -- the words of a list lie in free blocks
    obtain ⟨c, hc, huse, hlo, hhi⟩ := h.onNode hw
    rintro ⟨h1, h2⟩
    rcases h.fill.apart hb hc with rfl | hlt | hlt
    · rw [hlive] at huse
      cases huse
    · omega
    · omega

theorem PoolOk.stored (h : PoolOk p B L) (hb : b ∈ B) (hlive : b.use = .live) {w : ℕ} (value : ℕ)
    (hw : b.addr ≤ w ∧ w < b.addr + b.size) : PoolOk (p.store w value) B L := by
  refine h.written hb hlive rfl rfl (fun i => ?_) fun w' hw' => ?_
  · cases i <;> rfl
  · refine Function.update_of_ne ?_ _ _
    rintro rfl
    exact hw' hw

theorem PoolOk.memcpy (h : PoolOk p B L) (hb : b ∈ B) (hlive : b.use = .live) (src : ℕ) (hn : n ≤ b.size) :
    PoolOk (p.memcpy b.addr src n) B L := by
  refine h.written hb hlive rfl rfl (fun i => ?_) fun w hw => ?_
  · cases i <;> rfl
  · exact if_neg (by omega)

theorem area_spec {mem : ℕ → ℕ} {ptr size data : ℕ} (hbase : pageSize ≤ ptr) (hptr : 16 ∣ ptr) (hsize : 16 ∣ size)
    (hroom : 48 ≤ size) (htop : ptr + size < 2 ^ 64) (hdata : hasTagFlag data areaFlag = true)
    (hp : p = blkSetsize (((⟨ptr, size, 0, 0, fun _ => 0, mem⟩ : Mpool).store ptr data).store
      (ptr + (size / 8 - 1) * 8) data) (ptr + 16) (size - 32)) :
    PoolOk p [⟨ptr + 16, size - 32, .live⟩] fun _ => [] := by
  unfold pageSize at hbase
  have hlast : ptr + (size / 8 - 1) * 8 = ptr + size - 8 := by omega
  have hend : wrap (ptr + 16 + (size - 32)) = ptr + size - 16 := by
    rw [wrap_of_lt (by omega)]
    omega
  have hmem : ∀ w, p.mem w = if w = ptr + size - 16 then size - 32 else if w = ptr + 8 then size - 32
      else if w = ptr + size - 8 then data else if w = ptr then data else mem w := by
    intro w
    have hhead : ptr + 16 - 8 = ptr + 8 := by omega
    rw [hp]
    simp only [blkSetsize, hend, hlast, hhead, Mpool.store, Function.update_apply]
  have hplace : p.ptr = ptr ∧ p.size = size := by
    rw [hp]
    exact ⟨rfl, rfl⟩
  have htag : TagOk (size - 32) (size - 32) .live := tagOk_self (by omega)
  refine ⟨?_, ?_, ?_, cons_ne_nil _ _, ?_, fun b hb => ?_, ?_, ?_, fun b hb => ?_, fun i => ?_,
    fun i => nodup_nil, fun i a => ?_, fun b hb i huse => ?_⟩
  · rw [hplace.1]
    unfold pageSize
    exact hbase
  · rw [hplace.1]
    exact hptr
  · rw [hplace.1, hplace.2]
    exact htop
  · rw [hplace.1, hplace.2]
    exact ⟨rfl, by dsimp only [Fill]; omega⟩
  · rw [mem_singleton.mp hb]
    dsimp only
    omega
  · rw [hplace.1, hmem, if_neg (by omega), if_neg (by omega), if_neg (by omega), if_pos rfl]
    exact hdata
  · rw [hplace.1, hplace.2, hmem, if_neg (by omega), if_neg (by omega), if_pos rfl]
    exact hdata
  · rw [mem_singleton.mp hb]
    refine ⟨?_, ?_⟩
    · rw [hmem, if_neg (by dsimp only; omega), if_pos (by dsimp only; omega)]
      exact htag
    · rw [hmem, if_pos (by dsimp only; omega)]
      exact htag
  · rw [hp]
    cases i <;> rfl
  · constructor
    · intro ha
      cases ha
    · rintro ⟨b, hb, -, huse⟩
      rw [mem_singleton.mp hb] at huse
      cases huse
  · rw [mem_singleton.mp hb] at huse
    cases huse

theorem mpoolInit_spec {mem : ℕ → ℕ} {ptr size : ℕ} (hbase : pageSize ≤ ptr) (hptr : 16 ∣ ptr)
    (hroom : 48 ≤ size) (htop : ptr + size < 2 ^ 64) (h : mpoolInit mem ptr size = some p) :
    p.allocedSize = 0 ∧ p.size = size ∧ ∃ L, PoolOk p [⟨ptr + 16, size - 32, .listed none⟩] L := by
  unfold mpoolInit at h
  split at h
  · cases h
  rename_i hargs
  have hsize : 16 ∣ size := by
    by_contra hdvd
    exact hargs (.inr (.inr fun hmod => hdvd (Nat.dvd_of_mod_eq_zero hmod)))
  obtain ⟨data, hdata⟩ : ∃ data, data = if size = size2M then areaFlag + sizeFlag else areaFlag := ⟨_, rfl⟩
  have harea : hasTagFlag data areaFlag = true := by
    rw [hdata]
    split <;> rfl
  have hrest : wrapSub size 32 = size - 32 := by
    unfold wrapSub
    omega
  obtain ⟨p1, hp1⟩ : ∃ p1, p1 = blkSetsize (((⟨ptr, size, 0, 0, fun _ => 0, mem⟩ : Mpool).store ptr data).store
      (ptr + (size / 8 - 1) * 8) data) (ptr + 16) (size - 32) := ⟨_, rfl⟩
  have hok := area_spec hbase hptr hsize hroom htop harea hp1
  have hone : PoolOk p1 ([] ++ [⟨ptr + 16, size - 32, .live⟩]) fun _ => [] := hok
  obtain ⟨hok1, -⟩ := hone.setfreed rfl
  obtain ⟨p2, hp2, hok2, hsize2, halloced2⟩ : ∃ p2, allocareaInit ⟨ptr, size, 0, 0, fun _ => 0, mem⟩ ptr size = p2 ∧
      PoolOk p2 ([] ++ [⟨ptr + 16, size - 32, .empty⟩]) (fun _ => []) ∧ p2.size = p1.size ∧ p2.allocedSize = p1.allocedSize := by
    unfold allocareaInit
    simp only [hrest, ← hdata, ← hp1]
    split
    · exact ⟨_, rfl, (hok1.setArea2M rfl).1, rfl, rfl⟩
    · exact ⟨_, rfl, (hok1.setArea4k rfl).1, rfl, rfl⟩
  dsimp only at h
  rw [hp2] at h
  obtain ⟨hok3, -⟩ := hok2.put rfl (by dsimp only; omega) none
  rw [← Option.some.inj h, freelistPut_allocedSize, freelistPut_size, hsize2, halloced2]
  refine ⟨?_, ?_, _, hok3⟩
  · rw [hp1]
    rfl
  · rw [hp1]
    rfl

theorem PoolOk.blkFreed_live (h : PoolOk p B L) (hb : b ∈ B) (hlive : b.use = .live) : blkFreed p b.addr = false := by
  have hhead := (h.tags b hb).head
  rw [hlive] at hhead
  exact hhead.hasTagFlag_live

theorem PoolOk.blkFreed_free (h : PoolOk p B L) (hb : b ∈ B) (hfree : b.use.flag = some true) :
    blkFreed p b.addr = true := (h.tags b hb).head.hasTagFlag_free hfree

/-- A free block without room for links lies beside `b`. -/
def EmptyBeside (B : List PoolBlock) (b : PoolBlock) : Prop :=
  ∃ c ∈ B, c.use = .empty ∧ (c.addr = b.addr + b.size + 16 ∨ b.addr = c.addr + c.size + 16)

theorem PoolOk.emptyBeside_iff (h : PoolOk p (l1 ++ b :: l2) L) :
    EmptyBeside (l1 ++ b :: l2) b ↔ (∃ c ∈ l1.getLast?, c.use = .empty) ∨ ∃ c ∈ l2.head?, c.use = .empty := by
  constructor
  · rintro ⟨c, hc, huse, hbehind | hbefore⟩
    · right
      rcases h.fill.next with ⟨-, hend⟩ | ⟨d, l3, rfl, hd⟩
      · have := (h.place hc).2
        omega
      · have hmem : d ∈ l1 ++ b :: d :: l3 := mem_append_right l1 (mem_cons_of_mem b mem_cons_self)
        rw [h.fill.eq_of_addr (by norm_num) hc hmem (hbehind.trans hd.symm)] at huse
        exact ⟨d, rfl, huse⟩
    · left
      rcases h.fill.previous with ⟨-, hstart⟩ | ⟨l0, d, rfl, hd⟩
      · have := (h.place hc).1
        omega
      · have hmem : d ∈ (l0 ++ [d]) ++ b :: l2 :=
          mem_append_left _ (mem_append_right l0 (mem_singleton_self d))
        rcases h.fill.apart hc hmem with rfl | hlt | hlt
        · exact ⟨c, getLast?_concat, huse⟩
        · omega
        · omega
  · rintro (⟨c, hc, huse⟩ | ⟨c, hc, huse⟩)
    · rcases h.fill.previous with ⟨rfl, -⟩ | ⟨l0, d, rfl, hd⟩
      · cases hc
      · rw [getLast?_concat] at hc
        obtain rfl := Option.some.inj hc
        exact ⟨d, mem_append_left _ (mem_append_right l0 (mem_singleton_self d)), huse, .inr hd⟩
    · rcases h.fill.next with ⟨rfl, -⟩ | ⟨d, l3, rfl, hd⟩
      · cases hc
      · obtain rfl := Option.some.inj hc
        exact ⟨d, mem_append_right l1 (mem_cons_of_mem b mem_cons_self), huse, .inl hd⟩

def FreedAt (p : Mpool) (B : List PoolBlock) (b : PoolBlock) (p' : Mpool) : Prop :=
  ∃ B' L', Frees B b B' ∧ PoolOk p' B' L' ∧ p'.allocedSize = wrapSub p.allocedSize b.size ∧
    Kept p p' (B.filter (· ≠ b))

theorem Kept.filter_ne (h : Kept p p' (l1 ++ l2)) : Kept p p' ((l1 ++ b :: l2).filter (· ≠ b)) := by
  apply h.mono
  intro c hc _
  obtain ⟨hmem, hne⟩ := mem_filter.mp hc
  rw [mem_append, mem_cons] at hmem
  rw [mem_append]
  exact hmem.imp_right fun hmem => hmem.resolve_left (of_decide_eq_true hne)

theorem Absorbed.head_ne_empty {l k : List PoolBlock} (h : Absorbed l k) : ¬ ∃ c ∈ l.head?, c.use = .empty := by
  rintro ⟨c, hc, huse⟩
  rcases h with ⟨-, hlive⟩ | ⟨d, rfl, -, hd⟩
  · rw [hlive c hc] at huse
    cases huse
  · obtain rfl := Option.some.inj hc
    rw [hd] at huse
    cases huse

/-- Freeing a live block fails beside a free block without room for links. Otherwise the block becomes free,
together with its free neighbours. -/
theorem PoolOk.mpoolFree_spec (h : PoolOk p B L) (hb : b ∈ B) (hlive : b.use = .live) (hset : ∀ c ∈ B, Settled c) :
    (EmptyBeside B b ∧ mpoolFree p b.addr = none) ∨
      ¬ EmptyBeside B b ∧ ∃ p', mpoolFree p b.addr = some p' ∧ FreedAt p B b p' := by
  obtain ⟨l1, l2, rfl⟩ := append_of_mem hb
  have hplace := h.place hb
  unfold mpoolFree
  rw [if_neg (by omega), h.blkFreed_live hb hlive, if_neg Bool.false_ne_true, h.blkSize_eq hb, h.emptyBeside_iff]
  dsimp only
  have hsides : ∀ c ∈ l1 ++ l2, Settled c := by
    intro c hc
    rw [mem_append] at hc
    exact hset c (mem_append.mpr (hc.imp_right (mem_cons_of_mem b)))
  rcases (h.withAlloced (wrapSub p.allocedSize b.size)).blkTrymerge_spec hlive hsides with
    ⟨hempty, hnone⟩ | ⟨a, p1, k1, n, k2, L1, hsome, hsize, halloced, hok, hkept, habs1, habs2, hn⟩
  · left
    refine ⟨hempty, ?_⟩
    rw [hnone]
    rfl
  · right
    obtain ⟨L2, hok2, hkept2⟩ := hok.freed rfl
    refine ⟨?_, doFree p1 a, ?_, _, L2, ⟨l1, l2, k1, a, n, k2, rfl, rfl, habs1, habs2, hn⟩, hok2,
      (doFree_allocedSize _ _).trans halloced, ?_⟩
    · rintro (hlast | hhead)
      · rw [← head?_reverse] at hlast
        exact habs1.head_ne_empty hlast
      · exact habs2.head_ne_empty hhead
    · rw [hsome]
      rfl
    · have hrest : Kept p1 (doFree p1 a) (l1 ++ l2) := by
        refine hkept2.mono fun c hc hlive => ?_
        rcases mem_append.mp hc with hc | hc
        · refine mem_append_left _ (mem_reverse.mp ?_)
          exact habs1.mem_of_live (mem_reverse.mpr hc) hlive
        · exact mem_append_right _ (habs2.mem_of_live hc hlive)
      have hall := hkept.trans hrest
      apply Kept.filter_ne
      exact ⟨hall.ptr, hall.contents⟩

/-- The block `b` has got `t` bytes where it is. -/
def Resized (p : Mpool) (B : List PoolBlock) (b : PoolBlock) (t : ℕ) (p' : Mpool) : Prop :=
  ∃ B' L', Resizes B b t B' ∧ PoolOk p' B' L' ∧ p'.allocedSize = p.allocedSize ∧ Kept p p' (B.filter (· ≠ b)) ∧
    ∀ w, b.addr ≤ w → w < b.addr + min b.size t → p'.mem w = p.mem w

theorem PoolOk.shrink_spec (h : PoolOk p B L) (hb : b ∈ B) (hlive : b.use = .live) (hn : 16 ∣ n) (hfit : n ≤ b.size) :
    Resized p B b (if b.size < n + 64 then b.size else n) (trySplitAndFree p b.addr n) := by
  obtain ⟨l1, l2, rfl⟩ := append_of_mem hb
  by_cases hsmall : b.size < n + 64
  · have hself : (⟨b.addr, b.size, .live⟩ : PoolBlock) = b := by rw [← hlive]
    rw [if_pos hsmall, h.trySplit_small hb hfit hsmall]
    refine ⟨_, L, ⟨l1, [], [], l2, rfl, rfl, ?_, remainder_nil, fun _ hne => absurd rfl hne⟩, ?_, rfl,
      Kept.filter_ne (Kept.refl p _), fun _ _ _ => rfl⟩
    · intro d hd
      cases hd
    · rw [hself]
      exact h
  · rw [if_neg hsmall]
    obtain ⟨L', -, halloced, hok, hkept⟩ := h.trySplit_large (by rw [hlive]; rfl) hn (by omega)
    refine ⟨_, L', ⟨l1, [], [_], l2, rfl, rfl, ?_, ⟨le_rfl, allFree_singleton rfl, ?_⟩, fun _ _ => by omega⟩, hok,
      halloced, Kept.filter_ne hkept.without, ?_⟩
    · intro d hd
      cases hd
    · intro c hc
      rw [mem_singleton.mp hc]
      dsimp only
      omega
    · intro w hlo hhi
      exact hkept.contents ⟨b.addr, n, .live⟩ (mem_append_right l1 mem_cons_self) rfl w hlo (by dsimp only; omega)

/-- The next block is free and large enough for both to hold `n` bytes. -/
def Merges (p : Mpool) (ptr n : ℕ) : Prop :=
  blkNext p ptr ≠ 0 ∧ blkFreed p (blkNext p ptr) ∧ n ≤ wrap (blkSize p ptr + 16 + blkSize p (blkNext p ptr))

instance Merges.decidable (p : Mpool) (ptr n : ℕ) : Decidable (Merges p ptr n) := inferInstanceAs (Decidable (_ ∧ _))

def NextEmpty (p : Mpool) (ptr : ℕ) : Prop :=
  blkNext p ptr ≠ 0 ∧ blkFreed p (blkNext p ptr) ∧ blkSize p (blkNext p ptr) = 0

def PrevEmpty (p : Mpool) (ptr : ℕ) : Prop :=
  blkPrev p ptr ≠ 0 ∧ blkFreed p (blkPrev p ptr) ∧ blkSize p (blkPrev p ptr) = 0

theorem PoolOk.next_free (h : PoolOk p (l1 ++ b :: l2) L) (hset : ∀ c ∈ l1 ++ b :: l2, Settled c) :
    (blkNext p b.addr ≠ 0 ∧ blkFreed p (blkNext p b.addr)) ↔ ∃ c ∈ l2.head?, c.use ≠ .live := by
  cases l2 with
  | nil =>
    constructor
    · intro hnext
      exact absurd h.blkNext_last.2 hnext.1
    · rintro ⟨c, hc, -⟩
      cases hc
  | cons c l2 =>
    have hmem : c ∈ l1 ++ b :: c :: l2 := mem_append_right l1 (mem_cons_of_mem b mem_cons_self)
    have hplace := h.place hmem
    rw [h.blkNext_eq.2.2]
    constructor
    · rintro ⟨-, hfree⟩
      refine ⟨c, rfl, fun hlive => ?_⟩
      rw [h.blkFreed_live hmem hlive] at hfree
      cases hfree
    · rintro ⟨d, hd, hfree⟩
      obtain rfl : c = d := Option.some.inj hd
      refine ⟨by omega, h.blkFreed_free hmem ?_⟩
      rcases (hset c hmem).cases with hlive | ⟨huse, -⟩ | ⟨-, huse⟩
      · exact absurd hlive hfree
      · rw [huse]
        rfl
      · rw [huse]
        rfl

theorem PoolOk.merge_spec (h : PoolOk p B L) (hb : b ∈ B) (hlive : b.use = .live) (hset : ∀ c ∈ B, Settled c)
    (hn : 16 ∣ n) (hmore : b.size < n) (hmerge : Merges p b.addr n) :
    (NextEmpty p b.addr → blkMergenext p b.addr = none) ∧
      (¬ NextEmpty p b.addr → ∃ t q, n ≤ t ∧ blkMergenext p b.addr = some (b.addr, q) ∧
        Resized p B b t (trySplitAndFree q b.addr n)) := by
  obtain ⟨l1, l2, rfl⟩ := append_of_mem hb
  obtain ⟨hnext, hfree, hfits⟩ := hmerge
  obtain ⟨c, hc, hnot⟩ := (h.next_free hset).mp ⟨hnext, hfree⟩
  obtain ⟨l3, rfl⟩ : ∃ l3, l2 = c :: l3 := by
    cases l2 with
    | nil => cases hc
    | cons d l3 => exact ⟨l3, by rw [Option.some.inj hc]⟩
  have hmem : c ∈ l1 ++ b :: c :: l3 := mem_append_right l1 (mem_cons_of_mem b mem_cons_self)
  have haddr := h.blkNext_eq.2.2
  have hplace := h.place hmem
  have htop := h.top
  have hbehind : c.addr = b.addr + b.size + 16 := (fill_middle.mp h.fill).2.1
  unfold NextEmpty
  rw [haddr, h.blkSize_eq hmem] at hfits ⊢
  rw [h.blkSize_eq hb, wrap_of_lt (by omega)] at hfits
  constructor
  · rintro ⟨-, -, hzero⟩
    have huse : c.use = .empty := by
      rcases (hset c hmem).cases with hlive | ⟨huse, -⟩ | ⟨hroom, -⟩
      · exact absurd hlive hnot
      · exact huse
      · exact absurd hzero hroom
    unfold blkMergenext
    simp only [haddr, h.detach_empty hmem huse hzero]
    rfl
  · intro hroom
    rw [haddr] at hnext hfree
    have huse : c.use = .listed (freelistsSize2id c.size) := by
      rcases (hset c hmem).cases with hlive | ⟨-, hzero⟩ | ⟨-, huse⟩
      · exact absurd hlive hnot
      · exact absurd ⟨hnext, hfree, hzero⟩ hroom
      · exact huse
    obtain ⟨q, L1, hsome, -, halloced, hok, hkept⟩ := h.mergedNext (by rw [hlive]; rfl) huse
    have hwhole : (⟨b.addr, b.size + c.size + 16, .live⟩ : PoolBlock) ∈
        l1 ++ ⟨b.addr, b.size + c.size + 16, .live⟩ :: l3 := mem_append_right l1 mem_cons_self
    have hsame : ∀ w, b.addr ≤ w → w < b.addr + b.size → q.mem w = p.mem w :=
      hkept.contents b (mem_append_right l1 mem_cons_self) hlive
    have hothers : Kept p q ((l1 ++ b :: c :: l3).filter (· ≠ b)) := by
      refine hkept.without.mono fun d hd hdlive => ?_
      obtain ⟨hdmem, hdne⟩ := mem_filter.mp hd
      simp only [mem_append, mem_cons] at hdmem ⊢
      rcases hdmem with hd | rfl | rfl | hd
      · exact .inl hd
      · exact absurd rfl (of_decide_eq_true hdne)
      · exact absurd hdlive hnot
      · exact .inr hd
    have hold : ∀ d ∈ [c], ∃ i, d.use = .listed i := by
      intro d hd
      rw [mem_singleton.mp hd]
      exact ⟨_, huse⟩
    by_cases hsmall : b.size + c.size + 16 < n + 64
    · refine ⟨b.size + c.size + 16, q, by omega, hsome, ?_⟩
      have hstep := hok.trySplit_small hwhole (by dsimp only; omega) hsmall
      dsimp only at hstep
      rw [hstep]
      refine ⟨_, L1, ⟨l1, [c], [], l3, rfl, rfl, hold, remainder_nil, fun hnil => ?_⟩, hok, halloced, hothers,
        fun w hlo hhi => hsame w hlo (by omega)⟩
      cases hnil
    · obtain ⟨L2, -, halloced2, hok2, hkept2⟩ := hok.trySplit_large rfl hn (by dsimp only; omega)
      dsimp only at halloced2 hok2 hkept2
      refine ⟨n, q, le_rfl, hsome, _, L2,
        ⟨l1, [c], [_], l3, rfl, rfl, hold, ⟨le_rfl, allFree_singleton rfl, fun d hd => ?_⟩, fun hnil => ?_⟩, hok2,
        halloced2.trans halloced, hothers.trans ?_, fun w hlo hhi => ?_⟩
      · rw [mem_singleton.mp hd]
        dsimp only
        omega
      · cases hnil
      · refine hkept2.mono fun d hd hdlive => ?_
        obtain ⟨hdmem, hdne⟩ := mem_filter.mp hd
        simp only [mem_append, mem_cons] at hdmem ⊢
        rcases hdmem with hd | rfl | rfl | hd
        · exact .inl hd
        · exact absurd rfl (of_decide_eq_true hdne)
        · exact absurd hdlive hnot
        · exact .inr (.inr hd)
      · have hend := hkept2.contents ⟨b.addr, n, .live⟩ (mem_append_right l1 mem_cons_self) rfl w hlo
          (by dsimp only; omega)
        exact hend.trans (hsame w hlo (by omega))

theorem PoolOk.nodup_liveBlocks (h : PoolOk p B L) : (liveBlocks B).Nodup :=
  (h.fill.nodup (by norm_num)).of_map.filter _

/-- The contents of the block `b` are in a new block of `t` bytes, and `b` has been freed. -/
def MovedTo (p : Mpool) (F : List PoolBlock → Prop) (B : List PoolBlock) (b : PoolBlock) (t : ℕ) (r : ℕ × Mpool) : Prop :=
  ∃ B₁ B' L', Hands F B ⟨r.1, t, .live⟩ B₁ ∧ Frees B₁ b B' ∧ PoolOk r.2 B' L' ∧
    r.2.allocedSize = wrapSub (wrap (p.allocedSize + t)) b.size ∧ Kept p r.2 (B.filter (· ≠ b)) ∧
    ⟨r.1, t, .live⟩ ≠ b ∧ ∀ i < b.size, r.2.mem (r.1 + i) = p.mem (b.addr + i)

theorem Handed.moved {F : List PoolBlock → Prop} {r : ℕ × Mpool} (h : Handed p B n F r) (hb : b ∈ B)
    (hlive : b.use = .live) (hset : ∀ c ∈ B, Settled c) (hmore : b.size ≤ n) :
    ∃ t B1, n ≤ t ∧ Hands F B ⟨r.1, t, .live⟩ B1 ∧
      (EmptyBeside B1 b ∧ mpoolFree (r.2.memcpy r.1 b.addr b.size) b.addr = none ∨
        ¬ EmptyBeside B1 b ∧ ∃ p', mpoolFree (r.2.memcpy r.1 b.addr b.size) b.addr = some p' ∧
          MovedTo p F B b t (r.1, p')) := by
  obtain ⟨t, B1, L1, hhands, hok, halloced, hkept, hnt⟩ := h
  have hset1 := hhands.settled (.inl hset) rfl
  have hperm := hhands.live rfl
  have hnodup := hperm.nodup_iff.mp hok.nodup_liveBlocks
  have hfresh : (⟨r.1, t, .live⟩ : PoolBlock) ∉ liveBlocks B := (nodup_cons.mp hnodup).1
  have hnew : (⟨r.1, t, .live⟩ : PoolBlock) ∈ B1 := (mem_liveBlocks.mp (hperm.mem_iff.mpr mem_cons_self)).1
  have hstay : ∀ c ∈ B, c.use = .live → c ∈ B1 ∧ c ≠ ⟨r.1, t, .live⟩ := by
    intro c hc hclive
    have hmem := mem_liveBlocks.mpr ⟨hc, hclive⟩
    refine ⟨(mem_liveBlocks.mp (hperm.mem_iff.mpr (mem_cons_of_mem _ hmem))).1, ?_⟩
    rintro rfl
    exact hfresh hmem
  have hcopy := hok.memcpy hnew rfl b.addr (n := b.size) (by dsimp only; omega)
  -- the new block is apart from the others, so that the copy writes to no other block
  have hother : ∀ c ∈ B, c.use = .live → ∀ w, c.addr ≤ w → w < c.addr + c.size →
      (r.2.memcpy r.1 b.addr b.size).mem w = p.mem w := by
    intro c hc hclive w hlo hhi
    obtain ⟨hmem, hne⟩ := hstay c hc hclive
    have hout : ¬(r.1 ≤ w ∧ w < r.1 + b.size) := by
      rcases hok.fill.apart hmem hnew with heq | hlt | hlt
      · exact absurd heq hne
      · dsimp only at hlt
        omega
      · dsimp only at hlt
        omega
    unfold Mpool.memcpy
    dsimp only
    rw [if_neg hout]
    exact hkept.contents c hc hclive w hlo hhi
  refine ⟨t, B1, hnt, hhands, ?_⟩
  have hmemb := (hstay b hb hlive).1
  rcases hcopy.mpoolFree_spec hmemb hlive hset1 with hnone | ⟨hbeside, p', hsome, B', L', hfrees, hok', halloced', hkept'⟩
  · exact .inl hnone
  have hne : (⟨r.1, t, .live⟩ : PoolBlock) ≠ b := (hstay b hb hlive).2.symm
  refine .inr ⟨hbeside, p', hsome, B1, B', L', hhands, hfrees, hok', ?_, ⟨hkept'.ptr.trans hkept.ptr, ?_⟩, hne, ?_⟩
  · have hcounter : (r.2.memcpy r.1 b.addr b.size).allocedSize = r.2.allocedSize := rfl
    rw [halloced', hcounter, halloced]
  · intro c hc hclive w hlo hhi
    obtain ⟨hcmem, hcne⟩ := mem_filter.mp hc
    have hc1 := (hstay c hcmem hclive).1
    rw [hkept'.contents c (mem_filter.mpr ⟨hc1, hcne⟩) hclive w hlo hhi]
    exact hother c hcmem hclive w hlo hhi
  · intro i hi
    have hmem := hkept'.contents ⟨r.1, t, .live⟩ (mem_filter.mpr ⟨hnew, decide_eq_true hne⟩) rfl (r.1 + i)
      (Nat.le_add_right _ _) (by dsimp only; omega)
    have hcopied : (r.2.memcpy r.1 b.addr b.size).mem (r.1 + i) = r.2.mem (b.addr + i) := by
      unfold Mpool.memcpy
      dsimp only
      rw [if_pos (by omega), Nat.add_sub_cancel_left]
    rw [hmem, hcopied]
    exact hkept.contents b hb hlive _ (Nat.le_add_right _ _) (by omega)

end Free

end CoolPotOS
