import CoolPotOS.Mem.MpoolBlocks

namespace CoolPotOS

open Blocks Intrusive List Option

variable {k : List PoolBlock} {m a n size : ℕ} {reqmem : Option CbReqmem}

section Take

variable {p p' : Mpool} {B l₁ l₂ : List PoolBlock} {L L' : Option ℕ → List ℕ} {b c : PoolBlock} {n : ℕ}

def AllFree (l : List PoolBlock) : Prop := ∀ c ∈ l, c.use = freeUse c.size

/-- At most one block, which is free and has room for its links. -/
def Remainder (l : List PoolBlock) : Prop := l.length ≤ 1 ∧ AllFree l ∧ ∀ c ∈ l, c.size ≠ 0

theorem allFree_singleton (h : b.use = freeUse b.size) : AllFree [b] := by
  intro c hc
  rw [mem_singleton.mp hc]
  exact h

theorem allFree_nil : AllFree [] := by
  intro c hc
  cases hc

theorem remainder_nil : Remainder [] := by
  refine ⟨Nat.zero_le 1, allFree_nil, fun c hc => ?_⟩
  cases hc

theorem PoolOk.withAlloced (h : PoolOk p B L) (n : ℕ) : PoolOk { p with allocedSize := n } B L := by
  refine ⟨h.base, h.base_dvd, h.top, h.nonempty, h.fill, h.size_dvd, h.first, h.last, h.tags, fun i => ?_,
    h.nodup, h.listed, h.roomy⟩
  have hlist : ({ p with allocedSize := n } : Mpool).list i = p.list i := by
    cases i <;> rfl
  rw [hlist]
  exact h.chain i

theorem wrap_add_64 (h : PoolOk p B L) (hb : b ∈ B) (hn : n ≤ b.size) : wrap (n + 64) = n + 64 := by
  have hplace := h.place hb
  have hbase := h.base
  have htop := h.top
  unfold pageSize at hbase
  exact wrap_of_lt (by omega)

theorem PoolOk.trySplit_small (h : PoolOk p B L) (hb : b ∈ B) (hn : n ≤ b.size) (hsmall : b.size < n + 64) :
    trySplitAndFree p b.addr n = p := by
  unfold trySplitAndFree
  rw [h.blkSize_eq hb, wrap_add_64 h hb hn, if_neg (by omega)]

theorem PoolOk.trySplit_large (h : PoolOk p (l₁ ++ b :: l₂) L) (hb : b.use.unlisted) (hn : 16 ∣ n)
    (hlarge : n + 64 ≤ b.size) : ∃ L', (trySplitAndFree p b.addr n).size = p.size ∧
      (trySplitAndFree p b.addr n).allocedSize = p.allocedSize ∧
      PoolOk (trySplitAndFree p b.addr n) (l₁ ++ ⟨b.addr, n, .live⟩ ::
        ⟨b.addr + n + 16, b.size - n - 16, freeUse (b.size - n - 16)⟩ :: l₂) L' ∧
      Kept p (trySplitAndFree p b.addr n) (l₁ ++ ⟨b.addr, n, .live⟩ :: l₂) := by
  have hmemb : b ∈ l₁ ++ b :: l₂ := mem_append_right l₁ mem_cons_self
  obtain ⟨p1, hsplit, hsize1, halloced1, hok1, hkept1⟩ := h.split hb hn (by omega)
  have hassoc : ∀ k : List PoolBlock, l₁ ++ ⟨b.addr, n, .live⟩ :: k = (l₁ ++ [⟨b.addr, n, .live⟩]) ++ k := by
    intro k
    rw [append_assoc, singleton_append]
  rw [hassoc] at hok1
  obtain ⟨L2, hok2, hkept2⟩ := hok1.freed rfl
  rw [← hassoc] at hok2 hkept2
  have hstep : trySplitAndFree p b.addr n = doFree p1 (b.addr + n + 16) := by
    unfold trySplitAndFree
    rw [h.blkSize_eq hmemb, wrap_add_64 h hmemb (by omega), if_pos hlarge, hsplit]
  rw [hstep]
  exact ⟨L2, (doFree_size _ _).trans hsize1, (doFree_allocedSize _ _).trans halloced1, hok2, hkept1.trans hkept2⟩

theorem PoolOk.trySplit_spec (h : PoolOk p (l₁ ++ b :: l₂) L) (hb : b.use.unlisted) (hn : 16 ∣ n)
    (hfit : n ≤ b.size) :
    ∃ q c rest L', trySplitAndFree p b.addr n = q ∧ q.size = p.size ∧ q.allocedSize = p.allocedSize ∧
      PoolOk q (l₁ ++ c :: (rest ++ l₂)) L' ∧ Kept p q (l₁ ++ l₂) ∧ c.addr = b.addr ∧ n ≤ c.size ∧
      c.use.unlisted ∧ Remainder rest := by
  have hmemb : b ∈ l₁ ++ b :: l₂ := mem_append_right l₁ mem_cons_self
  by_cases hsmall : b.size < n + 64
  · refine ⟨p, b, [], L, h.trySplit_small hmemb hfit hsmall, ?_⟩
    exact ⟨rfl, rfl, h, Kept.refl p _, rfl, hfit, hb, remainder_nil⟩
  · obtain ⟨L', hsize, halloced, hok, hkept⟩ := h.trySplit_large hb hn (by omega)
    generalize trySplitAndFree p b.addr n = q at *
    refine ⟨q, ⟨b.addr, n, .live⟩, [_], L', rfl, hsize, halloced, hok, hkept.without, ?_⟩
    refine ⟨rfl, le_rfl, rfl, le_rfl, allFree_singleton rfl, fun c hc => ?_⟩
    rw [mem_singleton.mp hc]
    dsimp only
    omega

/-- A block is handed out: `t` of its bytes go to the caller, and a block `rest` may be left behind them. -/
theorem PoolOk.takeBlock_spec (h : PoolOk p (l₁ ++ b :: l₂) L) (hb : b.use.unlisted) (hn : 16 ∣ n)
    (hfit : n ≤ b.size) : ∃ q t rest L', takeBlock p b.addr n = (b.addr, q) ∧ q.size = p.size ∧
      q.allocedSize = wrap (p.allocedSize + t) ∧ PoolOk q (l₁ ++ ⟨b.addr, t, .live⟩ :: (rest ++ l₂)) L' ∧
      Kept p q (l₁ ++ l₂) ∧ n ≤ t ∧ Remainder rest := by
  obtain ⟨q, c, rest, L', hq, hsize, halloced, hok, hkept, haddr, hn', hc, hrem⟩ := h.trySplit_spec hb hn hfit
  have hmemc : c ∈ l₁ ++ c :: (rest ++ l₂) := mem_append_right l₁ mem_cons_self
  obtain ⟨hok', hkept'⟩ := hok.setalloced hc
  have hsz := hok.blkSize_eq hmemc
  rw [haddr] at hsz hok' hkept'
  refine ⟨{ blkSetalloced q b.addr c.size with allocedSize := wrap (p.allocedSize + c.size) }, c.size, rest, L', ?_,
    hsize, rfl, hok'.withAlloced _, ?_, hn', hrem⟩
  · unfold takeBlock
    rw [hq]
    dsimp only
    rw [hsz, ← halloced]
    rfl
  · have hrest : Kept q (blkSetalloced q b.addr c.size) (l₁ ++ l₂) := by
      apply hkept'.mono
      intro d hd _
      rw [mem_append] at hd ⊢
      exact hd.imp_right fun hd => mem_cons_of_mem c (mem_append_right rest hd)
    have hall := hkept.trans hrest
    exact ⟨hall.ptr, hall.contents⟩

theorem align_offset {ptr k : ℕ} (hptr : ptr < 2 ^ 64) (hdvd : 16 ∣ ptr) (hk : 4 ≤ k) (hk' : k ≤ 63) :
    16 ∣ wrapSub (paddingTo ptr (2 ^ k)) ptr ∧ wrapSub (paddingTo ptr (2 ^ k)) ptr < 2 ^ k := by
  have hpos : 0 < 2 ^ k := Nat.two_pow_pos k
  have hle : 2 ^ k ≤ 2 ^ 63 := Nat.pow_le_pow_right (by norm_num) hk'
  have hdvd16 : 16 ∣ 2 ^ k := pow_dvd_pow 2 hk
  obtain ⟨m, hm⟩ : 2 ^ k ∣ 2 ^ 64 := pow_dvd_pow 2 (by omega)
  obtain ⟨q, hq⟩ : ∃ q, q = (ptr + 2 ^ k - 1) / 2 ^ k * 2 ^ k := ⟨_, rfl⟩
  have hlow : q ≤ ptr + 2 ^ k - 1 := by
    rw [hq]
    exact Nat.div_mul_le_self _ _
  have hhigh : ptr + 2 ^ k - 1 < q + 2 ^ k := by
    rw [hq]
    exact Nat.lt_div_mul_add hpos
  have hqdvd : 16 ∣ q := by
    rw [hq]
    exact hdvd16.mul_left _
  have hpad : paddingTo ptr (2 ^ k) = q ∨ paddingTo ptr (2 ^ k) + 2 ^ 64 = q := by
    unfold paddingTo
    by_cases hwrap : ptr + 2 ^ k - 1 < 2 ^ 64
    · rw [wrap_of_lt hwrap, ← hq]
      exact .inl rfl
    · have hx : wrap (ptr + 2 ^ k - 1) = ptr + 2 ^ k - 1 - 2 ^ 64 := by
        unfold wrap
        omega
      right
      rw [hx, hm, Nat.sub_mul_div_of_le _ _ _ (by omega), Nat.sub_mul, hq, Nat.mul_comm (2 ^ k) m]
      apply Nat.sub_add_cancel
      apply Nat.mul_le_mul_right
      rw [Nat.le_div_iff_mul_le hpos, Nat.mul_comm, ← hm]
      omega
  unfold wrapSub
  rcases hpad with hpad | hpad
  · rw [hpad]
    omega
  · omega

theorem PoolOk.carve_spec {align o : ℕ} (h : PoolOk p (l₁ ++ b :: l₂) L) (hb : b.use.unlisted)
    (ho : wrapSub (paddingTo b.addr align) b.addr = o) (hdvd : 16 ∣ o) (hfit : o ≤ b.size) :
    ∃ q front u L', carve p align b.addr = (b.addr + o, q) ∧ q.size = p.size ∧ q.allocedSize = p.allocedSize ∧
      PoolOk q (l₁ ++ (front ++ ⟨b.addr + o, b.size - o, u⟩ :: l₂)) L' ∧ u.unlisted ∧ Kept p q (l₁ ++ l₂) ∧
      AllFree front ∧ front.length ≤ 1 ∧ ∀ c ∈ front, c.size + 16 = o := by
  unfold carve
  rw [ho]
  by_cases hpos : o > 0
  · have hsub : wrapSub o 16 = o - 16 := by
      have hplace := h.place (mem_append_right l₁ mem_cons_self)
      have htop := h.top
      unfold wrapSub
      omega
    obtain ⟨p1, hsplit, hsize1, halloced1, hok1, hkept1⟩ := h.split hb (n := o - 16) (by omega) (by omega)
    have haddr : b.addr + (o - 16) + 16 = b.addr + o := by omega
    have hrest : b.size - (o - 16) - 16 = b.size - o := by omega
    rw [haddr] at hsplit hok1
    rw [hrest] at hok1
    obtain ⟨L2, hok2, hkept2⟩ := hok1.freed rfl
    rw [if_pos hpos, hsub, hsplit]
    refine ⟨doFree p1 b.addr, [⟨b.addr, o - 16, freeUse (o - 16)⟩], .live, L2, rfl, (doFree_size _ _).trans hsize1,
      (doFree_allocedSize _ _).trans halloced1, hok2, rfl, hkept1.without.trans ?_, allFree_singleton rfl, le_rfl,
      fun c hc => ?_⟩
    · exact hkept2.without
    · rw [mem_singleton.mp hc]
      dsimp only
      omega
  · obtain rfl : o = 0 := by omega
    rw [if_neg hpos]
    refine ⟨p, [], b.use, L, rfl, rfl, rfl, h, hb, Kept.refl p _, allFree_nil, Nat.zero_le 1, fun c hc => ?_⟩
    cases hc

def Matched (p : Mpool) (B : List PoolBlock) (test : Mpool → ℕ → Bool) (r : Option (ℕ × Mpool)) : Prop :=
  ∃ l₁ b l₂ i p' L', B = l₁ ++ b :: l₂ ∧ b.use = .listed i ∧ test p b.addr = true ∧ r = some (b.addr, p') ∧
    p'.size = p.size ∧ p'.allocedSize = p.allocedSize ∧ PoolOk p' (l₁ ++ ⟨b.addr, b.size, .held⟩ :: l₂) L' ∧
    Kept p p' (l₁ ++ l₂)

theorem PoolOk.length_list_le (h : PoolOk p B L) (i : Option ℕ) : (L i).length ≤ p.size / 16 := by
  have hsub : L i ⊆ B.map Block.addr := by
    intro a ha
    obtain ⟨b, hb, haddr, -⟩ := (h.listed i a).mp ha
    exact List.mem_map.mpr ⟨b, hb, haddr⟩
  have hle := ((h.nodup i).subperm hsub).length_le
  have hfill := h.fill.length_le
  rw [length_map] at hle
  omega

/-- The search of one list ends; it finds the first block of the list that passes the test, or no block does. -/
theorem PoolOk.freelistMatch_spec (h : PoolOk p B L) (i : Option ℕ) (test : Mpool → ℕ → Bool) :
    (freelistMatch p i test = some (0, p) ∧ ∀ a ∈ L i, test p a = false) ∨
      Matched p B test (freelistMatch p i test) ∧
        ∀ r, freelistMatch p i test = some r → (L i).find? (test p) = some r.1 := by
  unfold freelistMatch
  rw [(h.chain i).search_eq (test p) (h.length_list_le i), bind_some]
  cases hfind : (L i).find? (test p) with
  | none =>
    left
    refine ⟨rfl, fun a ha => ?_⟩
    have := List.find?_eq_none.mp hfind a ha
    exact Bool.eq_false_iff.mpr this
  | some a =>
    right
    obtain ⟨b, hb, rfl, huse⟩ := (h.listed i a).mp (List.mem_of_find?_eq_some hfind)
    obtain ⟨l₁, l₂, rfl⟩ := append_of_mem hb
    have hplace := h.place hb
    obtain ⟨p', hdetach, hsize, halloced, hok, hkept⟩ := h.detached huse
    rw [getD_some, if_neg (by omega), hdetach, map_some]
    refine ⟨⟨l₁, b, l₂, i, p', _, rfl, huse, List.find?_some hfind, rfl, hsize, halloced, hok, hkept⟩, ?_⟩
    intro r hr
    rw [← Option.some.inj hr]

theorem PoolOk.freelistsMatchFrom_spec (h : PoolOk p B L) (test : Mpool → ℕ → Bool) (ids : List ℕ) :
    (freelistsMatchFrom p test ids = some (0, p) ∧ ∀ id ∈ ids, ∀ a ∈ L (some id), test p a = false) ∨
      Matched p B test (freelistsMatchFrom p test ids) := by
  induction ids with
  | nil =>
    left
    exact ⟨rfl, fun id hid => by cases hid⟩
  | cons id ids ih =>
    rw [freelistsMatchFrom]
    rcases h.freelistMatch_spec (some id) test with ⟨hnone, hall⟩ | ⟨hmatch, -⟩
    · rw [hnone, bind_some, if_pos rfl]
      rcases ih with ⟨hrest, hall'⟩ | hmatch
      · left
        refine ⟨hrest, fun id' hid' => ?_⟩
        rcases mem_cons.mp hid' with rfl | hid'
        · exact hall
        · exact hall' id' hid'
      · exact .inr hmatch
    · right
      obtain ⟨l₁, b, l₂, i, p', L', hB, huse, htest, hr, hrest⟩ := hmatch
      have hplace := h.place (b := b) (by
        rw [hB]
        exact mem_append_right l₁ mem_cons_self)
      refine ⟨l₁, b, l₂, i, p', L', hB, huse, htest, ?_, hrest⟩
      rw [hr, bind_some, if_neg (by dsimp only; omega)]

theorem PoolOk.freelistsMatch_spec (h : PoolOk p B L) (size : ℕ) (test : Mpool → ℕ → Bool) :
    (freelistsMatch p size test = some (0, p) ∧
      ∀ least id, freelistsSize2id size = some least → least ≤ id → id < 8 → ∀ a ∈ L (some id), test p a = false) ∨
      Matched p B test (freelistsMatch p size test) := by
  unfold freelistsMatch
  cases hid : freelistsSize2id size with
  | none =>
    left
    refine ⟨rfl, fun least id hleast => ?_⟩
    cases hleast
  | some least =>
    dsimp only
    rcases h.freelistsMatchFrom_spec test (range' least (8 - least)) with ⟨hnone, hall⟩ | hmatch
    · left
      refine ⟨hnone, fun least' id hleast hlo hhi => hall id ?_⟩
      cases hleast
      rw [mem_range'_1]
      omega
    · exact .inr hmatch

theorem PoolOk.grow (h : PoolOk p B L) (hdvd : 16 ∣ m) (hm : 16 ≤ m) (hptr : p'.ptr = p.ptr)
    (hsize : p'.size = p.size + m) (htop : p.ptr + p.size + m < 2 ^ 64) (hlist : ∀ i, p'.list i = p.list i)
    (hmem : ∀ w, w ≠ p.ptr → w + 8 < p.ptr + p.size → p'.mem w = p.mem w)
    (hfirst : hasTagFlag (p'.mem p.ptr) areaFlag = true)
    (hlast : hasTagFlag (p'.mem (p.ptr + p.size + m - 8)) areaFlag = true)
    (htags : Tagged p'.mem ⟨p.ptr + p.size, m - 16, .live⟩) :
    PoolOk p' (B ++ [⟨p.ptr + p.size, m - 16, .live⟩]) L ∧ Kept p p' B := by
  have hstay : ∀ c ∈ B, ∀ w, c.addr ≤ w + 8 → w < c.addr + c.size + 8 → p'.mem w = p.mem w := by
    intro c hc w hlo hhi
    have hplace := h.place hc
    exact hmem w (by omega) (by omega)
  have hlisted : ∀ c i, c.use = .listed i → (c ∈ B ++ [⟨p.ptr + p.size, m - 16, .live⟩] ↔ c ∈ B) := by
    intro c i hc
    have hne : c ≠ ⟨p.ptr + p.size, m - 16, .live⟩ := by
      rintro rfl
      cases hc
    rw [mem_append, mem_singleton]
    exact or_iff_left hne
  refine ⟨⟨?_, ?_, ?_, ?_, ?_, ?_, ?_, ?_, ?_, ?_, h.nodup, ?_, ?_⟩, hptr, ?_⟩
  · rw [hptr]
    exact h.base
  · rw [hptr]
    exact h.base_dvd
  · rw [hptr, hsize]
    omega
  · exact append_ne_nil_of_left_ne_nil h.nonempty _
  · rw [hptr, hsize]
    exact fill_append.mpr ⟨_, h.fill, rfl, by dsimp only [Fill]; omega⟩
  · intro c hc
    rcases mem_append.mp hc with hc | hc
    · exact h.size_dvd c hc
    · rw [mem_singleton.mp hc]
      dsimp only
      omega
  · rw [hptr]
    exact hfirst
  · rw [hptr, hsize, ← Nat.add_assoc]
    exact hlast
  · intro c hc
    rcases mem_append.mp hc with hc | hc
    · have hplace := h.place hc
      have htag := h.tags c hc
      refine ⟨?_, ?_⟩
      · rw [hstay c hc _ (by omega) (by omega)]
        exact htag.head
      · rw [hstay c hc _ (by omega) (by omega)]
        exact htag.tail
    · rw [mem_singleton.mp hc]
      exact htags
  · intro i
    rw [hlist]
    refine (h.chain i).congr_words fun w hw => ?_
    obtain ⟨c, hc, -, hlo, hhi⟩ := h.onNode hw
    exact hstay c hc w (by omega) (by omega)
  · intro i a
    rw [h.listed]
    constructor
    · rintro ⟨c, hc, haddr, huse⟩
      exact ⟨c, (hlisted c i huse).mpr hc, haddr, huse⟩
    · rintro ⟨c, hc, haddr, huse⟩
      exact ⟨c, (hlisted c i huse).mp hc, haddr, huse⟩
  · intro c hc i huse
    exact h.roomy c ((hlisted c i huse).mp hc) i huse
  · intro c hc _ w hlo hhi
    exact hstay c hc w (by omega) (by omega)

theorem PoolOk.size_bound (h : PoolOk p B L) : 16 ≤ p.size ∧ 16 ∣ p.size := by
  cases hB : B with
  | nil => exact absurd hB h.nonempty
  | cons b l =>
    have hmemb : b ∈ B := by
      rw [hB]
      exact mem_cons_self
    obtain ⟨l0, c, hlast⟩ : ∃ l0 c, B = l0 ++ [c] := by
      rcases eq_nil_or_concat B with hnil | ⟨l0, c, hlast⟩
      · exact absurd hnil h.nonempty
      · exact ⟨l0, c, by rw [hlast, concat_eq_append]⟩
    have hc : c ∈ B := by
      rw [hlast]
      exact mem_append_right l0 (mem_singleton_self c)
    have hend := h.fill
    rw [hlast, fill_middle] at hend
    have hend : c.addr + c.size + 16 = p.ptr + p.size := hend.2
    have hplace := h.place hc
    have haddr := h.addr_dvd hc
    have hsize := h.size_dvd c hc
    have hbase := h.base_dvd
    omega

theorem PoolOk.reinit_spec (h : PoolOk p B L) (hdvd : 16 ∣ m) (hm : 16 ≤ m) (htop : p.ptr + p.size + m < 2 ^ 64) :
    ∃ p1, allocareaReinit p p.ptr p.size (wrap (p.size + m)) = (p.ptr + p.size, p1) ∧
      p1.size = p.size ∧ p1.allocedSize = p.allocedSize ∧
      PoolOk { p1 with size := wrap (p.size + m) } (B ++ [⟨p.ptr + p.size, m - 16, .live⟩]) L ∧
      Kept p { p1 with size := wrap (p.size + m) } B := by
  obtain ⟨hsz, hszdvd⟩ := h.size_bound
  have hbase := h.base
  have hnew : wrap (p.size + m) = p.size + m := wrap_of_lt (by omega)
  have hpage : 32 ≤ p.ptr := by
    unfold pageSize at hbase
    omega
  have htail : p.ptr + ((p.size + m) / 8 - 1) * 8 = p.ptr + p.size + m - 8 := by omega
  have hblk : wrapSub (p.size + m - p.size) 16 = m - 16 := by
    unfold wrapSub
    omega
  have hend : wrap (p.ptr + p.size + (m - 16)) = p.ptr + p.size + m - 16 := by
    unfold wrap
    omega
  rw [hnew]
  unfold allocareaReinit
  rw [if_neg (by omega)]
  simp only [htail, hblk]
  rw [if_neg (by omega)]
  obtain ⟨data, hdata⟩ : ∃ data, data = tagSize (p.mem p.ptr) + areaFlag +
    (if p.size + m = size2M then sizeFlag else 0) := ⟨_, rfl⟩
  have harea : hasTagFlag data areaFlag = true := by
    rw [hasTagFlag_iff, hdata]
    unfold tagSize areaFlag sizeFlag
    split <;> omega
  rw [← hdata]
  obtain ⟨p1, hp1⟩ : ∃ p1, p1 = blkSetsize ((p.store p.ptr data).store (p.ptr + p.size + m - 8) data)
    (p.ptr + p.size) (m - 16) := ⟨_, rfl⟩
  have hmem : ∀ w, p1.mem w = if w = p.ptr + p.size + m - 16 then m - 16 else if w = p.ptr + p.size - 8 then m - 16
      else if w = p.ptr + p.size + m - 8 then data else if w = p.ptr then data else p.mem w := by
    intro w
    rw [hp1]
    simp only [blkSetsize, hend, Mpool.store, Function.update_apply]
  have htag : TagOk (m - 16) (m - 16) .live := tagOk_self (by omega)
  refine ⟨p1, ?_, ?_, ?_, h.grow hdvd hm ?_ rfl htop (fun i => ?_) (fun w hw hw' => ?_) ?_ ?_ ⟨?_, ?_⟩⟩
  · rw [← hp1]
  · rw [hp1]
    rfl
  · rw [hp1]
    rfl
  · rw [hp1]
    rfl
  · rw [hp1]
    cases i <;> rfl
  · dsimp only
    rw [hmem, if_neg (by omega), if_neg (by omega), if_neg (by omega), if_neg hw]
  · dsimp only
    rw [hmem, if_neg (by omega), if_neg (by omega), if_neg (by omega), if_pos rfl]
    exact harea
  · dsimp only
    rw [hmem, if_neg (by omega), if_neg (by omega), if_pos rfl]
    exact harea
  · dsimp only
    rw [hmem, if_neg (by omega), if_pos rfl]
    exact htag
  · dsimp only
    rw [hmem, if_pos (by omega)]
    exact htag

def Granted (p : Mpool) (reqmem : Option CbReqmem) (size : ℕ) : Prop :=
  ∃ cb ∈ reqmem, cb.call (p.ptr + p.size) (padding16k size) = p.ptr + p.size

theorem padding16k_dvd (size : ℕ) : 16384 ∣ padding16k size := Dvd.intro_left _ rfl

/-- The pool has grown by `m` bytes: its blocks are those of `k` and the one at `a` of size `n`, which has
taken in the last block when that was free. -/
def Grew (p : Mpool) (B k : List PoolBlock) (a n m : ℕ) : Prop :=
  (B = k ∧ (∀ c ∈ B.getLast?, c.use = .live) ∧ a = p.ptr + p.size ∧ n = m - 16) ∨
    ∃ c, B = k ++ [c] ∧ c.use = .listed (freelistsSize2id c.size) ∧ a = c.addr ∧ n = c.size + m

theorem Grew.mem_of_live (h : Grew p B k a n m) (hb : b ∈ B) (hlive : b.use = .live) : b ∈ k := by
  rcases h with ⟨rfl, -⟩ | ⟨c, rfl, hc, -⟩
  · exact hb
  · refine (mem_append.mp hb).resolve_right fun hb => ?_
    rw [mem_singleton.mp hb, hc] at hlive
    cases hlive

theorem Grew.subset (h : Grew p B k a n m) (hb : b ∈ k) : b ∈ B := by
  rcases h with ⟨rfl, -⟩ | ⟨c, rfl, -⟩
  · exact hb
  · exact mem_append_left _ hb

theorem mpoolReqmem_refused (h : ¬ Granted p reqmem size) : mpoolReqmem p reqmem size = some none := by
  cases reqmem with
  | none => rfl
  | some cb =>
    have hcall : cb.call (p.ptr + p.size) (padding16k size) ≠ p.ptr + p.size := fun hcall => h ⟨cb, rfl, hcall⟩
    unfold mpoolReqmem
    dsimp only
    by_cases hnull : cb.call (p.ptr + p.size) (padding16k size) = 0
    · rw [if_pos hnull]
    · rw [if_neg hnull, if_pos hcall]

theorem PoolOk.mpoolReqmem_spec (h : PoolOk p B L) (hset : ∀ c ∈ B, Settled c) (hgrant : Granted p reqmem size) :
    ((padding16k size = 0 ∨ ∃ c ∈ B.getLast?, c.use = .empty) ∧ mpoolReqmem p reqmem size = none) ∨
    (padding16k size ≠ 0 ∧ ∃ a p' k n L', mpoolReqmem p reqmem size = some (some p') ∧
      p'.allocedSize = p.allocedSize ∧ PoolOk p' (k ++ [⟨a, n, .listed none⟩]) L' ∧ Kept p p' B ∧
      (L' none).head? = some a ∧ Grew p B k a n (padding16k size)) := by
  obtain ⟨hsz, hszdvd⟩ := h.size_bound
  have hbase := h.base
  unfold pageSize at hbase
  obtain ⟨cb, rfl, hcall⟩ := hgrant
  have htop := cb.allocated _ _ hcall
  unfold mpoolReqmem
  dsimp only
  rw [if_neg (by omega), if_neg (by omega)]
  by_cases hzero : padding16k size = 0
  · left
    refine ⟨.inl hzero, ?_⟩
    have hsame : wrap (p.size + padding16k size) = p.size := by
      rw [hzero]
      exact wrap_of_lt (by omega)
    unfold allocareaReinit
    rw [hsame, if_pos rfl]
    rfl
  · obtain ⟨m, hm⟩ := padding16k_dvd size
    obtain ⟨p1, hre, hsize1, halloced1, hok1, hkept1⟩ :=
      h.reinit_spec (m := padding16k size) (by omega) (by omega) htop
    rw [hre]
    dsimp only
    rw [if_neg (by omega), hsize1]
    rcases hok1.blkTrymerge_spec rfl (fun c (hc : c ∈ B ++ []) => hset c (append_nil B ▸ hc)) with
      ⟨hempty, hnone⟩ | ⟨a, p2, k, n, k2, L2, hsome, hsize2, halloced2, hok2, hkept2, habs, habs2, -⟩
    · left
      refine ⟨.inr (hempty.resolve_right ?_), ?_⟩
      · rintro ⟨c, hc, -⟩
        cases hc
      · dsimp only at hnone
        rw [hnone]
        rfl
    · right
      obtain rfl : k2 = [] := by
        rcases habs2 with ⟨hk, -⟩ | ⟨c, hk, -⟩
        · exact hk.symm
        · cases hk
      have hgrew : Grew p B k a n (padding16k size) := by
        obtain ⟨hk, hend⟩ := fill_middle.mp hok2.fill
        have hptr2 : p2.ptr = p.ptr := hkept2.ptr.trans hkept1.ptr
        have hend : a + n + 16 = p.ptr + (p.size + padding16k size) := by
          have hgrown : wrap (p.size + padding16k size) = p.size + padding16k size := wrap_of_lt (by omega)
          rw [hptr2, hsize2, hgrown] at hend
          exact hend
        rw [hptr2] at hk
        rcases habs with ⟨hBk, hlive⟩ | ⟨c, hBk, -, hc⟩
        · obtain rfl := reverse_injective hBk
          rw [head?_reverse] at hlive
          have ha : a = p.ptr + p.size := hk.end_unique h.fill
          exact .inl ⟨rfl, hlive, ha, by omega⟩
        · have hB : B = k ++ [c] := by
            rw [← reverse_reverse B, hBk, reverse_cons, reverse_reverse]
          have hfill := h.fill
          rw [hB, fill_middle] at hfill
          have ha : a = c.addr := hk.end_unique hfill.1
          have hlast : c.addr + c.size + 16 = p.ptr + p.size := hfill.2
          exact .inr ⟨c, hB, hc, ha, by omega⟩
      have hn : n ≠ 0 := by
        rcases hgrew with ⟨-, -, -, hn⟩ | ⟨c, -, -, -, hn⟩ <;> omega
      have hsub : ∀ c ∈ B, c.use = .live → c ∈ k ++ [] := by
        intro c hc hlive
        rw [append_nil]
        exact hgrew.mem_of_live hc hlive
      obtain ⟨hok3, hkept3⟩ := hok2.setfreed rfl
      obtain ⟨hok4, hkept4⟩ := hok3.put rfl hn none
      refine ⟨hzero, a, _, k, n, _, ?_, ?_, hok4, ?_, ?_, hgrew⟩
      · have hsz2 := hok2.blkSize_eq (mem_append_right k mem_cons_self)
        dsimp only at hsome hsz2
        rw [hsome, map_some, hsz2]
      · rw [freelistPut_allocedSize]
        exact halloced2.trans halloced1
      · rw [append_nil] at hkept2
        exact ((hkept1.trans hkept2).trans (hkept3.without.mono hsub)).trans (hkept4.mono hsub)
      · rw [Function.update_self]
        rfl

/-- The one block of a pool that `mpool_init` has set up: it is in the large list, whatever its size. -/
def Untouched (B : List PoolBlock) : Prop := ∃ b, B = [b] ∧ b.use = .listed none

/-- A free block lies where blocks of its size are, or it is the untouched one. -/
def InPlace (B : List PoolBlock) : Prop := (∀ b ∈ B, Settled b) ∨ Untouched B

/-- At most one free block, or the end of the pool, has given way to the block `c` of a caller, with free
blocks before it, of which `F` is known, and behind it. -/
def Hands (F : List PoolBlock → Prop) (B : List PoolBlock) (c : PoolBlock) (B' : List PoolBlock) : Prop :=
  ∃ l₁ old l₂ front rest, B = l₁ ++ (old ++ l₂) ∧ B' = l₁ ++ (front ++ c :: (rest ++ l₂)) ∧
    (∀ d ∈ old, ∃ i, d.use = .listed i) ∧ (old = [] → l₂ = [] ∧ ∀ d ∈ l₁.getLast?, d.use = .live) ∧
    AllFree front ∧ F front ∧ Remainder rest

/-- A block of at least `n` bytes has been handed out. -/
def Handed (p : Mpool) (B : List PoolBlock) (n : ℕ) (F : List PoolBlock → Prop) (r : ℕ × Mpool) : Prop :=
  ∃ t B' L', Hands F B ⟨r.1, t, .live⟩ B' ∧ PoolOk r.2 B' L' ∧ r.2.allocedSize = wrap (p.allocedSize + t) ∧
    Kept p r.2 B ∧ n ≤ t

theorem freelistsSize2id_lt {id : ℕ} (h : freelistsSize2id size = some id) : id < 8 := by
  unfold freelistsSize2id builtinClz at h
  split at h
  · cases h
    norm_num
  · split at h
    · cases h
      norm_num
    · split at h
      · cases h
      · cases h
        have hlog : size.log2 < 14 := (Nat.log2_lt (by omega)).mpr (by omega)
        omega

theorem freelistsSize2id_mono {id : ℕ} (hle : n ≤ size) (h : freelistsSize2id size = some id) :
    ∃ least, freelistsSize2id n = some least ∧ least ≤ id := by
  unfold freelistsSize2id builtinClz at h ⊢
  split at h
  · cases h
    rw [if_pos (by omega)]
    exact ⟨0, rfl, le_rfl⟩
  · split at h
    · cases h
      split
      · exact ⟨0, rfl, Nat.zero_le 1⟩
      · rw [if_pos (by omega)]
        exact ⟨1, rfl, le_rfl⟩
    · split at h
      · cases h
      · cases h
        have hlog : 8 ≤ size.log2 := (Nat.le_log2 (by omega)).mpr (by omega)
        have hlog' : size.log2 < 14 := (Nat.log2_lt (by omega)).mpr (by omega)
        split
        · exact ⟨0, rfl, Nat.zero_le _⟩
        · split
          · exact ⟨1, rfl, by omega⟩
          · rw [if_neg (by omega)]
            have hmono : n.log2 ≤ size.log2 := by
              rw [Nat.le_log2 (by omega)]
              exact (Nat.log2_self_le (by omega)).trans hle
            exact ⟨_, rfl, by omega⟩

theorem InPlace.searched (h : InPlace B) {i : Option ℕ} (hb : b ∈ B) (huse : b.use = .listed i)
    (hn : n ≤ b.size) :
    i = none ∨ ∃ id least, i = some id ∧ freelistsSize2id n = some least ∧ least ≤ id ∧ id < 8 := by
  cases i with
  | none => exact .inl rfl
  | some id =>
    right
    rcases h with hset | ⟨c, rfl, hc⟩
    · rcases (hset b hb).cases with hlive | ⟨hempty, -⟩ | ⟨-, hlist⟩
      · rw [huse] at hlive
        cases hlive
      · rw [huse] at hempty
        cases hempty
      · rw [huse] at hlist
        have hid := (BlockUse.listed.inj hlist).symm
        obtain ⟨least, hleast, hle⟩ := freelistsSize2id_mono hn hid
        exact ⟨id, least, rfl, hleast, hle, freelistsSize2id_lt hid⟩
    · rw [mem_singleton.mp hb, hc] at huse
      cases huse

theorem PoolOk.findBlock_spec (h : PoolOk p B L) (hplace : InPlace B) {test : Mpool → ℕ → Bool}
    (htest : ∀ b ∈ B, test p b.addr = true → n ≤ b.size) :
    (findBlock p n test = some (0, p) ∧ ∀ b ∈ B, ∀ i, b.use = .listed i → test p b.addr = false) ∨
      Matched p B test (findBlock p n test) := by
  unfold findBlock
  rcases h.freelistsMatch_spec n test with ⟨hnone, hsmall⟩ | hmatch
  · rw [hnone, bind_some, if_pos rfl]
    rcases h.freelistMatch_spec none test with ⟨hnone', hlarge⟩ | ⟨hmatch, -⟩
    · left
      refine ⟨hnone', fun b hb i huse => ?_⟩
      by_contra hpass
      have hpass := Bool.eq_true_of_not_eq_false hpass
      have hmem : b.addr ∈ L i := (h.listed i b.addr).mpr ⟨b, hb, rfl, huse⟩
      rcases hplace.searched hb huse (htest b hb hpass) with rfl | ⟨id, least, rfl, hleast, hlo, hhi⟩
      · rw [hlarge b.addr hmem] at hpass
        cases hpass
      · rw [hsmall least id hleast hlo hhi b.addr hmem] at hpass
        cases hpass
    · exact .inr hmatch
  · right
    obtain ⟨l₁, b, l₂, i, p', L', hB, huse, hpass, hr, hrest⟩ := hmatch
    have hb := h.place (b := b) (by
      rw [hB]
      exact mem_append_right l₁ mem_cons_self)
    refine ⟨l₁, b, l₂, i, p', L', hB, huse, hpass, ?_, hrest⟩
    rw [hr, bind_some, if_neg (by dsimp only; omega)]

/-- What `take` must do with a block that has been found. -/
def Takes (n : ℕ) (F : ℕ → List PoolBlock → Prop) (test : Mpool → ℕ → Bool) (take : Mpool → ℕ → ℕ × Mpool) : Prop :=
  ∀ p l₁ b l₂ L, PoolOk p (l₁ ++ b :: l₂) L → b.use = .held → test p b.addr = true →
    ∃ front t rest L', PoolOk (take p b.addr).2 (l₁ ++ (front ++ ⟨(take p b.addr).1, t, .live⟩ :: (rest ++ l₂))) L' ∧
      (take p b.addr).2.allocedSize = wrap (p.allocedSize + t) ∧ Kept p (take p b.addr).2 (l₁ ++ l₂) ∧ n ≤ t ∧
      AllFree front ∧ F b.addr front ∧ Remainder rest

section Both

variable {ask : ℕ} {F : ℕ → List PoolBlock → Prop} {fits : ℕ → ℕ → Bool} {test : Mpool → ℕ → Bool}
  {take : Mpool → ℕ → ℕ × Mpool}

theorem PoolOk.allocWith_found (h : PoolOk p B L) (htest : ∀ p a, test p a = fits a (blkSize p a))
    (htake : Takes n F test take) (reqmem : Option CbReqmem) (hmatch : Matched p B test (findBlock p n test)) :
    ∃ a p1 r, findBlock p n test = some (a, p1) ∧ a ≠ 0 ∧ allocWith p reqmem n ask test take = some r ∧
      Handed p B n (F a) r := by
  obtain ⟨l₁, b, l₂, i, p1, L1, hB, huse, hpass, hr, hsize, halloced, hok, hkept⟩ := hmatch
  have hb : b ∈ B := by
    rw [hB]
    exact mem_append_right l₁ mem_cons_self
  have hplace := h.place hb
  have hsame : blkSize p1 b.addr = blkSize p b.addr := by
    rw [h.blkSize_eq hb]
    exact hok.blkSize_eq (b := ⟨b.addr, b.size, .held⟩) (mem_append_right l₁ mem_cons_self)
  obtain ⟨front, t, rest, L2, hok2, halloced2, hkept2, hn, hfront, hF, hrest⟩ :=
    htake p1 l₁ ⟨b.addr, b.size, .held⟩ l₂ L1 hok rfl (by rw [htest, hsame, ← htest]; exact hpass)
  refine ⟨b.addr, p1, take p1 b.addr, hr, by omega, ?_, t, _, L2,
    ⟨l₁, [b], l₂, front, rest, hB, rfl, fun c hc => ?_, fun hnil => ?_, hfront, hF, hrest⟩, hok2, ?_, ?_, hn⟩
  · unfold allocWith
    rw [hr, bind_some, if_pos (by dsimp only; omega)]
  · rw [mem_singleton.mp hc]
    exact ⟨i, huse⟩
  · cases hnil
  · rw [← halloced]
    exact halloced2
  · refine (hkept.trans hkept2).mono fun c hc hlive => ?_
    rw [hB, mem_append, mem_cons] at hc
    rw [mem_append]
    refine hc.imp_right fun hc => hc.resolve_left ?_
    rintro rfl
    rw [huse] at hlive
    cases hlive

theorem allocWith_refused (hnone : findBlock p n test = some (0, p)) (hgrant : ¬ Granted p reqmem ask) :
    allocWith p reqmem n ask test take = some (0, p) := by
  unfold allocWith
  rw [hnone, bind_some, if_neg (not_not.mpr rfl), mpoolReqmem_refused hgrant]
  rfl

theorem PoolOk.takeLarge_spec (h : PoolOk p (k ++ [⟨a, m, .listed none⟩]) L) (hhead : (L none).head? = some a)
    (htest : ∀ p a, test p a = fits a (blkSize p a)) (htake : Takes n F test take)
    (hsmall : ∀ b ∈ k, ∀ i, b.use = .listed i → fits b.addr b.size = false) :
    (fits a m = true → ∃ r front t rest L', takeLarge p test take = some r ∧
      PoolOk r.2 (k ++ (front ++ ⟨r.1, t, .live⟩ :: (rest ++ []))) L' ∧
      r.2.allocedSize = wrap (p.allocedSize + t) ∧ Kept p r.2 k ∧ n ≤ t ∧ AllFree front ∧ F a front ∧
      Remainder rest) ∧
    (fits a m = false → takeLarge p test take = none) := by
  have hlast : (⟨a, m, .listed none⟩ : PoolBlock) ∈ k ++ [⟨a, m, .listed none⟩] :=
    mem_append_right k (mem_singleton_self _)
  have hplace := h.place hlast
  have hsize : blkSize p a = m := h.blkSize_eq (b := ⟨a, m, .listed none⟩) hlast
  have hpassed : test p a = fits a m := by
    rw [htest, hsize]
  unfold takeLarge
  refine ⟨fun hfit => ?_, fun hfit => ?_⟩
  · rcases h.freelistMatch_spec none test with ⟨-, hall⟩ | ⟨hmatch, hfind⟩
    · have := hall a (List.mem_of_mem_head? hhead)
      rw [hpassed, hfit] at this
      cases this
    · obtain ⟨l₁, b, l₂, i, p1, L1, hB, huse, hpass, hr, hsize1, halloced1, hok1, hkept1⟩ := hmatch
      -- the first block of the large list is the one that has been put there
      have hfirst := hfind _ hr
      obtain ⟨l, hL⟩ : ∃ l, L none = a :: l := by
        cases hL : L none with
        | nil =>
          rw [hL] at hhead
          cases hhead
        | cons a' l =>
          rw [hL] at hhead
          rw [Option.some.inj hhead]
          exact ⟨l, rfl⟩
      rw [hL, List.find?_cons, hpassed, hfit] at hfirst
      have haddr : a = b.addr := Option.some.inj hfirst
      have hb : b ∈ k ++ [⟨a, m, .listed none⟩] := by
        rw [hB]
        exact mem_append_right l₁ mem_cons_self
      have hbc : b = ⟨a, m, .listed none⟩ := h.fill.eq_of_addr (by norm_num) hb hlast haddr.symm
      rw [hbc] at hB hr hok1
      obtain ⟨rfl, rfl⟩ := h.fill.last_unique (by norm_num) hB
      rw [append_nil] at hkept1
      have hsize1 : blkSize p1 a = m :=
        hok1.blkSize_eq (b := ⟨a, m, .held⟩) (mem_append_right _ (mem_singleton_self _))
      obtain ⟨front, t, rest, L2, hok2, halloced2, hkept2, hn, hfront, hF, hrest⟩ :=
        htake p1 k ⟨a, m, .held⟩ [] L1 hok1 rfl (by rw [htest, hsize1, hfit])
      rw [append_nil] at hkept2
      refine ⟨take p1 a, front, t, rest, L2, ?_, hok2, ?_, hkept1.trans hkept2, hn, hfront, hF, hrest⟩
      · rw [hr, bind_some, if_neg (by dsimp only at hplace ⊢; omega)]
      · rw [← halloced1]
        exact halloced2
  · rcases h.freelistMatch_spec none test with ⟨hnone, -⟩ | ⟨hmatch, -⟩
    · rw [hnone, bind_some, if_pos rfl]
    · obtain ⟨l₁, b, l₂, i, -, -, hB, huse, hpass, -⟩ := hmatch
      have hb : b ∈ k ++ [⟨a, m, .listed none⟩] := by
        rw [hB]
        exact mem_append_right l₁ mem_cons_self
      rw [htest, h.blkSize_eq hb] at hpass
      exfalso
      rcases mem_append.mp hb with hbk | hbc
      · rw [hsmall b hbk i huse] at hpass
        cases hpass
      · rw [mem_singleton.mp hbc, hfit] at hpass
        cases hpass

theorem PoolOk.allocWith_grown (h : PoolOk p B L) (hset : ∀ c ∈ B, Settled c)
    (htest : ∀ p a, test p a = fits a (blkSize p a)) (htake : Takes n F test take)
    (hnone : findBlock p n test = some (0, p))
    (hsmall : ∀ b ∈ B, ∀ i, b.use = .listed i → test p b.addr = false) (hgrant : Granted p reqmem ask) :
    ((padding16k ask = 0 ∨ ∃ c ∈ B.getLast?, c.use = .empty) ∧ allocWith p reqmem n ask test take = none) ∨
    (padding16k ask ≠ 0 ∧ ∃ k a m, Grew p B k a m (padding16k ask) ∧
      (fits a m = true → ∃ r, allocWith p reqmem n ask test take = some r ∧ Handed p B n (F a) r) ∧
      (fits a m = false → allocWith p reqmem n ask test take = none)) := by
  unfold allocWith
  rw [hnone, bind_some, if_neg (not_not.mpr rfl)]
  dsimp only
  rcases h.mpoolReqmem_spec hset hgrant with
    ⟨hbad, hfail⟩ | ⟨hzero, a, p1, k, m, L1, hsome, halloced, hok, hkept, hhead, hgrew⟩
  · left
    rw [hfail]
    exact ⟨hbad, rfl⟩
  right
  rw [hsome, bind_some]
  have hsmall1 : ∀ b ∈ k, ∀ i, b.use = .listed i → fits b.addr b.size = false := by
    intro b hb i huse
    have hfail := hsmall b (hgrew.subset hb) i huse
    rw [htest, h.blkSize_eq (hgrew.subset hb)] at hfail
    exact hfail
  obtain ⟨hfits, hfails⟩ := hok.takeLarge_spec hhead htest htake hsmall1
  refine ⟨hzero, k, a, m, hgrew, fun hfit => ?_, hfails⟩
  obtain ⟨r, front, t, rest, L2, hr, hok2, halloced2, hkept2, hn, hfront, hF, hrest⟩ := hfits hfit
  have hkept' : Kept p r.2 B := hkept.trans (hkept2.mono fun c hc hlive => hgrew.mem_of_live hc hlive)
  rw [halloced] at halloced2
  refine ⟨r, hr, t, _, L2, ?_, hok2, halloced2, hkept', hn⟩
  rcases hgrew with ⟨rfl, hlive, -⟩ | ⟨c, rfl, hc, -⟩
  · refine ⟨B, [], [], front, rest, ?_, rfl, ?_, fun _ => ⟨rfl, hlive⟩, hfront, hF, hrest⟩
    · rw [append_nil, append_nil]
    · intro c hc
      cases hc
  · refine ⟨k, [c], [], front, rest, ?_, rfl, ?_, ?_, hfront, hF, hrest⟩
    · rw [append_nil]
    · intro d hd
      rw [mem_singleton.mp hd]
      exact ⟨_, hc⟩
    · intro hnil
      cases hnil

end Both

theorem padding_dvd (size : ℕ) : 16 ∣ padding size := Dvd.intro_left _ rfl

theorem paddedSize_dvd (size : ℕ) : 16 ∣ paddedSize size := by
  unfold paddedSize
  split
  · exact dvd_rfl
  · exact padding_dvd size

theorem takes_takeBlock (hn : 16 ∣ n) : Takes n (fun _ front => front = []) (sizeFits n) fun p ptr => takeBlock p ptr n := by
  intro p l₁ b l₂ L h hb hpass
  have hfit : n ≤ b.size := by
    rw [← h.blkSize_eq (mem_append_right l₁ mem_cons_self)]
    exact of_decide_eq_true hpass
  obtain ⟨q, t, rest, L', htake, -, halloced, hok, hkept, hnt, hrest⟩ := h.takeBlock_spec (by rw [hb]; rfl) hn hfit
  dsimp only
  rw [htake]
  exact ⟨[], t, rest, L', hok, halloced, hkept, hnt, allFree_nil, rfl, hrest⟩

theorem alignedFits_le {align o : ℕ} (hn : n < 2 ^ 63) (ho : wrapSub (paddingTo a align) a = o)
    (ho' : o < 2 ^ 63) (h : alignedFits n align p a = true) : o + n ≤ blkSize p a := by
  have hle := of_decide_eq_true h
  unfold alignedSizeOf ssize at hle
  rw [ho, if_pos hn, if_pos ho'] at hle
  split at hle <;> omega

/-- What is left before the next multiple of `align`. -/
def Front (align a : ℕ) (front : List PoolBlock) : Prop :=
  front.length ≤ 1 ∧ ∀ c ∈ front, c.size + 16 = wrapSub (paddingTo a align) a

theorem takes_aligned {k : ℕ} (hn : 16 ∣ n) (hn' : n < 2 ^ 63) (hk : 4 ≤ k) (hk' : k ≤ 63) :
    Takes n (Front (2 ^ k)) (alignedFits n (2 ^ k)) fun p ptr =>
      takeBlock (carve p (2 ^ k) ptr).2 (carve p (2 ^ k) ptr).1 n := by
  intro p l₁ b l₂ L h hb hpass
  have hmemb : b ∈ l₁ ++ b :: l₂ := mem_append_right l₁ mem_cons_self
  have hplace := h.place hmemb
  have htop := h.top
  obtain ⟨hdvd, hlt⟩ : 16 ∣ wrapSub (paddingTo b.addr (2 ^ k)) b.addr ∧
      wrapSub (paddingTo b.addr (2 ^ k)) b.addr < 2 ^ k := align_offset (by omega) (h.addr_dvd hmemb) hk hk'
  have hle : 2 ^ k ≤ 2 ^ 63 := Nat.pow_le_pow_right (by norm_num) hk'
  obtain ⟨o, ho⟩ : ∃ o, wrapSub (paddingTo b.addr (2 ^ k)) b.addr = o := ⟨_, rfl⟩
  rw [ho] at hdvd hlt
  have hfit := alignedFits_le hn' ho (by omega) hpass
  rw [h.blkSize_eq hmemb] at hfit
  obtain ⟨q, front, u, L1, hcarve, -, halloced1, hok1, hu, hkept1, hfront, hlen1, hoff1⟩ :=
    h.carve_spec (by rw [hb]; rfl) ho hdvd (by omega)
  rw [← append_assoc] at hok1
  obtain ⟨q', t, rest, L2, htake, -, halloced2, hok2, hkept2, hnt, hrest⟩ :=
    hok1.takeBlock_spec hu hn (by dsimp only; omega)
  rw [append_assoc] at hok2
  dsimp only at htake ⊢
  rw [hcarve, htake]
  refine ⟨front, t, rest, L2, hok2, ?_, hkept1.trans ?_, hnt, hfront, ⟨hlen1, ?_⟩, hrest⟩
  · rw [← halloced1]
    exact halloced2
  · apply hkept2.mono
    intro c hc _
    simp only [mem_append] at hc ⊢
    tauto
  · rw [ho]
    exact hoff1

end Take

end CoolPotOS
