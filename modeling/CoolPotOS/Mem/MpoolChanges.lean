import CoolPotOS.Mem.MpoolAlloc

namespace CoolPotOS

open Blocks Intrusive List

def liveBlocks (B : List PoolBlock) : List PoolBlock := B.filter fun b => b.use = .live

/-- The block `b` has become free, together with its free neighbours. -/
def Frees (B : List PoolBlock) (b : PoolBlock) (B' : List PoolBlock) : Prop :=
  ∃ l₁ l₂ k₁ a n k₂, B = l₁ ++ b :: l₂ ∧ B' = k₁ ++ ⟨a, n, freeUse n⟩ :: k₂ ∧ Absorbed l₁.reverse k₁.reverse ∧
    Absorbed l₂ k₂ ∧ b.size ≤ n

/-- The block `b` has got `t` bytes; it may have taken in the free block behind it, and it may have left one. -/
def Resizes (B : List PoolBlock) (b : PoolBlock) (t : ℕ) (B' : List PoolBlock) : Prop :=
  ∃ l₁ old rest l₂, B = l₁ ++ b :: (old ++ l₂) ∧ B' = l₁ ++ ⟨b.addr, t, .live⟩ :: (rest ++ l₂) ∧
    (∀ d ∈ old, ∃ i, d.use = .listed i) ∧ Remainder rest ∧ (old = [] → rest ≠ [] → t + 64 ≤ b.size)

section Changes

variable {p p' : Mpool} {B B' l l₁ l₂ k : List PoolBlock} {b c : PoolBlock} {t : ℕ} {F : List PoolBlock → Prop}

theorem mem_liveBlocks : b ∈ liveBlocks B ↔ b ∈ B ∧ b.use = .live := by
  unfold liveBlocks
  rw [mem_filter, decide_eq_true_iff]

theorem liveBlocks_append (l₁ l₂ : List PoolBlock) : liveBlocks (l₁ ++ l₂) = liveBlocks l₁ ++ liveBlocks l₂ :=
  filter_append l₁ l₂

theorem liveBlocks_cons_live (hb : b.use = .live) (l : List PoolBlock) : liveBlocks (b :: l) = b :: liveBlocks l :=
  filter_cons_of_pos (decide_eq_true hb)

theorem liveBlocks_eq_nil (h : ∀ c ∈ l, c.use ≠ .live) : liveBlocks l = [] := by
  rw [eq_nil_iff_forall_not_mem]
  intro c hc
  obtain ⟨hmem, hlive⟩ := mem_liveBlocks.mp hc
  exact h c hmem hlive

theorem freeUse_ne_live (n : ℕ) : freeUse n ≠ .live := by
  unfold freeUse
  split <;> exact BlockUse.noConfusion

theorem AllFree.liveBlocks (h : AllFree l) : liveBlocks l = [] := by
  apply liveBlocks_eq_nil
  intro c hc
  rw [h c hc]
  exact freeUse_ne_live c.size

theorem liveBlocks_listed (h : ∀ c ∈ l, ∃ i, c.use = .listed i) : liveBlocks l = [] := by
  apply liveBlocks_eq_nil
  intro c hc hlive
  obtain ⟨i, huse⟩ := h c hc
  rw [hlive] at huse
  cases huse

theorem Absorbed.liveBlocks (h : Absorbed l k) : liveBlocks l = liveBlocks k := by
  rcases h with ⟨rfl, -⟩ | ⟨c, rfl, -, hc⟩
  · rfl
  · have hnot : ¬ decide (c.use = .live) = true := by
      intro hlive
      have := of_decide_eq_true hlive
      rw [hc] at this
      cases this
    exact filter_cons_of_neg hnot

theorem liveBlocks_reverse (l : List PoolBlock) : liveBlocks l.reverse = (liveBlocks l).reverse :=
  filter_reverse

theorem Hands.live (h : Hands F B c B') (hc : c.use = .live) : (liveBlocks B').Perm (c :: liveBlocks B) := by
  obtain ⟨l₁, old, l₂, front, rest, rfl, rfl, hold, -, hfront, -, hrest⟩ := h
  rw [liveBlocks_append, liveBlocks_append, liveBlocks_cons_live hc, liveBlocks_append, liveBlocks_append,
    liveBlocks_append, hfront.liveBlocks, hrest.2.1.liveBlocks, liveBlocks_listed hold, nil_append, nil_append]
  exact perm_middle

theorem Frees.live (h : Frees B b B') (hb : b.use = .live) : (liveBlocks B).Perm (b :: liveBlocks B') := by
  obtain ⟨l₁, l₂, k1, a, n, k2, rfl, rfl, habs1, habs2, -⟩ := h
  have hl1 : liveBlocks l₁ = liveBlocks k1 := by
    apply reverse_injective
    rw [← liveBlocks_reverse, ← liveBlocks_reverse]
    exact habs1.liveBlocks
  have hfree : liveBlocks ((⟨a, n, freeUse n⟩ : PoolBlock) :: k2) = liveBlocks k2 :=
    filter_cons_of_neg fun hlive => freeUse_ne_live n (of_decide_eq_true hlive)
  rw [liveBlocks_append, liveBlocks_append, liveBlocks_cons_live hb, hl1, habs2.liveBlocks, hfree]
  exact perm_middle

theorem Resizes.live (h : Resizes B b t B') (hb : b.use = .live) :
    (b :: liveBlocks B').Perm (⟨b.addr, t, .live⟩ :: liveBlocks B) := by
  obtain ⟨l₁, old, rest, l₂, rfl, rfl, hold, hrest, -⟩ := h
  rw [liveBlocks_append, liveBlocks_append, liveBlocks_cons_live hb, liveBlocks_cons_live rfl, liveBlocks_append,
    liveBlocks_append, hrest.2.1.liveBlocks, liveBlocks_listed hold, nil_append]
  have hmove : (b :: (liveBlocks l₁ ++ ⟨b.addr, t, .live⟩ :: liveBlocks l₂)).Perm
      (b :: ⟨b.addr, t, .live⟩ :: (liveBlocks l₁ ++ liveBlocks l₂)) := perm_middle.cons b
  have hback : ((⟨b.addr, t, .live⟩ : PoolBlock) :: (liveBlocks l₁ ++ b :: liveBlocks l₂)).Perm
      (⟨b.addr, t, .live⟩ :: b :: (liveBlocks l₁ ++ liveBlocks l₂)) := perm_middle.cons _
  exact (hmove.trans (.swap _ _ _)).trans hback.symm

theorem AllFree.settled (h : AllFree l) : ∀ c ∈ l, Settled c := fun c hc => .inr (h c hc)

theorem settled_live (a n : ℕ) : Settled ⟨a, n, .live⟩ := .inl rfl

theorem InPlace.settled_of_live (h : InPlace B) (hb : b ∈ B) (hlive : b.use = .live) : ∀ c ∈ B, Settled c := by
  rcases h with hset | ⟨c, rfl, hc⟩
  · exact hset
  · rw [mem_singleton.mp hb, hc] at hlive
    cases hlive

theorem Hands.settled (h : Hands F B c B') (hplace : InPlace B) (hc : c.use = .live) : ∀ d ∈ B', Settled d := by
  obtain ⟨l₁, old, l₂, front, rest, rfl, rfl, hold, hnil, hfront, -, hrest⟩ := h
  have hsides : ∀ d ∈ l₁ ++ l₂, Settled d := by
    rcases hplace with hset | ⟨u, hone, hu⟩
    · intro d hd
      rw [mem_append] at hd
      exact hset d (mem_append.mpr (hd.imp_right (mem_append_right old)))
    · rcases append_eq_singleton_iff.mp hone with ⟨rfl, hrest⟩ | ⟨rfl, hrest⟩
      · rcases append_eq_singleton_iff.mp hrest with ⟨rfl, rfl⟩ | ⟨-, rfl⟩
        · have := (hnil rfl).1
          cases this
        · intro d hd
          cases hd
      · obtain ⟨rfl, rfl⟩ := append_eq_nil_iff.mp hrest
        have hlive := (hnil rfl).2 u rfl
        rw [hu] at hlive
        cases hlive
  intro d hd
  simp only [mem_append, mem_cons] at hd hsides
  rcases hd with hd | hd | rfl | hd | hd
  · exact hsides d (.inl hd)
  · exact hfront.settled d hd
  · exact .inl hc
  · exact hrest.2.1.settled d hd
  · exact hsides d (.inr hd)

theorem Absorbed.subset (h : Absorbed l k) (hc : c ∈ k) : c ∈ l := by
  rcases h with ⟨rfl, -⟩ | ⟨d, rfl, -⟩
  · exact hc
  · exact mem_cons_of_mem d hc

theorem Frees.settled (h : Frees B b B') (hset : ∀ c ∈ B, Settled c) : ∀ c ∈ B', Settled c := by
  obtain ⟨l₁, l₂, k1, a, n, k2, rfl, rfl, habs1, habs2, -⟩ := h
  intro c hc
  rw [mem_append, mem_cons] at hc
  rcases hc with hc | rfl | hc
  · have hmem := mem_reverse.mp (habs1.subset (mem_reverse.mpr hc))
    exact hset c (mem_append_left _ hmem)
  · exact .inr rfl
  · exact hset c (mem_append_right l₁ (mem_cons_of_mem b (habs2.subset hc)))

theorem Resizes.settled (h : Resizes B b t B') (hset : ∀ c ∈ B, Settled c) : ∀ c ∈ B', Settled c := by
  obtain ⟨l₁, old, rest, l₂, rfl, rfl, -, hrest, -⟩ := h
  intro c hc
  simp only [mem_append, mem_cons] at hc hset
  rcases hc with hc | rfl | hc | hc
  · exact hset c (.inl hc)
  · exact settled_live _ _
  · exact hrest.2.1.settled c hc
  · exact hset c (.inr (.inr (.inr hc)))

def Parted (b c : PoolBlock) : Prop := b.use = .live ∨ c.use = .live

/-- No two neighbours are free, every block has room for links, and free blocks are where blocks of their size
are. -/
structure Packed (B : List PoolBlock) : Prop where
  settled : ∀ b ∈ B, Settled b
  roomy : ∀ b ∈ B, b.size ≠ 0
  parted : B.IsChain Parted

theorem isChain_middle_live (hb : b.use = .live) :
    (l₁ ++ b :: l₂).IsChain Parted ↔ l₁.IsChain Parted ∧ l₂.IsChain Parted := by
  rw [isChain_append, isChain_cons]
  constructor
  · rintro ⟨hl1, ⟨-, hl2⟩, -⟩
    exact ⟨hl1, hl2⟩
  · rintro ⟨hl1, hl2⟩
    refine ⟨hl1, ⟨fun c _ => .inl hb, hl2⟩, fun c _ d hd => .inr ?_⟩
    rw [← Option.some.inj hd]
    exact hb

theorem isChain_of_length_le_one (h : l.length ≤ 1) : l.IsChain Parted := by
  match l, h with
  | [], _ => exact isChain_nil
  | [b], _ => exact isChain_singleton b

theorem isChain_reverse (h : l.IsChain Parted) : l.reverse.IsChain Parted := by
  rw [List.isChain_reverse]
  exact h.imp fun _ _ => Or.symm

theorem Packed.beside {old : List PoolBlock} (h : Packed (l₁ ++ (old ++ l₂))) (hold : ∀ d ∈ old, d.use ≠ .live)
    (hne : old ≠ []) : (∀ d ∈ l₁.getLast?, d.use = .live) ∧ ∀ d ∈ l₂.head?, d.use = .live := by
  obtain ⟨-, hrest, hfirst⟩ := isChain_append.mp h.parted
  obtain ⟨-, -, hlast⟩ := isChain_append.mp hrest
  constructor
  · intro d hd
    have hhead : old.head hne ∈ (old ++ l₂).head? := by
      rw [head?_append_of_ne_nil old hne]
      exact head?_eq_some_head hne
    exact (hfirst d hd _ hhead).resolve_right (hold _ (head_mem hne))
  · intro d hd
    have hend : old.getLast hne ∈ old.getLast? := getLast?_eq_some_getLast hne
    exact (hlast _ hend d hd).resolve_left (hold _ (getLast_mem hne))

theorem listed_ne_live (h : ∀ c ∈ l, ∃ i, c.use = .listed i) : ∀ c ∈ l, c.use ≠ .live := by
  intro c hc hlive
  obtain ⟨i, huse⟩ := h c hc
  rw [hlive] at huse
  cases huse

theorem Hands.tidy (h : Hands F B c B') (htidy : Packed B) (hc : c.use = .live) (hsize : c.size ≠ 0)
    (hfront : ∀ front, F front → front.length ≤ 1 ∧ ∀ d ∈ front, d.size ≠ 0) : Packed B' := by
  have hset := h.settled (.inl htidy.settled) hc
  obtain ⟨l₁, old, l₂, front, rest, rfl, rfl, hold, hnil, -, hF, hlen, -, hroom⟩ := h
  have hsides : (∀ d ∈ l₁.getLast?, d.use = .live) ∧ ∀ d ∈ l₂.head?, d.use = .live := by
    by_cases hne : old = []
    · obtain ⟨rfl, hlast⟩ := hnil hne
      refine ⟨hlast, fun d hd => ?_⟩
      cases hd
    · exact htidy.beside (listed_ne_live hold) hne
  obtain ⟨hl1, hrest, -⟩ := isChain_append.mp htidy.parted
  have hl2 := (isChain_append.mp hrest).2.1
  obtain ⟨hlen', hroom'⟩ := hfront front hF
  refine ⟨hset, fun d hd => ?_, ?_⟩
  · simp only [mem_append, mem_cons] at hd
    rcases hd with hd | hd | rfl | hd | hd
    · exact htidy.roomy d (mem_append_left _ hd)
    · exact hroom' d hd
    · exact hsize
    · exact hroom d hd
    · exact htidy.roomy d (mem_append_right l₁ (mem_append_right old hd))
  · rw [← append_assoc, isChain_middle_live hc]
    constructor
    · exact isChain_append.mpr ⟨hl1, isChain_of_length_le_one hlen', fun d hd _ _ => .inl (hsides.1 d hd)⟩
    · exact isChain_append.mpr ⟨isChain_of_length_le_one hlen, hl2, fun _ _ d hd => .inr (hsides.2 d hd)⟩

theorem Absorbed.parted (h : Absorbed l k) (hl : l.IsChain Parted) :
    k.IsChain Parted ∧ ∀ d ∈ k.head?, d.use = .live := by
  rcases h with ⟨rfl, hlive⟩ | ⟨c, rfl, -, hc⟩
  · exact ⟨hl, hlive⟩
  · obtain ⟨hhead, hk⟩ := isChain_cons.mp hl
    refine ⟨hk, fun d hd => (hhead d hd).resolve_left ?_⟩
    rw [hc]
    exact BlockUse.noConfusion

theorem Frees.tidy (h : Frees B b B') (htidy : Packed B) (hb : b.use = .live) : Packed B' := by
  have hset := h.settled htidy.settled
  obtain ⟨l₁, l₂, k1, a, n, k2, rfl, rfl, habs1, habs2, hn⟩ := h
  obtain ⟨hl1, hl2⟩ := (isChain_middle_live hb).mp htidy.parted
  obtain ⟨hk1, hlast⟩ := habs1.parted (isChain_reverse hl1)
  obtain ⟨hk2, hhead⟩ := habs2.parted hl2
  have hmem : b ∈ l₁ ++ b :: l₂ := mem_append_right l₁ mem_cons_self
  refine ⟨hset, fun d hd => ?_, ?_⟩
  · rw [mem_append, mem_cons] at hd
    rcases hd with hd | rfl | hd
    · have hd := mem_reverse.mp (habs1.subset (mem_reverse.mpr hd))
      exact htidy.roomy d (mem_append_left _ hd)
    · have := htidy.roomy b hmem
      dsimp only
      omega
    · exact htidy.roomy d (mem_append_right l₁ (mem_cons_of_mem b (habs2.subset hd)))
  · rw [isChain_append, isChain_cons]
    refine ⟨?_, ⟨fun d hd => .inr (hhead d hd), hk2⟩, fun d hd _ _ => .inl (hlast d ?_)⟩
    · rw [← reverse_reverse k1]
      exact isChain_reverse hk1
    · rw [head?_reverse]
      exact hd

/-- A block that is resized leaves no free block beside another one when the block behind it is not free, or
when it has taken that in. -/
theorem Resizes.tidy (h : Resizes B b t B') (htidy : Packed B) (hb : b.use = .live) (ht : t ≠ 0)
    (hnext : t + 64 ≤ b.size → ∀ l₁ l₂, B = l₁ ++ b :: l₂ → ∀ d ∈ l₂.head?, d.use = .live) : Packed B' := by
  have hset := h.settled htidy.settled
  obtain ⟨l₁, old, rest, l₂, rfl, rfl, hold, ⟨hlen, -, hroom⟩, hsplit⟩ := h
  obtain ⟨hl1, htail⟩ := (isChain_middle_live hb).mp htidy.parted
  have hl2 := (isChain_append.mp htail).2.1
  refine ⟨hset, fun d hd => ?_, ?_⟩
  · simp only [mem_append, mem_cons] at hd
    rcases hd with hd | rfl | hd | hd
    · exact htidy.roomy d (mem_append_left _ hd)
    · exact ht
    · exact hroom d hd
    · refine htidy.roomy d (mem_append_right l₁ (mem_cons_of_mem b ?_))
      exact mem_append_right old hd
  · rw [isChain_middle_live rfl]
    refine ⟨hl1, isChain_append.mpr ⟨isChain_of_length_le_one hlen, hl2, fun c hc d hd => .inr ?_⟩⟩
    have hne : rest ≠ [] := by
      rintro rfl
      cases hc
    by_cases hnil : old = []
    · rw [hnil] at hnext hsplit
      exact hnext (hsplit rfl hne) l₁ l₂ rfl d hd
    · rw [append_cons] at htidy
      exact (htidy.beside (listed_ne_live hold) hnil).2 d hd

end Changes

end CoolPotOS
