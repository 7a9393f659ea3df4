import CoolPotOS.Mem.FrameExact

namespace CoolPotOS

open Finset Function List Option

inductive ListOp
  | push (block : ℕ)
  | pop
  | take (target : ℕ)

inductive ListResult
  | done
  | block (phys : ℕ)
  | found (present : Bool)

/-- A call of a list operation on the list of a zone and an order. -/
structure ListCall where
  type : ZoneType
  order : orders
  op : ListOp

def listOp (md : Metadata) (chain : List PageList) : ListOp → Option (Metadata × List PageList × ListResult)
  | .push block => (pageListPush md chain block).map fun r => (r.1, r.2, .done)
  | .pop => let r := pageListPop md chain; some (r.1, r.2.1, .block r.2.2)
  | .take target => let r := pageListTake md chain target; some (r.1, r.2.1, .found r.2.2)

def ListCall.run (call : ListCall) (s : Buddy) : Option (Buddy × ListResult) := do
  let zone ← s.zones call.type
  let (md, chain, result) ← listOp s.metadata (zone.area call.order) call.op
  return (s.setZone md call.type (zone.setArea call.order chain), result)

def runLists : List ListCall → Buddy → Option (Buddy × List ListResult)
  | [], s => some (s, [])
  | call :: calls, s => do
    let (s, result) ← call.run s
    let (s, results) ← runLists calls s
    return (s, result :: results)

/-- One operation on a multiset. Zero is no block: `page_list_pop` returns it for the empty multiset. -/
inductive BagOp : ListOp → Multiset ℕ → ListResult → Multiset ℕ → Prop
  | push (block : ℕ) (bag : Multiset ℕ) : BagOp (.push block) bag .done (block ::ₘ bag)
  | pop (block : ℕ) (bag : Multiset ℕ) (hblock : block ≠ 0) : BagOp .pop (block ::ₘ bag) (.block block) bag
  | empty : BagOp .pop 0 (.block 0) 0
  | found (target : ℕ) (bag : Multiset ℕ) : BagOp (.take target) (target ::ₘ bag) (.found true) bag
  | absent (target : ℕ) (bag : Multiset ℕ) (htarget : target ∉ bag) : BagOp (.take target) bag (.found false) bag

abbrev Bags := ZoneType → orders → Multiset ℕ

/-- A run of operations, each on one of the multisets. -/
inductive BagRun : List (ListCall × ListResult) → Bags → Bags → Prop
  | nil (bags : Bags) : BagRun [] bags bags
  | cons {call : ListCall} {result : ListResult} {calls : List (ListCall × ListResult)} {bags bags' : Bags}
      {bag : Multiset ℕ} (hop : BagOp call.op (bags call.type call.order) result bag)
      (hrun : BagRun calls (Function.update bags call.type (Function.update (bags call.type) call.order bag)) bags') :
      BagRun ((call, result) :: calls) bags bags'

def Buddy.bags (s : Buddy) : Bags := fun type order => (s.zones type).elim 0 fun zone => zone.blocks order

def poolPage (poolPhys i : ℕ) : ℕ := poolPhys + i * pageSize

def Metadata.pool (md : Metadata) : List ℕ := (List.range' 0 md.poolPages).map (poolPage md.poolPhys)

/-- The pages that `metadata_page_alloc` has not come to yet. -/
def Metadata.unused (md : Metadata) : List ℕ :=
  (List.range' md.poolUsed (md.poolPages - md.poolUsed)).map (poolPage md.poolPhys)

def chainCount (page : ℕ) (chain : List PageList) : ℕ := (chain.map PageList.phys).count page

def Zone.chained (page : ℕ) (zone : Zone) : ℕ := ∑ k ∈ orders, chainCount page (zone.area k)

def Buddy.chained (s : Buddy) (page : ℕ) : ℕ :=
  (s.zones .dma).elim 0 (Zone.chained page) + (s.zones .dma32).elim 0 (Zone.chained page) +
    (s.zones .normal).elim 0 (Zone.chained page)

def Metadata.spare (md : Metadata) (page : ℕ) : ℕ := md.freeList.count page + md.unused.count page

section Chains

variable {md md' : Metadata} {c c' : List PageList} {p q : PageList} {page : ℕ}

/-- No page is lost between a chain and the rest of the pool. -/
structure PagesKept (page : ℕ) (md : Metadata) (c : List PageList) (md' : Metadata) (c' : List PageList) : Prop where
  pool : md'.pool = md.pool
  count : chainCount page c' + md'.spare page = chainCount page c + md.spare page

theorem PagesKept.refl (md : Metadata) (hpq : q.phys = p.phys) : PagesKept page md (p :: c) md (q :: c) :=
  ⟨rfl, by simp [chainCount, hpq]⟩

theorem chainCount_cons : chainCount page (p :: c) = chainCount page c + if p.phys = page then 1 else 0 := by
  simp [chainCount, count_cons]

theorem PagesKept.cons (h : PagesKept page md c md' c') (p : PageList) : PagesKept page md (p :: c) md' (p :: c') := by
  refine ⟨h.pool, ?_⟩
  have := h.count
  rw [chainCount_cons, chainCount_cons]
  omega

theorem PagesKept.drop (h : PagesKept page (metadataPageFree md p.phys) c md' c') :
    PagesKept page md (p :: c) md' c' := by
  refine ⟨h.pool, ?_⟩
  have hspare : (metadataPageFree md p.phys).spare page = md.spare page + if p.phys = page then 1 else 0 := by
    simp [Metadata.spare, Metadata.unused, metadataPageFree, count_cons]
    omega
  have := h.count
  rw [chainCount_cons]
  omega

theorem metadataPageAlloc_kept {phys : ℕ} (h : metadataPageAlloc md = some (md', phys)) (hp : p.phys = phys) :
    PagesKept page md c md' (p :: c) := by
  unfold metadataPageAlloc at h
  split at h
  · rename_i hl
    cases h
    refine ⟨rfl, ?_⟩
    rw [chainCount_cons, hp]
    simp [Metadata.spare, Metadata.unused, hl, count_cons]
    omega
  · rename_i hl
    split at h
    · rename_i hlt
      cases h
      refine ⟨rfl, ?_⟩
      obtain ⟨n, hn⟩ := Nat.exists_eq_add_of_lt hlt
      have h1 : md.poolPages - md.poolUsed = n + 1 := by omega
      have h2 : md.poolPages - (md.poolUsed + 1) = n := by omega
      rw [chainCount_cons, hp]
      simp [Metadata.spare, Metadata.unused, poolPage, hl, h1, h2, range'_succ, count_cons]
      omega
    · cases h

theorem pushWalk_kept (b : ℕ) (first : Bool) :
    PagesKept page md c (pushWalk b first md c).1 (pushWalk b first md c).2.1 := by
  induction c generalizing first md with
  | nil => exact ⟨rfl, rfl⟩
  | cons p ps ih =>
    rw [pushWalk]
    split_ifs with hroom hempty
    · exact .refl md rfl
    · exact (ih first).drop
    · exact (ih false).cons p

theorem popWalk_kept (first : Bool) : PagesKept page md c (popWalk first md c).1 (popWalk first md c).2.1 := by
  induction c generalizing first md with
  | nil => exact ⟨rfl, rfl⟩
  | cons p ps ih =>
    rw [popWalk]
    dsimp only
    split_ifs with hentry hlast hfirst
    · exact PagesKept.drop ⟨rfl, rfl⟩
    · exact .refl md rfl
    · exact (ih first).drop
    · exact (ih false).cons p

theorem takeWalk_kept (t : ℕ) (first : Bool) :
    PagesKept page md c (takeWalk t first md c).1 (takeWalk t first md c).2.1 := by
  induction c generalizing first md with
  | nil => exact ⟨rfl, rfl⟩
  | cons p ps ih =>
    rw [takeWalk]
    dsimp only
    split_ifs with hentry hlast hempty
    · exact PagesKept.drop ⟨rfl, rfl⟩
    · exact .refl md rfl
    · exact (ih first).drop
    · exact (ih false).cons p

theorem pageListPush_kept {b : ℕ} (h : pageListPush md c b = some (md', c')) : PagesKept page md c md' c' := by
  have hw : PagesKept page md c _ _ := pushWalk_kept b true
  obtain ⟨hmd, -, hfull⟩ := pushWalk_spec b true md c
  revert h
  rw [pageListPush]
  split <;> rename_i md₁ c₁ he <;> intro h
  · cases h
    rwa [he] at hw
  · rw [he] at hmd hfull
    obtain rfl : md₁ = md := hmd
    obtain ⟨rfl, -⟩ := hfull rfl
    obtain ⟨⟨md₂, phys⟩, ha, h⟩ := bind_eq_some_iff.mp h
    cases h
    exact metadataPageAlloc_kept ha rfl

theorem listOp_kept {op : ListOp} {r : ListResult} (h : listOp md c op = some (md', c', r)) :
    PagesKept page md c md' c' := by
  cases op with
  | push b =>
    obtain ⟨⟨md₁, c₁⟩, hp, h⟩ := map_eq_some_iff.mp h
    cases h
    exact pageListPush_kept hp
  | pop =>
    cases h
    exact popWalk_kept true
  | take t =>
    cases h
    exact takeWalk_kept t true

theorem listOp_bagOp {op : ListOp} {r : ListResult} (h0 : 0 ∉ blocksOf c)
    (h : listOp md c op = some (md', c', r)) : BagOp op (blocksOf c) r (blocksOf c') := by
  cases op with
  | push b =>
    obtain ⟨⟨md₁, c₁⟩, hp, h⟩ := map_eq_some_iff.mp h
    cases h
    rw [(pageListPush_eq_some hp).1]
    exact .push b _
  | pop =>
    cases h
    by_cases hz : (pageListPop md c).2.2 = 0
    · obtain ⟨hc, hc'⟩ := pageListPop_eq_zero h0 hz
      rw [hc, hc', hz]
      exact .empty
    · have hc := pageListPop_of_ne_zero hz
      rw [hc]
      exact .pop _ _ hz
  | take t =>
    cases h
    cases hf : (pageListTake md c t).2.2 with
    | true =>
      rw [pageListTake_eq_true hf]
      exact .found t _
    | false =>
      obtain ⟨ht, hc⟩ := pageListTake_eq_false hf
      rw [hc]
      exact .absent t _ ht

theorem listOp_eq_none {op : ListOp} (h : listOp md c op = none) :
    (∃ b, op = .push b) ∧ md.freeList = [] ∧ md.poolPages ≤ md.poolUsed := by
  cases op with
  | pop | take t => cases h
  | push b =>
    refine ⟨⟨b, rfl⟩, ?_⟩
    have hmd := (pushWalk_spec b true md c).1
    replace h := map_eq_none_iff.mp h
    revert h
    rw [pageListPush]
    split <;> rename_i md₁ c₁ he <;> intro h
    · cases h
    · rw [he] at hmd
      obtain rfl : md₁ = md := hmd
      have ha : metadataPageAlloc md₁ = none := by
        cases ha : metadataPageAlloc md₁ with
        | none => rfl
        | some r => simp [ha] at h
      unfold metadataPageAlloc at ha
      split at ha
      · cases ha
      · rename_i hl
        split at ha
        · cases ha
        · exact ⟨hl, by omega⟩

theorem BagOp.zero_notMem {op : ListOp} {r : ListResult} {bag bag' : Multiset ℕ} (h : BagOp op bag r bag')
    (hop : ∀ b, op = .push b → b ≠ 0) (h0 : 0 ∉ bag) : 0 ∉ bag' := by
  cases h with
  | push b =>
    rw [Multiset.mem_cons, not_or]
    exact ⟨(hop b rfl).symm, h0⟩
  | pop | found => exact fun hm => h0 (Multiset.mem_cons_of_mem hm)
  | empty | absent => exact h0

end Chains

section States

variable {s s' : Buddy} {md md' : Metadata} {call : ListCall} {r : ListResult}

theorem chained_setArea (page : ℕ) (zone : Zone) (c : List PageList) {k : ℕ} (hk : k ∈ orders) :
    (zone.setArea k c).chained page + chainCount page (zone.area k) = zone.chained page + chainCount page c := by
  have hrest : ∑ j ∈ orders.erase k, chainCount page ((zone.setArea k c).area j) =
      ∑ j ∈ orders.erase k, chainCount page (zone.area j) := by
    refine sum_congr rfl fun j hj => ?_
    rw [area_setArea hk (Finset.mem_of_mem_erase hj), if_neg (ne_of_mem_erase hj)]
  rw [Zone.chained, Zone.chained, ← add_sum_erase _ _ hk, ← add_sum_erase _ _ hk, hrest,
    area_setArea hk hk, if_pos rfl]
  ring

theorem chained_update (page : ℕ) (s : Buddy) (md : Metadata) (type : ZoneType) (zone : Option Zone) :
    Buddy.chained { s with metadata := md, zones := update s.zones type zone } page +
      (s.zones type).elim 0 (Zone.chained page) = s.chained page + zone.elim 0 (Zone.chained page) := by
  cases type <;> simp [Buddy.chained] <;> omega

/-- Where a metadata page is: in a chain, in the free list, or in the unused tail of the pool. -/
def Buddy.places (s : Buddy) (page : ℕ) : ℕ := s.chained page + s.metadata.spare page

theorem ListCall.run_eq_some (h : call.run s = some (s', r)) :
    ∃ zone md chain, s.zones call.type = some zone ∧
      listOp s.metadata (zone.area call.order) call.op = some (md, chain, r) ∧
      s' = s.setZone md call.type (zone.setArea call.order chain) := by
  obtain ⟨zone, hzone, h⟩ := bind_eq_some_iff.mp h
  obtain ⟨⟨md, chain, r'⟩, hop, h⟩ := bind_eq_some_iff.mp h
  cases h
  exact ⟨zone, md, chain, hzone, hop, rfl⟩

theorem ListCall.run_places (h : call.run s = some (s', r)) (page : ℕ) :
    s'.metadata.pool = s.metadata.pool ∧ s'.places page = s.places page := by
  obtain ⟨zone, md, chain, hzone, hop, rfl⟩ := call.run_eq_some h
  have hkept : PagesKept page _ _ _ _ := listOp_kept hop
  have hzones : (s.setZone md call.type (zone.setArea call.order chain)).chained page +
      (s.zones call.type).elim 0 (Zone.chained page) = s.chained page + (zone.setArea call.order chain).chained page :=
    chained_update page s md call.type (some (zone.setArea call.order chain))
  have harea := chained_setArea page zone chain call.order.2
  have hcount := hkept.count
  rw [hzone, elim_some] at hzones
  refine ⟨hkept.pool, ?_⟩
  show _ + md.spare page = _ + _
  omega

def Buddy.NoZero (s : Buddy) : Prop := ∀ type order, 0 ∉ s.bags type order

theorem ListCall.run_bags (h : call.run s = some (s', r)) (h0 : s.NoZero) (hpush : ∀ b, call.op = .push b → b ≠ 0) :
    ∃ bag, BagOp call.op (s.bags call.type call.order) r bag ∧ 0 ∉ bag ∧
      s'.bags = update s.bags call.type (update (s.bags call.type) call.order bag) := by
  obtain ⟨zone, md, chain, hzone, hop, rfl⟩ := call.run_eq_some h
  have hbag : s.bags call.type call.order = blocksOf (zone.area call.order) := by
    simp [Buddy.bags, hzone, Zone.blocks]
  have h0' := h0 call.type call.order
  rw [hbag] at h0' ⊢
  have hstep := listOp_bagOp h0' hop
  refine ⟨blocksOf chain, hstep, hstep.zero_notMem hpush h0', ?_⟩
  funext type order
  by_cases ht : type = call.type
  · subst ht
    rw [update_self]
    by_cases ho : order = call.order
    · subst ho
      simp [Buddy.bags, Buddy.setZone, Zone.blocks, area_setArea]
    · rw [update_of_ne ho]
      have hne : (order : ℕ) ≠ call.order := fun heq => ho (Subtype.ext heq)
      simp [Buddy.bags, Buddy.setZone, Zone.blocks, area_setArea, hzone, hne]
  · rw [update_of_ne ht]
    simp [Buddy.bags, Buddy.setZone, update_of_ne ht]

theorem runLists_bags {calls : List ListCall} {results : List ListResult} (h : runLists calls s = some (s', results))
    (h0 : s.NoZero) (hpush : ∀ call ∈ calls, ∀ b, call.op = .push b → b ≠ 0) :
    BagRun (calls.zip results) s.bags s'.bags := by
  induction calls generalizing s results with
  | nil =>
    cases h
    exact .nil _
  | cons call calls ih =>
    obtain ⟨⟨s₁, r⟩, hcall, h⟩ := bind_eq_some_iff.mp h
    obtain ⟨⟨s₂, rs⟩, hrest, h⟩ := bind_eq_some_iff.mp h
    cases h
    obtain ⟨bag, hop, hbag, hbags⟩ := call.run_bags hcall h0 (hpush call List.mem_cons_self)
    have h0' : s₁.NoZero := by
      intro type order
      rw [hbags]
      by_cases ht : type = call.type
      · subst ht
        rw [update_self]
        by_cases ho : order = call.order
        · rw [ho, update_self]
          exact hbag
        · rw [update_of_ne ho]
          exact h0 _ order
      · rw [update_of_ne ht]
        exact h0 type order
    have hrun := ih hrest h0' fun c hc => hpush c (List.mem_cons_of_mem call hc)
    rw [hbags] at hrun
    exact .cons hop hrun

theorem runLists_places {calls : List ListCall} {results : List ListResult}
    (h : runLists calls s = some (s', results)) (page : ℕ) :
    s'.metadata.pool = s.metadata.pool ∧ s'.places page = s.places page := by
  induction calls generalizing s results with
  | nil =>
    cases h
    exact ⟨rfl, rfl⟩
  | cons call calls ih =>
    obtain ⟨⟨s₁, r⟩, hcall, h⟩ := bind_eq_some_iff.mp h
    obtain ⟨⟨s₂, rs⟩, hrest, h⟩ := bind_eq_some_iff.mp h
    cases h
    obtain ⟨hpool, hplaces⟩ := call.run_places hcall page
    obtain ⟨hpool', hplaces'⟩ := ih hrest
    exact ⟨hpool'.trans hpool, hplaces'.trans hplaces⟩

theorem initAreas_places (page : ℕ) {n : ℕ} {areas : ℕ → List PageList} (h : initAreas n md (fun _ => []) = some (md', areas)) :
    md'.pool = md.pool ∧
      ∑ i ∈ Finset.range n, chainCount page (areas i) + md'.spare page = md.spare page ∧
      ∀ i, blocksOf (areas i) = 0 := by
  induction n generalizing md' areas with
  | zero =>
    cases h
    simp
  | succ n ih =>
    obtain ⟨⟨md₁, areas₁⟩, h1, h⟩ := bind_eq_some_iff.mp h
    obtain ⟨⟨md₂, phys⟩, h2, h⟩ := bind_eq_some_iff.mp h
    cases h
    obtain ⟨hpool, hsum, hblocks⟩ := ih h1
    have hkept : PagesKept page md₁ [] md' [⟨phys, []⟩] := metadataPageAlloc_kept h2 rfl
    have hcount := hkept.count
    have hrest : ∑ i ∈ Finset.range n, chainCount page (update areas₁ n [⟨phys, []⟩] i) =
        ∑ i ∈ Finset.range n, chainCount page (areas₁ i) := by
      refine sum_congr rfl fun i hi => ?_
      rw [update_of_ne (Finset.mem_range.mp hi).ne]
    refine ⟨hkept.pool.trans hpool, ?_, fun i => ?_⟩
    · rw [Finset.sum_range_succ, hrest, update_self]
      have hnil : chainCount page [] = 0 := rfl
      omega
    · by_cases hi : i = n
      · rw [hi, update_self]
        rfl
      · rw [update_of_ne hi]
        exact hblocks i

/-- Every page keeps its place in the count, and no zone has blocks. -/
structure FreshLists (page : ℕ) (s s' : Buddy) : Prop where
  pool : s'.metadata.pool = s.metadata.pool
  places : s'.places page = s.places page
  bags : s.bags = (fun _ _ => 0) → s'.bags = fun _ _ => 0

theorem createZone_fresh (page : ℕ) {type : ZoneType} {a b : ℕ} (hnew : s.zones type = none)
    (h : createZone s type a b = some s') :
    FreshLists page s s' ∧ ∀ t, t ≠ type → s'.zones t = s.zones t := by
  have hzones : ∀ md o t, t ≠ type →
      ({ s with metadata := md, zones := update s.zones type o } : Buddy).zones t = s.zones t :=
    fun md o t ht => update_of_ne ht _ _
  have hbags : ∀ md o, (∀ zone, o = some zone → ∀ order : orders, zone.blocks order = 0) →
      s.bags = (fun _ _ => 0) →
        ({ s with metadata := md, zones := update s.zones type o } : Buddy).bags = fun _ _ => 0 := by
    intro md o ho hs
    funext t order
    by_cases ht : t = type
    · subst ht
      cases o with
      | none => simp [Buddy.bags]
      | some zone => simpa [Buddy.bags] using ho zone rfl order
    · have := congrFun (congrFun hs t) order
      simpa [Buddy.bags, update_of_ne ht] using this
  have hchained := fun md o => chained_update page s md type o
  simp only [hnew, elim_none, Nat.add_zero] at hchained
  unfold createZone at h
  split_ifs at h with hle
  · cases h
    refine ⟨⟨rfl, ?_, hbags s.metadata none (by simp)⟩, hzones s.metadata none⟩
    have := hchained s.metadata none
    unfold Buddy.places
    rw [this]
    rfl
  · obtain ⟨⟨md₁, zone⟩, hinit, h⟩ := bind_eq_some_iff.mp h
    cases h
    obtain ⟨⟨md₂, areas⟩, hareas, hinit⟩ := bind_eq_some_iff.mp hinit
    cases hinit
    obtain ⟨hpool, hsum, hblocks⟩ := initAreas_places page hareas
    refine ⟨⟨hpool, ?_, hbags _ _ fun zone hz order => ?_⟩, hzones _ _⟩
    · have hzone := hchained md₁ (some ⟨areas, a, b, 0, 0⟩)
      have hsum' : Zone.chained page ⟨areas, a, b, 0, 0⟩ = ∑ i ∈ Finset.range orderCount, chainCount page (areas i) :=
        (sum_Ico_eq_sum_range _ _ _).trans (sum_congr rfl fun i _ => by
          simp [Zone.area, orderToIndex])
      unfold Buddy.places
      rw [hzone, elim_some, hsum']
      show s.chained page + _ + md₁.spare page = _
      omega
    · obtain rfl := Option.some.inj hz
      exact hblocks _

theorem buddyInit_fresh {boot : Boot} (h : buddyInit boot = some s) (page : ℕ) :
    s.bags = (fun _ _ => 0) ∧ s.places page = s.metadata.pool.count page := by
  obtain ⟨s₁, h1, h⟩ := bind_eq_some_iff.mp h
  obtain ⟨s₂, h2, h3⟩ := bind_eq_some_iff.mp h
  obtain ⟨f1, z1⟩ := createZone_fresh page rfl h1
  obtain ⟨f2, z2⟩ := createZone_fresh page (z1 _ (by decide)) h2
  obtain ⟨f3, -⟩ := createZone_fresh page ((z2 _ (by decide)).trans (z1 _ (by decide))) h3
  refine ⟨f3.bags (f2.bags (f1.bags rfl)), ?_⟩
  rw [f3.places, f2.places, f1.places, f3.pool, f2.pool, f1.pool]
  simp [Buddy.places, Buddy.chained, Metadata.spare, resetBuddy, Metadata.pool, Metadata.unused]

theorem Metadata.pool_nodup (md : Metadata) : md.pool.Nodup := by
  refine (nodup_range' ..).map fun i j hij => ?_
  have hpos : 0 < pageSize := by decide
  exact Nat.eq_of_mul_eq_mul_right hpos (Nat.add_left_cancel hij)

end States

/-- After every sequence of calls the lists are the multisets that the same sequence of operations makes of empty
ones, with the same results. Every metadata page is in one place: in a chain, in the free list or in the unused tail of
the pool. A further call hangs only if it is a push with no metadata page left. -/
theorem page_lists_refine (boot : Boot) (calls : List ListCall) (s₀ s : Buddy) (results : List ListResult)
    (hboot : buddyInit boot = some s₀) (hrun : runLists calls s₀ = some (s, results))
    (hpush : ∀ call ∈ calls, ∀ b, call.op = .push b → b ≠ 0) :
    BagRun (calls.zip results) (fun _ _ => 0) s.bags ∧
    (∀ page ∈ s.metadata.pool,
      s.chained page + s.metadata.freeList.count page + s.metadata.unused.count page = 1) ∧
    ∀ call : ListCall, (s.zones call.type).isSome → call.run s = none →
      (∃ b, call.op = .push b) ∧ s.metadata.freeList = [] ∧ s.metadata.poolPages ≤ s.metadata.poolUsed := by
  refine ⟨?_, fun page hpage => ?_, fun call hzone hnone => ?_⟩
  · have hbags := (buddyInit_fresh hboot 0).1
    have h0 : s₀.NoZero := fun type order => by
      rw [hbags]
      exact Multiset.notMem_zero 0
    have hbag := runLists_bags hrun h0 hpush
    rwa [hbags] at hbag
  · obtain ⟨hpool, hplaces⟩ := runLists_places hrun page
    rw [(buddyInit_fresh hboot page).2, ← hpool, count_eq_one_of_mem s.metadata.pool_nodup hpage] at hplaces
    rw [Nat.add_assoc]
    exact hplaces
  · obtain ⟨zone, hzone⟩ := isSome_iff_exists.mp hzone
    have hop : listOp s.metadata (zone.area call.order) call.op = none := by
      cases hop : listOp s.metadata (zone.area call.order) call.op with
      | none => rfl
      | some r => simp [ListCall.run, hzone, hop] at hnone
    exact listOp_eq_none hop

/-- The page at 4096 goes on a list and is taken off again, and then the list is empty. -/
theorem page_lists_refine_onePage :
    let calls : List ListCall := [.push 4096, .take 4096, .pop].map fun op => ⟨.dma, ⟨12, mem_orders.mpr (by decide)⟩, op⟩
    ∃ (s : Buddy) (results : List ListResult), BagRun (calls.zip results) (fun _ _ => 0) s.bags := by
  intro calls
  obtain ⟨⟨s, results⟩, hrun⟩ := isSome_iff_exists.mp
    (show ((buddyInit smallBoot).bind (runLists calls)).isSome = true by decide +kernel)
  obtain ⟨s₀, hboot, hrun⟩ := bind_eq_some_iff.mp hrun
  refine ⟨s, results, (page_lists_refine smallBoot calls s₀ s results hboot hrun fun call hcall b hb => ?_).1⟩
  obtain ⟨op, hop, rfl⟩ := List.mem_map.mp hcall
  obtain rfl : op = .push b := hb
  simp at hop
  omega

end CoolPotOS
