import CoolPotOS.Driver.BlkDevice

namespace CoolPotOS

open List

/-- `ops.read` or `ops.write` of `n` sectors from `lba` on. -/
structure BlkCall where
  write : Bool
  n : ℕ
  lba : ℕ
  deriving DecidableEq

/-- The calls of a part of a transfer, and the outcomes that are left when it does not fail. -/
abbrev BlkCalls := List BlkCall × Option (List Bool)

def BlkCalls.andThen (r : BlkCalls) (next : List Bool → BlkCalls) : BlkCalls :=
  match r.2 with
  | none => r
  | some outcomes => (r.1 ++ (next outcomes).1, (next outcomes).2)

section Calls

variable (device : BlkDevice) (write isUserspace : Bool)

def blkDirectCalls : ℕ → ℕ → ℕ → List BlkCall
  | 0, _, _ => []
  | fuel + 1, secsLeft, sector =>
    if secsLeft > 0 then
      let n := min secsLeft device.maxSec
      ⟨write, n, sector⟩ :: blkDirectCalls fuel (secsLeft - n) (sector + n)
    else []

/-- The loops with a bounce buffer of `bn` sectors. A read copies after the callback, a write before. -/
def blkBounceCalls (bn : ℕ) : ℕ → ℕ → ℕ → List Bool → BlkCalls
  | 0, _, _, outcomes => ([], some outcomes)
  | fuel + 1, midSecs, sector, outcomes =>
    if midSecs > 0 then
      let n := min midSecs bn
      match blkCopyOk (n * device.blockSize) isUserspace outcomes with
      | (false, _) => (if write then [] else [⟨false, n, sector⟩], none)
      | (true, outcomes) =>
        let r := blkBounceCalls bn fuel (midSecs - n) (sector + n) outcomes
        (⟨write, n, sector⟩ :: r.1, r.2)
    else ([], some outcomes)

def blkPartCalls (len sector : ℕ) (outcomes : List Bool) : BlkCalls :=
  match malloc outcomes with
  | (false, _) => ([], none)
  | (true, outcomes) =>
    match blkCopyOk len isUserspace outcomes with
    | (false, _) => ([⟨false, 1, sector⟩], none)
    | (true, outcomes) =>
      (⟨false, 1, sector⟩ :: if write then [⟨true, 1, sector⟩] else [], some outcomes)

def blkMiddleCalls (ptr sector remaining : ℕ) (outcomes : List Bool) : BlkCalls :=
  let midSecs := remaining / device.blockSize
  if midSecs > 0 ∧ ¬ isUserspace ∧ blkIsDmaBuf ptr then
    (blkDirectCalls device write midSecs midSecs sector, some outcomes)
  else if midSecs > 0 then
    match malloc outcomes with
    | (false, _) => ([], none)
    | (true, outcomes) =>
      blkBounceCalls device write isUserspace (min midSecs device.maxSec) midSecs midSecs sector outcomes
  else ([], some outcomes)

def blkRestCalls (ptr sector remaining : ℕ) (outcomes : List Bool) : BlkCalls :=
  let midSecs := remaining / device.blockSize
  let left := remaining - midSecs * device.blockSize
  (blkMiddleCalls device write isUserspace ptr sector remaining outcomes).andThen fun outcomes =>
    if left > 0 then blkPartCalls write isUserspace left (sector + midSecs) outcomes
    else ([], some outcomes)

def blkPiecesCalls (ptr offset length : ℕ) (outcomes : List Bool) : BlkCalls :=
  let blockOff := offset % device.blockSize
  let sector := offset / device.blockSize
  if blockOff ≠ 0 then
    let head := min (device.blockSize - blockOff) length
    (blkPartCalls write isUserspace head sector outcomes).andThen fun outcomes =>
      blkRestCalls device write isUserspace (ptr + head) (sector + 1) (length - head) outcomes
  else blkRestCalls device write isUserspace ptr sector length outcomes

/-- The calls of `blk_device_read` and of `blk_device_write`. -/
def blkDeviceCalls (buffer offset length : ℕ) (outcomes : List Bool) : BlkCalls :=
  let isUserspace := blkBufferIsUserspace buffer length
  if ¬ isUserspace ∧ offset % device.blockSize = 0 ∧ length % device.blockSize = 0 ∧
      blkIsDmaBuf buffer then
    let secsLeft := length / device.blockSize
    (blkDirectCalls device write secsLeft secsLeft (offset / device.blockSize), some outcomes)
  else blkPiecesCalls device write isUserspace buffer offset length outcomes

end Calls

/-- All calls are for sectors from `first` to before `last`, and when `whole` holds they ask for each of
them. -/
structure Within (first last : ℕ) (whole : Prop) (calls : List BlkCall) : Prop where
  inside : ∀ c ∈ calls, first ≤ c.lba ∧ c.lba + c.n ≤ last
  pos : ∀ c ∈ calls, 0 < c.n
  meets : whole → ∀ s, first ≤ s → s < last → ∃ c ∈ calls, c.lba ≤ s ∧ s < c.lba + c.n

section Within

variable {first mid last : ℕ} {whole : Prop} {calls calls' : List BlkCall}

theorem within_nil (h : last ≤ first) : Within first last whole [] where
  inside := fun _ hc => absurd hc not_mem_nil
  pos := fun _ hc => absurd hc not_mem_nil
  meets := fun _ _ h1 h2 => by omega

theorem within_failed (h : ¬ whole) : Within first last whole [] where
  inside := fun _ hc => absurd hc not_mem_nil
  pos := fun _ hc => absurd hc not_mem_nil
  meets := fun hwhole => absurd hwhole h

theorem within_singleton {c : BlkCall} (hlba : c.lba = first) (hn : 0 < c.n) (hlast : c.lba + c.n = last) :
    Within first last whole [c] where
  inside := fun d hd => by
    obtain rfl := mem_singleton.mp hd
    exact ⟨hlba.ge, hlast.le⟩
  pos := fun d hd => by
    obtain rfl := mem_singleton.mp hd
    exact hn
  meets := fun _ s h1 h2 => ⟨c, mem_singleton_self c, by omega, by omega⟩

theorem Within.append (h : Within first mid whole calls) (h' : Within mid last whole calls')
    (hle : first ≤ mid) (hle' : mid ≤ last) : Within first last whole (calls ++ calls') where
  inside := fun c hc => by
    obtain hc | hc := mem_append.mp hc
    · exact ⟨(h.inside c hc).1, (h.inside c hc).2.trans hle'⟩
    · exact ⟨hle.trans (h'.inside c hc).1, (h'.inside c hc).2⟩
  pos := fun c hc => (mem_append.mp hc).elim (h.pos c) (h'.pos c)
  meets := fun hwhole s h1 h2 => by
    by_cases hs : s < mid
    · obtain ⟨c, hc, hmeet⟩ := h.meets hwhole s h1 hs
      exact ⟨c, mem_append_left _ hc, hmeet⟩
    · obtain ⟨c, hc, hmeet⟩ := h'.meets hwhole s (not_lt.mp hs) h2
      exact ⟨c, mem_append_right _ hc, hmeet⟩

theorem Within.failed (h : Within first mid whole calls) (hwhole : ¬ whole) (hle : mid ≤ last) :
    Within first last whole calls where
  inside := fun c hc => ⟨(h.inside c hc).1, (h.inside c hc).2.trans hle⟩
  pos := h.pos
  meets := fun hw => absurd hw hwhole

theorem Within.mono {whole' : Prop} (h : Within first last whole calls) (hw : whole' → whole) :
    Within first last whole' calls := ⟨h.inside, h.pos, fun hwhole => h.meets (hw hwhole)⟩

end Within

/-- The calls of a part of a transfer: without a bad outcome it does not fail, and asks for all its
sectors. -/
structure Asks (first last : ℕ) (outcomes : List Bool) (r : BlkCalls) : Prop where
  within : Within first last (false ∉ outcomes) r.1
  good : false ∉ outcomes → ∃ rest, r.2 = some rest
  rest : ∀ rest, r.2 = some rest → rest ⊆ outcomes
  bad : r.2 = none → false ∈ outcomes

section Asks

variable {device : BlkDevice} {write isUserspace : Bool} {first mid last : ℕ} {outcomes : List Bool}

theorem asks_done {calls : List BlkCall} (h : Within first last True calls) :
    Asks first last outcomes (calls, some outcomes) where
  within := h.mono fun _ => trivial
  good := fun _ => ⟨outcomes, rfl⟩
  rest := fun rest h => by
    cases h
    exact List.Subset.refl _
  bad := fun h => by cases h

theorem asks_failed {calls : List BlkCall} (hbad : false ∈ outcomes)
    (h : Within first last False calls) : Asks first last outcomes (calls, none) where
  within := h.mono fun hgood => hgood hbad
  good := fun hgood => absurd hbad hgood
  rest := fun rest hrest => by cases hrest
  bad := fun _ => hbad

theorem Asks.andThen {r : BlkCalls} {next : List Bool → BlkCalls} (h : Asks first mid outcomes r)
    (hnext : ∀ rest, Asks mid last rest (next rest)) (hle : first ≤ mid) (hle' : mid ≤ last) :
    Asks first last outcomes (r.andThen next) := by
  obtain ⟨calls, result⟩ := r
  cases result with
  | none =>
    have hbad := h.bad rfl
    refine ⟨h.within.failed (fun hgood => hgood hbad) hle', fun hgood => absurd hbad hgood,
      fun rest hrest => ?_, fun _ => hbad⟩
    cases hrest
  | some rest =>
    have hsub := h.rest rest rfl
    have hgood : false ∉ outcomes → false ∉ rest := fun hgood hbad => hgood (hsub hbad)
    have hn := hnext rest
    exact ⟨h.within.append (hn.within.mono hgood) hle hle', fun hg => hn.good (hgood hg),
      fun rest' hrest' => List.Subset.trans (hn.rest rest' hrest') hsub, fun hnone => hsub (hn.bad hnone)⟩

theorem malloc_cases (outcomes : List Bool) : (malloc outcomes = (false, outcomes.tail) ∧ false ∈ outcomes) ∨
      ∃ rest, malloc outcomes = (true, rest) ∧ rest ⊆ outcomes := by
  cases outcomes with
  | nil => exact .inr ⟨[], rfl, List.Subset.refl _⟩
  | cons ok rest =>
    cases ok with
    | false => exact .inl ⟨rfl, mem_cons_self⟩
    | true => exact .inr ⟨rest, rfl, subset_cons_self true rest⟩

theorem blkCopyOk_cases (len : ℕ) (isUserspace : Bool) (outcomes : List Bool) :
    (blkCopyOk len isUserspace outcomes = (false, outcomes.tail) ∧ false ∈ outcomes) ∨
      ∃ rest, blkCopyOk len isUserspace outcomes = (true, rest) ∧ rest ⊆ outcomes := by
  unfold blkCopyOk
  split_ifs
  · exact .inr ⟨outcomes, rfl, List.Subset.refl _⟩
  · exact malloc_cases outcomes
  · exact .inr ⟨outcomes, rfl, List.Subset.refl _⟩

theorem blkDirectCalls_within (fuel secsLeft sector : ℕ) (hfuel : secsLeft ≤ fuel) :
    Within sector (sector + secsLeft) True (blkDirectCalls device write fuel secsLeft sector) := by
  induction fuel generalizing secsLeft sector with
  | zero =>
    obtain rfl : secsLeft = 0 := by omega
    exact within_nil le_rfl
  | succ fuel ih =>
    unfold blkDirectCalls
    by_cases hsecs : secsLeft > 0
    · have hmax := device.maxSec_pos
      have hrest := ih (secsLeft - min secsLeft device.maxSec) (sector + min secsLeft device.maxSec)
        (by omega)
      have hlast : sector + min secsLeft device.maxSec + (secsLeft - min secsLeft device.maxSec) =
          sector + secsLeft := by omega
      rw [hlast] at hrest
      have hfirst : Within sector (sector + min secsLeft device.maxSec) True
          [⟨write, min secsLeft device.maxSec, sector⟩] :=
        within_singleton rfl (show 0 < min secsLeft device.maxSec by omega) rfl
      rw [if_pos hsecs]
      exact hfirst.append hrest (by omega) (by omega)
    · rw [if_neg hsecs]
      exact within_nil (by omega)

theorem blkBounceCalls_asks {bn : ℕ} (hbn : 0 < bn) (fuel midSecs sector : ℕ) (outcomes : List Bool)
    (hfuel : midSecs ≤ fuel) : Asks sector (sector + midSecs) outcomes
      (blkBounceCalls device write isUserspace bn fuel midSecs sector outcomes) := by
  induction fuel generalizing midSecs sector outcomes with
  | zero =>
    obtain rfl : midSecs = 0 := by omega
    exact asks_done (within_nil le_rfl)
  | succ fuel ih =>
    unfold blkBounceCalls
    by_cases hmid : midSecs > 0
    · rw [if_pos hmid]
      dsimp only
      have hcall : ∀ whole w, Within sector (sector + min midSecs bn) whole
          [⟨w, min midSecs bn, sector⟩] := fun whole w =>
        within_singleton rfl (show 0 < min midSecs bn by omega) rfl
      obtain ⟨hcopy, hbad⟩ | ⟨rest, hcopy, hsub⟩ :=
        blkCopyOk_cases (min midSecs bn * device.blockSize) isUserspace outcomes
      · rw [hcopy]
        apply asks_failed hbad
        cases write with
        | true => exact within_failed id
        | false => exact (hcall False false).failed id (by omega)
      · rw [hcopy]
        dsimp only
        have hrest := ih (midSecs - min midSecs bn) (sector + min midSecs bn) rest (by omega)
        have hlast : sector + min midSecs bn + (midSecs - min midSecs bn) = sector + midSecs := by omega
        rw [hlast] at hrest
        have hgood : false ∉ outcomes → false ∉ rest := fun hgood hbad => hgood (hsub hbad)
        exact ⟨(hcall _ write).append (hrest.within.mono hgood) (by omega) (by omega),
          fun hg => hrest.good (hgood hg),
          fun rest' hrest' => List.Subset.trans (hrest.rest rest' hrest') hsub,
          fun hnone => hsub (hrest.bad hnone)⟩
    · rw [if_neg hmid]
      exact asks_done (within_nil (by omega))

theorem blkPartCalls_asks (len sector : ℕ) (outcomes : List Bool) :
    Asks sector (sector + 1) outcomes (blkPartCalls write isUserspace len sector outcomes) := by
  have hcall : ∀ whole w, Within sector (sector + 1) whole [⟨w, 1, sector⟩] := fun whole w =>
    within_singleton rfl (show 0 < 1 from Nat.one_pos) rfl
  unfold blkPartCalls
  obtain ⟨hmalloc, hbad⟩ | ⟨rest, hmalloc, hsub⟩ := malloc_cases outcomes
  · rw [hmalloc]
    exact asks_failed hbad (within_failed id)
  · rw [hmalloc]
    dsimp only
    obtain ⟨hcopy, hbad⟩ | ⟨rest', hcopy, hsub'⟩ := blkCopyOk_cases len isUserspace rest
    · rw [hcopy]
      exact asks_failed (hsub hbad) (hcall False false)
    · rw [hcopy]
      dsimp only
      refine ⟨?_, fun _ => ⟨rest', rfl⟩, fun rest'' hrest => ?_, fun hnone => by cases hnone⟩
      · cases write with
        | false => exact hcall _ false
        | true =>
          refine ⟨?_, ?_, fun _ s h1 h2 => ⟨_, mem_cons_self, h1, h2⟩⟩
          · intro c hc
            obtain rfl | hc := mem_cons.mp hc
            · exact ⟨le_rfl, le_rfl⟩
            · obtain rfl := mem_singleton.mp hc
              exact ⟨le_rfl, le_rfl⟩
          · intro c hc
            obtain rfl | hc := mem_cons.mp hc
            · exact Nat.one_pos
            · obtain rfl := mem_singleton.mp hc
              exact Nat.one_pos
      · cases hrest
        exact List.Subset.trans hsub' hsub

theorem blkMiddleCalls_asks (ptr sector remaining : ℕ) (outcomes : List Bool) :
    Asks sector (sector + remaining / device.blockSize) outcomes
      (blkMiddleCalls device write isUserspace ptr sector remaining outcomes) := by
  have hmax := device.maxSec_pos
  unfold blkMiddleCalls
  dsimp only
  by_cases hdirect : remaining / device.blockSize > 0 ∧ ¬ isUserspace ∧ blkIsDmaBuf ptr
  · rw [if_pos hdirect]
    exact asks_done (blkDirectCalls_within _ _ _ le_rfl)
  rw [if_neg hdirect]
  by_cases hmid : remaining / device.blockSize > 0
  · rw [if_pos hmid]
    obtain ⟨hmalloc, hbad⟩ | ⟨rest, hmalloc, hsub⟩ := malloc_cases outcomes
    · rw [hmalloc]
      exact asks_failed hbad (within_failed id)
    · rw [hmalloc]
      have h : Asks sector (sector + remaining / device.blockSize) rest
          (blkBounceCalls device write isUserspace (min (remaining / device.blockSize) device.maxSec)
            (remaining / device.blockSize) (remaining / device.blockSize) sector rest) :=
        blkBounceCalls_asks (by omega) _ _ sector rest le_rfl
      exact ⟨h.within.mono fun hgood hbad => hgood (hsub hbad),
        fun hgood => h.good fun hbad => hgood (hsub hbad),
        fun rest' hrest' => List.Subset.trans (h.rest rest' hrest') hsub, fun hnone => hsub (h.bad hnone)⟩
  · rw [if_neg hmid]
    exact asks_done (within_nil (by omega))

theorem blkRestCalls_asks (ptr sector remaining : ℕ) (outcomes : List Bool) :
    Asks sector (sector + (remaining + device.blockSize - 1) / device.blockSize) outcomes
      (blkRestCalls device write isUserspace ptr sector remaining outcomes) := by
  have hbs := device.blockSize_pos
  have hdiv := Nat.div_add_mod' remaining device.blockSize
  have hmod := Nat.mod_lt remaining hbs
  have hleft : remaining - remaining / device.blockSize * device.blockSize =
      remaining % device.blockSize := by omega
  have hceil : (remaining + device.blockSize - 1) / device.blockSize =
      remaining / device.blockSize + if remaining % device.blockSize > 0 then 1 else 0 := by
    split_ifs with hpos
    · apply Nat.div_eq_of_lt_le
      · rw [Nat.add_mul, Nat.one_mul]
        omega
      · rw [Nat.add_mul, Nat.add_mul, Nat.one_mul]
        omega
    · apply Nat.div_eq_of_lt_le
      · rw [Nat.add_zero]
        omega
      · rw [Nat.add_zero, Nat.add_mul, Nat.one_mul]
        omega
  unfold blkRestCalls
  dsimp only
  rw [hceil, hleft]
  refine (blkMiddleCalls_asks ptr sector remaining outcomes).andThen (fun rest => ?_)
    (Nat.le_add_right _ _) (Nat.add_le_add_left (Nat.le_add_right _ _) _)
  by_cases hpos : remaining % device.blockSize > 0
  · rw [if_pos hpos, if_pos hpos, ← Nat.add_assoc]
    exact blkPartCalls_asks _ _ rest
  · rw [if_neg hpos, if_neg hpos]
    exact asks_done (within_nil (by omega))

def BlkDevice.sectorEnd (device : BlkDevice) (offset length : ℕ) : ℕ :=
  (offset + length + device.blockSize - 1) / device.blockSize

theorem blkPiecesCalls_asks (ptr offset length : ℕ) (outcomes : List Bool) :
    Asks (offset / device.blockSize) (device.sectorEnd offset length) outcomes
      (blkPiecesCalls device write isUserspace ptr offset length outcomes) := by
  have hbs := device.blockSize_pos
  have hdiv := Nat.div_add_mod' offset device.blockSize
  have hmod := Nat.mod_lt offset hbs
  unfold blkPiecesCalls
  dsimp only
  by_cases hoff : offset % device.blockSize ≠ 0
  · -- the head ends with the first sector, or with the range
    have hend : device.sectorEnd offset length = offset / device.blockSize + 1 +
        (length - min (device.blockSize - offset % device.blockSize) length + device.blockSize - 1) /
          device.blockSize := by
      unfold BlkDevice.sectorEnd
      by_cases hlong : device.blockSize - offset % device.blockSize ≤ length
      · have hsplit : offset + length + device.blockSize - 1 =
            length - min (device.blockSize - offset % device.blockSize) length + device.blockSize - 1 +
              (offset / device.blockSize + 1) * device.blockSize := by
          rw [Nat.add_mul, Nat.one_mul]
          omega
        rw [hsplit, Nat.add_mul_div_right _ _ hbs]
        omega
      · have hrest : (length - min (device.blockSize - offset % device.blockSize) length +
            device.blockSize - 1) / device.blockSize = 0 := Nat.div_eq_of_lt (by omega)
        rw [hrest]
        apply Nat.div_eq_of_lt_le
        · rw [Nat.add_zero, Nat.add_mul, Nat.one_mul]
          omega
        · rw [Nat.add_zero, Nat.add_mul]
          omega
    rw [if_pos hoff, hend]
    exact (blkPartCalls_asks _ _ outcomes).andThen (fun rest => blkRestCalls_asks _ _ _ rest)
      (Nat.le_add_right _ _) (Nat.le_add_right _ _)
  · have hend : device.sectorEnd offset length =
        offset / device.blockSize + (length + device.blockSize - 1) / device.blockSize := by
      unfold BlkDevice.sectorEnd
      have hsplit : offset + length + device.blockSize - 1 =
          length + device.blockSize - 1 + offset / device.blockSize * device.blockSize := by omega
      rw [hsplit, Nat.add_mul_div_right _ _ hbs]
      omega
    rw [if_neg hoff, hend]
    exact blkRestCalls_asks _ _ _ outcomes

/-- The calls of a transfer are for the sectors from the one with the first byte to before the first one
after the range. -/
theorem blkDeviceCalls_asks (device : BlkDevice) (write : Bool) (buffer offset length : ℕ)
    (outcomes : List Bool) : Asks (offset / device.blockSize) (device.sectorEnd offset length) outcomes
      (blkDeviceCalls device write buffer offset length outcomes) := by
  unfold blkDeviceCalls
  dsimp only
  by_cases haligned : ¬ blkBufferIsUserspace buffer length ∧ offset % device.blockSize = 0 ∧
      length % device.blockSize = 0 ∧ blkIsDmaBuf buffer
  · have hend : device.sectorEnd offset length =
        offset / device.blockSize + length / device.blockSize := by
      have hbs := device.blockSize_pos
      have hdiv := Nat.div_add_mod' offset device.blockSize
      have hdiv' := Nat.div_add_mod' length device.blockSize
      unfold BlkDevice.sectorEnd
      have hsplit : offset + length + device.blockSize - 1 = device.blockSize - 1 +
          (offset / device.blockSize + length / device.blockSize) * device.blockSize := by
        rw [Nat.add_mul]
        omega
      rw [hsplit, Nat.add_mul_div_right _ _ hbs, Nat.div_eq_of_lt (by omega), Nat.zero_add]
    rw [if_pos haligned, hend]
    exact asks_done (blkDirectCalls_within _ _ _ le_rfl)
  · rw [if_neg haligned]
    exact blkPiecesCalls_asks _ _ _ outcomes

end Asks

end CoolPotOS
