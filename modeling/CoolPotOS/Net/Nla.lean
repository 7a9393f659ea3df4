import Mathlib
import CoolPotOS.Lib.Bytes
import CoolPotOS.Lib.ByteStore

namespace CoolPotOS

open Bytes ByteStore BitVec List

def enospc : ℤ := 28

def nlaHdrlen : ℕ := 4

def nlaAlign (len : ℕ) : ℕ := (len + 3) / 4 * 4

def nlaLen (len : ℕ) : ℕ := nlaHdrlen + len

def nlaTotalLen (len : ℕ) : ℕ := nlaAlign (nlaLen len)

/-- `NLA_TYPE_MASK`, without the flags for nested attributes and for the byte order. -/
def nlaTypeMask : BitVec 16 := 0x3FFF

def readU16 (buf : ℕ → BitVec 8) (at' : ℕ) : BitVec 16 := (takeWord 2 (slice buf at' 2)).1

/-- `struct nla_builder`, with the bytes of the buffer. -/
structure NlaBuilder where
  buf : ℕ → BitVec 8
  capacity : ℕ
  offset : ℕ

def nlaBuilderInit (buf : ℕ → BitVec 8) (capacity : ℕ) : NlaBuilder := ⟨buf, capacity, 0⟩

/-- `nla_put` of the bytes `data`. Sizes are `size_t`, and `nla_len` keeps the low 16 bits. -/
def nlaPut (b : NlaBuilder) (type : BitVec 16) (data : List (BitVec 8)) : ℤ × NlaBuilder :=
  let total := nlaTotalLen data.length
  if b.capacity < (b.offset + total) % 2 ^ 64 then (-enospc, b)
  else
    let typed := overwrite b.buf (b.offset + 2) (encode (k := 2) type)
    let headed := overwrite typed b.offset (encode (k := 2) (BitVec.ofNat 16 (nlaLen data.length)))
    let filled := overwrite headed (b.offset + nlaHdrlen) data
    let padlen := total - nlaLen data.length
    let padded :=
      overwrite filled (b.offset + nlaHdrlen + data.length) (List.replicate padlen 0)
    (0, { b with buf := padded, offset := (b.offset + total) % 2 ^ 64 })

def attrLen (buf : ℕ → BitVec 8) (nla : ℕ) : ℕ := (readU16 buf nla).toNat

def attrType (buf : ℕ → BitVec 8) (nla : ℕ) : BitVec 16 := readU16 buf (nla + 2)

/-- `NLA_OK`. The length is read only where the header fits. -/
def NlaOk (buf : ℕ → BitVec 8) (nla : ℕ) (remaining : ℤ) : Prop :=
  4 ≤ remaining ∧ 4 ≤ attrLen buf nla ∧ (attrLen buf nla : ℤ) ≤ remaining

instance (buf : ℕ → BitVec 8) (nla : ℕ) (remaining : ℤ) : Decidable (NlaOk buf nla remaining) :=
  inferInstanceAs (Decidable (_ ∧ _ ∧ _))

theorem le_nlaAlign (len : ℕ) : len ≤ nlaAlign len := by
  unfold nlaAlign
  omega

theorem dvd_nlaAlign (len : ℕ) : 4 ∣ nlaAlign len := Dvd.intro_left _ rfl

/-- The loop of `nla_find`: where the first attribute of the type is. `remaining` is an `int`. -/
def nlaFind (buf : ℕ → BitVec 8) (nla : ℕ) (remaining : ℤ) (type : BitVec 16) : Option ℕ :=
  if NlaOk buf nla remaining then
    if attrType buf nla &&& nlaTypeMask = type then some nla
    else
      nlaFind buf (nla + nlaAlign (attrLen buf nla)) (remaining - nlaAlign (attrLen buf nla)) type
  else none
termination_by remaining.toNat
decreasing_by
  rename_i hok _
  have := le_nlaAlign (attrLen buf nla)
  have := hok.2.1
  have := hok.1
  omega

/-- The bytes from `nla_data` on, as many as `nla_len` says. -/
def nlaPayload (buf : ℕ → BitVec 8) (nla : ℕ) : List (BitVec 8) :=
  slice buf (nla + nlaHdrlen) (attrLen buf nla - nlaHdrlen)

def nlaBytes (type : BitVec 16) (data : List (BitVec 8)) : List (BitVec 8) :=
  encode (k := 2) (BitVec.ofNat 16 (nlaLen data.length)) ++ encode (k := 2) type ++ data ++
    List.replicate (nlaTotalLen data.length - nlaLen data.length) 0

def attrsBytes (attrs : List (BitVec 16 × List (BitVec 8))) : List (BitVec 8) :=
  attrs.flatMap fun attr => nlaBytes attr.1 attr.2

theorem nlaLen_le_total (len : ℕ) : nlaLen len ≤ nlaTotalLen len := le_nlaAlign _

theorem length_nlaBytes (type : BitVec 16) (data : List (BitVec 8)) :
    (nlaBytes type data).length = nlaTotalLen data.length := by
  have hle := nlaLen_le_total data.length
  simp only [nlaBytes, length_append, length_encode, length_replicate]
  unfold nlaLen nlaHdrlen at *
  omega

theorem dvd_length_attrsBytes (attrs : List (BitVec 16 × List (BitVec 8))) :
    4 ∣ (attrsBytes attrs).length := by
  induction attrs with
  | nil => exact dvd_zero 4
  | cons attr attrs ih =>
    rw [attrsBytes, flatMap_cons, length_append, length_nlaBytes]
    exact dvd_add (dvd_nlaAlign _) ih

variable {buf : ℕ → BitVec 8} {nla : ℕ} {type : BitVec 16} {b : NlaBuilder}
  {attrs : List (BitVec 16 × List (BitVec 8))}

theorem attr_of_slice {data : List (BitVec 8)} (hlen : data.length ≤ 65531)
    (h : slice buf nla (nlaTotalLen data.length) = nlaBytes type data) :
    attrLen buf nla = nlaLen data.length ∧ attrType buf nla = type ∧ nlaPayload buf nla = data := by
  have hle := nlaLen_le_total data.length
  obtain ⟨pad, hpad⟩ := Nat.exists_eq_add_of_le hle
  have htotal : nlaTotalLen data.length = 2 + (2 + (data.length + pad)) := by
    rw [hpad, nlaLen, nlaHdrlen]
    omega
  rw [htotal, slice_add, slice_add, slice_add] at h
  unfold nlaBytes at h
  simp only [List.append_assoc] at h
  obtain ⟨hl, h⟩ := append_inj h (by simp [length_encode])
  obtain ⟨ht, h⟩ := append_inj h (by simp [length_encode])
  obtain ⟨hd, -⟩ := append_inj h (by simp)
  have hread : ∀ v : BitVec 16, (takeWord 2 (encode (k := 2) v)).1 = v := by
    intro v
    have := takeWord_encode (k := 2) v []
    rw [append_nil] at this
    exact congrArg Prod.fst this
  have hlenEq : attrLen buf nla = nlaLen data.length := by
    rw [attrLen, readU16, hl, hread, toNat_ofNat, Nat.mod_eq_of_lt]
    rw [nlaLen, nlaHdrlen]
    omega
  refine ⟨hlenEq, ?_, ?_⟩
  · rw [attrType, readU16, ht, hread]
  · rw [nlaPayload, hlenEq, nlaLen, Nat.add_sub_cancel_left]
    exact hd

theorem overwrite_before (mem : ℕ → BitVec 8) (start : ℕ) (first second : List (BitVec 8)) :
    overwrite (overwrite mem (start + first.length) second) start first =
      overwrite mem start (first ++ second) := by
  funext i
  by_cases hlt : i < start
  · rw [overwrite_of_lt _ _ hlt, overwrite_of_lt _ _ hlt, overwrite_of_lt _ _ (by omega)]
  · obtain ⟨k, rfl⟩ := Nat.exists_eq_add_of_le (not_lt.mp hlt)
    by_cases hin : k < first.length
    · rw [overwrite_add _ _ hin, overwrite_add _ _ (by rw [length_append]; omega),
        getElem_append_left hin]
    · rw [overwrite_of_le _ (by omega), ← overwrite_append]
      unfold overwrite
      simp only [show ¬ start + k < start by omega, show ¬ start + k < start + first.length by omega,
        if_false, Nat.add_sub_cancel_left]
      rw [List.getElem?_eq_none (l := first) (by omega), Option.getD_none]

theorem nlaPut_fits (type : BitVec 16) (data : List (BitVec 8))
    (hword : b.offset + nlaTotalLen data.length < 2 ^ 64)
    (hfits : b.offset + nlaTotalLen data.length ≤ b.capacity) :
    nlaPut b type data = (0, { b with
      buf := overwrite b.buf b.offset (nlaBytes type data)
      offset := b.offset + nlaTotalLen data.length }) := by
  have htype := overwrite_before b.buf b.offset
    (encode (k := 2) (BitVec.ofNat 16 (nlaLen data.length))) (encode (k := 2) type)
  have hdata := overwrite_append b.buf b.offset
    (encode (k := 2) (BitVec.ofNat 16 (nlaLen data.length)) ++ encode (k := 2) type) data
  have hpad := overwrite_append b.buf b.offset
    (encode (k := 2) (BitVec.ofNat 16 (nlaLen data.length)) ++ encode (k := 2) type ++ data)
    (List.replicate (nlaTotalLen data.length - nlaLen data.length) 0)
  simp only [length_append, length_encode] at htype hdata hpad
  unfold nlaPut
  simp only [Nat.mod_eq_of_lt hword, if_neg (not_lt.mpr hfits)]
  rw [htype, show nlaHdrlen = 2 + 2 from rfl, hdata, Nat.add_assoc, hpad, nlaBytes]

theorem nlaPut_full (type : BitVec 16) (data : List (BitVec 8))
    (hword : b.offset + nlaTotalLen data.length < 2 ^ 64)
    (hfull : b.capacity < b.offset + nlaTotalLen data.length) : nlaPut b type data = (-enospc, b) := by
  unfold nlaPut
  simp only [Nat.mod_eq_of_lt hword]
  exact if_pos hfull

def nlaPuts (b : NlaBuilder) : List (BitVec 16 × List (BitVec 8)) → List ℤ × NlaBuilder
  | [] => ([], b)
  | attr :: attrs =>
    let put := nlaPut b attr.1 attr.2
    let rest := nlaPuts put.2 attrs
    (put.1 :: rest.1, rest.2)

def nlaAccepted (attrs : List (BitVec 16 × List (BitVec 8))) (results : List ℤ) :
    List (BitVec 16 × List (BitVec 8)) :=
  ((attrs.zip results).filter fun call => call.2 = 0).map Prod.fst

/-- The area up to the offset holds exactly these attributes. -/
structure NlaBuilder.Holds (b : NlaBuilder) (attrs : List (BitVec 16 × List (BitVec 8))) : Prop where
  offset_eq : b.offset = (attrsBytes attrs).length
  offset_le : b.offset ≤ b.capacity
  area : slice b.buf 0 b.offset = attrsBytes attrs

theorem holds_nlaBuilderInit (buf : ℕ → BitVec 8) (capacity : ℕ) :
    (nlaBuilderInit buf capacity).Holds [] := ⟨rfl, Nat.zero_le _, rfl⟩

theorem nlaTotalLen_le {len : ℕ} (h : len ≤ 65531) : nlaTotalLen len ≤ 2 ^ 16 := by
  unfold nlaTotalLen nlaAlign nlaLen nlaHdrlen
  omega

theorem attrsBytes_append (attrs attrs' : List (BitVec 16 × List (BitVec 8))) :
    attrsBytes (attrs ++ attrs') = attrsBytes attrs ++ attrsBytes attrs' := flatMap_append

theorem attrsBytes_cons (attr : BitVec 16 × List (BitVec 8)) (attrs : List (BitVec 16 × List (BitVec 8))) :
    attrsBytes (attr :: attrs) = nlaBytes attr.1 attr.2 ++ attrsBytes attrs := flatMap_cons

theorem NlaBuilder.Holds.put (hb : b.Holds attrs) (attr : BitVec 16 × List (BitVec 8))
    (hword : b.offset + nlaTotalLen attr.2.length < 2 ^ 64) :
    (nlaPut b attr.1 attr.2).2.capacity = b.capacity ∧ (nlaPut b attr.1 attr.2).2.Holds
        (attrs ++ if (nlaPut b attr.1 attr.2).1 = 0 then [attr] else []) := by
  by_cases hfits : b.offset + nlaTotalLen attr.2.length ≤ b.capacity
  · rw [nlaPut_fits attr.1 attr.2 hword hfits]
    have hlen := length_nlaBytes attr.1 attr.2
    rw [if_pos rfl]
    refine ⟨rfl, ?_, hfits, ?_⟩
    · change b.offset + _ = _
      rw [attrsBytes_append, length_append, attrsBytes_cons, length_append, hlen, ← hb.offset_eq]
      rfl
    · change slice (overwrite b.buf b.offset (nlaBytes attr.1 attr.2)) 0
        (b.offset + nlaTotalLen attr.2.length) = _
      have hold : slice (overwrite b.buf b.offset (nlaBytes attr.1 attr.2)) 0 b.offset =
          slice b.buf 0 b.offset := by
        apply slice_congr
        intro i hi
        exact overwrite_of_lt _ _ (by omega)
      rw [slice_add, hold, hb.area, Nat.zero_add, ← hlen, slice_overwrite_self, attrsBytes_append,
        attrsBytes_cons]
      congr 1
      exact (append_nil _).symm
  · rw [nlaPut_full attr.1 attr.2 hword (not_le.mp hfits), if_neg (show -enospc ≠ 0 by decide),
      append_nil]
    exact ⟨rfl, hb⟩

theorem nlaAccepted_cons (attr : BitVec 16 × List (BitVec 8)) (result : ℤ)
    (attrs : List (BitVec 16 × List (BitVec 8))) (results : List ℤ) :
    nlaAccepted (attr :: attrs) (result :: results) =
      (if result = 0 then [attr] else []) ++ nlaAccepted attrs results := by
  unfold nlaAccepted
  rw [zip_cons_cons, filter_cons]
  by_cases h : result = 0
  · simp [h]
  · simp [h]

theorem mem_of_nlaAccepted {attr : BitVec 16 × List (BitVec 8)} {results : List ℤ}
    (h : attr ∈ nlaAccepted attrs results) : attr ∈ attrs := by
  obtain ⟨call, hcall, rfl⟩ := mem_map.mp h
  exact (of_mem_zip (mem_filter.mp hcall).1).1

theorem NlaBuilder.Holds.puts (hb : b.Holds attrs) (hcap : b.capacity < 2 ^ 63)
    (calls : List (BitVec 16 × List (BitVec 8))) (hlens : ∀ attr ∈ calls, attr.2.length ≤ 65531) :
    (nlaPuts b calls).2.capacity = b.capacity ∧
      (nlaPuts b calls).2.Holds (attrs ++ nlaAccepted calls (nlaPuts b calls).1) := by
  induction calls generalizing b attrs with
  | nil => exact ⟨rfl, by simpa [nlaPuts, nlaAccepted] using hb⟩
  | cons attr calls ih =>
    have htotal := nlaTotalLen_le (hlens attr mem_cons_self)
    have hle := hb.offset_le
    obtain ⟨hkept, hput⟩ := hb.put attr (by omega)
    obtain ⟨hkept', hrest⟩ := ih hput (by rw [hkept]; exact hcap)
      fun attr hattr => hlens attr (mem_cons_of_mem _ hattr)
    rw [List.append_assoc] at hrest
    refine ⟨hkept'.trans hkept, ?_⟩
    change (nlaPuts _ calls).2.Holds (attrs ++ nlaAccepted (attr :: calls) (_ :: _))
    rw [nlaAccepted_cons]
    exact hrest

theorem and_nlaTypeMask (h : type.toNat < 2 ^ 14) : type &&& nlaTypeMask = type := by
  apply eq_of_toNat_eq
  rw [toNat_and, show nlaTypeMask.toNat = 2 ^ 14 - 1 from rfl, Nat.and_two_pow_sub_one_eq_mod,
    Nat.mod_eq_of_lt h]

theorem nlaFind_short (buf : ℕ → BitVec 8) (nla : ℕ) {remaining : ℤ} (h : remaining < 4)
    (type : BitVec 16) : nlaFind buf nla remaining type = none := by
  rw [nlaFind, if_neg fun hok => absurd hok.1 (not_le.mpr h)]

theorem nlaFind_cons {attr : BitVec 16 × List (BitVec 8)} (htype : attr.1.toNat < 2 ^ 14)
    (hlen : attr.2.length ≤ 65531) (h : slice buf nla (nlaTotalLen attr.2.length) = nlaBytes attr.1 attr.2)
    (rest : ℕ) (type : BitVec 16) : nlaFind buf nla ((nlaTotalLen attr.2.length + rest : ℕ) : ℤ) type =
      if attr.1 = type then some nla else nlaFind buf (nla + nlaTotalLen attr.2.length) (rest : ℤ) type := by
  obtain ⟨hattrLen, hattrType, -⟩ := attr_of_slice hlen h
  have hle := nlaLen_le_total attr.2.length
  have hok : NlaOk buf nla ((nlaTotalLen attr.2.length + rest : ℕ) : ℤ) := by
    unfold NlaOk
    rw [hattrLen]
    unfold nlaLen nlaHdrlen at *
    omega
  rw [nlaFind, if_pos hok, hattrType, and_nlaTypeMask htype, hattrLen]
  congr 2
  change ((nlaTotalLen attr.2.length + rest : ℕ) : ℤ) - (nlaTotalLen attr.2.length : ℕ) = rest
  omega

section Search

variable {buf : ℕ → BitVec 8} {attrs : List (BitVec 16 × List (BitVec 8))}
  (htypes : ∀ attr ∈ attrs, attr.1.toNat < 2 ^ 14) (hlens : ∀ attr ∈ attrs, attr.2.length ≤ 65531)

include htypes hlens in
theorem nlaFind_append (hother : ∀ attr ∈ attrs, attr.1 ≠ type)
    (h : slice buf nla (attrsBytes attrs).length = attrsBytes attrs) (rest : ℕ) :
    nlaFind buf nla (((attrsBytes attrs).length + rest : ℕ) : ℤ) type =
      nlaFind buf (nla + (attrsBytes attrs).length) rest type := by
  induction attrs generalizing nla with
  | nil => simp [attrsBytes]
  | cons attr attrs ih =>
    rw [attrsBytes_cons, length_append, length_nlaBytes, slice_add] at h
    obtain ⟨hhead, htail⟩ := append_inj h (by rw [length_slice, length_nlaBytes])
    have hstep := nlaFind_cons (htypes attr mem_cons_self) (hlens attr mem_cons_self) hhead
      ((attrsBytes attrs).length + rest) type
    rw [if_neg (hother attr mem_cons_self), ih (fun a ha => htypes a (mem_cons_of_mem _ ha))
        (fun a ha => hlens a (mem_cons_of_mem _ ha))
        (fun a ha => hother a (mem_cons_of_mem _ ha)) htail] at hstep
    rw [attrsBytes_cons, length_append, length_nlaBytes, Nat.add_assoc, hstep, Nat.add_assoc]

end Search

theorem nlaFind_attrs (htypes : ∀ attr ∈ attrs, attr.1.toNat < 2 ^ 14)
    (hlens : ∀ attr ∈ attrs, attr.2.length ≤ 65531)
    (h : slice buf 0 (attrsBytes attrs).length = attrsBytes attrs) :
    (∀ before attr after, attrs = before ++ attr :: after → (∀ a ∈ before, a.1 ≠ attr.1) →
      nlaFind buf 0 (attrsBytes attrs).length attr.1 = some (attrsBytes before).length ∧
        nlaPayload buf (attrsBytes before).length = attr.2) ∧
      ∀ type, (∀ attr ∈ attrs, attr.1 ≠ type) → nlaFind buf 0 (attrsBytes attrs).length type = none := by
  constructor
  · intro before attr after hattrs hother
    subst hattrs
    have hmem : attr ∈ before ++ attr :: after := mem_append_right _ mem_cons_self
    rw [attrsBytes_append, attrsBytes_cons, length_append, length_append, length_nlaBytes,
      slice_add, slice_add] at h
    obtain ⟨hbefore, h⟩ := append_inj h (length_slice _ _ _)
    obtain ⟨hattr, -⟩ := append_inj h (by rw [length_slice, length_nlaBytes])
    rw [Nat.zero_add] at hattr
    have hskip := nlaFind_append (fun a ha => htypes a (mem_append_left _ ha))
      (fun a ha => hlens a (mem_append_left _ ha)) hother hbefore
      (nlaTotalLen attr.2.length + (attrsBytes after).length)
    rw [Nat.zero_add, nlaFind_cons (htypes attr hmem) (hlens attr hmem) hattr, if_pos rfl] at hskip
    rw [attrsBytes_append, attrsBytes_cons, length_append, length_append, length_nlaBytes]
    exact ⟨hskip, (attr_of_slice (hlens attr hmem) hattr).2.2⟩
  · intro type hother
    have hskip := nlaFind_append htypes hlens hother h 0
    rw [Nat.add_zero] at hskip
    rw [hskip, Nat.cast_zero, nlaFind_short _ _ (by decide)]

/-- The bytes up to the offset are the accepted attributes, each at a multiple of four. The search returns the
first of a type, with its payload, and nothing for a type that is not there. A call returns zero if and only
if it fits, and else it changes nothing. -/
structure NlaBuilder.RoundTrips (b : NlaBuilder) (attrs : List (BitVec 16 × List (BitVec 8))) : Prop where
  area : slice b.buf 0 b.offset = attrsBytes attrs
  aligned : ∀ before after, attrs = before ++ after → 4 ∣ (attrsBytes before).length
  finds : ∀ before attr after, attrs = before ++ attr :: after → (∀ a ∈ before, a.1 ≠ attr.1) →
    nlaFind b.buf 0 (BitVec.ofNat 32 b.offset).toInt attr.1 = some (attrsBytes before).length ∧
      nlaPayload b.buf (attrsBytes before).length = attr.2
  misses : ∀ type, (∀ attr ∈ attrs, attr.1 ≠ type) →
    nlaFind b.buf 0 (BitVec.ofNat 32 b.offset).toInt type = none
  fits : ∀ type (data : List (BitVec 8)), data.length ≤ 65531 →
    b.offset + nlaTotalLen data.length ≤ b.capacity → (nlaPut b type data).1 = 0
  full : ∀ type (data : List (BitVec 8)), data.length ≤ 65531 →
    b.capacity < b.offset + nlaTotalLen data.length → nlaPut b type data = (-enospc, b)

theorem toInt_ofNat_of_lt {n : ℕ} (h : n < 2 ^ 31) : (BitVec.ofNat 32 n).toInt = n := by
  rw [toInt_eq_toNat_of_lt]
  · rw [toNat_ofNat, Nat.mod_eq_of_lt (by omega)]
  · rw [toNat_ofNat, Nat.mod_eq_of_lt (by omega)]
    omega

/-- `nla_find` takes its length as an `int`. -/
theorem nla_round_trips (buf : ℕ → BitVec 8) {capacity : ℕ} (hcap : capacity < 2 ^ 63)
    {calls : List (BitVec 16 × List (BitVec 8))} (htypes : ∀ attr ∈ calls, attr.1.toNat < 2 ^ 14)
    (hlens : ∀ attr ∈ calls, attr.2.length ≤ 65531)
    (hint : (nlaPuts (nlaBuilderInit buf capacity) calls).2.offset < 2 ^ 31) :
    (nlaPuts (nlaBuilderInit buf capacity) calls).2.RoundTrips
      (nlaAccepted calls (nlaPuts (nlaBuilderInit buf capacity) calls).1) := by
  obtain ⟨-, hb⟩ := (holds_nlaBuilderInit buf capacity).puts hcap calls hlens
  rw [List.nil_append] at hb
  generalize nlaPuts (nlaBuilderInit buf capacity) calls = ran at hint hb ⊢
  have harea := hb.area
  rw [hb.offset_eq] at harea
  obtain ⟨hfinds, hmisses⟩ := nlaFind_attrs (fun a ha => htypes a (mem_of_nlaAccepted ha))
    (fun a ha => hlens a (mem_of_nlaAccepted ha)) harea
  have hword : ∀ data : List (BitVec 8), data.length ≤ 65531 →
      ran.2.offset + nlaTotalLen data.length < 2 ^ 64 := by
    intro data hdata
    have := nlaTotalLen_le hdata
    omega
  constructor
  · exact hb.area
  · intro before after _
    exact dvd_length_attrsBytes before
  · rw [toInt_ofNat_of_lt hint, hb.offset_eq]
    exact hfinds
  · rw [toInt_ofNat_of_lt hint, hb.offset_eq]
    exact hmisses
  · intro type data hdata hfits
    rw [nlaPut_fits type data (hword data hdata) hfits]
  · intro type data hdata hfull
    exact nlaPut_full type data (hword data hdata) hfull

theorem nla_round_trips_two :
    (nlaPuts (nlaBuilderInit (fun _ => 0) 64) [(3, [1]), (5, [2, 3])]).2.RoundTrips [(3, [1]), (5, [2, 3])] := by
  have htypes : ∀ attr ∈ ([(3, [1]), (5, [2, 3])] : List (BitVec 16 × List (BitVec 8))), attr.1.toNat < 2 ^ 14 := by
    decide
  exact nla_round_trips (fun _ => 0) (show 64 < 2 ^ 63 by decide) htypes (by decide) (by decide)

theorem nlaPuts_fits (hcap : b.capacity < 2 ^ 64) (calls : List (BitVec 16 × List (BitVec 8)))
    (hfits : b.offset + (attrsBytes calls).length ≤ b.capacity) :
    nlaAccepted calls (nlaPuts b calls).1 = calls ∧
      (nlaPuts b calls).2.offset = b.offset + (attrsBytes calls).length := by
  induction calls generalizing b with
  | nil => exact ⟨rfl, rfl⟩
  | cons attr calls ih =>
    rw [attrsBytes_cons, length_append, length_nlaBytes] at hfits ⊢
    have hput := nlaPut_fits (b := b) attr.1 attr.2 (by omega) (by omega)
    have hrest := ih (b := (nlaPut b attr.1 attr.2).2) (by rw [hput]; exact hcap)
      (by rw [hput]; change b.offset + _ + _ ≤ b.capacity; omega)
    constructor
    · change nlaAccepted (attr :: calls) ((nlaPut b attr.1 attr.2).1 :: _) = _
      rw [nlaAccepted_cons, hrest.1, hput]
      rfl
    · change (nlaPuts (nlaPut b attr.1 attr.2).2 calls).2.offset = _
      rw [hrest.2, hput]
      exact Nat.add_assoc _ _ _

/-- An area of 2^31 bytes has a negative length. -/
theorem nlaFind_negative : ¬ ∀ (buf : ℕ → BitVec 8) (capacity : ℕ) (calls : List (BitVec 16 × List (BitVec 8))),
    capacity < 2 ^ 63 → (∀ attr ∈ calls, attr.1.toNat < 2 ^ 14) → (∀ attr ∈ calls, attr.2.length ≤ 65531) →
      (nlaPuts (nlaBuilderInit buf capacity) calls).2.RoundTrips
        (nlaAccepted calls (nlaPuts (nlaBuilderInit buf capacity) calls).1) := by
  intro hall
  have hmain : ∀ attr : BitVec 16 × List (BitVec 8), attr.1 = 1 → attr.2.length = 65531 → ∀ n, n = 32768 → False := by
    intro attr htype hlen n hn
    have hlength : (attrsBytes (List.replicate n attr)).length = n * 65536 := by
      unfold attrsBytes
      rw [List.length_flatMap, List.map_replicate, List.sum_replicate, length_nlaBytes, hlen]
      rfl
    have htrips := hall (fun _ => 0) (2 ^ 31) (List.replicate n attr) (by norm_num)
      (fun a ha => by rw [List.eq_of_mem_replicate ha, htype]; decide)
      (fun a ha => by rw [List.eq_of_mem_replicate ha, hlen])
    obtain ⟨haccepted, hoffset⟩ := nlaPuts_fits (b := nlaBuilderInit (fun _ => 0) (2 ^ 31)) (by norm_num [nlaBuilderInit])
      (List.replicate n attr) (by rw [hlength, hn]; norm_num [nlaBuilderInit])
    have hoffset' : (nlaPuts (nlaBuilderInit (fun _ => 0) (2 ^ 31)) (List.replicate n attr)).2.offset = 2 ^ 31 := by
      rw [hoffset, hlength, hn]
      norm_num [nlaBuilderInit]
    rw [haccepted] at htrips
    obtain ⟨m, rfl⟩ : ∃ m, n = m + 1 := ⟨32767, hn⟩
    have hfind := (htrips.finds [] attr (List.replicate m attr) List.replicate_succ (by simp)).1
    rw [hoffset', nlaFind_short _ _ (by decide)] at hfind
    cases hfind
  exact hmain (1, List.replicate 65531 0) rfl List.length_replicate 32768 rfl

end CoolPotOS
