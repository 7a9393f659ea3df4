import CoolPotOS.Net.Rtnl

namespace CoolPotOS

open Function

theorem InetAddr.Agree.symm {n : ℕ} {a b : InetAddr} (h : a.Agree n b) : b.Agree n a :=
  fun k hk => (h k hk).symm

theorem InetAddr.Agree.trans {n : ℕ} {a b c : InetAddr} (h : a.Agree n b) (h' : b.Agree n c) : a.Agree n c :=
  fun k hk => (h k hk).trans (h' k hk)

namespace RtEntry

/-- A gateway is given, as `rtnl_fill_route` tells it. -/
def HasGateway (route : RtEntry) : Prop :=
  (route.family = afInet ∧ ¬ route.gateway.Agree 4 fun _ => 0) ∨
    (route.family = afInet6 ∧ ¬ route.gateway.Agree 16 fun _ => 0)

instance (route : RtEntry) : Decidable route.HasGateway := by
  unfold HasGateway
  infer_instance

/-- The route has the family, the prefix, the table and the gateway of the request, as far as it gives them. -/
def Matches (existing request : RtEntry) : Prop :=
  existing.Covers request ∧
    (request.HasGateway → existing.gateway.Agree (addrSize request.family) request.gateway)

instance (existing request : RtEntry) : Decidable (existing.Matches request) := by
  unfold Matches
  infer_instance

theorem SameKey.symm {e r : RtEntry} (h : e.SameKey r) : r.SameKey e := by
  obtain ⟨hfamily, hlen, htable, hdst⟩ := h
  refine ⟨hfamily.symm, hlen.symm, htable.symm, ?_⟩
  rw [hfamily]
  exact hdst.symm

theorem SameKey.trans {e r r' : RtEntry} (h : e.SameKey r) (h' : r.SameKey r') : e.SameKey r' := by
  obtain ⟨hfamily, hlen, htable, hdst⟩ := h
  obtain ⟨hfamily', hlen', htable', hdst'⟩ := h'
  rw [hfamily'] at hdst
  exact ⟨hfamily.trans hfamily', hlen.trans hlen', htable.trans htable', hdst.trans hdst'⟩

theorem selects_iff_matches {existing request : RtEntry} (h : request.family ≠ afInet6) :
    existing.Selects request ↔ existing.Matches request := by
  unfold Selects Matches HasGateway GwSpecified
  constructor
  · rintro ⟨hcovers, hgateway⟩
    refine ⟨hcovers, fun hgiven => ?_⟩
    obtain hgiven | hgiven := hgiven
    · exact hgateway hgiven
    · exact absurd hgiven.1 h
  · rintro ⟨hcovers, hgateway⟩
    exact ⟨hcovers, fun hgiven => hgateway (Or.inl hgiven)⟩

theorem selects_iff_covers {existing request : RtEntry} (h : request.family = afInet6) :
    existing.Selects request ↔ existing.Covers request := by
  constructor
  · exact fun hselects => hselects.1
  · intro hcovers
    refine ⟨hcovers, fun hgiven => ?_⟩
    have hne : afInet6 ≠ afInet := by decide
    exact absurd (h.symm.trans hgiven.1) hne

end RtEntry

namespace RouteTable

/-- No two active routes have the same family, destination, prefix length and table. -/
def Keyed (t : RouteTable) : Prop :=
  ∀ i j, (t i).active = true → (t j).active = true → (t i).SameKey (t j) → i = j

/-- The route replaces the one of its key, or takes a free slot where there is none, and no other slot
changes; or the table is full and stays as it is. -/
def Adds (t : RouteTable) (route : RtEntry) (t' : RouteTable) (r : Except RtnlError Unit) : Prop :=
  (r = .ok () ∧ ∃ i, t' i = { route with active := true } ∧ (∀ j ≠ i, t' j = t j) ∧
    ((t i).active = true ∧ (t i).SameKey route ∨
      (t i).active = false ∧ ∀ j, (t j).active = true → ¬(t j).SameKey route)) ∨
  (r = .error .enospc ∧ t' = t ∧ ∀ j, (t j).active = true ∧ ¬(t j).SameKey route)

/-- One active route goes, one with the property, or the call fails and the table stays as it is. -/
def Removes (t : RouteTable) (p : RtEntry → Prop) (t' : RouteTable) (r : Except RtnlError Unit) : Prop :=
  (r = .ok () ∧ ∃ i, (t i).active = true ∧ p (t i) ∧ t' i = { t i with active := false } ∧
    ∀ j ≠ i, t' j = t j) ∨
  (r = .error .esrch ∧ t' = t)

/-- The first active route with the family, the prefix and the table of an IPv6 request has its gateway. -/
def GatewayFits (t : RouteTable) (request : RtEntry) : Prop :=
  request.family = afInet6 → ¬ request.gateway.Agree 16 (fun _ => 0) →
    ∀ i, (t i).active = true → (t i).Covers request →
      (∀ j < i, (t j).active = true → ¬(t j).Covers request) → (t i).gateway.Agree 16 request.gateway

def Edited : RouteTable → RouteTable → Prop :=
  Relation.ReflTransGen fun t t' => ∃ route, t' = (t.add route).1 ∨ t' = (t.del route).1

variable {t : RouteTable} {route request : RtEntry}

theorem add_adds (t : RouteTable) (route : RtEntry) : t.Adds route (t.add route).1 (t.add route).2 := by
  unfold add
  cases hkey : Fin.find? fun i => decide ((t i).active = true ∧ (t i).SameKey route) with
  | some i =>
    have hi := Fin.eq_true_of_find?_eq_some hkey
    rw [decide_eq_true_eq] at hi
    refine Or.inl ⟨rfl, i, ?_, fun j hj => ?_, Or.inl hi⟩
    · exact update_self i _ t
    · exact update_of_ne hj _ t
  | none =>
    have hno : ∀ j, (t j).active = true → ¬(t j).SameKey route := by
      intro j hactive hsame
      have hj := Fin.eq_false_of_find?_eq_none hkey j
      rw [decide_eq_false_iff_not] at hj
      exact hj ⟨hactive, hsame⟩
    cases hfree : Fin.find? fun i => !(t i).active with
    | some i =>
      have hi := Fin.eq_true_of_find?_eq_some hfree
      rw [Bool.not_eq_true'] at hi
      refine Or.inl ⟨rfl, i, ?_, fun j hj => ?_, Or.inr ⟨hi, hno⟩⟩
      · exact update_self i _ t
      · exact update_of_ne hj _ t
    | none =>
      refine Or.inr ⟨rfl, rfl, fun j => ?_⟩
      have hj := Fin.eq_false_of_find?_eq_none hfree j
      rw [Bool.not_eq_false'] at hj
      exact ⟨hj, hno j hj⟩

theorem del_cases (t : RouteTable) (request : RtEntry) : (∃ i, (t i).active = true ∧ (t i).Selects request ∧
      (∀ j < i, (t j).active = true → ¬(t j).Selects request) ∧ t.del request = (t.free i, .ok ())) ∨
    ((∀ i, (t i).active = true → ¬(t i).Selects request) ∧ t.del request = (t, .error .esrch)) := by
  unfold del
  cases hfind : Fin.find? fun i => decide ((t i).active = true ∧ (t i).Selects request) with
  | some i =>
    have hi := Fin.eq_true_of_find?_eq_some hfind
    rw [decide_eq_true_eq] at hi
    refine Or.inl ⟨i, hi.1, hi.2, fun j hj hactive hselects => ?_, rfl⟩
    have hnot := Fin.eq_false_of_find?_eq_some_of_lt hfind j hj
    rw [decide_eq_false_iff_not] at hnot
    exact hnot ⟨hactive, hselects⟩
  | none =>
    refine Or.inr ⟨fun i hactive hselects => ?_, rfl⟩
    have hnot := Fin.eq_false_of_find?_eq_none hfind i
    rw [decide_eq_false_iff_not] at hnot
    exact hnot ⟨hactive, hselects⟩

theorem free_removes {p : RtEntry → Prop} {i : Fin maxRoutes} (hactive : (t i).active = true) (hp : p (t i)) :
    t.Removes p (t.free i) (.ok ()) := by
  refine Or.inl ⟨rfl, i, hactive, hp, ?_, fun j hj => ?_⟩
  · exact update_self i _ t
  · exact update_of_ne hj _ t

theorem del_removes (t : RouteTable) (request : RtEntry) :
    t.Removes (·.Selects request) (t.del request).1 (t.del request).2 := by
  obtain ⟨i, hactive, hselects, -, heq⟩ | ⟨-, heq⟩ := t.del_cases request
  · rw [heq]
    exact free_removes hactive hselects
  · rw [heq]
    exact Or.inr ⟨rfl, rfl⟩

theorem removes_iff (t : RouteTable) (request : RtEntry) :
    t.Removes (·.Matches request) (t.del request).1 (t.del request).2 ↔ t.GatewayFits request := by
  constructor
  · intro hremoves hfamily hgiven i hactive hcovers hfirst
    have hsize : addrSize request.family = 16 := by
      rw [hfamily]
      rfl
    obtain ⟨i', hactive', hselects', hfirst', heq⟩ | ⟨hnone, -⟩ := t.del_cases request
    swap
    · exact absurd ((RtEntry.selects_iff_covers hfamily).mpr hcovers) (hnone i hactive)
    -- for IPv6 the first route that is selected is the first that covers the request
    have hi : i' = i := by
      rcases lt_trichotomy i' i with hlt | hlt | hlt
      · exact absurd ((RtEntry.selects_iff_covers hfamily).mp hselects') (hfirst i' hlt hactive')
      · exact hlt
      · exact absurd ((RtEntry.selects_iff_covers hfamily).mpr hcovers) (hfirst' i hlt hactive)
    rw [heq, hi] at hremoves
    obtain ⟨-, j, hactivej, hmatches, hj, -⟩ | ⟨herror, -⟩ := hremoves
    swap
    · cases herror
    have hji : j = i := by
      by_contra hne
      have hkept : t.free i j = t j := update_of_ne hne _ t
      replace hj : t.free i j = { t j with active := false } := hj
      rw [← hkept, hj] at hactivej
      cases hactivej
    rw [hji] at hmatches
    rw [← hsize]
    exact hmatches.2 (Or.inr ⟨hfamily, hgiven⟩)
  · intro hfits
    obtain ⟨i, hactive, hselects, hfirst, heq⟩ | ⟨-, heq⟩ := t.del_cases request
    swap
    · rw [heq]
      exact Or.inr ⟨rfl, rfl⟩
    rw [heq]
    apply free_removes hactive
    by_cases hfamily : request.family = afInet6
    swap
    · exact (RtEntry.selects_iff_matches hfamily).mp hselects
    refine ⟨hselects.1, fun hgiven => ?_⟩
    obtain ⟨hfamily', -⟩ | ⟨-, hgiven⟩ := hgiven
    · have hne : afInet6 ≠ afInet := by decide
      exact absurd (hfamily.symm.trans hfamily') hne
    · have hsize : addrSize request.family = 16 := by
        rw [hfamily]
        rfl
      rw [hsize]
      apply hfits hfamily hgiven i hactive hselects.1
      intro j hj hactivej hcovers
      exact hfirst j hj hactivej ((RtEntry.selects_iff_covers hfamily).mpr hcovers)

theorem Keyed.add (h : t.Keyed) (route : RtEntry) : (t.add route).1.Keyed := by
  obtain ⟨-, i, hi, hother, hslot⟩ | ⟨-, heq, -⟩ := t.add_adds route
  swap
  · rw [heq]
    exact h
  -- an active route elsewhere does not have the key of the new one
  have hnew : ∀ j ≠ i, (t j).active = true → ¬(t j).SameKey route := by
    intro j hj hactive hsame
    obtain ⟨hactivei, hsamei⟩ | ⟨-, hno⟩ := hslot
    · exact hj (h j i hactive hactivei (hsame.trans hsamei.symm))
    · exact hno j hactive hsame
  have hput : ∀ e : RtEntry, e.SameKey { route with active := true } ↔ e.SameKey route := fun e => Iff.rfl
  intro a b ha hb hsame
  by_cases hai : a = i <;> by_cases hbi : b = i
  · exact hai.trans hbi.symm
  · rw [hai, hi] at hsame
    rw [hother b hbi] at hsame hb
    exact absurd ((hput (t b)).mp hsame.symm) (hnew b hbi hb)
  · rw [hbi, hi, hother a hai, hput] at hsame
    rw [hother a hai] at ha
    exact absurd hsame (hnew a hai ha)
  · rw [hother a hai] at ha hsame
    rw [hother b hbi] at hb hsame
    exact h a b ha hb hsame

theorem Keyed.del (h : t.Keyed) (request : RtEntry) : (t.del request).1.Keyed := by
  obtain ⟨-, i, -, -, hi, hother⟩ | ⟨-, heq⟩ := t.del_removes request
  swap
  · rw [heq]
    exact h
  intro a b ha hb hsame
  have hne : ∀ c, ((t.del request).1 c).active = true → c ≠ i := by
    intro c hc hci
    rw [hci, hi] at hc
    cases hc
  rw [hother a (hne a ha)] at hsame ha
  rw [hother b (hne b hb)] at hsame hb
  exact h a b ha hb hsame

theorem Keyed.edited {t' : RouteTable} (h : t.Keyed) (hedited : t.Edited t') : t'.Keyed := by
  induction hedited with
  | refl => exact h
  | tail _ hlast ih =>
    obtain ⟨route, heq | heq⟩ := hlast
    · rw [heq]
      exact ih.add route
    · rw [heq]
      exact ih.del route

theorem Edited.add (t : RouteTable) (route : RtEntry) : t.Edited (t.add route).1 :=
  .single ⟨route, Or.inl rfl⟩

theorem Edited.del (t : RouteTable) (request : RtEntry) : t.Edited (t.del request).1 :=
  .single ⟨request, Or.inr rfl⟩

end RouteTable

namespace Rtnl

variable {x x' : Rtnl}

def NamesDistinct (x : Rtnl) : Prop :=
  ∀ i j, (x.netDevices i).active = true → (x.netDevices j).active = true →
    (x.netDevices i).name = (x.netDevices j).name → i = j

def IndicesDistinct (x : Rtnl) : Prop :=
  ∀ i j, (x.netDevices i).active = true → (x.netDevices j).active = true →
    (x.netDevices i).ifindex = (x.netDevices j).ifindex → i = j

/-- While the counter has not wrapped, all slots that were used have indices of their own, below the
counter. A slot that was never used has index `0` and no name. -/
structure Counted (x : Rtnl) : Prop where
  apart : ∀ i j, (x.netDevices i).ifindex = (x.netDevices j).ifindex → (x.netDevices i).ifindex ≠ 0 → i = j
  below : ∀ i, (x.netDevices i).ifindex.toNat < x.nextIfindex
  unused : ∀ i, (x.netDevices i).ifindex = 0 → (x.netDevices i).name = []

structure DevicesOk (x : Rtnl) : Prop where
  names : x.NamesDistinct
  counted : x.nextIfindex ≤ 2 ^ 32 → x.Counted

theorem devicesOk_init : DevicesOk .init where
  names := fun i j hi => by cases hi
  counted _ := {
    apart := fun i j _ hne => absurd rfl hne
    below := fun i => Nat.zero_lt_one
    unused := fun i _ => rfl }

theorem DevicesOk.indicesDistinct (h : DevicesOk x) (hnext : x.nextIfindex ≤ 2 ^ 32) : x.IndicesDistinct := by
  intro i j hi hj heq
  have hcounted := h.counted hnext
  by_cases hzero : (x.netDevices i).ifindex = 0
  · apply h.names i j hi hj
    rw [hcounted.unused i hzero, hcounted.unused j (heq.symm.trans hzero)]
  · exact hcounted.apart i j heq hzero

theorem setDevice_self (x : Rtnl) (i : Fin maxNetDevices) (dev : NetDevice) :
    (x.setDevice i dev).netDevices i = dev := by
  unfold setDevice
  exact update_self ..

theorem setDevice_of_ne (x : Rtnl) {i j : Fin maxNetDevices} (hj : j ≠ i) (dev : NetDevice) :
    (x.setDevice i dev).netDevices j = x.netDevices j := by
  unfold setDevice
  exact update_of_ne hj ..

/-- The counter, the names and the indices stay, and no device becomes active. -/
structure Quiet (x x' : Rtnl) : Prop where
  next : x'.nextIfindex = x.nextIfindex
  name : ∀ i, (x'.netDevices i).name = (x.netDevices i).name
  ifindex : ∀ i, (x'.netDevices i).ifindex = (x.netDevices i).ifindex
  active : ∀ i, (x'.netDevices i).active = true → (x.netDevices i).active = true

theorem quiet_setDevice {i : Fin maxNetDevices} {dev : NetDevice} (hname : dev.name = (x.netDevices i).name)
    (hindex : dev.ifindex = (x.netDevices i).ifindex)
    (hactive : dev.active = true → (x.netDevices i).active = true) : Quiet x (x.setDevice i dev) := by
  have hself := x.setDevice_self i dev
  have hother : ∀ j ≠ i, (x.setDevice i dev).netDevices j = x.netDevices j :=
    fun j hj => x.setDevice_of_ne hj dev
  refine ⟨rfl, fun j => ?_, fun j => ?_, fun j => ?_⟩ <;> by_cases hj : j = i
  · rw [hj, hself, hname]
  · rw [hother j hj]
  · rw [hj, hself, hindex]
  · rw [hother j hj]
  · rw [hj, hself]
    exact hactive
  · rw [hother j hj]
    exact id

theorem DevicesOk.quiet (h : DevicesOk x) (hq : Quiet x x') : DevicesOk x' where
  names := by
    intro i j hi hj heq
    rw [hq.name i, hq.name j] at heq
    exact h.names i j (hq.active i hi) (hq.active j hj) heq
  counted := by
    intro hnext
    rw [hq.next] at hnext
    obtain ⟨hapart, hbelow, hunused⟩ := h.counted hnext
    constructor
    · intro i j heq hne
      rw [hq.ifindex i, hq.ifindex j] at heq
      rw [hq.ifindex i] at hne
      exact hapart i j heq hne
    · intro i
      rw [hq.ifindex i, hq.next]
      exact hbelow i
    · intro i hzero
      rw [hq.ifindex i] at hzero
      rw [hq.name i]
      exact hunused i hzero

theorem NetDevice.alloc_ifindex (name : List (BitVec 8)) (type : BitVec 16) (ifindex : BitVec 32) :
    (NetDevice.alloc name type ifindex).ifindex = ifindex := by
  unfold NetDevice.alloc
  split_ifs <;> rfl

theorem NetDevice.alloc_active (name : List (BitVec 8)) (type : BitVec 16) (ifindex : BitVec 32) :
    (NetDevice.alloc name type ifindex).active = false := by
  unfold NetDevice.alloc
  split_ifs <;> rfl

theorem DevicesOk.devAlloc (h : DevicesOk x) (name : List (BitVec 8)) (type : BitVec 16) :
    DevicesOk (x.devAlloc name type).1 := by
  unfold Rtnl.devAlloc
  cases hfree : Fin.find? fun i => !(x.netDevices i).active with
  | none => exact h
  | some i =>
    set dev := NetDevice.alloc name type (BitVec.ofNat 32 x.nextIfindex) with hdev
    have hself := x.setDevice_self i dev
    have hother : ∀ j ≠ i, (x.setDevice i dev).netDevices j = x.netDevices j :=
      fun j hj => x.setDevice_of_ne hj dev
    have hindex : dev.ifindex = BitVec.ofNat 32 x.nextIfindex := NetDevice.alloc_ifindex _ _ _
    have hinactive : dev.active = false := NetDevice.alloc_active _ _ _
    constructor
    · intro a b ha hb heq
      have hne : ∀ c, ((x.setDevice i dev).netDevices c).active = true → c ≠ i := by
        intro c hc hci
        rw [hci, hself, hinactive] at hc
        cases hc
      have hakept := hother a (hne a ha)
      have hbkept := hother b (hne b hb)
      apply h.names a b
      · rw [← hakept]
        exact ha
      · rw [← hbkept]
        exact hb
      · rw [← hakept, ← hbkept]
        exact heq
    · intro hnext
      replace hnext : x.nextIfindex + 1 ≤ 2 ^ 32 := hnext
      obtain ⟨hapart, hbelow, hunused⟩ := h.counted (by omega)
      have hnat : dev.ifindex.toNat = x.nextIfindex := by
        rw [hindex, BitVec.toNat_ofNat]
        omega
      -- the new index is above all the others
      have hfresh : ∀ j, (x.netDevices j).ifindex ≠ dev.ifindex := by
        intro j heq
        have hlt := hbelow j
        rw [heq, hnat] at hlt
        omega
      have hpos : dev.ifindex ≠ 0 := by
        intro hzero
        have hlt := hbelow i
        rw [hzero] at hnat
        replace hnat : 0 = x.nextIfindex := hnat
        omega
      constructor
      · intro a b heq hne
        replace heq : ((x.setDevice i dev).netDevices a).ifindex = ((x.setDevice i dev).netDevices b).ifindex :=
          heq
        replace hne : ((x.setDevice i dev).netDevices a).ifindex ≠ 0 := hne
        by_cases ha : a = i <;> by_cases hb : b = i
        · exact ha.trans hb.symm
        · rw [ha, hself, hother b hb] at heq
          exact absurd heq.symm (hfresh b)
        · rw [hb, hself, hother a ha] at heq
          exact absurd heq (hfresh a)
        · rw [hother a ha, hother b hb] at heq
          rw [hother a ha] at hne
          exact hapart a b heq hne
      · intro a
        show ((x.setDevice i dev).netDevices a).ifindex.toNat < x.nextIfindex + 1
        by_cases ha : a = i
        · rw [ha, hself, hnat]
          exact Nat.lt_succ_self _
        · rw [hother a ha]
          have hlt := hbelow a
          omega
      · intro a hzero
        replace hzero : ((x.setDevice i dev).netDevices a).ifindex = 0 := hzero
        show ((x.setDevice i dev).netDevices a).name = []
        by_cases ha : a = i
        · rw [ha, hself] at hzero
          exact absurd hzero hpos
        · rw [hother a ha] at hzero ⊢
          exact hunused a hzero

theorem DevicesOk.devRegister (h : DevicesOk x) (i : Fin maxNetDevices) : DevicesOk (x.devRegister i).1 := by
  unfold Rtnl.devRegister
  split_ifs with htaken
  · exact h
  set dev : NetDevice := { x.netDevices i with active := true } with hdev
  have hself := x.setDevice_self i dev
  have hother : ∀ j ≠ i, (x.setDevice i dev).netDevices j = x.netDevices j :=
    fun j hj => x.setDevice_of_ne hj dev
  have hname : ∀ j, ((x.setDevice i dev).netDevices j).name = (x.netDevices j).name := by
    intro j
    by_cases hj : j = i
    · rw [hj, hself]
    · rw [hother j hj]
  have hindex : ∀ j, ((x.setDevice i dev).netDevices j).ifindex = (x.netDevices j).ifindex := by
    intro j
    by_cases hj : j = i
    · rw [hj, hself]
    · rw [hother j hj]
  constructor
  · intro a b ha hb heq
    replace ha : ((x.setDevice i dev).netDevices a).active = true := ha
    replace hb : ((x.setDevice i dev).netDevices b).active = true := hb
    replace heq : ((x.setDevice i dev).netDevices a).name = ((x.setDevice i dev).netDevices b).name := heq
    rw [hname a, hname b] at heq
    by_cases hai : a = i <;> by_cases hbi : b = i
    · exact hai.trans hbi.symm
    · rw [hother b hbi] at hb
      rw [hai] at heq
      exact absurd ⟨b, hb, heq.symm, hbi⟩ htaken
    · rw [hother a hai] at ha
      rw [hbi] at heq
      exact absurd ⟨a, ha, heq, hai⟩ htaken
    · rw [hother a hai] at ha
      rw [hother b hbi] at hb
      exact h.names a b ha hb heq
  · intro hnext
    obtain ⟨hapart, hbelow, hunused⟩ := h.counted hnext
    constructor
    · intro a b heq hne
      apply hapart a b
      · rw [← hindex a, ← hindex b]
        exact heq
      · rw [← hindex a]
        exact hne
    · intro a
      show ((x.setDevice i dev).netDevices a).ifindex.toNat < x.nextIfindex
      rw [hindex a]
      exact hbelow a
    · intro a hzero
      show ((x.setDevice i dev).netDevices a).name = []
      rw [hname a]
      apply hunused a
      rw [← hindex a]
      exact hzero

theorem NetDevice.follow_eq (dev : NetDevice) :
    dev.follow.name = dev.name ∧ dev.follow.ifindex = dev.ifindex ∧ dev.follow.active = dev.active := by
  unfold NetDevice.follow
  split_ifs <;> exact ⟨rfl, rfl, rfl⟩

theorem quiet_follow {i : Fin maxNetDevices} {dev : NetDevice} (hname : dev.name = (x.netDevices i).name)
    (hindex : dev.ifindex = (x.netDevices i).ifindex) (hactive : dev.active = (x.netDevices i).active) :
    Quiet x (x.setDevice i dev.follow) := by
  obtain ⟨hn, hi, ha⟩ := NetDevice.follow_eq dev
  apply quiet_setDevice (hn.trans hname) (hi.trans hindex)
  rw [ha, hactive]
  exact id

theorem DevicesOk.devUnregister (h : DevicesOk x) (i : Fin maxNetDevices) : DevicesOk (x.devUnregister i) := by
  apply h.quiet
  exact quiet_setDevice rfl rfl fun hactive => absurd hactive Bool.false_ne_true

theorem DevicesOk.createLink (h : DevicesOk x) (m : IfInfoMsg) (name : List (BitVec 8)) (type : BitVec 16) :
    DevicesOk (x.createLink m name type).1 := by
  have halloc := h.devAlloc name type
  unfold Rtnl.createLink
  cases hdev : x.devAlloc name type with
  | mk x' slot =>
    rw [hdev] at halloc
    cases slot with
    | none => exact halloc
    | some i =>
      apply DevicesOk.devRegister
      exact halloc.quiet (quiet_setDevice rfl rfl id)

theorem DevicesOk.newLink (h : DevicesOk x) (m : IfInfoMsg) : DevicesOk (x.newLink m).1 := by
  unfold Rtnl.newLink
  cases (x.linkByIndex m).or (m.ifname.bind x.devGetByName) with
  | some i => exact h.quiet (quiet_follow rfl rfl rfl)
  | none =>
    dsimp only
    split_ifs
    · exact h
    · exact h.createLink m _ _
    · exact h.createLink m _ _
    · exact h

theorem DevicesOk.setLink (h : DevicesOk x) (m : IfInfoMsg) : DevicesOk (x.setLink m).1 := by
  unfold Rtnl.setLink
  cases x.linkByIndex m with
  | none => exact h
  | some i => exact h.quiet (quiet_follow rfl rfl rfl)

theorem DevicesOk.delLink (h : DevicesOk x) (m : IfInfoMsg) : DevicesOk (x.delLink m).1 := by
  unfold Rtnl.delLink
  cases x.linkByIndex m with
  | none => exact h
  | some i =>
    dsimp only
    split_ifs
    · exact h
    · exact h.devUnregister i

theorem DevicesOk.routes (h : DevicesOk x) (t : RouteTable) : DevicesOk { x with routeTable := t } :=
  h.quiet ⟨rfl, fun _ => rfl, fun _ => rfl, fun _ hactive => hactive⟩

theorem DevicesOk.addAddr (h : DevicesOk x) (i : Fin maxNetDevices) (a : NetDeviceAddr) :
    DevicesOk (x.addAddr i a) :=
  h.quiet (quiet_setDevice rfl rfl id)

theorem DevicesOk.dropAddr (h : DevicesOk x) (i : Fin maxNetDevices) (family prefixlen : BitVec 8)
    (addr : ℕ → BitVec 8) : DevicesOk (x.dropAddr i family prefixlen addr).1 := by
  unfold Rtnl.dropAddr
  dsimp only
  split
  · exact h
  · exact h.quiet (quiet_setDevice rfl rfl id)

theorem dropAddr_routeTable (i : Fin maxNetDevices) (family prefixlen : BitVec 8) (addr : ℕ → BitVec 8) :
    (x.dropAddr i family prefixlen addr).1.routeTable = x.routeTable := by
  unfold dropAddr
  dsimp only
  split <;> rfl

theorem devRegister_routeTable (i : Fin maxNetDevices) : (x.devRegister i).1.routeTable = x.routeTable := by
  unfold devRegister
  split_ifs <;> rfl

theorem devAlloc_routeTable (name : List (BitVec 8)) (type : BitVec 16) :
    (x.devAlloc name type).1.routeTable = x.routeTable := by
  unfold devAlloc
  split <;> rfl

theorem createLink_routeTable (m : IfInfoMsg) (name : List (BitVec 8)) (type : BitVec 16) :
    (x.createLink m name type).1.routeTable = x.routeTable := by
  have hkept := devAlloc_routeTable (x := x) name type
  unfold createLink
  cases hdev : x.devAlloc name type with
  | mk x' slot =>
    rw [hdev] at hkept
    cases slot with
    | none => exact hkept
    | some i => exact (devRegister_routeTable i).trans hkept

theorem newLink_routeTable (m : IfInfoMsg) : (x.newLink m).1.routeTable = x.routeTable := by
  unfold newLink
  cases (x.linkByIndex m).or (m.ifname.bind x.devGetByName) with
  | some i => rfl
  | none =>
    dsimp only
    split_ifs
    · rfl
    · exact createLink_routeTable m _ _
    · exact createLink_routeTable m _ _
    · rfl

theorem edited_routeAdd (x : Rtnl) (route : RtEntry) : x.routeTable.Edited (x.routeAdd route).1.routeTable := by
  simp only [routeAdd]
  exact RouteTable.Edited.add x.routeTable route

theorem edited_routeDel (x : Rtnl) (request : RtEntry) :
    x.routeTable.Edited (x.routeDel request).1.routeTable := by
  simp only [routeDel]
  exact RouteTable.Edited.del x.routeTable request

theorem edited_addAddr (i : Fin maxNetDevices) (a : NetDeviceAddr) (route : RtEntry) :
    x.routeTable.Edited ((x.addAddr i a).routeAdd route).1.routeTable :=
  edited_routeAdd (x.addAddr i a) route

theorem edited_newAddr (m : IfAddrMsg) : x.routeTable.Edited (x.newAddr m).1.routeTable := by
  unfold newAddr
  cases x.devGetByIndex m.index with
  | none => exact .refl
  | some i =>
    dsimp only
    split_ifs
    · exact .refl
    · exact .refl
    · dsimp only
      exact Relation.ReflTransGen.trans (edited_addAddr i _ _) (edited_routeAdd _ _)
    · dsimp only
      exact edited_addAddr i _ _

theorem DevicesOk.newAddr (h : DevicesOk x) (m : IfAddrMsg) : DevicesOk (x.newAddr m).1 := by
  unfold Rtnl.newAddr
  cases x.devGetByIndex m.index with
  | none => exact h
  | some i =>
    dsimp only
    split_ifs
    · exact h
    · exact h
    · exact ((h.addAddr i _).routes _).routes _
    · exact (h.addAddr i _).routes _

theorem DevicesOk.step (h : DevicesOk x) (call : RtnlCall) : DevicesOk (x.step call) := by
  cases call with
  | devAlloc name type => exact h.devAlloc name type
  | devRegister i => exact h.devRegister i
  | devUnregister i => exact h.devUnregister i
  | addrAdd ifindex family addr prefixlen scope flags =>
    show DevicesOk (x.addrAdd ifindex family addr prefixlen scope flags).1
    unfold Rtnl.addrAdd
    cases x.devGetByIndex ifindex with
    | none => exact h
    | some i =>
      dsimp only
      split_ifs
      · exact h
      · exact h.addAddr i _
  | addrDel ifindex family addr prefixlen =>
    show DevicesOk (x.addrDel ifindex family addr prefixlen).1
    unfold Rtnl.addrDel
    cases x.devGetByIndex ifindex with
    | none => exact h
    | some i => exact h.dropAddr i family prefixlen addr
  | routeAdd route => exact h.routes _
  | routeDel request => exact h.routes _
  | newLink m => exact h.newLink m
  | setLink m => exact h.setLink m
  | delLink m => exact h.delLink m
  | newAddr m => exact h.newAddr m
  | delAddr m =>
    show DevicesOk (x.delAddr m).1
    unfold Rtnl.delAddr
    cases x.devGetByIndex m.index with
    | none => exact h
    | some i =>
      cases m.address.or m.ipLocal with
      | none => exact h
      | some attr => exact h.dropAddr i m.family m.prefixlen attr.data
  | newRoute m => exact h.routes _
  | delRoute m => exact h.routes _

theorem edited_step (x : Rtnl) (call : RtnlCall) : x.routeTable.Edited (x.step call).routeTable := by
  have hsame : ∀ {t : RouteTable}, t = x.routeTable → x.routeTable.Edited t := by
    intro t ht
    rw [ht]
    exact .refl
  cases call with
  | devAlloc name type => exact hsame (devAlloc_routeTable name type)
  | devRegister i => exact hsame (devRegister_routeTable i)
  | devUnregister i => exact hsame rfl
  | addrAdd ifindex family addr prefixlen scope flags =>
    apply hsame
    show (x.addrAdd ifindex family addr prefixlen scope flags).1.routeTable = x.routeTable
    unfold addrAdd
    cases x.devGetByIndex ifindex with
    | none => rfl
    | some i =>
      dsimp only
      split_ifs <;> rfl
  | addrDel ifindex family addr prefixlen =>
    apply hsame
    show (x.addrDel ifindex family addr prefixlen).1.routeTable = x.routeTable
    unfold addrDel
    cases x.devGetByIndex ifindex with
    | none => rfl
    | some i => exact dropAddr_routeTable i family prefixlen addr
  | routeAdd route => exact edited_routeAdd x route
  | routeDel request => exact edited_routeDel x request
  | newLink m => exact hsame (newLink_routeTable m)
  | setLink m =>
    apply hsame
    show (x.setLink m).1.routeTable = x.routeTable
    unfold setLink
    cases x.linkByIndex m <;> rfl
  | delLink m =>
    apply hsame
    show (x.delLink m).1.routeTable = x.routeTable
    unfold delLink
    cases x.linkByIndex m with
    | none => rfl
    | some i =>
      dsimp only
      split_ifs <;> rfl
  | newAddr m => exact edited_newAddr m
  | delAddr m =>
    apply hsame
    show (x.delAddr m).1.routeTable = x.routeTable
    unfold delAddr
    cases x.devGetByIndex m.index with
    | none => rfl
    | some i =>
      cases m.address.or m.ipLocal with
      | none => rfl
      | some attr => exact dropAddr_routeTable i m.family m.prefixlen attr.data
  | newRoute m => exact edited_routeAdd x m.newRoute
  | delRoute m => exact edited_routeDel x m.delRoute

theorem run_ok (calls : List RtnlCall) : DevicesOk (run calls) ∧ (run calls).routeTable.Keyed := by
  induction calls using List.reverseRecOn with
  | nil =>
    refine ⟨devicesOk_init, fun i j hi => ?_⟩
    cases hi
  | append_singleton calls call ih =>
    have hrun : run (calls ++ [call]) = (run calls).step call := List.foldl_concat ..
    rw [hrun]
    exact ⟨ih.1.step call, ih.2.edited (edited_step _ call)⟩

end Rtnl

/-- After any calls and messages the tables are keyed. Every edit of the route table is an addition that
changes the slot of its key or a free one, or a deletion of one route or of none. A deletion takes a route
that matches the request if and only if the gateway of an IPv6 request fits. -/
theorem rtnl_keyed (calls : List RtnlCall) :
    (Rtnl.run calls).routeTable.Keyed ∧ (Rtnl.run calls).NamesDistinct ∧
    ((Rtnl.run calls).nextIfindex ≤ 2 ^ 32 → (Rtnl.run calls).IndicesDistinct) ∧
    (∀ call, (Rtnl.run calls).routeTable.Edited ((Rtnl.run calls).step call).routeTable) ∧
    (∀ t : RouteTable, ∀ route, t.Adds route (t.add route).1 (t.add route).2) ∧
    (∀ t : RouteTable, ∀ request, t.Removes (fun _ => True) (t.del request).1 (t.del request).2) ∧
    ∀ t : RouteTable, ∀ request,
      t.Removes (·.Matches request) (t.del request).1 (t.del request).2 ↔ t.GatewayFits request := by
  obtain ⟨hdevices, hkeyed⟩ := Rtnl.run_ok calls
  refine ⟨hkeyed, hdevices.names, hdevices.indicesDistinct, fun call => Rtnl.edited_step _ call,
    RouteTable.add_adds, ?_, RouteTable.removes_iff⟩
  intro t request
  obtain ⟨hr, i, hactive, -, hi, hother⟩ | hfail := t.del_removes request
  · exact Or.inl ⟨hr, i, hactive, trivial, hi, hother⟩
  · exact Or.inr hfail

/-- A message for an IPv6 route to the zero address, with a gateway. -/
def ipv6Route (gateway : BitVec 8) : RtMsg where
  family := afInet6
  dstLen := 128
  srcLen := 0
  tos := 0
  table := rtTableMain
  protocol := rtprotBoot
  scope := rtScopeUniverse
  type := rtnUnicast
  flags := 0
  dst := none
  gateway := some ⟨16, fun _ => gateway⟩
  oif := none
  priority := none
  prefsrc := none
  rtaTable := none

/-- The deletion of a route by one gateway takes the route by another. -/
theorem gateway_ignored : ∃ i, ∃ x, x = Rtnl.run [.newRoute (ipv6Route 1)] ∧
    (x.routeDel (ipv6Route 2).delRoute).2 = .ok () ∧ (x.routeTable i).active = true ∧
    ((x.step (.delRoute (ipv6Route 2))).routeTable i).active = false ∧
    ¬(x.routeTable i).Matches (ipv6Route 2).delRoute := by
  refine ⟨⟨0, by decide⟩, _, rfl, ?_⟩
  decide +kernel

end CoolPotOS
