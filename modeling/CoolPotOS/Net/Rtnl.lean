import Mathlib

namespace CoolPotOS

def maxNetDevices : ℕ := 64

def maxIfAddrs : ℕ := 16

def maxRoutes : ℕ := 256

def ifNamSiz : ℕ := 16

def afInet : BitVec 8 := 2
def afInet6 : BitVec 8 := 10

def arphrdEther : BitVec 16 := 1
def arphrdLoopback : BitVec 16 := 772

def iffUp : BitVec 32 := 0x1
def iffBroadcast : BitVec 32 := 0x2
def iffLoopback : BitVec 32 := 0x8
def iffRunning : BitVec 32 := 0x40
def iffMulticast : BitVec 32 := 0x1000
def iffLowerUp : BitVec 32 := 0x10000

def ifOperDown : BitVec 8 := 2
def ifOperUp : BitVec 8 := 6

def rtnUnspec : BitVec 8 := 0
def rtnUnicast : BitVec 8 := 1
def rtnLocal : BitVec 8 := 2

def rtprotUnspec : BitVec 8 := 0
def rtprotKernel : BitVec 8 := 2
def rtprotBoot : BitVec 8 := 3

def rtScopeUniverse : BitVec 8 := 0
def rtScopeLink : BitVec 8 := 253
def rtScopeHost : BitVec 8 := 254
def rtScopeNowhere : BitVec 8 := 255

def rtTableUnspec : BitVec 8 := 0
def rtTableMain : BitVec 8 := 254
def rtTableLocal : BitVec 8 := 255

inductive RtnlError
  | einval | enodev | enomem | eexist | eperm | enospc | esrch | eaddrnotavail
  deriving DecidableEq

/-- The bytes of an address. An IPv4 address is in the first four. -/
abbrev InetAddr := Fin 16 → BitVec 8

def addrSize (family : BitVec 8) : ℕ := if family = afInet then 4 else 16

/-- `memcmp` finds the first `n` bytes equal. -/
def InetAddr.Agree (n : ℕ) (a b : InetAddr) : Prop := ∀ k : Fin 16, k.val < n → a k = b k

instance (n : ℕ) (a b : InetAddr) : Decidable (a.Agree n b) :=
  inferInstanceAs (Decidable (∀ k : Fin 16, k.val < n → a k = b k))

/-- An attribute with an address: `nla_len`, and the bytes from `nla_data` on. -/
structure Nlattr where
  len : ℕ
  data : ℕ → BitVec 8

def Nlattr.copy (size : ℕ) : Option Nlattr → InetAddr
  | some attr => fun k => if k.val < min attr.len size then attr.data k else 0
  | none => fun _ => 0

structure RtEntry where
  family : BitVec 8 := 0
  dstLen : BitVec 8 := 0
  srcLen : BitVec 8 := 0
  tos : BitVec 8 := 0
  table : BitVec 8 := 0
  protocol : BitVec 8 := 0
  scope : BitVec 8 := 0
  type : BitVec 8 := 0
  flags : BitVec 32 := 0
  dst : InetAddr := fun _ => 0
  gateway : InetAddr := fun _ => 0
  prefsrc : InetAddr := fun _ => 0
  oif : BitVec 32 := 0
  priority : BitVec 32 := 0
  active : Bool := false

abbrev RouteTable := Fin maxRoutes → RtEntry

namespace RtEntry

def SameKey (existing route : RtEntry) : Prop :=
  existing.family = route.family ∧ existing.dstLen = route.dstLen ∧ existing.table = route.table ∧
    existing.dst.Agree (addrSize route.family) route.dst

instance (existing route : RtEntry) : Decidable (existing.SameKey route) := by
  unfold SameKey
  infer_instance

def GwSpecified (route : RtEntry) : Prop := route.family = afInet ∧ ¬ route.gateway.Agree 4 fun _ => 0

instance (route : RtEntry) : Decidable route.GwSpecified := by
  unfold GwSpecified
  infer_instance

/-- The family, the prefix and, if it is given, the table are those of the request. -/
def Covers (existing request : RtEntry) : Prop :=
  existing.family = request.family ∧ existing.dstLen = request.dstLen ∧
    existing.dst.Agree (addrSize request.family) request.dst ∧
    (request.table = rtTableUnspec ∨ existing.table = request.table)

instance (existing request : RtEntry) : Decidable (existing.Covers request) := by
  unfold Covers
  infer_instance

def Selects (existing request : RtEntry) : Prop :=
  existing.Covers request ∧
    (request.GwSpecified → existing.gateway.Agree (addrSize request.family) request.gateway)

instance (existing request : RtEntry) : Decidable (existing.Selects request) := by
  unfold Selects
  infer_instance

end RtEntry

namespace RouteTable

variable (t : RouteTable)

def put (i : Fin maxRoutes) (route : RtEntry) : RouteTable := Function.update t i { route with active := true }

def free (i : Fin maxRoutes) : RouteTable := Function.update t i { t i with active := false }

def add (route : RtEntry) : RouteTable × Except RtnlError Unit :=
  match Fin.find? fun i => decide ((t i).active = true ∧ (t i).SameKey route) with
  | some i => (t.put i route, .ok ())
  | none =>
    match Fin.find? fun i => !(t i).active with
    | some i => (t.put i route, .ok ())
    | none => (t, .error .enospc)

def del (request : RtEntry) : RouteTable × Except RtnlError Unit :=
  match Fin.find? fun i => decide ((t i).active = true ∧ (t i).Selects request) with
  | some i => (t.free i, .ok ())
  | none => (t, .error .esrch)

end RouteTable

structure NetDeviceAddr where
  family : BitVec 8
  prefixlen : BitVec 8
  flags : BitVec 8
  scope : BitVec 8
  addr : InetAddr
  broadcast : InetAddr
  ipLocal : InetAddr
  label : List (BitVec 8)

structure NetDevice where
  name : List (BitVec 8) := []
  ifindex : BitVec 32 := 0
  type : BitVec 16 := 0
  flags : BitVec 32 := 0
  mtu : BitVec 32 := 0
  txqlen : BitVec 32 := 0
  addrLen : BitVec 8 := 0
  operstate : BitVec 8 := 0
  addrs : List NetDeviceAddr := []
  active : Bool := false

/-- What `strncpy(name, str, IFNAMSIZ - 1)` leaves of a string. -/
def ifName (str : List (BitVec 8)) : List (BitVec 8) := (str.takeWhile (· ≠ 0)).take (ifNamSiz - 1)

def NetDevice.alloc (name : List (BitVec 8)) (type : BitVec 16) (ifindex : BitVec 32) : NetDevice :=
  let dev : NetDevice := {
    name := ifName name
    type := type
    ifindex := ifindex
    mtu := 1500
    txqlen := 1000
    operstate := ifOperDown }
  if type = arphrdEther then
    { dev with
      addrLen := 6
      flags := iffBroadcast ||| iffMulticast }
  else if type = arphrdLoopback then
    { dev with
      addrLen := 6
      flags := iffLoopback ||| iffUp ||| iffRunning ||| iffLowerUp
      operstate := ifOperUp
      mtu := 65536 }
  else dev

/-- The end of `RTM_NEWLINK` and `RTM_SETLINK`: the state follows `IFF_UP`. -/
def NetDevice.follow (dev : NetDevice) : NetDevice :=
  if dev.flags &&& iffUp ≠ 0 then
    { dev with
      operstate := ifOperUp
      flags := dev.flags ||| (iffRunning ||| iffLowerUp) }
  else
    { dev with
      operstate := ifOperDown
      flags := dev.flags &&& ~~~(iffRunning ||| iffLowerUp) }

/-- The two tables. `nextIfindex` counts on where the source wraps: an index is its low 32 bits. A
message comes with its attributes found; replies and notifications change no table, and no device
has a wireless handler. -/
structure Rtnl where
  netDevices : Fin maxNetDevices → NetDevice
  nextIfindex : ℕ
  routeTable : RouteTable

def Rtnl.init : Rtnl := ⟨fun _ => {}, 1, fun _ => {}⟩

/-- `struct ifinfomsg`, `NLM_F_CREATE` of the header and the attributes. -/
structure IfInfoMsg where
  index : BitVec 32
  type : BitVec 16
  flags : BitVec 32
  change : BitVec 32
  create : Bool
  ifname : Option (List (BitVec 8))
  mtu : Option (BitVec 32)
  txqlen : Option (BitVec 32)

/-- `struct ifaddrmsg` and its attributes. -/
structure IfAddrMsg where
  family : BitVec 8
  prefixlen : BitVec 8
  flags : BitVec 8
  scope : BitVec 8
  index : BitVec 32
  address : Option Nlattr
  ipLocal : Option Nlattr
  broadcast : Option Nlattr
  label : Option (List (BitVec 8))

/-- `struct rtmsg` and its attributes. -/
structure RtMsg where
  family : BitVec 8
  dstLen : BitVec 8
  srcLen : BitVec 8
  tos : BitVec 8
  table : BitVec 8
  protocol : BitVec 8
  scope : BitVec 8
  type : BitVec 8
  flags : BitVec 32
  dst : Option Nlattr
  gateway : Option Nlattr
  oif : Option (BitVec 32)
  priority : Option (BitVec 32)
  prefsrc : Option Nlattr
  rtaTable : Option (BitVec 32)

namespace Rtnl

variable (x : Rtnl)

def setDevice (i : Fin maxNetDevices) (dev : NetDevice) : Rtnl :=
  { x with netDevices := Function.update x.netDevices i dev }

def devAlloc (name : List (BitVec 8)) (type : BitVec 16) : Rtnl × Option (Fin maxNetDevices) :=
  match Fin.find? fun i => !(x.netDevices i).active with
  | none => (x, none)
  | some i =>
    let dev := NetDevice.alloc name type (BitVec.ofNat 32 x.nextIfindex)
    ({ x.setDevice i dev with nextIfindex := x.nextIfindex + 1 }, some i)

def devRegister (i : Fin maxNetDevices) : Rtnl × Except RtnlError Unit :=
  if ∃ j, (x.netDevices j).active = true ∧ (x.netDevices j).name = (x.netDevices i).name ∧ j ≠ i then
    (x, .error .eexist)
  else (x.setDevice i { x.netDevices i with active := true }, .ok ())

def devUnregister (i : Fin maxNetDevices) : Rtnl := x.setDevice i { x.netDevices i with active := false }

def devGetByIndex (ifindex : BitVec 32) : Option (Fin maxNetDevices) :=
  Fin.find? fun i => decide ((x.netDevices i).active = true ∧ (x.netDevices i).ifindex = ifindex)

def devGetByName (name : List (BitVec 8)) : Option (Fin maxNetDevices) :=
  Fin.find? fun i =>
    decide ((x.netDevices i).active = true ∧ (x.netDevices i).name = name.takeWhile (· ≠ 0))

def routeAdd (route : RtEntry) : Rtnl × Except RtnlError Unit :=
  ({ x with routeTable := (x.routeTable.add route).1 }, (x.routeTable.add route).2)

def routeDel (request : RtEntry) : Rtnl × Except RtnlError Unit :=
  ({ x with routeTable := (x.routeTable.del request).1 }, (x.routeTable.del request).2)

/-- The device with a positive index, as `rtnl_link_doit` looks for it. -/
def linkByIndex (m : IfInfoMsg) : Option (Fin maxNetDevices) :=
  if 0 < m.index.toInt then x.devGetByIndex m.index else none

/-- The end of `RTM_NEWLINK` for a new device. -/
def createLink (m : IfInfoMsg) (name : List (BitVec 8)) (type : BitVec 16) : Rtnl × Except RtnlError Unit :=
  match x.devAlloc name type with
  | (x, none) => (x, .error .enomem)
  | (x, some i) =>
    let dev := x.netDevices i
    (x.setDevice i { dev with mtu := m.mtu.getD dev.mtu }).devRegister i

def newLink (m : IfInfoMsg) : Rtnl × Except RtnlError Unit :=
  match (x.linkByIndex m).or (m.ifname.bind x.devGetByName) with
  | some i =>
    let dev := x.netDevices i
    let flags :=
      if m.change &&& iffUp ≠ 0 then
        if m.flags &&& iffUp ≠ 0 then dev.flags ||| iffUp else dev.flags &&& ~~~iffUp
      else dev.flags
    let dev : NetDevice := { dev with
      flags := (flags &&& ~~~m.change) ||| (m.flags &&& m.change)
      mtu := m.mtu.getD dev.mtu
      txqlen := m.txqlen.getD dev.txqlen }
    (x.setDevice i dev.follow, .ok ())
  | none =>
    if m.create then
      let name := (m.ifname.map ifName).getD []
      if name = [] then (x, .error .einval)
      else x.createLink m name (if m.type ≠ 0 then m.type else arphrdEther)
    else (x, .error .enodev)

def setLink (m : IfInfoMsg) : Rtnl × Except RtnlError Unit :=
  match x.linkByIndex m with
  | none => (x, .error .enodev)
  | some i =>
    let dev := x.netDevices i
    let dev : NetDevice := { dev with
      flags := if m.change ≠ 0 then (dev.flags &&& ~~~m.change) ||| (m.flags &&& m.change) else dev.flags
      mtu := m.mtu.getD dev.mtu }
    (x.setDevice i dev.follow, .ok ())

def delLink (m : IfInfoMsg) : Rtnl × Except RtnlError Unit :=
  match x.linkByIndex m with
  | none => (x, .error .enodev)
  | some i =>
    if (x.netDevices i).flags &&& iffLoopback ≠ 0 then (x, .error .eperm)
    else (x.devUnregister i, .ok ())

/-- Byte `k` of the mask of an IPv4 prefix, in network order. -/
def ipv4Mask (prefixlen : BitVec 8) (k : Fin 16) : BitVec 8 :=
  ((~~~(((1 : BitVec 32) <<< (32 - prefixlen.toNat)) - 1)) >>> (8 * (3 - k.val))).setWidth 8

/-- The first four bytes of an address, when the family is `AF_INET`. -/
def ipv4Part (family : BitVec 8) (a : InetAddr) : InetAddr :=
  fun k => if family = afInet ∧ k.val < 4 then a k else 0

def maxPrefix (family : BitVec 8) : BitVec 8 := if family = afInet then 32 else 128

def addAddr (i : Fin maxNetDevices) (a : NetDeviceAddr) : Rtnl :=
  x.setDevice i { x.netDevices i with addrs := (x.netDevices i).addrs ++ [a] }

/-- The first address of the device with the family, the prefix length and the bytes is removed. -/
def dropAddr (i : Fin maxNetDevices) (family prefixlen : BitVec 8) (addr : ℕ → BitVec 8) :
    Rtnl × Except RtnlError Unit :=
  let addrs := (x.netDevices i).addrs
  match addrs.findIdx? fun a => decide (a.family = family ∧ a.prefixlen = prefixlen ∧
      a.addr.Agree (addrSize family) fun k => addr k) with
  | none => (x, .error .eaddrnotavail)
  | some n => (x.setDevice i { x.netDevices i with addrs := addrs.eraseIdx n }, .ok ())

def newAddrEntry (m : IfAddrMsg) (name : List (BitVec 8)) : NetDeviceAddr where
  family := m.family
  prefixlen := m.prefixlen
  flags := m.flags
  scope := m.scope
  addr := Nlattr.copy (addrSize m.family) m.address
  ipLocal := Nlattr.copy (addrSize m.family) (m.ipLocal.or m.address)
  broadcast := Nlattr.copy (addrSize m.family) m.broadcast
  label := ifName (m.label.getD name)

def localRt (m : IfAddrMsg) (a : NetDeviceAddr) (ifindex : BitVec 32) : RtEntry where
  family := m.family
  dstLen := maxPrefix m.family
  table := rtTableLocal
  protocol := rtprotKernel
  scope := rtScopeHost
  type := rtnLocal
  oif := ifindex
  dst := ipv4Part m.family a.ipLocal
  prefsrc := ipv4Part m.family a.ipLocal

def subnetRt (m : IfAddrMsg) (a : NetDeviceAddr) (ifindex : BitVec 32) : RtEntry where
  family := m.family
  dstLen := m.prefixlen
  table := rtTableMain
  protocol := rtprotKernel
  scope := rtScopeLink
  type := rtnUnicast
  oif := ifindex
  dst := ipv4Part m.family fun k => a.addr k &&& ipv4Mask m.prefixlen k
  prefsrc := ipv4Part m.family a.ipLocal

/-- `RTM_NEWADDR`. The results of the two `rtnl_route_add` are not looked at. -/
def newAddr (m : IfAddrMsg) : Rtnl × Except RtnlError Unit :=
  match x.devGetByIndex m.index with
  | none => (x, .error .enodev)
  | some i =>
    let dev := x.netDevices i
    if m.address.isNone ∧ m.ipLocal.isNone then (x, .error .einval)
    else if dev.addrs.length ≥ maxIfAddrs then (x, .error .enospc)
    else
      let a := newAddrEntry m dev.name
      let x := ((x.addAddr i a).routeAdd (localRt m a dev.ifindex)).1
      if 0 < m.prefixlen ∧ m.prefixlen < maxPrefix m.family then
        ((x.routeAdd (subnetRt m a dev.ifindex)).1, .ok ())
      else (x, .ok ())

def delAddr (m : IfAddrMsg) : Rtnl × Except RtnlError Unit :=
  match x.devGetByIndex m.index with
  | none => (x, .error .enodev)
  | some i =>
    match m.address.or m.ipLocal with
    | none => (x, .error .einval)
    | some attr => x.dropAddr i m.family m.prefixlen attr.data

def addrAdd (ifindex : BitVec 32) (family : BitVec 8) (addr : ℕ → BitVec 8) (prefixlen scope flags : BitVec 8) :
    Rtnl × Except RtnlError Unit :=
  match x.devGetByIndex ifindex with
  | none => (x, .error .enodev)
  | some i =>
    let dev := x.netDevices i
    if dev.addrs.length ≥ maxIfAddrs then (x, .error .enospc)
    else
      let a : InetAddr := fun k => if k.val < addrSize family then addr k else 0
      (x.addAddr i {
        family := family
        prefixlen := prefixlen
        flags := flags
        scope := scope
        addr := a
        ipLocal := a
        broadcast := fun k =>
          if family = afInet ∧ prefixlen < 32 ∧ k.val < 4 then a k ||| ~~~ipv4Mask prefixlen k else 0
        label := ifName dev.name }, .ok ())

def addrDel (ifindex : BitVec 32) (family : BitVec 8) (addr : ℕ → BitVec 8) (prefixlen : BitVec 8) :
    Rtnl × Except RtnlError Unit :=
  match x.devGetByIndex ifindex with
  | none => (x, .error .enodev)
  | some i => x.dropAddr i family prefixlen addr

end Rtnl

def RtMsg.newRoute (m : RtMsg) : RtEntry :=
  let gateway := Nlattr.copy (addrSize m.family) m.gateway
  let scope := if m.gateway.isSome ∧ m.scope = rtScopeNowhere then rtScopeUniverse else m.scope
  { family := m.family
    dstLen := m.dstLen
    srcLen := m.srcLen
    tos := m.tos
    table := (m.rtaTable.map (·.setWidth 8)).getD (if m.table = rtTableUnspec then rtTableMain else m.table)
    protocol := if m.protocol = rtprotUnspec then rtprotBoot else m.protocol
    scope :=
      if scope = 0 then
        if m.family = afInet ∧ ¬ gateway.Agree 4 fun _ => 0 then rtScopeUniverse else rtScopeLink
      else scope
    type := if m.type = rtnUnspec then rtnUnicast else m.type
    flags := m.flags
    dst := Nlattr.copy (addrSize m.family) m.dst
    gateway := gateway
    prefsrc := Nlattr.copy (addrSize m.family) m.prefsrc
    oif := m.oif.getD 0
    priority := m.priority.getD 0 }

def RtMsg.delRoute (m : RtMsg) : RtEntry where
  family := m.family
  dstLen := m.dstLen
  table := (m.rtaTable.map (·.setWidth 8)).getD m.table
  dst := Nlattr.copy (addrSize m.family) m.dst
  gateway := Nlattr.copy (addrSize m.family) m.gateway

inductive RtnlCall
  | devAlloc (name : List (BitVec 8)) (type : BitVec 16)
  | devRegister (i : Fin maxNetDevices)
  | devUnregister (i : Fin maxNetDevices)
  | addrAdd (ifindex : BitVec 32) (family : BitVec 8) (addr : ℕ → BitVec 8) (prefixlen scope flags : BitVec 8)
  | addrDel (ifindex : BitVec 32) (family : BitVec 8) (addr : ℕ → BitVec 8) (prefixlen : BitVec 8)
  | routeAdd (route : RtEntry)
  | routeDel (request : RtEntry)
  | newLink (m : IfInfoMsg)
  | setLink (m : IfInfoMsg)
  | delLink (m : IfInfoMsg)
  | newAddr (m : IfAddrMsg)
  | delAddr (m : IfAddrMsg)
  | newRoute (m : RtMsg)
  | delRoute (m : RtMsg)

def Rtnl.step (x : Rtnl) : RtnlCall → Rtnl
  | .devAlloc name type => (x.devAlloc name type).1
  | .devRegister i => (x.devRegister i).1
  | .devUnregister i => x.devUnregister i
  | .addrAdd ifindex family addr prefixlen scope flags =>
    (x.addrAdd ifindex family addr prefixlen scope flags).1
  | .addrDel ifindex family addr prefixlen => (x.addrDel ifindex family addr prefixlen).1
  | .routeAdd route => (x.routeAdd route).1
  | .routeDel request => (x.routeDel request).1
  | .newLink m => (x.newLink m).1
  | .setLink m => (x.setLink m).1
  | .delLink m => (x.delLink m).1
  | .newAddr m => (x.newAddr m).1
  | .delAddr m => (x.delAddr m).1
  | .newRoute m => (x.routeAdd m.newRoute).1
  | .delRoute m => (x.routeDel m.delRoute).1

def Rtnl.run (calls : List RtnlCall) : Rtnl := calls.foldl Rtnl.step .init

end CoolPotOS
