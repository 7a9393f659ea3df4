import CoolPotOS.Mem.Bitmap
import CoolPotOS.Mem.PageList

namespace CoolPotOS

def minOrder : ℕ := 12
def maxOrder : ℕ := 31
def orderCount : ℕ := maxOrder - minOrder

/-- `ZONE_DMA_END` and `ZONE_DMA32_END`. -/
def zoneDmaEnd : ℕ := 16 * 2 ^ 20
def zoneDma32End : ℕ := 4 * 2 ^ 30

inductive ZoneType
  | dma | dma32 | normal
  deriving DecidableEq, Repr

def orderToIndex (order : ℕ) : ℕ := order - minOrder
def orderToPages (order : ℕ) : ℕ := 2 ^ (order - minOrder)
def orderToBytes (order : ℕ) : ℕ := 2 ^ order
def orderValid (order : ℕ) : Bool := decide (minOrder ≤ order ∧ order < maxOrder)

/-- `zone_t`; `freeArea` is the array of chains of its `buddy_allocator_t`. -/
structure Zone where
  freeArea : ℕ → List PageList
  zoneStartPfn : ℕ
  zoneEndPfn : ℕ
  managedPages : ℕ
  freePages : ℕ

def zonePhysStart (zone : Zone) : ℕ := zone.zoneStartPfn * pageSize
def zonePhysEnd (zone : Zone) : ℕ := zone.zoneEndPfn * pageSize

/-- The allocator and the bookkeeping it shares with `frame.c` and `page_ref.c`. A function that may
run into the assertion of `metadata_page_alloc` returns `none` where the kernel hangs there. -/
structure Buddy where
  memorySize : ℕ
  zones : ZoneType → Option Zone
  metadata : Metadata
  usingRegions : Bitmap
  usableRegions : Bitmap
  refcount : ℕ → ℤ

/-- `while (pages < count) { if (pages > SIZE_MAX >> 1) return false; pages <<= 1; }`.
After 64 doublings `pages` exceeds `SIZE_MAX >> 1`, so the fuel 64 is never the
reason to stop. -/
def roundUpPages (count : ℕ) : ℕ → ℕ → Option ℕ
  | 0, _ => none
  | fuel + 1, pages =>
    if pages < count then
      if pages > (2 ^ 64 - 1) / 2 then none else roundUpPages count fuel (pages * 2)
    else some pages

def orderOfPages : ℕ → ℕ → ℕ → ℕ
  | 0, _, order => order
  | fuel + 1, tmp, order =>
    if tmp > 1 then orderOfPages fuel (tmp / 2) (order + 1) else order

/-- `count_to_order`: the order and the page count of the smallest power of two
that is at least `count`. -/
def countToOrder (count : ℕ) : Option (ℕ × ℕ) :=
  if count = 0 then none
  else do
    let pages ← roundUpPages count 65 1
    if pages > orderToPages (maxOrder - 1) then none
    else
      let order := orderOfPages 64 pages minOrder
      if orderValid order then some (order, pages) else none

def countToPages (count : ℕ) : Option ℕ := (countToOrder count).map Prod.snd

def zoneBlockValid (zone : Zone) (addr order : ℕ) : Bool :=
  let blockEnd := wrap (addr + orderToBytes order)
  orderValid order && !decide (blockEnd < addr) && decide (addr &&& (orderToBytes order - 1) = 0) &&
    !(decide (addr < zonePhysStart zone) || decide (blockEnd > zonePhysEnd zone))

def Zone.setArea (zone : Zone) (order : ℕ) (chain : List PageList) : Zone :=
  { zone with freeArea := Function.update zone.freeArea (orderToIndex order) chain }

def Zone.area (zone : Zone) (order : ℕ) : List PageList := zone.freeArea (orderToIndex order)

def zonePush (md : Metadata) (zone : Zone) (order block : ℕ) : Option (Metadata × Zone) := do
  let (md, chain) ← pageListPush md (zone.area order) block
  return (md, zone.setArea order chain)

def zonePop (md : Metadata) (zone : Zone) (order : ℕ) : Metadata × Zone × ℕ :=
  let r := pageListPop md (zone.area order)
  (r.1, zone.setArea order r.2.1, r.2.2)

def zoneTake (md : Metadata) (zone : Zone) (order target : ℕ) : Metadata × Zone × Bool :=
  let r := pageListTake md (zone.area order) target
  (r.1, zone.setArea order r.2.1, r.2.2)

/-- The first loop of `buddy_alloc_order_locked`, with `fuel` orders left below
`MAX_ORDER`. It returns the order at which a block was found, and the block. -/
def allocSearch : ℕ → Metadata → Zone → ℕ → Metadata × Zone × ℕ × ℕ
  | 0, md, zone, sourceOrder => (md, zone, sourceOrder, 0)
  | fuel + 1, md, zone, sourceOrder =>
    let r := zonePop md zone sourceOrder
    if r.2.2 ≠ 0 then (r.1, r.2.1, sourceOrder, r.2.2)
    else allocSearch fuel r.1 r.2.1 (sourceOrder + 1)

/-- The second loop: the upper halves go back, from `source_order - 1` down to
`target_order`. -/
def allocSplit (targetOrder block : ℕ) : ℕ → Metadata → Zone → Option (Metadata × Zone)
  | 0, md, zone => some (md, zone)
  | n + 1, md, zone => do
    let sourceOrder := targetOrder + n
    let (md, zone) ← zonePush md zone sourceOrder (block + orderToBytes sourceOrder)
    allocSplit targetOrder block n md zone

def buddyAllocOrderLocked (md : Metadata) (zone : Zone) (targetOrder : ℕ) :
    Option (Metadata × Zone × ℕ) :=
  let r := allocSearch (maxOrder - targetOrder) md zone targetOrder
  if r.2.2.2 = 0 then some (r.1, r.2.1, 0)
  else do
    let (md, zone) ← allocSplit targetOrder r.2.2.2 (r.2.2.1 - targetOrder) r.1 r.2.1
    return (md, zone, r.2.2.2)

/-- The merging loop of `buddy_free_zone_locked`, with `fuel` orders left below
`MAX_ORDER - 1`. It returns the merged block and its order. -/
def freeMerge : ℕ → Metadata → Zone → ℕ → ℕ → Metadata × Zone × ℕ × ℕ
  | 0, md, zone, addr, order => (md, zone, addr, order)
  | fuel + 1, md, zone, addr, order =>
    let buddy := addr ^^^ orderToBytes order
    if !zoneBlockValid zone buddy order then (md, zone, addr, order)
    else
      let r := zoneTake md zone order buddy
      if !r.2.2 then (r.1, r.2.1, addr, order)
      else freeMerge fuel r.1 r.2.1 (if buddy < addr then buddy else addr) (order + 1)

def buddyFreeZoneLocked (md : Metadata) (zone : Zone) (addr order : ℕ) :
    Option (Metadata × Zone) := do
  let r := freeMerge (maxOrder - 1 - order) md zone addr order
  let (md, zone) ← zonePush r.1 r.2.1 r.2.2.2 r.2.2.1
  return (md, { zone with freePages := zone.freePages + orderToPages order })

def physToZoneType (phys : ℕ) : ZoneType :=
  if phys < zoneDmaEnd then .dma else if phys < zoneDma32End then .dma32 else .normal

def zoneHasMemory (zone : Zone) : Bool := decide (zone.freePages > 0)

def buddyAllocZone (md : Metadata) (zone : Zone) (count : ℕ) : Option (Metadata × Zone × ℕ) :=
  match countToOrder count with
  | none => some (md, zone, 0)
  | some (order, requiredPages) =>
    if zone.freePages < requiredPages then some (md, zone, 0)
    else do
      let (md, zone, addr) ← buddyAllocOrderLocked md zone order
      if addr ≠ 0 then return (md, { zone with freePages := zone.freePages - requiredPages }, addr)
      else return (md, zone, addr)

/-- The loop of `init_zone`: one empty metadata page for each order. -/
def initAreas : ℕ → Metadata → (ℕ → List PageList) → Option (Metadata × (ℕ → List PageList))
  | 0, md, areas => some (md, areas)
  | n + 1, md, areas => do
    let (md, areas) ← initAreas n md areas
    let (md, headPhys) ← metadataPageAlloc md
    return (md, Function.update areas n [{ phys := headPhys, entries := [] }])

def initZone (md : Metadata) (startPfn endPfn : ℕ) : Option (Metadata × Zone) := do
  let (md, areas) ← initAreas orderCount md fun _ => []
  return (md, { freeArea := areas, zoneStartPfn := startPfn, zoneEndPfn := endPfn,
                managedPages := 0, freePages := 0 })

def createZone (s : Buddy) (type : ZoneType) (startPfn endPfn : ℕ) : Option Buddy :=
  if endPfn ≤ startPfn then some { s with zones := Function.update s.zones type none }
  else do
    let (md, zone) ← initZone s.metadata startPfn endPfn
    return { s with metadata := md, zones := Function.update s.zones type (some zone) }

/-- The number of metadata pages that `buddy_init` reserves. -/
def metadataPoolPages (memorySize : ℕ) : ℕ :=
  (memorySize / pageSize + pageListEntryCapacity - 1) / pageListEntryCapacity + (orderCount * 3 + 16)

/-- What `early_alloc` and the code before it provide to `buddy_init`. -/
structure Boot where
  memorySize : ℕ
  poolPhys : ℕ
  bitmapBuffer : ℕ → BitVec 8
  usableRegions : Bitmap
  memorySize_lt : memorySize < 2 ^ 64

/-- The variables as `buddy_init` sets them, without the zones. -/
def resetBuddy (boot : Boot) : Buddy :=
  let maxPfn := boot.memorySize / pageSize
  let bitmapBytes := if (maxPfn + 7) / 8 = 0 then 1 else (maxPfn + 7) / 8
  { memorySize := boot.memorySize, zones := fun _ => none,
    metadata := { poolPhys := boot.poolPhys, poolPages := metadataPoolPages boot.memorySize,
                  poolUsed := 0, freeList := [] },
    usingRegions := bitmapInit boot.bitmapBuffer bitmapBytes,
    usableRegions := boot.usableRegions, refcount := fun _ => 0 }

def buddyInit (boot : Boot) : Option Buddy := do
  let maxPfn := boot.memorySize / pageSize
  let dma32EndPfn := min maxPfn (zoneDma32End / pageSize)
  let dmaEndPfn := min maxPfn (zoneDmaEnd / pageSize)
  let s ← createZone (resetBuddy boot) .dma 0 dmaEndPfn
  let s ← createZone s .dma32 dmaEndPfn dma32EndPfn
  createZone s .normal dma32EndPfn maxPfn

def floorOrderLoop (bytes : ℕ) : ℕ → ℕ → ℕ
  | 0, order => order
  | fuel + 1, order =>
    if order + 1 < maxOrder ∧ 2 ^ (order + 1) ≤ bytes then floorOrderLoop bytes fuel (order + 1)
    else order

def floorOrderForSize (bytes : ℕ) : ℕ := floorOrderLoop bytes orderCount minOrder

/-- `__builtin_ctzll`, on at most `fuel` bits. -/
def ctz : ℕ → ℕ → ℕ
  | 0, _ => 0
  | fuel + 1, n => if n % 2 = 0 then ctz fuel (n / 2) + 1 else 0

def pieceOrder (current stop : ℕ) : ℕ :=
  let orderBySize := floorOrderForSize (stop - current)
  let orderByAlign := if current = 0 then maxOrder - 1 else min (ctz 64 current) (maxOrder - 1)
  max (min orderBySize orderByAlign) minOrder

/-- The loop of `add_memory_region`; every piece is at least a page, so a fuel of
one unit per page is enough. -/
def addPieces (stop : ℕ) : ℕ → Metadata → Zone → ℕ → Option (Metadata × Zone)
  | 0, md, zone, _ => some (md, zone)
  | fuel + 1, md, zone, current =>
    if current < stop then do
      let order := pieceOrder current stop
      let (md, zone) ← buddyFreeZoneLocked md zone current order
      let zone := { zone with managedPages := zone.managedPages + orderToPages order }
      addPieces stop fuel md zone (current + orderToBytes order)
    else some (md, zone)

def Buddy.setZone (s : Buddy) (md : Metadata) (type : ZoneType) (zone : Zone) : Buddy :=
  { s with metadata := md, zones := Function.update s.zones type (some zone) }

def addMemoryRegion (s : Buddy) (start stop : ℕ) (type : ZoneType) : Option Buddy :=
  match s.zones type with
  | none => some s
  | some zone =>
    if start ≥ stop then some s
    else
      let start := paddingUp start
      let stop := paddingDown stop
      if start ≥ stop then some s
      else
        let start := if start < zonePhysStart zone then zonePhysStart zone else start
        let stop := if stop > zonePhysEnd zone then zonePhysEnd zone else stop
        if start ≥ stop then some s
        else do
          let (md, zone) ← addPieces stop ((stop - start) / pageSize) s.metadata zone start
          return s.setZone md type zone

/-- `get_page_ref(addr)` and `page_ref`. -/
def pageRef (refcount : ℕ → ℤ) (addr : ℕ) : ℕ → ℤ :=
  Function.update refcount (addr / pageSize) (refcount (addr / pageSize) + 1)

def allocFromZones (count : ℕ) : List ZoneType → Buddy → Option (Buddy × ℕ)
  | [], s => some (s, 0)
  | type :: types, s =>
    match s.zones type with
    | none => allocFromZones count types s
    | some zone =>
      if zoneHasMemory zone then do
        let (md, zone, addr) ← buddyAllocZone s.metadata zone count
        let s := s.setZone md type zone
        if addr ≠ 0 then return (s, addr) else allocFromZones count types s
      else allocFromZones count types s

/-- The common body of `alloc_frames` and `alloc_frames_dma32`. -/
def allocFramesFrom (types : List ZoneType) (s : Buddy) (count : ℕ) : Option (Buddy × ℕ) :=
  match countToPages count with
  | none => some (s, 0)
  | some requiredPages => do
    let (s, addr) ← allocFromZones count types s
    if addr = 0 then return (s, 0)
    else
      let pageIndex := addr / pageSize
      return ({ s with
        usingRegions := bitmapSetRange s.usingRegions pageIndex (pageIndex + requiredPages) true
        refcount := forRange 0 requiredPages
          (fun offset r => pageRef r (addr + offset * pageSize)) s.refcount }, addr)

def allocFrames : Buddy → ℕ → Option (Buddy × ℕ) := allocFramesFrom [.normal, .dma32, .dma]

def allocFramesDma32 : Buddy → ℕ → Option (Buddy × ℕ) := allocFramesFrom [.dma32, .dma]

/-- `claim_last_page_refs`: drops the last reference of every page, or of none. -/
def claimLastPageRefs (addr : ℕ) : ℕ → ℕ → (ℕ → ℤ) → (ℕ → ℤ) × Bool
  | 0, _, refcount => (refcount, true)
  | n + 1, offset, refcount =>
    if refcount ((addr + offset * pageSize) / pageSize) = 1 then
      claimLastPageRefs addr n (offset + 1)
        (Function.update refcount ((addr + offset * pageSize) / pageSize) 0)
    else (forRange 0 offset (fun rollback r => pageRef r (addr + rollback * pageSize)) refcount, false)

def pagesAreUnreferenced (refcount : ℕ → ℤ) (addr pages : ℕ) : Bool :=
  (List.range pages).all fun offset => refcount ((addr + offset * pageSize) / pageSize) == 0

/-- Both bitmap tests of `free_frames_common`, for every page of the range. -/
def pagesInUse (s : Buddy) (startPageIndex pages : ℕ) : Bool :=
  (List.range pages).all fun offset =>
    bitmapGet s.usingRegions (startPageIndex + offset) &&
      bitmapGet s.usableRegions (startPageIndex + offset)

/-- The part of `free_frames_common` behind its checks. -/
def releaseFrames (s : Buddy) (type : ZoneType) (zone : Zone) (refcount : ℕ → ℤ)
    (addr order pages : ℕ) : Option Buddy := do
  let pageIndex := addr / pageSize
  let usingRegions := bitmapSetRange s.usingRegions pageIndex (pageIndex + pages) false
  let (md, zone) ← buddyFreeZoneLocked s.metadata zone addr order
  return { s.setZone md type zone with usingRegions := usingRegions, refcount := refcount }

def freeFramesCommon (s : Buddy) (addr count : ℕ) (refsAlreadyReleased : Bool) : Option Buddy :=
  if addr = 0 ∨ count = 0 then some s
  else if addr &&& (pageSize - 1) ≠ 0 then some s
  else if addr > s.memorySize then some s
  else match countToOrder count with
  | none => some s
  | some (requiredOrder, requiredPages) =>
    let type := physToZoneType addr
    match s.zones type with
    | none => some s
    | some zone =>
      let freeEnd := wrap (addr + requiredPages * pageSize)
      if freeEnd < addr ∨ addr < zonePhysStart zone ∨ freeEnd > zonePhysEnd zone then some s
      else
        let startPageIndex := addr / pageSize
        if wrap (startPageIndex + requiredPages) < startPageIndex ∨
            wrap (startPageIndex + requiredPages) > s.usingRegions.length ∨
            wrap (startPageIndex + requiredPages) > s.usableRegions.length then some s
        else if !pagesInUse s startPageIndex requiredPages then some s
        else if refsAlreadyReleased then
          if !pagesAreUnreferenced s.refcount addr requiredPages then some s
          else releaseFrames s type zone s.refcount addr requiredOrder requiredPages
        else
          let claim := claimLastPageRefs addr requiredPages 0 s.refcount
          if !claim.2 then some { s with refcount := claim.1 }
          else releaseFrames s type zone claim.1 addr requiredOrder requiredPages

def freeFrames (s : Buddy) (addr count : ℕ) : Option Buddy := freeFramesCommon s addr count false

def freeFrame (s : Buddy) (addr : ℕ) : Option Buddy := freeFramesCommon s addr 1 false

def freeFramesReleased (s : Buddy) (addr count : ℕ) : Option Buddy :=
  freeFramesCommon s addr count true

/-- One call of `add_memory_region`. -/
structure Region where
  start : ℕ
  stop : ℕ
  type : ZoneType

def addRegions : List Region → Buddy → Option Buddy
  | [], s => some s
  | r :: rs, s => do
    let s ← addMemoryRegion s r.start r.stop r.type
    addRegions rs s

/-- The calls that hand frames out and take them back. -/
inductive FrameOp
  | allocFrames (count : ℕ)
  | allocFramesDma32 (count : ℕ)
  | freeFrames (addr count : ℕ)
  | freeFramesReleased (addr count : ℕ)

def FrameOp.run (s : Buddy) : FrameOp → Option Buddy
  | .allocFrames count => (CoolPotOS.allocFrames s count).map Prod.fst
  | .allocFramesDma32 count => (CoolPotOS.allocFramesDma32 s count).map Prod.fst
  | .freeFrames addr count => CoolPotOS.freeFrames s addr count
  | .freeFramesReleased addr count => CoolPotOS.freeFramesReleased s addr count

def runOps : List FrameOp → Buddy → Option Buddy
  | [], s => some s
  | op :: ops, s => do
    let s ← op.run s
    runOps ops s

end CoolPotOS
