import CoolPotOS.Lib.Runs
import CoolPotOS.Mem.FrameExact

namespace CoolPotOS

def addInt (a b : ℤ) : ℤ := (a + b).bmod (2 ^ 32)

def addressIsManaged (s : Buddy) (addr : ℕ) : Bool :=
  !decide (addr ≥ s.memorySize) &&
    (!decide (addr / pageSize ≥ s.usableRegions.length) && bitmapGet s.usableRegions (addr / pageSize))

/-- The checks of `free_frames_common` before it takes the lock, with the order and the number of
pages of the block. -/
def freeFramesChecks (s : Buddy) (addr count : ℕ) : Option (ℕ × ℕ) :=
  if addr = 0 ∨ count = 0 then none
  else if addr &&& (pageSize - 1) ≠ 0 then none
  else if addr > s.memorySize then none
  else match countToOrder count with
  | none => none
  | some (requiredOrder, requiredPages) =>
    match s.zones (physToZoneType addr) with
    | none => none
    | some zone =>
      let freeEnd := wrap (addr + requiredPages * pageSize)
      if freeEnd < addr ∨ addr < zonePhysStart zone ∨ freeEnd > zonePhysEnd zone then none
      else
        let startPageIndex := addr / pageSize
        if wrap (startPageIndex + requiredPages) < startPageIndex ∨
            wrap (startPageIndex + requiredPages) > s.usingRegions.length ∨
            wrap (startPageIndex + requiredPages) > s.usableRegions.length then none
        else some (requiredOrder, requiredPages)

/-- Where a party is. `trying` and `dropping` are the loops of `page_try_ref` and `page_unref` with
the count they have read; `locking` waits for the lock of the zone; `claiming`, `undoing` and
`reading` are the loops of `claim_last_page_refs` and `pages_are_unreferenced`; `releasing` is
about to hand the block back. -/
inductive RefPc
  | idle
  | trying (addr : ℕ) (refs : ℤ)
  | dropping (addr : ℕ) (refs : ℤ)
  | locking (addr count : ℕ) (refsAlreadyReleased : Bool)
  | claiming (addr order pages offset : ℕ)
  | undoing (addr rollback offset : ℕ)
  | reading (addr order pages offset : ℕ)
  | releasing (addr order pages : ℕ) (refsAlreadyReleased : Bool)
  deriving DecidableEq

inductive RefEnd
  | referenced (page : ℕ)
  | notReferenced (page : ℕ)
  | unmanaged
  | dropped (page : ℕ)
  | droppedLast (page : ℕ)
  | freed (addr pages : ℕ)
  | refused (addr : ℕ)
  deriving DecidableEq

/-- The frames and `n` parties. `held` is the number of references that a party has, `handed` how
often a page went back to the buddy allocator, and `before` what the counts and the references were
when a party called `free_frames`. Each atomic operation is a step of its own, also under the lock
of a zone, since the counts are not guarded by the lock. -/
structure RefState (n : ℕ) where
  buddy : Buddy
  lock : ZoneType → Option (Fin n)
  pc : Fin n → RefPc
  held : Fin n → ℕ → ℕ
  handed : ℕ → ℕ
  ended : Fin n → Option RefEnd
  before : Fin n → (ℕ → ℤ) × (Fin n → ℕ → ℕ)

namespace RefState

variable {n : ℕ}

def count (x : RefState n) (addr : ℕ) : ℤ := x.buddy.refcount (addr / pageSize)

def setCount (x : RefState n) (page : ℕ) (refs : ℤ) : RefState n :=
  { x with buddy := { x.buddy with refcount := Function.update x.buddy.refcount page refs } }

def setHeld (x : RefState n) (p : Fin n) (page refs : ℕ) : RefState n :=
  { x with held := Function.update x.held p (Function.update (x.held p) page refs) }

def gain (x : RefState n) (p : Fin n) (page : ℕ) : RefState n :=
  (x.setCount page (addInt (x.buddy.refcount page) 1)).setHeld p page (x.held p page + 1)

def lose (x : RefState n) (p : Fin n) (page : ℕ) : RefState n :=
  (x.setCount page (x.buddy.refcount page - 1)).setHeld p page (x.held p page - 1)

def goto (x : RefState n) (p : Fin n) (pc : RefPc) : RefState n :=
  { x with pc := Function.update x.pc p pc }

def enter (x : RefState n) (p : Fin n) (pc : RefPc) : RefState n :=
  { x.goto p pc with ended := Function.update x.ended p none }

def leave (x : RefState n) (p : Fin n) (e : RefEnd) : RefState n :=
  { x.goto p .idle with ended := Function.update x.ended p (some e) }

def unlock (x : RefState n) (addr : ℕ) : RefState n :=
  { x with lock := Function.update x.lock (physToZoneType addr) none }

/-- The end of `free_frames_common` when it does nothing. -/
def refuse (x : RefState n) (p : Fin n) (addr : ℕ) (refsAlreadyReleased : Bool) : RefState n :=
  x.leave p (if refsAlreadyReleased then .droppedLast (addr / pageSize) else .refused addr)

/-- `bitmap_set_range`, `buddy_free_zone_locked` and the end of the section. -/
def handBack (x : RefState n) (p : Fin n) (addr order pages : ℕ) (refsAlreadyReleased : Bool) :
    Option (RefState n) := do
  let zone ← x.buddy.zones (physToZoneType addr)
  let s ← releaseFrames x.buddy (physToZoneType addr) zone x.buddy.refcount addr order pages
  let first := addr / pageSize
  let x := { x with
    buddy := s
    handed := fun f => if first ≤ f ∧ f < first + pages then x.handed f + 1 else x.handed f }
  return (x.unlock addr).leave p
    (if refsAlreadyReleased then .droppedLast (addr / pageSize) else .freed addr pages)

/-- The next atomic operation of the call that a party is in. -/
def advance (x : RefState n) (p : Fin n) : Option (RefState n) :=
  match x.pc p with
  | .idle => none
  | .trying addr refs =>
    if refs > 0 then
      if x.count addr = refs then
        some ((x.gain p (addr / pageSize)).leave p (.referenced (addr / pageSize)))
      else some (x.goto p (.trying addr (x.count addr)))
    else some (x.leave p (.notReferenced (addr / pageSize)))
  | .dropping addr refs =>
    if refs > 0 then
      if x.count addr = refs then
        -- `address_release` goes on to free the frame when no reference is left
        if refs - 1 = 0 then some ((x.lose p (addr / pageSize)).goto p (.locking addr 1 true))
        else some ((x.lose p (addr / pageSize)).leave p (.dropped (addr / pageSize)))
      else some (x.goto p (.dropping addr (x.count addr)))
    else some (x.leave p (.dropped (addr / pageSize)))
  | .locking addr count released =>
    match freeFramesChecks x.buddy addr count with
    | none => some (x.refuse p addr released)
    | some (order, pages) =>
      if x.lock (physToZoneType addr) ≠ none then none
      else if !pagesInUse x.buddy (addr / pageSize) pages then some (x.refuse p addr released)
      else
        let x := { x with lock := Function.update x.lock (physToZoneType addr) (some p) }
        some (x.goto p (if released then .reading addr order pages 0 else .claiming addr order pages 0))
  | .claiming addr order pages offset =>
    if offset < pages then
      if x.count (addr + offset * pageSize) = 1 then
        some ((x.lose p ((addr + offset * pageSize) / pageSize)).goto p
          (.claiming addr order pages (offset + 1)))
      else some (x.goto p (.undoing addr 0 offset))
    else some (x.goto p (.releasing addr order pages false))
  | .undoing addr rollback offset =>
    if rollback < offset then
      some ((x.gain p ((addr + rollback * pageSize) / pageSize)).goto p
        (.undoing addr (rollback + 1) offset))
    else some ((x.unlock addr).refuse p addr false)
  | .reading addr order pages offset =>
    if offset < pages then
      if x.count (addr + offset * pageSize) ≠ 0 then
        some ((x.unlock addr).refuse p addr true)
      else some (x.goto p (.reading addr order pages (offset + 1)))
    else some (x.goto p (.releasing addr order pages true))
  | .releasing addr order pages released => x.handBack p addr order pages released

end RefState

/-- A party calls `address_ref`, `address_release` or `free_frames`, or takes the next step of its
call. `free_frame` is `free_frames` with one page. -/
inductive RefOp (n : ℕ)
  | addressRef (p : Fin n) (addr : ℕ)
  | addressRelease (p : Fin n) (addr : ℕ)
  | freeFrames (p : Fin n) (addr count : ℕ)
  | advance (p : Fin n)

def RefOp.freeFrame {n : ℕ} (p : Fin n) (addr : ℕ) : RefOp n := .freeFrames p addr 1

namespace RefState

variable {n : ℕ}

/-- The first atomic operation of `address_ref` and of `address_release` reads the count. -/
def step (x : RefState n) : RefOp n → Option (RefState n)
  | .addressRef p addr =>
    if x.pc p ≠ .idle then none
    else if !addressIsManaged x.buddy addr then some (x.leave p .unmanaged)
    else some (x.enter p (.trying addr (x.count addr)))
  | .addressRelease p addr =>
    if x.pc p ≠ .idle then none
    else if !addressIsManaged x.buddy addr then some (x.leave p .unmanaged)
    else some (x.enter p (.dropping addr (x.count addr)))
  | .freeFrames p addr count =>
    if x.pc p ≠ .idle then none
    else some { x.enter p (.locking addr count false) with
      before := Function.update x.before p (x.buddy.refcount, x.held) }
  | .advance p => x.advance p

end RefState

def RefOp.Holds {n : ℕ} (x : RefState n) : RefOp n → Prop
  | .addressRelease p addr => pageSize ∣ addr ∧ 0 < x.held p (addr / pageSize)
  | .freeFrames p addr count => ∀ order pages, countToOrder count = some (order, pages) →
      ∀ f, addr / pageSize ≤ f → f < addr / pageSize + pages → 0 < x.held p f
  | _ => True

instance {n : ℕ} (x : RefState n) : ∀ op : RefOp n, Decidable (op.Holds x)
  | .addressRef _ _ => .isTrue trivial
  | .addressRelease _ _ => inferInstanceAs (Decidable (_ ∧ _))
  | .freeFrames p addr count =>
    decidable_of_iff (∀ r ∈ countToOrder count, ∀ i < r.2, 0 < x.held p (addr / pageSize + i)) <| by
      constructor
      · intro h order pages hcount f hf hf'
        have hpos := h (order, pages) hcount (f - addr / pageSize) (by omega)
        rwa [Nat.add_sub_cancel' hf] at hpos
      · intro h r hr i hi
        exact h r.1 r.2 hr _ (Nat.le_add_right _ _) (by omega)
  | .advance _ => .isTrue trivial

end CoolPotOS
