import CoolPotOS.Fs.FdShared

namespace CoolPotOS

open Bytes Option OpenFiles FdSys

/-- In the states the call does what it should: the offset that it leaves in the descriptor is right, and a
descriptor whose offset moves shares it with no other. -/
def FdFits (s : FdSys) (t : OpenFiles) : FdCall → Prop
  | .lseek pid fd offset whence => ∀ h ∈ handleOf s.fdts pid fd,
    let old := (s.handles h).offset
    let node := s.nodes (s.handles h).node
    let size := (s.files node.file).size
    match whence with
    | .seekSet => offset.toInt < 0 ∨ offset.toNat = old ∨ t.Alone h
    | .seekCur =>
      0 ≤ old + offset.toInt ∧ old + offset.toInt ≤ node.size ∧ old + offset.toInt < 2 ^ 63 ∧
        (offset = 0 ∨ t.Alone h)
    | .seekEnd =>
      (offset.toInt < 0 ∧ (size + offset.toInt < 0 ∨ 2 ^ 63 ≤ size + offset.toInt)) ∨
        (offset = 0 ∧ node.size = size ∧ size < 2 ^ 63 ∧ (size = old ∨ t.Alone h))
  | .read pid fd size => size = 0 ∨ ∀ h ∈ handleOf s.fdts pid fd,
    let old := (s.handles h).offset
    let node := (s.handles h).node
    s.Reads node old size ∧ ((s.files (s.nodes node).file).size ≤ old ∨ t.Alone h)
  | .write pid fd data alloc => ∀ h ∈ handleOf s.fdts pid fd,
    ¬s.Stores (s.handles h).node (s.handles h).offset data alloc ∨ t.Alone h
  | .pread pid fd size offset => ∀ h ∈ handleOf s.fdts pid fd,
    let old := (s.handles h).offset
    let node := (s.handles h).node
    if size = 0 then offset.toInt < 0 ∨ offset.toNat = old
    else
      0 ≤ offset.toInt ∧ s.Reads node offset.toNat size ∧
        offset.toNat + min size.toNat ((s.files (s.nodes node).file).size - offset.toNat) = old
  | .pwrite pid fd data offset alloc => ∀ h ∈ handleOf s.fdts pid fd,
    let old := (s.handles h).offset
    if data = [] then offset.toInt < 0 ∨ offset.toNat = old
    else
      0 ≤ offset.toInt ∧
        offset.toNat + (if s.Stores (s.handles h).node offset.toNat data alloc then data.length else 0) = old
  | _ => True

variable {x offset : BitVec 64} {whence : Whence} {n : ℕ}

section Calls

variable {s : FdSys} {t : OpenFiles} {pid fd h : ℕ}

theorem FdAgree.openOf (hA : FdAgree s t) (hh : handleOf s.fdts pid fd = some h) :
    t.openOf pid fd = some (t.description h) := by
  unfold OpenFiles.openOf
  rw [hA.fdts, hh]
  rfl

theorem FdAgree.openOf_none (hA : FdAgree s t) (hh : handleOf s.fdts pid fd = none) :
    t.openOf pid fd = none := by
  unfold OpenFiles.openOf
  rw [hA.fdts, hh]
  rfl

theorem OpenFiles.setOffset_self (t : OpenFiles) (d : ℕ) : t.setOffset d (t.opened d).offset = t := by
  unfold OpenFiles.setOffset
  rw [Function.update_eq_self]

theorem OpenFiles.setOffset_offset (t : OpenFiles) (d offset : ℕ) :
    ((t.setOffset d offset).opened d).offset = offset := by
  unfold OpenFiles.setOffset
  dsimp only
  rw [Function.update_self]

theorem toInt_eq_toNat (hx : 0 ≤ x.toInt) : x.toInt = x.toNat ∧ x.toNat < 2 ^ 63 := by
  rw [BitVec.toInt_eq_toNat_cond] at hx ⊢
  have hlt := x.isLt
  split_ifs at hx ⊢ <;> omega

theorem toInt_eq_sub (hx : x.toInt < 0) : x.toInt = (x.toNat : ℤ) - 2 ^ 64 ∧ 2 ^ 63 ≤ x.toNat := by
  rw [BitVec.toInt_eq_toNat_cond] at hx ⊢
  have hlt := x.isLt
  split_ifs at hx ⊢ <;> omega

theorem FdAgree.move_iff (hA : FdAgree s t) (hlive : FdLive s.fdts h) {offset : ℕ} (hoffset : offset < 2 ^ 64) :
    FdAgree (s.setOffset h offset) (t.setOffset (t.description h) offset) ↔
      offset = (s.handles h).offset ∨ t.Alone h := by
  constructor
  · intro hA'
    apply hA.alone hlive hA' rfl
    · intro h' hne
      rw [s.setOffset_of_ne hne]
    · rfl
    · exact t.setOffset_offset _ _
  · exact hA.setOffset hlive hoffset

theorem FdAgree.lseek_moved_iff (hA : FdAgree s t) (hh : handleOf s.fdts pid fd = some h) (hn : n < 2 ^ 64)
    (hstep : s.lseek pid fd offset whence = (s.setOffset h n, .offset n)) :
    (t.allows (.lseek pid fd offset whence) (s.lseek pid fd offset whence).2 ∧
        FdAgree (s.lseek pid fd offset whence).1
          (t.next (.lseek pid fd offset whence) (s.lseek pid fd offset whence).2)) ↔
      t.target (t.description h) offset whence = some n ∧ (n = (s.handles h).offset ∨ t.Alone h) := by
  rw [hstep]
  dsimp only [allows, next]
  rw [hA.openOf hh, bind_some]
  dsimp only
  rw [hA.move_iff (fdLive_of_handleOf hh) hn]
  cases t.target (t.description h) offset whence with
  | none =>
    constructor
    · rintro ⟨⟨e, he⟩, -⟩
      cases he
    · rintro ⟨hnone, -⟩
      cases hnone
  | some m =>
    constructor
    · rintro ⟨hm, halone⟩
      exact ⟨congrArg some (FdOut.offset.inj hm).symm, halone⟩
    · rintro ⟨hm, halone⟩
      exact ⟨congrArg FdOut.offset (Option.some.inj hm).symm, halone⟩

theorem FdAgree.lseek_refused_iff (hA : FdAgree s t) (hh : handleOf s.fdts pid fd = some h) {e : FdError}
    (hstep : s.lseek pid fd offset whence = (s, .error e)) :
    (t.allows (.lseek pid fd offset whence) (s.lseek pid fd offset whence).2 ∧
        FdAgree (s.lseek pid fd offset whence).1
          (t.next (.lseek pid fd offset whence) (s.lseek pid fd offset whence).2)) ↔
      t.target (t.description h) offset whence = none := by
  rw [hstep]
  dsimp only [allows, next]
  rw [hA.openOf hh, bind_some]
  cases t.target (t.description h) offset whence with
  | none => exact ⟨fun _ => rfl, fun _ => ⟨⟨e, rfl⟩, hA⟩⟩
  | some m =>
    constructor
    · rintro ⟨hm, -⟩
      cases hm
    · intro hnone
      cases hnone

theorem OpenFiles.target_eq_some {d : ℕ} : t.target d offset whence = some n ↔
      n < 2 ^ 63 ∧ (t.base d whence : ℤ) + offset.toInt = n := by
  unfold target
  dsimp only
  split_ifs with hrange
  · rw [Option.some.injEq]
    omega
  · constructor
    · intro hnone
      cases hnone
    · rintro ⟨hn, heq⟩
      omega

theorem OpenFiles.target_eq_none {d : ℕ} : t.target d offset whence = none ↔
      (t.base d whence : ℤ) + offset.toInt < 0 ∨ 2 ^ 63 ≤ (t.base d whence : ℤ) + offset.toInt := by
  unfold target
  dsimp only
  split_ifs with hrange
  · constructor
    · intro hsome
      cases hsome
    · intro hout
      omega
  · constructor
    · intro _
      omega
    · intro _
      rfl

theorem FdSys.lseek_refused (hh : handleOf s.fdts pid fd = some h) (hneg : offset.toInt < 0)
    (hwhence : whence ≠ .seekCur) : s.lseek pid fd offset whence = (s, .error .ebadf) := by
  unfold lseek
  rw [hh]
  dsimp only
  rw [if_pos ⟨hneg, hwhence⟩]

theorem FdSys.lseek_set (hh : handleOf s.fdts pid fd = some h) (hpos : ¬offset.toInt < 0) :
    s.lseek pid fd offset .seekSet = (s.setOffset h offset.toNat, .offset offset.toNat) := by
  unfold lseek
  rw [hh]
  dsimp only
  rw [if_neg fun hc => hpos hc.1]

theorem FdSys.lseek_cur (hh : handleOf s.fdts pid fd = some h) (offset : BitVec 64) :
    let sum := wrap ((s.handles h).offset + offset.toNat)
    let size := (s.nodes (s.handles h).node).size
    let n := if 2 ^ 63 ≤ sum then 0 else if sum > size then size else sum
    s.lseek pid fd offset .seekCur = (s.setOffset h n, .offset n) := by
  unfold lseek
  rw [hh]
  dsimp only
  rw [if_neg fun hc => hc.2 rfl]

theorem FdSys.lseek_end (hh : handleOf s.fdts pid fd = some h) (hpos : ¬offset.toInt < 0) :
    let n := wrapSub (s.nodes (s.handles h).node).size offset.toNat
    s.lseek pid fd offset .seekEnd = (s.setOffset h n, .offset n) := by
  unfold lseek
  rw [hh]
  dsimp only
  rw [if_neg fun hc => hpos hc.1]

theorem toNat_eq_zero : x.toNat = 0 ↔ x = 0 := by
  constructor
  · exact fun hzero => BitVec.eq_of_toNat_eq hzero
  · intro hzero
    rw [hzero]
    rfl

theorem FdAgree.lseek_iff (hA : FdAgree s t) (hh : handleOf s.fdts pid fd = some h) (offset : BitVec 64)
    (whence : Whence) : (t.allows (.lseek pid fd offset whence) (s.lseek pid fd offset whence).2 ∧
        FdAgree (s.lseek pid fd offset whence).1
          (t.next (.lseek pid fd offset whence) (s.lseek pid fd offset whence).2)) ↔
      FdFits s t (.lseek pid fd offset whence) := by
  obtain ⟨-, hnode, hold⟩ := hA.handle h (fdLive_of_handleOf hh)
  have hopened := (hA.opened h (fdLive_of_handleOf hh)).2
  obtain ⟨hfile, hsize⟩ := hA.node _ hnode
  obtain ⟨hholds, -⟩ := hA.file _ hfile
  have hle := hholds.size_le
  have hword := hholds.capacity_lt
  have hlt := offset.isLt
  unfold FdFits
  simp only [hh, mem_some_iff, forall_eq']
  cases whence with
  | seekSet =>
    by_cases hneg : offset.toInt < 0
    · rw [hA.lseek_refused_iff hh (lseek_refused hh hneg (by decide)), target_eq_none]
      show ((0 : ℕ) : ℤ) + offset.toInt < 0 ∨ 2 ^ 63 ≤ ((0 : ℕ) : ℤ) + offset.toInt ↔ _
      constructor
      · exact fun _ => Or.inl hneg
      · intro _
        omega
    · obtain ⟨hint, hnat⟩ := toInt_eq_toNat (not_lt.mp hneg)
      rw [hA.lseek_moved_iff hh hlt (lseek_set hh hneg), target_eq_some]
      show (offset.toNat < 2 ^ 63 ∧ ((0 : ℕ) : ℤ) + offset.toInt = (offset.toNat : ℤ)) ∧ _ ↔ _
      constructor
      · exact fun hmoved => Or.inr hmoved.2
      · rintro (hbad | hmoved)
        · exact absurd hbad hneg
        · exact ⟨⟨hnat, by omega⟩, hmoved⟩
  | seekCur =>
    -- in range the sum does not wrap, and outside the code stores another offset than the sum
    have hbase : t.base (t.description h) .seekCur = (s.handles h).offset := by
      unfold base
      rw [hopened]
    have hcases : (offset.toInt = offset.toNat ∧ offset.toNat < 2 ^ 63) ∨
        (offset.toInt = (offset.toNat : ℤ) - 2 ^ 64 ∧ 2 ^ 63 ≤ offset.toNat) := by
      by_cases hneg : offset.toInt < 0
      · exact Or.inr (toInt_eq_sub hneg)
      · exact Or.inl (toInt_eq_toNat (not_lt.mp hneg))
    have hzero := toNat_eq_zero (x := offset)
    have hbound : (s.nodes (s.handles h).node).size < 2 ^ 64 := by omega
    have hstep := lseek_cur hh offset
    dsimp only at hstep
    generalize hn : (if 2 ^ 63 ≤ wrap ((s.handles h).offset + offset.toNat) then 0
      else if wrap ((s.handles h).offset + offset.toNat) > (s.nodes (s.handles h).node).size then
        (s.nodes (s.handles h).node).size
      else wrap ((s.handles h).offset + offset.toNat)) = n at hstep
    have hexact : (n < 2 ^ 63 ∧ ((s.handles h).offset : ℤ) + offset.toInt = n) ↔
        0 ≤ (s.handles h).offset + offset.toInt ∧
          (s.handles h).offset + offset.toInt ≤ (s.nodes (s.handles h).node).size ∧
          (s.handles h).offset + offset.toInt < 2 ^ 63 := by
      unfold wrap at hn
      split_ifs at hn <;> omega
    have hn64 : n < 2 ^ 64 := by
      unfold wrap at hn
      split_ifs at hn <;> omega
    rw [hA.lseek_moved_iff hh hn64 hstep, target_eq_some, hbase]
    have hkept : (n < 2 ^ 63 ∧ ((s.handles h).offset : ℤ) + offset.toInt = n) →
        (n = (s.handles h).offset ↔ offset = 0) := by
      intro hrange
      rw [← hzero]
      omega
    constructor
    · rintro ⟨hrange, hmoved⟩
      obtain ⟨hlow, hhigh, hmax⟩ := hexact.mp hrange
      rw [hkept hrange] at hmoved
      exact ⟨hlow, hhigh, hmax, hmoved⟩
    · rintro ⟨hlow, hhigh, hmax, hmoved⟩
      have hrange := hexact.mpr ⟨hlow, hhigh, hmax⟩
      rw [← hkept hrange] at hmoved
      exact ⟨hrange, hmoved⟩
  | seekEnd =>
    have hbase : t.base (t.description h) .seekEnd = (s.files (s.nodes (s.handles h).node).file).size := by
      unfold base
      rw [hopened, ← hholds.size_eq]
    by_cases hneg : offset.toInt < 0
    · have hnonzero : offset ≠ 0 := by
        intro hzero
        rw [hzero] at hneg
        exact absurd hneg (by decide)
      rw [hA.lseek_refused_iff hh (lseek_refused hh hneg (by decide)), target_eq_none, hbase]
      constructor
      · exact fun hout => Or.inl ⟨hneg, hout⟩
      · rintro (⟨-, hout⟩ | ⟨hzero, -⟩)
        · exact hout
        · exact absurd hzero hnonzero
    · obtain ⟨hint, hnat⟩ := toInt_eq_toNat (not_lt.mp hneg)
      have hzero := toNat_eq_zero (x := offset)
      have hn : wrapSub (s.nodes (s.handles h).node).size offset.toNat < 2 ^ 64 := Nat.mod_lt _ (by norm_num)
      rw [hA.lseek_moved_iff hh hn (lseek_end hh hneg), target_eq_some, hbase]
      have hexact : (wrapSub (s.nodes (s.handles h).node).size offset.toNat < 2 ^ 63 ∧
          ((s.files (s.nodes (s.handles h).node).file).size : ℤ) + offset.toInt =
            (wrapSub (s.nodes (s.handles h).node).size offset.toNat : ℕ)) ↔
          offset.toNat = 0 ∧ (s.nodes (s.handles h).node).size = (s.files (s.nodes (s.handles h).node).file).size ∧
            (s.files (s.nodes (s.handles h).node).file).size < 2 ^ 63 := by
        unfold wrapSub
        omega
      rw [hexact]
      constructor
      · rintro ⟨⟨hoff, heq, hbound⟩, hmoved⟩
        refine Or.inr ⟨hzero.mp hoff, heq, hbound, ?_⟩
        have hnew : wrapSub (s.nodes (s.handles h).node).size offset.toNat =
            (s.files (s.nodes (s.handles h).node).file).size := by
          unfold wrapSub
          omega
        rw [hnew] at hmoved
        exact hmoved
      · rintro (⟨hbad, -⟩ | ⟨hoff, heq, hbound, hmoved⟩)
        · exact absurd hbad hneg
        · have hoff' := hzero.mpr hoff
          refine ⟨⟨hoff', heq, hbound⟩, ?_⟩
          have hnew : wrapSub (s.nodes (s.handles h).node).size offset.toNat =
              (s.files (s.nodes (s.handles h).node).file).size := by
            unfold wrapSub
            omega
          rw [hnew]
          exact hmoved

theorem FdSys.read_zero (s : FdSys) (pid fd : ℕ) : s.read pid fd 0 = (s, .bytes []) := if_pos rfl

theorem FdSys.read_none (hh : handleOf s.fdts pid fd = none) {size : BitVec 64} (hsize : size ≠ 0) :
    s.read pid fd size = (s, .error .ebadf) := by
  unfold read
  rw [if_neg hsize, hh]

theorem FdAgree.read_iff (hA : FdAgree s t) (pid fd : ℕ) (size : BitVec 64) :
    (t.allows (.read pid fd size) (s.read pid fd size).2 ∧
        FdAgree (s.read pid fd size).1 (t.next (.read pid fd size) (s.read pid fd size).2)) ↔
      FdFits s t (.read pid fd size) := by
  unfold FdFits
  by_cases hsize : size = 0
  · rw [hsize, s.read_zero]
    dsimp only [allows, next]
    rw [if_pos rfl]
    refine iff_of_true ⟨rfl, ?_⟩ (Or.inl rfl)
    cases t.openOf pid fd with
    | none => exact hA
    | some d =>
      dsimp only
      rw [List.length_nil, Nat.add_zero, t.setOffset_self]
      exact hA
  cases hh : handleOf s.fdts pid fd with
  | none =>
    rw [read_none hh hsize]
    dsimp only [allows, next]
    rw [if_neg hsize, hA.openOf_none hh]
    refine iff_of_true ⟨⟨_, rfl⟩, hA⟩ (Or.inr fun h' hh' => ?_)
    rw [hh] at hh'
    cases hh'
  | some h =>
    have hlive := fdLive_of_handleOf hh
    obtain ⟨-, hnode, hold⟩ := hA.handle h hlive
    have hopened := (hA.opened h hlive).2
    obtain ⟨hfile, hle⟩ := hA.node _ hnode
    obtain ⟨hholds, hcapacity⟩ := hA.file _ hfile
    simp only [hh, mem_some_iff, forall_eq', hsize, false_or]
    by_cases hreads : s.Reads (s.handles h).node (s.handles h).offset size
    swap
    · have hbad := read_of_not_reads hh hsize hholds hcapacity hle hreads
      refine iff_of_false ?_ fun hfits => hreads hfits.1
      rintro ⟨hallowed, -⟩
      dsimp only [allows] at hallowed
      rw [if_neg hsize, hA.openOf hh] at hallowed
      dsimp only at hallowed
      rw [hopened] at hallowed
      exact hbad hallowed
    obtain ⟨s1, hs1, hstep⟩ := read_of_reads hh hsize hholds hcapacity hle hreads
    have hA1 : FdAgree s1 t := by
      obtain rfl | rfl := hs1
      · exact hA
      · exact hA.doUpdate _
    have hhandles : s1.handles = s.handles := by
      obtain rfl | rfl := hs1 <;> rfl
    have hlive1 : FdLive s1.fdts h := by
      obtain rfl | rfl := hs1 <;> exact hlive
    have hlength := SparseFile.length_read (t.files (s.nodes (s.handles h).node).file) (s.handles h).offset size.toNat
    rw [← hholds.size_eq] at hlength
    have hend := hholds.size_le
    have hword := hholds.capacity_lt
    have hpos : 0 < size.toNat := Nat.pos_of_ne_zero fun hzero => hsize (toNat_eq_zero.mp hzero)
    rw [hstep]
    dsimp only [allows, next]
    rw [if_neg hsize, hA.openOf hh]
    dsimp only
    rw [hopened, hA1.move_iff hlive1 (by omega), hhandles]
    -- the offset stays when there is nothing to read
    have hkept : (s.handles h).offset +
          ((t.files (s.nodes (s.handles h).node).file).read (s.handles h).offset size.toNat).length =
            (s.handles h).offset ↔
        (s.files (s.nodes (s.handles h).node).file).size ≤ (s.handles h).offset := by
      omega
    rw [hkept]
    constructor
    · rintro ⟨-, hmoved⟩
      exact ⟨hreads, hmoved⟩
    · rintro ⟨-, hmoved⟩
      exact ⟨rfl, hmoved⟩

theorem FdSys.write_nil (s : FdSys) (pid fd : ℕ) (alloc : Bool) : s.write pid fd [] alloc = (s, .count 0) :=
  if_pos rfl

theorem FdSys.write_none (hh : handleOf s.fdts pid fd = none) {data : List UInt8} (hdata : data ≠ [])
    (alloc : Bool) : s.write pid fd data alloc = (s, .error .ebadf) := by
  unfold write
  rw [if_neg hdata, hh]

theorem FdSys.write_eq (hh : handleOf s.fdts pid fd = some h) {data : List UInt8} (hdata : data ≠ [])
    (alloc : Bool)
    (hword : ((s.vfsWrite (s.handles h).node data (s.handles h).offset alloc).1.nodes (s.handles h).node).size ≠
      2 ^ 64 - 1) :
    let r := s.vfsWrite (s.handles h).node data (s.handles h).offset alloc
    s.write pid fd data alloc =
      ((r.1.setOffset h ((s.handles h).offset + r.2)).doUpdate (s.handles h).node, .count r.2) := by
  unfold write
  rw [if_neg hdata, hh]
  dsimp only
  rw [if_pos hword]

theorem FdSys.vfsWrite_frame (s : FdSys) (node : ℕ) (data : List UInt8) (offset : ℕ) (alloc : Bool) :
    (s.vfsWrite node data offset alloc).1.fdts = s.fdts ∧
      (s.vfsWrite node data offset alloc).1.handles = s.handles ∧
      (s.vfsWrite node data offset alloc).1.nextNode = s.nextNode := by
  unfold vfsWrite
  dsimp only
  split_ifs <;> exact ⟨rfl, rfl, rfl⟩

theorem FdAgree.node_size (hA : FdAgree s t) (hn : n < s.nextNode) : (s.nodes n).size ≠ 2 ^ 64 - 1 := by
  obtain ⟨hfile, hle⟩ := hA.node n hn
  obtain ⟨hholds, hcapacity⟩ := hA.file _ hfile
  have hsize := hholds.size_le
  unfold pageSize at hcapacity
  omega

theorem OpenFiles.store_opened (t : OpenFiles) (d offset : ℕ) (data : List UInt8) :
    (t.store d offset data).opened = t.opened ∧ (t.store d offset data).description = t.description ∧
      (t.store d offset data).fdts = t.fdts := by
  unfold store
  split_ifs <;> exact ⟨rfl, rfl, rfl⟩

theorem FdAgree.write_iff (hA : FdAgree s t) (pid fd : ℕ) (data : List UInt8) (alloc : Bool) :
    (t.allows (.write pid fd data alloc) (s.write pid fd data alloc).2 ∧ FdAgree (s.write pid fd data alloc).1
          (t.next (.write pid fd data alloc) (s.write pid fd data alloc).2)) ↔
      FdFits s t (.write pid fd data alloc) := by
  unfold FdFits
  by_cases hdata : data = []
  · rw [hdata, s.write_nil]
    dsimp only [allows, next]
    rw [if_pos rfl]
    refine iff_of_true ⟨rfl, ?_⟩ fun h' _ => Or.inl fun hstores => hstores.1 rfl
    cases t.openOf pid fd with
    | none => exact hA
    | some d =>
      dsimp only
      rw [List.take_nil, store, if_pos rfl, Nat.add_zero, t.setOffset_self]
      exact hA
  cases hh : handleOf s.fdts pid fd with
  | none =>
    rw [write_none hh hdata]
    dsimp only [allows, next]
    rw [if_neg hdata, if_pos (hA.openOf_none hh)]
    refine iff_of_true ⟨⟨_, rfl⟩, hA⟩ fun h' hh' => ?_
    rw [hh] at hh'
    cases hh'
  | some h =>
    have hlive := fdLive_of_handleOf hh
    obtain ⟨-, hnode, hold⟩ := hA.handle h hlive
    have hopened := (hA.opened h hlive).2
    have hd : (t.opened (t.description h)).file = (s.nodes (s.handles h).node).file := by
      rw [hopened]
    have hsnd := vfsWrite_snd data (s.handles h).offset alloc hA hnode
    have hwrite := hA.vfsWrite data (s.handles h).offset alloc hnode hd
    obtain ⟨hfdts, hhandles, hnext⟩ := s.vfsWrite_frame (s.handles h).node data (s.handles h).offset alloc
    obtain ⟨hkept, hdescription, htfdts⟩ := t.store_opened (t.description h) (s.handles h).offset
      (data.take (s.vfsWrite (s.handles h).node data (s.handles h).offset alloc).2)
    have hword := hwrite.node_size (n := (s.handles h).node) (by omega)
    rw [write_eq hh hdata alloc hword]
    dsimp only [allows, next]
    rw [if_neg hdata, if_neg (by rw [hA.openOf hh]; exact some_ne_none _), hA.openOf hh]
    dsimp only
    simp only [hh, mem_some_iff, forall_eq']
    rw [hopened]
    dsimp only
    generalize hr : s.vfsWrite (s.handles h).node data (s.handles h).offset alloc = r at *
    obtain ⟨s1, n⟩ := r
    dsimp only at hsnd hwrite hfdts hhandles hkept hdescription htfdts ⊢
    have hn : n ≤ data.length ∧ (s.handles h).offset + n < 2 ^ 64 ∧
        ((s.handles h).offset + n = (s.handles h).offset ↔ ¬s.Stores (s.handles h).node (s.handles h).offset data alloc) := by
      by_cases hstores : s.Stores (s.handles h).node (s.handles h).offset data alloc
      · have hlength := List.length_pos_of_ne_nil hdata
        rw [if_pos hstores] at hsnd
        refine ⟨hsnd.le, ?_, fun heq => ?_, fun hnot => absurd hstores hnot⟩
        · rw [hsnd]
          exact hstores.2.1
        · omega
      · rw [if_neg hstores] at hsnd
        exact ⟨by omega, by omega, fun _ => hstores, fun _ => by omega⟩
    obtain ⟨hle, hbound, hstay⟩ := hn
    rw [← hstay]
    have hlive1 : FdLive s1.fdts h := by
      rw [hfdts]
      exact hlive
    constructor
    · rintro ⟨-, hA'⟩
      apply hA.alone hlive hA' hfdts
      · intro h' hne
        show ((s1.setOffset h _).handles h').offset = (s.handles h').offset
        rw [s1.setOffset_of_ne hne, hhandles]
      · exact hdescription
      · exact setOffset_offset ..
    · intro hmoved
      refine ⟨⟨n, hle, rfl⟩, ?_⟩
      apply FdAgree.doUpdate
      have hmove := hwrite.setOffset hlive1 hbound (by
        rw [hhandles]
        unfold OpenFiles.Alone
        rw [htfdts, hdescription]
        exact hmoved)
      rw [hdescription] at hmove
      exact hmove

theorem FdAgree.setOffset_iff (hA : FdAgree s t) (hlive : FdLive s.fdts h) (offset : ℕ) :
    FdAgree (s.setOffset h offset) t ↔ offset = (s.handles h).offset := by
  constructor
  · intro hA'
    have hkept := hA.kept hlive hA' rfl rfl rfl
    rw [s.setOffset_handle] at hkept
    exact hkept
  · intro hoffset
    rw [hoffset, s.setOffset_self]
    exact hA

theorem FdSys.lseek_none (hh : handleOf s.fdts pid fd = none) (offset : BitVec 64) (whence : Whence) :
    s.lseek pid fd offset whence = (s, .error .ebadf) := by
  unfold lseek
  rw [hh]

theorem FdSys.read_ne_error (hh : handleOf s.fdts pid fd = some h) (size : BitVec 64) (e : FdError) :
    (s.read pid fd size).2 ≠ .error e := by
  intro heq
  unfold read at heq
  rw [hh] at heq
  dsimp only at heq
  split_ifs at heq <;> split at heq <;> cases heq

theorem FdSys.write_ne_error (hh : handleOf s.fdts pid fd = some h) (data : List UInt8) (alloc : Bool)
    (e : FdError) : (s.write pid fd data alloc).2 ≠ .error e := by
  intro heq
  unfold write at heq
  rw [hh] at heq
  dsimp only at heq
  split_ifs at heq

theorem FdAgree.pread_iff (hA : FdAgree s t) (pid fd : ℕ) (size offset : BitVec 64) :
    (t.allows (.pread pid fd size offset) (s.pread pid fd size offset).2 ∧
        FdAgree (s.pread pid fd size offset).1
          (t.next (.pread pid fd size offset) (s.pread pid fd size offset).2)) ↔
      FdFits s t (.pread pid fd size offset) := by
  have hnext : ∀ out, t.next (.pread pid fd size offset) out = t := by
    intro out
    cases out <;> rfl
  rw [hnext]
  unfold FdFits pread
  cases hh : handleOf s.fdts pid fd with
  | none =>
    rw [lseek_none hh]
    dsimp only [allows]
    refine iff_of_true ?_ fun h' hh' => ?_
    · by_cases hsize : size = 0
      · rw [hsize, s.read_zero, if_pos rfl]
        exact ⟨rfl, hA⟩
      · rw [read_none hh hsize, if_neg hsize, hA.openOf_none hh]
        exact ⟨⟨_, rfl⟩, hA⟩
    · rw [hh] at hh'
      cases hh'
  | some h =>
    have hlive := fdLive_of_handleOf hh
    obtain ⟨-, hnode, hold⟩ := hA.handle h hlive
    have hopened := (hA.opened h hlive).2
    obtain ⟨hfile, hle⟩ := hA.node _ hnode
    obtain ⟨hholds, hcapacity⟩ := hA.file _ hfile
    simp only [hh, mem_some_iff, forall_eq']
    dsimp only [allows]
    by_cases hneg : offset.toInt < 0
    · rw [lseek_refused hh hneg (by decide)]
      dsimp only
      by_cases hsize : size = 0
      · rw [if_pos hsize, if_pos hsize, hsize, s.read_zero]
        exact iff_of_true ⟨rfl, hA⟩ (Or.inl hneg)
      · rw [if_neg hsize, if_neg hsize, hA.openOf hh]
        dsimp only
        rw [if_pos hneg]
        refine iff_of_false ?_ fun hfits => absurd hneg (not_lt.mpr hfits.1)
        rintro ⟨⟨e, he⟩, -⟩
        exact read_ne_error hh size e he
    · rw [lseek_set hh hneg]
      dsimp only
      by_cases hsize : size = 0
      · rw [if_pos hsize, if_pos hsize, hsize, read_zero, hA.setOffset_iff hlive]
        constructor
        · exact fun hmoved => Or.inr hmoved.2
        · rintro (hbad | hmoved)
          · exact absurd hbad hneg
          · exact ⟨rfl, hmoved⟩
      rw [if_neg hsize, if_neg hsize, hA.openOf hh]
      dsimp only
      rw [if_neg hneg, hopened]
      dsimp only
      have hset := s.setOffset_handle h offset.toNat
      have hhset : handleOf (s.setOffset h offset.toNat).fdts pid fd = some h := hh
      by_cases hreads : s.Reads (s.handles h).node offset.toNat size
      swap
      · have hbad := read_of_not_reads hhset hsize (by rw [hset]; exact hholds)
          (by rw [hset]; exact hcapacity) (by rw [hset]; exact hle) (by rw [hset]; exact hreads)
        rw [hset] at hbad
        exact iff_of_false (fun hallowed => hbad hallowed.1) fun hfits => hreads hfits.2.1
      obtain ⟨s1, hs1, hstep⟩ := read_of_reads hhset hsize (by rw [hset]; exact hholds)
        (by rw [hset]; exact hcapacity) (by rw [hset]; exact hle) (by rw [hset]; exact hreads)
      rw [hset] at hs1 hstep
      dsimp only at hs1 hstep
      have hagree : ∀ n, FdAgree (s1.setOffset h n) t ↔ n = (s.handles h).offset := by
        intro n
        obtain rfl | rfl := hs1
        · rw [s.setOffset_setOffset]
          exact hA.setOffset_iff hlive n
        · have hcommute : ((s.setOffset h offset.toNat).doUpdate (s.handles h).node).setOffset h n =
              (s.doUpdate (s.handles h).node).setOffset h n :=
            (s.doUpdate (s.handles h).node).setOffset_setOffset h offset.toNat n
          rw [hcommute]
          exact (hA.doUpdate _).setOffset_iff hlive n
      have hlength := SparseFile.length_read (t.files (s.nodes (s.handles h).node).file) offset.toNat size.toNat
      rw [← hholds.size_eq] at hlength
      have hend : offset.toNat +
            ((t.files (s.nodes (s.handles h).node).file).read offset.toNat size.toNat).length =
          offset.toNat + min size.toNat
            ((s.files (s.nodes (s.handles h).node).file).size - offset.toNat) := by
        omega
      rw [hstep, hagree, hend]
      constructor
      · rintro ⟨-, hmoved⟩
        exact ⟨not_lt.mp hneg, hreads, hmoved⟩
      · rintro ⟨-, -, hmoved⟩
        exact ⟨rfl, hmoved⟩

theorem FdAgree.pwrite_iff (hA : FdAgree s t) (pid fd : ℕ) (data : List UInt8) (offset : BitVec 64)
    (alloc : Bool) : (t.allows (.pwrite pid fd data offset alloc) (s.pwrite pid fd data offset alloc).2 ∧
        FdAgree (s.pwrite pid fd data offset alloc).1
          (t.next (.pwrite pid fd data offset alloc) (s.pwrite pid fd data offset alloc).2)) ↔
      FdFits s t (.pwrite pid fd data offset alloc) := by
  unfold FdFits pwrite
  cases hh : handleOf s.fdts pid fd with
  | none =>
    rw [lseek_none hh]
    refine iff_of_true ?_ fun h' hh' => ?_
    · by_cases hdata : data = []
      · rw [hdata, s.write_nil]
        dsimp only [allows, next]
        rw [if_pos rfl, hA.openOf_none hh]
        exact ⟨rfl, hA⟩
      · rw [write_none hh hdata]
        dsimp only [allows, next]
        rw [if_neg hdata, if_pos (Or.inl (hA.openOf_none hh))]
        exact ⟨⟨_, rfl⟩, hA⟩
    · rw [hh] at hh'
      cases hh'
  | some h =>
    have hlive := fdLive_of_handleOf hh
    obtain ⟨-, hnode, hold⟩ := hA.handle h hlive
    have hopened := (hA.opened h hlive).2
    have hd : (t.opened (t.description h)).file = (s.nodes (s.handles h).node).file := by
      rw [hopened]
    simp only [hh, mem_some_iff, forall_eq']
    by_cases hneg : offset.toInt < 0
    · rw [lseek_refused hh hneg (by decide)]
      by_cases hdata : data = []
      · rw [if_pos hdata, hdata, s.write_nil]
        dsimp only [allows, next]
        rw [if_pos rfl, hA.openOf hh]
        dsimp only
        rw [List.take_nil, store, if_pos rfl]
        exact iff_of_true ⟨rfl, hA⟩ (Or.inl hneg)
      · rw [if_neg hdata]
        dsimp only [allows]
        rw [if_neg hdata, if_pos (Or.inr hneg)]
        refine iff_of_false ?_ fun hfits => absurd hneg (not_lt.mpr hfits.1)
        rintro ⟨⟨e, he⟩, -⟩
        exact write_ne_error hh data alloc e he
    · rw [lseek_set hh hneg]
      dsimp only
      by_cases hdata : data = []
      · rw [if_pos hdata, hdata, write_nil]
        dsimp only [allows, next]
        rw [if_pos rfl, hA.openOf hh]
        dsimp only
        rw [List.take_nil, store, if_pos rfl, hA.setOffset_iff hlive]
        constructor
        · exact fun hmoved => Or.inr hmoved.2
        · rintro (hbad | hmoved)
          · exact absurd hbad hneg
          · exact ⟨rfl, hmoved⟩
      rw [if_neg hdata]
      have hset := s.setOffset_handle h offset.toNat
      have hhset : handleOf (s.setOffset h offset.toNat).fdts pid fd = some h := hh
      have hsnd := vfsWrite_snd data offset.toNat alloc hA hnode
      have hwrite := hA.vfsWrite data offset.toNat alloc hnode hd
      obtain ⟨hfdts, hhandles, hnext⟩ := s.vfsWrite_frame (s.handles h).node data offset.toNat alloc
      have hword := hwrite.node_size (n := (s.handles h).node) (by omega)
      have hcommute := s.vfsWrite_setOffset h offset.toNat (s.handles h).node data offset.toNat alloc
      have hstep := write_eq hhset hdata alloc (by
        rw [hset]
        dsimp only
        rw [hcommute]
        exact hword)
      rw [hset] at hstep
      dsimp only at hstep
      rw [hcommute] at hstep
      dsimp only at hstep
      rw [setOffset_setOffset] at hstep
      rw [hstep]
      dsimp only [allows, next]
      have hopen : ¬(t.openOf pid fd = none ∨ offset.toInt < 0) := by
        rw [hA.openOf hh]
        rintro (hnone | hbad)
        · cases hnone
        · exact hneg hbad
      rw [if_neg hdata, if_neg hopen, hA.openOf hh]
      dsimp only
      generalize hr : s.vfsWrite (s.handles h).node data offset.toNat alloc = r at *
      obtain ⟨s1, n⟩ := r
      dsimp only at hsnd hwrite hfdts hhandles ⊢
      rw [← hsnd]
      have hlive1 : FdLive s1.fdts h := by
        rw [hfdts]
        exact hlive
      have hle : n ≤ data.length := by
        rw [hsnd]
        split_ifs
        · exact le_rfl
        · exact Nat.zero_le _
      have hmove := hwrite.setOffset_iff hlive1 (offset.toNat + n)
      rw [hhandles] at hmove
      constructor
      · rintro ⟨-, hA'⟩
        refine ⟨not_lt.mp hneg, ?_⟩
        have hkept := hwrite.kept hlive1 hA' rfl rfl rfl
        rw [hhandles] at hkept
        have hnew : (((s1.setOffset h (offset.toNat + n)).doUpdate (s.handles h).node).handles h).offset =
            offset.toNat + n := by
          show ((s1.setOffset h (offset.toNat + n)).handles h).offset = offset.toNat + n
          rw [s1.setOffset_handle]
        exact hnew.symm.trans hkept
      · rintro ⟨-, hmoved⟩
        exact ⟨⟨n, hle, rfl⟩, (hmove.mpr hmoved).doUpdate _⟩

end Calls

end CoolPotOS
