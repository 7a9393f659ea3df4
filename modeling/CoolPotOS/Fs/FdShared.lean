import CoolPotOS.Fs.FdOffset
import CoolPotOS.Lib.Machines

namespace CoolPotOS

open Bytes Function List

def FdLive (fdts : List (List (Option ℕ))) (h : ℕ) : Prop := ∃ fdt ∈ fdts, some h ∈ fdt

theorem fdLive_of_handleOf {fdts : List (List (Option ℕ))} {pid fd h : ℕ} (hh : handleOf fdts pid fd = some h) :
    FdLive fdts h := by
  obtain ⟨fdt, hfdt, hfd⟩ := Option.bind_eq_some_iff.mp hh
  exact ⟨fdt, mem_of_getElem? hfdt, mem_of_getElem? (Option.join_eq_some_iff.mp hfd)⟩

/-- No other descriptor refers to the open file of the handle. -/
def OpenFiles.Alone (t : OpenFiles) (h : ℕ) : Prop :=
  ∀ h', FdLive t.fdts h' → t.description h' = t.description h → h' = h

/-- Each descriptor is at the offset of its open file, and the files hold the same bytes. -/
structure FdAgree (s : FdSys) (t : OpenFiles) : Prop where
  fdts : t.fdts = s.fdts
  nextHandle : t.nextHandle = s.nextHandle
  nextNode : t.nextNode = s.nextNode
  nextFile : t.nextFile = s.nextFile
  handle : ∀ h, FdLive s.fdts h →
    h < s.nextHandle ∧ (s.handles h).node < s.nextNode ∧ (s.handles h).offset < 2 ^ 64
  opened : ∀ h, FdLive s.fdts h → t.description h < t.nextOpen ∧
    t.opened (t.description h) = ⟨(s.nodes (s.handles h).node).file, (s.handles h).offset⟩
  inode : ∀ n < s.nextNode, t.inode n = (s.nodes n).file
  node : ∀ n < s.nextNode,
    (s.nodes n).file < s.nextFile ∧ (s.nodes n).size ≤ (s.files (s.nodes n).file).size
  owner : ∀ f < s.nextFile, s.owner f < s.nextNode ∧ (s.nodes (s.owner f)).file = f
  file : ∀ f < s.nextFile, (s.files f).Holds (t.files f) ∧ (s.files f).capacity + pageSize ≤ 2 ^ 64

theorem fdAgree_init : FdAgree .init .init where
  fdts := rfl
  nextHandle := rfl
  nextNode := rfl
  nextFile := rfl
  handle := by
    rintro h ⟨fdt, hfdt, hh⟩
    obtain rfl := mem_singleton.mp hfdt
    cases hh
  opened := by
    rintro h ⟨fdt, hfdt, hh⟩
    obtain rfl := mem_singleton.mp hfdt
    cases hh
  inode n hn := absurd hn (Nat.not_lt_zero n)
  node n hn := absurd hn (Nat.not_lt_zero n)
  owner f hf := absurd hf (Nat.not_lt_zero f)
  file f hf := absurd hf (Nat.not_lt_zero f)

namespace FdSys

theorem doUpdate_file (s : FdSys) (n m : ℕ) : ((s.doUpdate n).nodes m).file = (s.nodes m).file := by
  unfold doUpdate
  dsimp only
  by_cases hm : m = n
  · rw [hm, update_self]
  · rw [update_of_ne hm]

theorem doUpdate_size_self (s : FdSys) (n : ℕ) :
    ((s.doUpdate n).nodes n).size = (s.files (s.nodes n).file).size := by
  unfold doUpdate
  dsimp only
  rw [update_self]

theorem setOffset_handle (s : FdSys) (h offset : ℕ) :
    (s.setOffset h offset).handles h = ⟨(s.handles h).node, offset⟩ := by
  unfold setOffset
  dsimp only
  rw [update_self]

theorem setOffset_of_ne (s : FdSys) {h h' : ℕ} (hne : h' ≠ h) (offset : ℕ) :
    (s.setOffset h offset).handles h' = s.handles h' := by
  unfold setOffset
  dsimp only
  rw [update_of_ne hne]

theorem setOffset_node (s : FdSys) (h h' offset : ℕ) :
    ((s.setOffset h offset).handles h').node = (s.handles h').node := by
  by_cases hne : h' = h
  · rw [hne, s.setOffset_handle]
  · rw [s.setOffset_of_ne hne]

theorem setOffset_self (s : FdSys) (h : ℕ) : s.setOffset h (s.handles h).offset = s := by
  unfold setOffset
  rw [update_eq_self]

end FdSys

section Agree

variable {s s' : FdSys} {t t' : OpenFiles} {h offset : ℕ}

theorem FdAgree.doUpdate (h : FdAgree s t) (n : ℕ) : FdAgree (s.doUpdate n) t where
  fdts := h.fdts
  nextHandle := h.nextHandle
  nextNode := h.nextNode
  nextFile := h.nextFile
  handle := h.handle
  opened h' hlive := by
    rw [s.doUpdate_file]
    exact h.opened h' hlive
  inode m hm := by
    rw [s.doUpdate_file]
    exact h.inode m hm
  node m hm := by
    rw [s.doUpdate_file]
    refine ⟨(h.node m hm).1, ?_⟩
    show ((s.doUpdate n).nodes m).size ≤ (s.files (s.nodes m).file).size
    by_cases hmn : m = n
    · rw [hmn, s.doUpdate_size_self]
    · have hother : (s.doUpdate n).nodes m = s.nodes m := update_of_ne hmn _ _
      rw [hother]
      exact (h.node m hm).2
  owner f hf := by
    rw [s.doUpdate_file]
    exact h.owner f hf
  file := h.file

theorem FdAgree.setOffset (hA : FdAgree s t) (hlive : FdLive s.fdts h) (hoffset : offset < 2 ^ 64)
    (halone : offset = (s.handles h).offset ∨ t.Alone h) :
    FdAgree (s.setOffset h offset) (t.setOffset (t.description h) offset) where
  fdts := hA.fdts
  nextHandle := hA.nextHandle
  nextNode := hA.nextNode
  nextFile := hA.nextFile
  handle h' hlive' := by
    have hold := hA.handle h' hlive'
    rw [s.setOffset_node]
    refine ⟨hold.1, hold.2.1, ?_⟩
    by_cases hne : h' = h
    · rw [hne, s.setOffset_handle]
      exact hoffset
    · rw [s.setOffset_of_ne hne]
      exact hold.2.2
  opened h' hlive' := by
    have hold := hA.opened h' hlive'
    have hopen := hA.opened h hlive
    refine ⟨hold.1, ?_⟩
    rw [s.setOffset_node]
    show update t.opened (t.description h) { t.opened (t.description h) with offset := offset }
      (t.description h') = ⟨(s.nodes (s.handles h').node).file, ((s.setOffset h offset).handles h').offset⟩
    by_cases hne : h' = h
    · rw [hne, s.setOffset_handle, update_self, hopen.2]
    · rw [s.setOffset_of_ne hne, ← hold.2]
      by_cases hsame : t.description h' = t.description h
      · -- a descriptor that shares the open file keeps its offset: nothing has moved
        obtain hkept | halone := halone
        · rw [hsame, update_self, hkept, hopen.2]
        · have hlive'' : FdLive t.fdts h' := by
            rw [hA.fdts]
            exact hlive'
          exact absurd (halone h' hlive'' hsame) hne
      · rw [update_of_ne hsame]
  inode := hA.inode
  node := hA.node
  owner := hA.owner
  file := hA.file

theorem FdAgree.alone (hA : FdAgree s t) (hlive : FdLive s.fdts h) (hA' : FdAgree s' t')
    (hfdts : s'.fdts = s.fdts) (hother : ∀ h', h' ≠ h → (s'.handles h').offset = (s.handles h').offset)
    (hdescription : t'.description = t.description)
    (hoffset : (t'.opened (t.description h)).offset = offset) :
    offset = (s.handles h).offset ∨ t.Alone h := by
  by_cases halone : t.Alone h
  · exact Or.inr halone
  left
  unfold OpenFiles.Alone at halone
  push Not at halone
  obtain ⟨h', hlive', hsame, hne⟩ := halone
  rw [hA.fdts] at hlive'
  have hlive'' : FdLive s'.fdts h' := by
    rw [hfdts]
    exact hlive'
  have hnew := (hA'.opened h' hlive'').2
  rw [hdescription, hsame] at hnew
  have hold := (hA.opened h' hlive').2
  rw [hsame, (hA.opened h hlive).2, OpenFile.mk.injEq] at hold
  calc offset = (t'.opened (t.description h)).offset := hoffset.symm
    _ = (s'.handles h').offset := by rw [hnew]
    _ = (s.handles h').offset := hother h' hne
    _ = (s.handles h).offset := hold.2.symm

theorem FdAgree.kept (hA : FdAgree s t) (hlive : FdLive s.fdts h) (hA' : FdAgree s' t')
    (hfdts : s'.fdts = s.fdts) (hdescription : t'.description = t.description)
    (hopened : t'.opened = t.opened) : (s'.handles h).offset = (s.handles h).offset := by
  have hlive' : FdLive s'.fdts h := by
    rw [hfdts]
    exact hlive
  have hnew := (hA'.opened h hlive').2
  rw [hdescription, hopened, (hA.opened h hlive).2, OpenFile.mk.injEq] at hnew
  exact hnew.2.symm

end Agree

/-- The bytes of a write are stored: there are some, their end is a word, and there is room. -/
def FdSys.Stores (s : FdSys) (node offset : ℕ) (data : List UInt8) (alloc : Bool) : Prop :=
  data ≠ [] ∧ offset + data.length < 2 ^ 64 ∧
    (tmpfsEnsureCapacity (s.files (s.nodes node).file) (offset + data.length) alloc).isSome = true

instance (s : FdSys) (node offset : ℕ) (data : List UInt8) (alloc : Bool) :
    Decidable (s.Stores node offset data alloc) := by
  unfold FdSys.Stores
  infer_instance

theorem tmpfsWrite_snd (file : TmpfsFile) (data : List UInt8) (offset : ℕ) (alloc : Bool) :
    (tmpfsWrite file data offset alloc).2 = if data ≠ [] ∧ offset + data.length < 2 ^ 64 ∧
          (tmpfsEnsureCapacity file (offset + data.length) alloc).isSome = true then data.length
      else 0 := by
  unfold tmpfsWrite
  by_cases hempty : data.length = 0
  · rw [if_pos hempty, if_neg]
    intro hstores
    exact hstores.1 (length_eq_zero_iff.mp hempty)
  rw [if_neg hempty]
  by_cases hwrap : offset + data.length ≥ 2 ^ 64
  · rw [if_pos hwrap, if_neg]
    intro hstores
    omega
  rw [if_neg hwrap]
  cases hroom : tmpfsEnsureCapacity file (offset + data.length) alloc with
  | none =>
    rw [if_neg]
    intro hstores
    cases hstores.2.2
  | some grown =>
    rw [if_pos]
    exact ⟨fun hnil => hempty (length_eq_zero_iff.mpr hnil), not_le.mp hwrap, rfl⟩

theorem tmpfsEnsureCapacity_le {file grown : TmpfsFile} {stop : ℕ} {alloc : Bool}
    (hcapacity : file.capacity + pageSize ≤ 2 ^ 64) (hroom : tmpfsEnsureCapacity file stop alloc = some grown) :
    grown.capacity + pageSize ≤ 2 ^ 64 := by
  unfold tmpfsEnsureCapacity at hroom
  by_cases hstop : stop ≤ file.capacity
  · rw [if_pos hstop] at hroom
    cases hroom
    exact hcapacity
  rw [if_neg hstop] at hroom
  cases hpages : tmpfsSizeToPages stop with
  | none =>
    rw [hpages] at hroom
    cases hroom
  | some needPages =>
    rw [hpages] at hroom
    simp only at hroom
    generalize tmpfsGrowPages needPages 64 (if file.pageNum ≠ 0 then file.pageNum else 1) = newPages at hroom
    split_ifs at hroom with hneed hlarge
    cases hroom
    show newPages * pageSize + pageSize ≤ 2 ^ 64
    unfold pageSize at hlarge ⊢
    omega

theorem tmpfsWrite_capacity {file : TmpfsFile} (hcapacity : file.capacity + pageSize ≤ 2 ^ 64)
    (data : List UInt8) (offset : ℕ) (alloc : Bool) :
    (tmpfsWrite file data offset alloc).1.capacity + pageSize ≤ 2 ^ 64 := by
  unfold tmpfsWrite
  split_ifs
  · exact hcapacity
  · exact hcapacity
  · cases hroom : tmpfsEnsureCapacity file (offset + data.length) alloc with
    | none => exact hcapacity
    | some grown =>
      have hgrown := tmpfsEnsureCapacity_le hcapacity hroom
      exact hgrown

namespace FdSys

def setFile (s : FdSys) (f : ℕ) (file : TmpfsFile) : FdSys := { s with files := Function.update s.files f file }

theorem doUpdate_eq {s : FdSys} {node f size : ℕ} (hfile : (s.nodes node).file = f)
    (hsize : (s.files f).size = size) :
    { s with nodes := update s.nodes node { s.nodes node with size := size } } = s.doUpdate node := by
  rw [← hsize, ← hfile]
  rfl

theorem vfsWrite_eq (s : FdSys) {node : ℕ} (data : List UInt8) (offset : ℕ) (alloc : Bool)
    (howner : (s.nodes (s.owner (s.nodes node).file)).file = (s.nodes node).file) :
    let f := (s.nodes node).file
    let r := tmpfsWrite (s.files f) data offset alloc
    s.vfsWrite node data offset alloc =
      ((if r.2 ≠ 0 then ((s.doUpdate node).setFile f r.1).doUpdate (s.owner f)
        else (s.doUpdate node).setFile f r.1).doUpdate node, r.2) := by
  intro f r
  have hfile : ((s.doUpdate node).nodes node).file = f := s.doUpdate_file node node
  have howner' : ((s.doUpdate node).nodes (s.owner f)).file = f := (s.doUpdate_file node _).trans howner
  unfold vfsWrite
  dsimp only
  rw [hfile]
  show (doUpdate (if r.2 ≠ 0 then _ else _) node, r.2) = _
  by_cases hr : r.2 ≠ 0
  · rw [if_pos hr, if_pos hr]
    refine Prod.ext ?_ rfl
    dsimp only
    congr 1
    apply doUpdate_eq (s := (s.doUpdate node).setFile f r.1) howner'
    show (update (s.doUpdate node).files f r.1 f).size = r.1.size
    rw [update_self]
  · rw [if_neg hr, if_neg hr]
    rfl

theorem setOffset_setOffset (s : FdSys) (h a b : ℕ) : (s.setOffset h a).setOffset h b = s.setOffset h b := by
  unfold setOffset
  dsimp only
  rw [update_self, update_idem]

theorem vfsWrite_setOffset (s : FdSys) (h o node : ℕ) (data : List UInt8) (offset : ℕ) (alloc : Bool) :
    (s.setOffset h o).vfsWrite node data offset alloc =
      ((s.vfsWrite node data offset alloc).1.setOffset h o, (s.vfsWrite node data offset alloc).2) := by
  unfold vfsWrite
  dsimp only
  by_cases hr : (tmpfsWrite ((s.doUpdate node).files ((s.doUpdate node).nodes node).file) data offset alloc).2 ≠ 0
  · have hr' : (tmpfsWrite (((s.setOffset h o).doUpdate node).files
        (((s.setOffset h o).doUpdate node).nodes node).file) data offset alloc).2 ≠ 0 := hr
    rw [if_pos hr, if_pos hr']
    rfl
  · have hr' : ¬(tmpfsWrite (((s.setOffset h o).doUpdate node).files
        (((s.setOffset h o).doUpdate node).nodes node).file) data offset alloc).2 ≠ 0 := hr
    rw [if_neg hr, if_neg hr']
    rfl

end FdSys

section Writes

variable {s : FdSys} {t : OpenFiles} {node : ℕ} (data : List UInt8) (offset : ℕ) (alloc : Bool)

theorem FdAgree.setFile {f : ℕ} {file : TmpfsFile} {array : SparseFile} (hA : FdAgree s t)
    (hholds : file.Holds array) (hcapacity : file.capacity + pageSize ≤ 2 ^ 64)
    (hsize : (s.files f).size ≤ file.size) :
    FdAgree (s.setFile f file) { t with files := update t.files f array } where
  fdts := hA.fdts
  nextHandle := hA.nextHandle
  nextNode := hA.nextNode
  nextFile := hA.nextFile
  handle := hA.handle
  opened := hA.opened
  inode := hA.inode
  node n hn := by
    refine ⟨(hA.node n hn).1, ?_⟩
    show (s.nodes n).size ≤ (update s.files f file (s.nodes n).file).size
    have hle := (hA.node n hn).2
    by_cases hf : (s.nodes n).file = f
    · rw [hf, update_self]
      rw [hf] at hle
      exact hle.trans hsize
    · rw [update_of_ne hf]
      exact hle
  owner := hA.owner
  file g hg := by
    show (update s.files f file g).Holds (update t.files f array g) ∧
      (update s.files f file g).capacity + pageSize ≤ 2 ^ 64
    by_cases hgf : g = f
    · rw [hgf, update_self, update_self]
      exact ⟨hholds, hcapacity⟩
    · rw [update_of_ne hgf, update_of_ne hgf]
      exact hA.file g hg

theorem FdSys.vfsWrite_snd (hA : FdAgree s t) (hnode : node < s.nextNode) :
    (s.vfsWrite node data offset alloc).2 = if s.Stores node offset data alloc then data.length else 0 := by
  rw [s.vfsWrite_eq data offset alloc (hA.owner _ (hA.node node hnode).1).2]
  exact tmpfsWrite_snd ..

theorem FdAgree.vfsWrite (hA : FdAgree s t) (hnode : node < s.nextNode) {d : ℕ}
    (hd : (t.opened d).file = (s.nodes node).file) : FdAgree (s.vfsWrite node data offset alloc).1
      (t.store d offset (data.take (s.vfsWrite node data offset alloc).2)) := by
  obtain ⟨hfile, hsize⟩ := hA.node node hnode
  obtain ⟨hholds, hcapacity⟩ := hA.file _ hfile
  rw [s.vfsWrite_eq data offset alloc (hA.owner _ hfile).2]
  dsimp only
  obtain hnone | ⟨file', hsome, hlength, hholds'⟩ := tmpfsWrite_cases hholds data offset alloc
  · rw [hnone]
    dsimp only
    rw [if_neg (not_not.mpr rfl), take_zero, OpenFiles.store, if_pos rfl]
    apply FdAgree.doUpdate
    have hkept : (s.doUpdate node).setFile (s.nodes node).file (s.files (s.nodes node).file) =
        s.doUpdate node := by
      show (s.doUpdate node).setFile (s.nodes node).file ((s.doUpdate node).files (s.nodes node).file) = _
      unfold FdSys.setFile
      rw [update_eq_self]
    rw [hkept]
    exact hA.doUpdate node
  · have hcapacity' := tmpfsWrite_capacity hcapacity data offset alloc
    rw [hsome] at hcapacity' ⊢
    dsimp only at hcapacity' ⊢
    have hdata : data ≠ [] := fun hnil => hlength (length_eq_zero_iff.mpr hnil)
    rw [if_pos hlength, take_length, OpenFiles.store, if_neg hdata, hd]
    apply FdAgree.doUpdate
    apply FdAgree.doUpdate
    apply (hA.doUpdate node).setFile hholds' hcapacity'
    show (s.files (s.nodes node).file).size ≤ file'.size
    rw [hholds.size_eq, hholds'.size_eq]
    exact le_max_left _ _

end Writes

/-- A read gets the bytes of the file: the node is not behind the file, and the range is one of words. -/
def FdSys.Reads (s : FdSys) (node offset : ℕ) (size : BitVec 64) : Prop :=
  ((s.nodes node).size ≤ offset → (s.files (s.nodes node).file).size ≤ offset) ∧
    (offset < (s.files (s.nodes node).file).size → offset + size.toNat < 2 ^ 64)

theorem SparseFile.length_read (array : SparseFile) (offset size : ℕ) :
    (array.read offset size).length = min (offset + size) array.size - offset :=
  length_slice ..

section Reads

variable {s : FdSys} {pid fd h : ℕ} {size : BitVec 64} {array : SparseFile}

theorem FdSys.read_eq (hh : handleOf s.fdts pid fd = some h) (hsize : size ≠ 0)
    (hholds : (s.files (s.nodes (s.handles h).node).file).Holds array)
    (hcapacity : (s.files (s.nodes (s.handles h).node).file).capacity + pageSize ≤ 2 ^ 64)
    (hnode : (s.nodes (s.handles h).node).size ≤ (s.files (s.nodes (s.handles h).node).file).size) :
    s.read pid fd size =
      if (s.handles h).offset ≥ (s.nodes (s.handles h).node).size then (s, .bytes [])
      else
        match tmpfsRead (s.files (s.nodes (s.handles h).node).file) (s.handles h).offset size.toNat with
        | none => (s.doUpdate (s.handles h).node, .overrun)
        | some bytes =>
          ((s.doUpdate (s.handles h).node).setOffset h ((s.handles h).offset + bytes.length), .bytes bytes) := by
  have hle := hholds.size_le
  have hword : (s.nodes (s.handles h).node).size ≠ 2 ^ 64 - 1 := by
    unfold pageSize at hcapacity
    omega
  have hupdated : ((s.doUpdate (s.handles h).node).nodes (s.handles h).node).size ≠ 2 ^ 64 - 1 := by
    rw [s.doUpdate_size_self]
    unfold pageSize at hcapacity
    omega
  unfold FdSys.read
  rw [if_neg hsize, hh]
  dsimp only
  by_cases hpast : (s.handles h).offset ≥ (s.nodes (s.handles h).node).size
  · rw [if_pos ⟨hword, hpast⟩, if_pos hpast]
  rw [if_neg fun hc => hpast hc.2, if_neg hpast, s.doUpdate_file]
  show (match tmpfsRead (s.files (s.nodes (s.handles h).node).file) (s.handles h).offset size.toNat with
    | none => _
    | some bytes => _) = _
  cases tmpfsRead (s.files (s.nodes (s.handles h).node).file) (s.handles h).offset size.toNat with
  | none => rfl
  | some bytes =>
    dsimp only
    rw [if_pos hupdated]

theorem FdSys.read_of_reads (hh : handleOf s.fdts pid fd = some h) (hsize : size ≠ 0)
    (hholds : (s.files (s.nodes (s.handles h).node).file).Holds array)
    (hcapacity : (s.files (s.nodes (s.handles h).node).file).capacity + pageSize ≤ 2 ^ 64)
    (hnode : (s.nodes (s.handles h).node).size ≤ (s.files (s.nodes (s.handles h).node).file).size)
    (hreads : s.Reads (s.handles h).node (s.handles h).offset size) :
    ∃ s1, (s1 = s ∨ s1 = s.doUpdate (s.handles h).node) ∧ s.read pid fd size =
        (s1.setOffset h ((s.handles h).offset + (array.read (s.handles h).offset size.toNat).length),
          .bytes (array.read (s.handles h).offset size.toNat)) := by
  rw [FdSys.read_eq hh hsize hholds hcapacity hnode]
  by_cases hpast : (s.handles h).offset ≥ (s.nodes (s.handles h).node).size
  · rw [if_pos hpast]
    have hend := hreads.1 hpast
    have hlength := array.length_read (s.handles h).offset size.toNat
    rw [← hholds.size_eq] at hlength
    have hnil : array.read (s.handles h).offset size.toNat = [] := by
      apply eq_nil_of_length_eq_zero
      omega
    refine ⟨s, Or.inl rfl, ?_⟩
    rw [hnil, length_nil, Nat.add_zero, s.setOffset_self]
  · rw [if_neg hpast]
    have hok : ¬((s.handles h).offset < (s.files (s.nodes (s.handles h).node).file).size ∧
        2 ^ 64 ≤ (s.handles h).offset + size.toNat) :=
      fun hc => absurd (hreads.2 hc.1) (not_lt.mpr hc.2)
    have hread := (tmpfsRead_iff hholds size.toNat size.isLt).mpr hok
    exact ⟨_, Or.inr rfl, by rw [hread]⟩

theorem FdSys.read_of_not_reads (hh : handleOf s.fdts pid fd = some h) (hsize : size ≠ 0)
    (hholds : (s.files (s.nodes (s.handles h).node).file).Holds array)
    (hcapacity : (s.files (s.nodes (s.handles h).node).file).capacity + pageSize ≤ 2 ^ 64)
    (hnode : (s.nodes (s.handles h).node).size ≤ (s.files (s.nodes (s.handles h).node).file).size)
    (hreads : ¬s.Reads (s.handles h).node (s.handles h).offset size) :
    (s.read pid fd size).2 ≠ .bytes (array.read (s.handles h).offset size.toNat) := by
  rw [FdSys.read_eq hh hsize hholds hcapacity hnode]
  by_cases hpast : (s.handles h).offset ≥ (s.nodes (s.handles h).node).size
  · rw [if_pos hpast]
    intro heq
    have hlength := array.length_read (s.handles h).offset size.toNat
    rw [← FdOut.bytes.inj heq, length_nil, ← hholds.size_eq] at hlength
    have hpos : 0 < size.toNat := by
      apply Nat.pos_of_ne_zero
      intro hzero
      exact hsize (BitVec.eq_of_toNat_eq hzero)
    have hend : (s.files (s.nodes (s.handles h).node).file).size ≤ (s.handles h).offset := by
      omega
    exact hreads ⟨fun _ => hend, fun hlt => absurd hlt (not_lt.mpr hend)⟩
  · rw [if_neg hpast]
    cases hread : tmpfsRead (s.files (s.nodes (s.handles h).node).file) (s.handles h).offset size.toNat with
    | none =>
      intro heq
      cases heq
    | some bytes =>
      intro heq
      rw [FdOut.bytes.inj heq] at hread
      have hok := (tmpfsRead_iff hholds size.toNat size.isLt).mp hread
      apply hreads
      refine ⟨fun hle => absurd hle hpast, fun hlt => ?_⟩
      by_contra hwrap
      exact hok ⟨hlt, not_lt.mp hwrap⟩

end Reads

end CoolPotOS
