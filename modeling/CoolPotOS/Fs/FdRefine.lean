import CoolPotOS.Fs.FdCalls
import CoolPotOS.Fs.FdLifetime

namespace CoolPotOS

open Function List

section Tables

variable {s : FdSys} {t : OpenFiles} {fdts : List (List (Option ℕ))} {fdt fdt' : List (Option ℕ)} {pid fd h : ℕ}

theorem fdLive_set (hlive : FdLive (fdts.set pid fdt') h) : FdLive fdts h ∨ some h ∈ fdt' := by
  obtain ⟨l, hl, hh⟩ := hlive
  obtain hl | rfl := mem_or_eq_of_mem_set hl
  · exact Or.inl ⟨l, hl, hh⟩
  · exact Or.inr hh

theorem mem_addFd {node : ℕ} {alloc : Bool} (hadd : addFd fdt node alloc = some (fdt', fd)) (hh : some h ∈ fdt') :
    some h ∈ fdt ∨ h = node := by
  by_cases hnode : h = node
  · exact Or.inr hnode
  left
  have hcount := count_addFd hadd h
  rw [if_neg hnode, Nat.add_zero] at hcount
  rw [← count_pos_iff, ← hcount]
  exact count_pos_iff.mpr hh

theorem mem_ensureFdtCapacity {alloc : Bool} (hensure : ensureFdtCapacity fdt fd alloc = some fdt')
    (hh : some h ∈ fdt') : some h ∈ fdt := by
  rw [← count_pos_iff, ← (count_ensureFdtCapacity hensure).1 h]
  exact count_pos_iff.mpr hh

theorem FdAgree.tables (hA : FdAgree s t) (hlive : ∀ h, FdLive fdts h → FdLive s.fdts h) :
    FdAgree { s with fdts := fdts } { t with fdts := fdts } where
  fdts := rfl
  nextHandle := hA.nextHandle
  nextNode := hA.nextNode
  nextFile := hA.nextFile
  handle h hh := hA.handle h (hlive h hh)
  opened h hh := hA.opened h (hlive h hh)
  inode := hA.inode
  node := hA.node
  owner := hA.owner
  file := hA.file

theorem FdAgree.addHandle (hA : FdAgree s t) {handle : FdHandle} {d : ℕ} (hnode : handle.node < s.nextNode)
    (hoffset : handle.offset < 2 ^ 64) (hd : d < t.nextOpen)
    (hopened : t.opened d = ⟨(s.nodes handle.node).file, handle.offset⟩)
    (hlive : ∀ h, FdLive fdts h → FdLive s.fdts h ∨ h = s.nextHandle) :
    FdAgree { s.addHandle handle with fdts := fdts } { t.addHandle d with fdts := fdts } where
  fdts := rfl
  nextHandle := congrArg (· + 1) hA.nextHandle
  nextNode := hA.nextNode
  nextFile := hA.nextFile
  handle h hh := by
    show h < s.nextHandle + 1 ∧ (update s.handles s.nextHandle handle h).node < s.nextNode ∧
      (update s.handles s.nextHandle handle h).offset < 2 ^ 64
    by_cases hnew : h = s.nextHandle
    · rw [hnew, update_self]
      exact ⟨Nat.lt_succ_self _, hnode, hoffset⟩
    · have hold := hA.handle h ((hlive h hh).resolve_right hnew)
      rw [update_of_ne hnew]
      exact ⟨by omega, hold.2⟩
  opened h hh := by
    show update t.description t.nextHandle d h < t.nextOpen ∧
      t.opened (update t.description t.nextHandle d h) =
        ⟨(s.nodes (update s.handles s.nextHandle handle h).node).file,
          (update s.handles s.nextHandle handle h).offset⟩
    rw [hA.nextHandle]
    by_cases hnew : h = s.nextHandle
    · rw [hnew, update_self, update_self]
      exact ⟨hd, hopened⟩
    · rw [update_of_ne hnew, update_of_ne hnew]
      exact hA.opened h ((hlive h hh).resolve_right hnew)
  inode := hA.inode
  node := hA.node
  owner := hA.owner
  file := hA.file

theorem FdAgree.install (hA : FdAgree s t) (hfdt : s.fdts[pid]? = some fdt) {handle : FdHandle} {d : ℕ}
    (hnode : handle.node < s.nextNode) (hoffset : handle.offset < 2 ^ 64) (hd : d < t.nextOpen)
    (hopened : t.opened d = ⟨(s.nodes handle.node).file, handle.offset⟩) (alloc : Bool) :
    FdAgree (s.install pid fdt handle alloc).1 (t.install pid fdt d alloc) := by
  unfold FdSys.install OpenFiles.install
  rw [hA.nextHandle, hA.fdts]
  cases hadd : addFd fdt s.nextHandle alloc with
  | none =>
    have hsame : { t.addHandle d with fdts := s.fdts } = t.addHandle d := by
      rw [← hA.fdts]
      rfl
    dsimp only
    rw [← hsame]
    exact hA.addHandle hnode hoffset hd hopened fun h hh => Or.inl hh
  | some r =>
    obtain ⟨fdt', fd⟩ := r
    apply hA.addHandle hnode hoffset hd hopened
    intro h hh
    obtain hold | hin := fdLive_set hh
    · exact Or.inl hold
    · obtain hin | hnew := mem_addFd hadd hin
      · exact Or.inl ⟨fdt, mem_of_getElem? hfdt, hin⟩
      · exact Or.inr hnew

theorem FdAgree.openNode (hA : FdAgree s t) (pid node : ℕ) (append alloc : Bool) :
    FdAgree (s.openNode pid node append alloc).1 (t.openNode pid node append alloc) := by
  unfold FdSys.openNode OpenFiles.openNode
  rw [hA.fdts, hA.nextNode]
  cases hfdt : s.fdts[pid]? with
  | none => exact hA
  | some fdt =>
    dsimp only
    by_cases hnode : node < s.nextNode
    swap
    · rw [if_neg hnode, if_neg hnode]
      exact hA
    rw [if_pos hnode, if_pos hnode]
    obtain ⟨hfile, -⟩ := hA.node node hnode
    obtain ⟨hholds, -⟩ := hA.file _ hfile
    have hsize := hholds.size_le
    have hcapacity := hholds.capacity_lt
    set opened : OpenFile := ⟨t.inode node, if append then (t.files (t.inode node)).size else 0⟩ with hopened
    have hA1 : FdAgree (s.doUpdate node) { t with
          opened := update t.opened t.nextOpen opened
          nextOpen := t.nextOpen + 1 } := by
      have hA' := hA.doUpdate node
      refine ⟨hA'.fdts, hA'.nextHandle, hA'.nextNode, hA'.nextFile, hA'.handle, fun h hlive => ?_, hA'.inode,
        hA'.node, hA'.owner, hA'.file⟩
      have hold := hA'.opened h hlive
      refine ⟨hold.1.trans (Nat.lt_succ_self _), ?_⟩
      show update t.opened t.nextOpen opened (t.description h) = _
      rw [update_of_ne hold.1.ne]
      exact hold.2
    have hupdated : ((s.doUpdate node).nodes node).size = (t.files (t.inode node)).size := by
      rw [s.doUpdate_size_self, hA.inode node hnode]
      exact hholds.size_eq
    rw [← hA.fdts, ← hA.nextNode]
    apply hA1.install hfdt
    · exact hnode
    · dsimp only
      split_ifs
      · rw [s.doUpdate_size_self]
        omega
      · norm_num
    · exact Nat.lt_succ_self _
    · show update t.opened t.nextOpen opened t.nextOpen = _
      rw [update_self, hopened, hupdated, s.doUpdate_file, hA.inode node hnode]

theorem FdAgree.mkFile (hA : FdAgree s t) : FdAgree s.mkFile t.mkFile where
  fdts := hA.fdts
  nextHandle := hA.nextHandle
  nextNode := congrArg (· + 1) hA.nextNode
  nextFile := congrArg (· + 1) hA.nextFile
  handle h hlive := by
    have hold := hA.handle h hlive
    exact ⟨hold.1, hold.2.1.trans (Nat.lt_succ_self _), hold.2.2⟩
  opened h hlive := by
    have hold := hA.opened h hlive
    refine ⟨hold.1, ?_⟩
    show _ = (⟨(update s.nodes s.nextNode ⟨s.nextFile, 0⟩ (s.handles h).node).file, _⟩ : OpenFile)
    rw [update_of_ne (hA.handle h hlive).2.1.ne]
    exact hold.2
  inode n hn := by
    show update t.inode t.nextNode t.nextFile n =
      (update s.nodes s.nextNode ⟨s.nextFile, 0⟩ n).file
    rw [hA.nextNode, hA.nextFile]
    by_cases hnew : n = s.nextNode
    · rw [hnew, update_self, update_self]
    · rw [update_of_ne hnew, update_of_ne hnew]
      exact hA.inode n (Nat.lt_of_le_of_ne (Nat.lt_succ_iff.mp hn) hnew)
  node n hn := by
    show (update s.nodes s.nextNode ⟨s.nextFile, 0⟩ n).file < s.nextFile + 1 ∧
      (update s.nodes s.nextNode ⟨s.nextFile, 0⟩ n).size ≤ (update s.files s.nextFile .empty
          (update s.nodes s.nextNode ⟨s.nextFile, 0⟩ n).file).size
    by_cases hnew : n = s.nextNode
    · rw [hnew, update_self]
      exact ⟨Nat.lt_succ_self _, Nat.zero_le _⟩
    · have hold := hA.node n (Nat.lt_of_le_of_ne (Nat.lt_succ_iff.mp hn) hnew)
      rw [update_of_ne hnew, update_of_ne hold.1.ne]
      exact ⟨hold.1.trans (Nat.lt_succ_self _), hold.2⟩
  owner f hf := by
    show update s.owner s.nextFile s.nextNode f < s.nextNode + 1 ∧
      (update s.nodes s.nextNode ⟨s.nextFile, 0⟩
        (update s.owner s.nextFile s.nextNode f)).file = f
    by_cases hnew : f = s.nextFile
    · rw [hnew, update_self, update_self]
      exact ⟨Nat.lt_succ_self _, rfl⟩
    · have hold := hA.owner f (Nat.lt_of_le_of_ne (Nat.lt_succ_iff.mp hf) hnew)
      rw [update_of_ne hnew, update_of_ne hold.1.ne]
      exact ⟨hold.1.trans (Nat.lt_succ_self _), hold.2⟩
  file f hf := by
    show (update s.files s.nextFile .empty f).Holds (update t.files t.nextFile .empty f) ∧
      (update s.files s.nextFile .empty f).capacity + pageSize ≤ 2 ^ 64
    rw [hA.nextFile]
    by_cases hnew : f = s.nextFile
    · rw [hnew, update_self, update_self]
      exact ⟨holds_empty, by decide⟩
    · rw [update_of_ne hnew, update_of_ne hnew]
      exact hA.file f (Nat.lt_of_le_of_ne (Nat.lt_succ_iff.mp hf) hnew)

theorem FdAgree.link (hA : FdAgree s t) (node : ℕ) : FdAgree (s.link node).1 (t.link node) := by
  unfold FdSys.link OpenFiles.link
  rw [hA.nextNode]
  by_cases hnode : node < s.nextNode
  swap
  · rw [if_neg hnode, if_neg hnode]
    exact hA
  rw [if_pos hnode, if_pos hnode]
  have hA' := hA.doUpdate node
  have hinode := hA'.inode node hnode
  have hold := hA'.node node hnode
  generalize s.doUpdate node = s' at *
  have hnext : s'.nextNode = s.nextNode := by
    rw [← hA'.nextNode, hA.nextNode]
  rw [← hnext]
  refine ⟨hA'.fdts, hA'.nextHandle, rfl, hA'.nextFile, ?_, ?_, ?_, ?_, ?_, hA'.file⟩
  · intro h hlive
    have hh := hA'.handle h hlive
    exact ⟨hh.1, hh.2.1.trans (Nat.lt_succ_self _), hh.2.2⟩
  · intro h hlive
    have hh := hA'.opened h hlive
    refine ⟨hh.1, ?_⟩
    show _ = (⟨(update s'.nodes s'.nextNode (s'.nodes node) (s'.handles h).node).file, _⟩ : OpenFile)
    rw [update_of_ne (hA'.handle h hlive).2.1.ne]
    exact hh.2
  · intro n hn
    show update t.inode s'.nextNode (t.inode node) n =
      (update s'.nodes s'.nextNode (s'.nodes node) n).file
    by_cases hnew : n = s'.nextNode
    · rw [hnew, update_self, update_self]
      exact hinode
    · rw [update_of_ne hnew, update_of_ne hnew]
      exact hA'.inode n (Nat.lt_of_le_of_ne (Nat.lt_succ_iff.mp hn) hnew)
  · intro n hn
    show (update s'.nodes s'.nextNode (s'.nodes node) n).file < s'.nextFile ∧
      (update s'.nodes s'.nextNode (s'.nodes node) n).size ≤
        (s'.files (update s'.nodes s'.nextNode (s'.nodes node) n).file).size
    by_cases hnew : n = s'.nextNode
    · rw [hnew, update_self]
      exact hold
    · rw [update_of_ne hnew]
      exact hA'.node n (Nat.lt_of_le_of_ne (Nat.lt_succ_iff.mp hn) hnew)
  · intro f hf
    have hown := hA'.owner f hf
    refine ⟨hown.1.trans (Nat.lt_succ_self _), ?_⟩
    show (update s'.nodes s'.nextNode (s'.nodes node) (s'.owner f)).file = f
    rw [update_of_ne hown.1.ne]
    exact hown.2

theorem FdAgree.close (hA : FdAgree s t) (pid fd : ℕ) : FdAgree (s.close pid fd).1 (t.close pid fd) := by
  unfold FdSys.close OpenFiles.close
  rw [hA.fdts]
  cases hfdt : s.fdts[pid]? with
  | none => exact hA
  | some fdt =>
    cases handleOf s.fdts pid fd with
    | none => exact hA
    | some h =>
      apply hA.tables
      intro h' hlive
      obtain hold | hin := fdLive_set hlive
      · exact hold
      · obtain hin | heq := mem_or_eq_of_mem_set hin
        · exact ⟨fdt, mem_of_getElem? hfdt, hin⟩
        · cases heq

theorem FdAgree.dup (hA : FdAgree s t) (pid fd : ℕ) (alloc : Bool) :
    FdAgree (s.dup pid fd alloc).1 (t.dup pid fd alloc) := by
  unfold FdSys.dup OpenFiles.dup
  rw [hA.fdts]
  cases hfdt : s.fdts[pid]? with
  | none => exact hA
  | some fdt =>
    cases hh : handleOf s.fdts pid fd with
    | none => exact hA
    | some h =>
      have hlive := fdLive_of_handleOf hh
      obtain ⟨-, hnode, hoffset⟩ := hA.handle h hlive
      obtain ⟨hd, hopened⟩ := hA.opened h hlive
      exact hA.install hfdt hnode hoffset hd hopened alloc

theorem FdAgree.dup2 (hA : FdAgree s t) (pid fd newfd : ℕ) (alloc : Bool) :
    FdAgree (s.dup2 pid fd newfd alloc).1 (t.dup2 pid fd newfd alloc) := by
  unfold FdSys.dup2 OpenFiles.dup2
  rw [hA.fdts]
  cases hfdt : s.fdts[pid]? with
  | none => exact hA
  | some fdt =>
    cases hh : handleOf s.fdts pid fd with
    | none => exact hA
    | some h =>
      have hlive := fdLive_of_handleOf hh
      obtain ⟨-, hnode, hoffset⟩ := hA.handle h hlive
      obtain ⟨hd, hopened⟩ := hA.opened h hlive
      dsimp only
      by_cases hsame : fd = newfd
      · rw [if_pos hsame, if_pos hsame]
        exact hA
      rw [if_neg hsame, if_neg hsame]
      cases hensure : ensureFdtCapacity fdt newfd alloc with
      | none => exact hA
      | some fdt' =>
        dsimp only
        rw [hA.nextHandle]
        apply hA.addHandle hnode hoffset hd hopened
        intro h' hlive'
        obtain hold | hin := fdLive_set hlive'
        · exact Or.inl hold
        · obtain hin | hnew := mem_or_eq_of_mem_set hin
          · exact Or.inl ⟨fdt, mem_of_getElem? hfdt, mem_ensureFdtCapacity hensure hin⟩
          · exact Or.inr (Option.some.inj hnew)

theorem FdSys.copyFdt_tables (s : FdSys) (fdts : List (List (Option ℕ))) (fdt : List (Option ℕ)) :
    FdSys.copyFdt { s with fdts := fdts } fdt =
      ({ (s.copyFdt fdt).1 with fdts := fdts }, (s.copyFdt fdt).2) := by
  induction fdt generalizing s with
  | nil => rfl
  | cons entry fdt ih =>
    cases entry with
    | none =>
      rw [FdSys.copyFdt, FdSys.copyFdt, ih]
    | some h =>
      have hcons : FdSys.copyFdt (FdSys.addHandle { s with fdts := fdts } (s.handles h)) fdt = _ :=
        ih (s.addHandle (s.handles h))
      rw [FdSys.copyFdt, FdSys.copyFdt]
      dsimp only
      rw [hcons]

theorem OpenFiles.copyFdt_tables (t : OpenFiles) (fdts : List (List (Option ℕ))) (fdt : List (Option ℕ)) :
    OpenFiles.copyFdt { t with fdts := fdts } fdt =
      ({ (t.copyFdt fdt).1 with fdts := fdts }, (t.copyFdt fdt).2) := by
  induction fdt generalizing t with
  | nil => rfl
  | cons entry fdt ih =>
    cases entry with
    | none =>
      rw [OpenFiles.copyFdt, OpenFiles.copyFdt, ih]
    | some h =>
      have hcons : OpenFiles.copyFdt (OpenFiles.addHandle { t with fdts := fdts } (t.description h)) fdt = _ :=
        ih (t.addHandle (t.description h))
      rw [OpenFiles.copyFdt, OpenFiles.copyFdt]
      dsimp only
      rw [hcons]

theorem FdAgree.copyFdt (hA : FdAgree s t) (hlive : ∀ h, some h ∈ fdt → FdLive s.fdts h) :
    (s.copyFdt fdt).2 = (t.copyFdt fdt).2 ∧
      FdAgree { (s.copyFdt fdt).1 with fdts := s.fdts ++ [(s.copyFdt fdt).2] }
        { (t.copyFdt fdt).1 with fdts := s.fdts ++ [(s.copyFdt fdt).2] } := by
  induction fdt generalizing s t with
  | nil =>
    refine ⟨rfl, hA.tables fun h hh => ?_⟩
    obtain ⟨l, hl, hin⟩ := hh
    obtain hl | hl := mem_append.mp hl
    · exact ⟨l, hl, hin⟩
    · rw [mem_singleton.mp hl] at hin
      cases hin
  | cons entry fdt ih =>
    have hrest : ∀ h, some h ∈ fdt → FdLive s.fdts h := fun h hh => hlive h (mem_cons_of_mem _ hh)
    cases entry with
    | none =>
      obtain ⟨hsame, hcopy⟩ := ih hA hrest
      rw [FdSys.copyFdt, OpenFiles.copyFdt]
      dsimp only
      refine ⟨congrArg _ hsame, hcopy.tables fun h hh => ?_⟩
      obtain ⟨l, hl, hin⟩ := hh
      obtain hl | hl := mem_append.mp hl
      · exact ⟨l, mem_append_left _ hl, hin⟩
      · rw [mem_singleton.mp hl] at hin
        obtain heq | hin := mem_cons.mp hin
        · cases heq
        · exact ⟨_, mem_append_right _ (mem_singleton_self _), hin⟩
    | some h0 =>
      have hlive0 := hlive h0 mem_cons_self
      obtain ⟨-, hnode, hoffset⟩ := hA.handle h0 hlive0
      obtain ⟨hd, hopened⟩ := hA.opened h0 hlive0
      -- the new handle is a descriptor of a table of its own while the rest is copied
      have halone : ∀ h, FdLive (s.fdts ++ [[some s.nextHandle]]) h → FdLive s.fdts h ∨ h = s.nextHandle := by
        rintro h ⟨l, hl, hin⟩
        obtain hl | hl := mem_append.mp hl
        · exact Or.inl ⟨l, hl, hin⟩
        · rw [mem_singleton.mp hl] at hin
          exact Or.inr (Option.some.inj (mem_singleton.mp hin))
      have hadd := hA.addHandle hnode hoffset hd hopened halone
      have hin : ∀ h, some h ∈ fdt → FdLive (s.fdts ++ [[some s.nextHandle]]) h := by
        intro h hh
        obtain ⟨l, hl, hin⟩ := hrest h hh
        exact ⟨l, mem_append_left _ hl, hin⟩
      obtain ⟨hsame, hcopy⟩ := ih hadd hin
      rw [FdSys.copyFdt_tables, OpenFiles.copyFdt_tables] at hsame hcopy
      dsimp only at hsame hcopy
      rw [FdSys.copyFdt, OpenFiles.copyFdt]
      dsimp only
      rw [hA.nextHandle]
      refine ⟨congrArg _ hsame, hcopy.tables fun h hh => ?_⟩
      obtain ⟨l, hl, hin⟩ := hh
      obtain hl | hl := mem_append.mp hl
      · exact ⟨l, mem_append_left _ (mem_append_left _ hl), hin⟩
      · rw [mem_singleton.mp hl] at hin
        obtain heq | hin := mem_cons.mp hin
        · exact ⟨_, mem_append_left _ (mem_append_right _ (mem_singleton_self _)),
            mem_singleton.mpr heq⟩
        · exact ⟨_, mem_append_right _ (mem_singleton_self _), hin⟩

theorem FdSys.copyFdt_fdts (s : FdSys) (fdt : List (Option ℕ)) : (s.copyFdt fdt).1.fdts = s.fdts := by
  induction fdt generalizing s with
  | nil => rfl
  | cons entry fdt ih =>
    cases entry with
    | none => exact ih s
    | some h => exact ih (s.addHandle (s.handles h))

theorem OpenFiles.copyFdt_fdts (t : OpenFiles) (fdt : List (Option ℕ)) : (t.copyFdt fdt).1.fdts = t.fdts := by
  induction fdt generalizing t with
  | nil => rfl
  | cons entry fdt ih =>
    cases entry with
    | none => exact ih t
    | some h => exact ih (t.addHandle (t.description h))

theorem FdAgree.fork (hA : FdAgree s t) (pid : ℕ) : FdAgree (s.fork pid).1 (t.fork pid) := by
  unfold FdSys.fork OpenFiles.fork
  rw [hA.fdts]
  cases hfdt : s.fdts[pid]? with
  | none => exact hA
  | some fdt =>
    have hentries : ∀ h, some h ∈ fdt → FdLive s.fdts h := fun h hh => ⟨fdt, mem_of_getElem? hfdt, hh⟩
    obtain ⟨hsame, hcopy⟩ := hA.copyFdt hentries
    dsimp only
    rw [s.copyFdt_fdts, t.copyFdt_fdts, hA.fdts, ← hsame]
    exact hcopy

end Tables

theorem FdAgree.lseek_iff_fits {s : FdSys} {t : OpenFiles} (hA : FdAgree s t) (pid fd : ℕ) (offset : BitVec 64)
    (whence : Whence) : (t.allows (.lseek pid fd offset whence) (s.lseek pid fd offset whence).2 ∧
        FdAgree (s.lseek pid fd offset whence).1
          (t.next (.lseek pid fd offset whence) (s.lseek pid fd offset whence).2)) ↔
      FdFits s t (.lseek pid fd offset whence) := by
  cases hh : handleOf s.fdts pid fd with
  | some h => exact hA.lseek_iff hh offset whence
  | none =>
    unfold FdFits
    rw [FdSys.lseek_none hh]
    dsimp only [OpenFiles.allows, OpenFiles.next]
    rw [hA.openOf_none hh]
    refine iff_of_true ⟨⟨_, rfl⟩, hA⟩ fun h' hh' => ?_
    rw [hh] at hh'
    cases hh'

theorem FdAgree.step_iff (s : FdSys) (t : OpenFiles) (call : FdCall) (hA : FdAgree s t) :
    (t.allows call (s.step call).2 ∧ FdAgree (s.step call).1 (t.next call (s.step call).2)) ↔
      FdFits s t call := by
  cases call with
  | create pid alloc =>
    refine iff_of_true ⟨trivial, ?_⟩ trivial
    have hnew := hA.mkFile.openNode pid s.nextNode false alloc
    rw [← hA.nextNode] at hnew
    show FdAgree (s.mkFile.openNode pid s.nextNode false alloc).1 (t.mkFile.openNode pid t.nextNode false alloc)
    rw [← hA.nextNode]
    exact hnew
  | link node => exact iff_of_true ⟨trivial, hA.link node⟩ trivial
  | openNode pid node append alloc => exact iff_of_true ⟨trivial, hA.openNode pid node append alloc⟩ trivial
  | close pid fd => exact iff_of_true ⟨trivial, hA.close pid fd⟩ trivial
  | dup pid fd alloc => exact iff_of_true ⟨trivial, hA.dup pid fd alloc⟩ trivial
  | dup2 pid fd newfd alloc => exact iff_of_true ⟨trivial, hA.dup2 pid fd newfd alloc⟩ trivial
  | fork pid => exact iff_of_true ⟨trivial, hA.fork pid⟩ trivial
  | lseek pid fd offset whence => exact hA.lseek_iff_fits pid fd offset whence
  | read pid fd size => exact hA.read_iff pid fd size
  | write pid fd data alloc => exact hA.write_iff pid fd data alloc
  | pread pid fd size offset => exact hA.pread_iff pid fd size offset
  | pwrite pid fd data offset alloc => exact hA.pwrite_iff pid fd data offset alloc

/-- The calls return what open files allow, and leave every offset and every file as open files have them,
if and only if each call of the run fits the states that it is made in. -/
theorem descriptors_agree (calls : List FdCall) :
    Machines.Conforms FdSys.step OpenFiles.next OpenFiles.allows FdAgree calls .init .init ↔
      Machines.Along FdSys.step OpenFiles.next FdFits calls .init .init :=
  Machines.conforms_iff FdAgree.step_iff fdAgree_init

/-- Two bytes are written, one is read at offset `0` by `pread`, and the offset is asked for. -/
def preadMoves : List FdCall :=
  [.create 0 true, .write 0 0 [1, 2] true, .pread 0 0 1 0, .lseek 0 0 0 .seekCur]

theorem descriptors_differ :
    ¬Machines.Conforms FdSys.step OpenFiles.next OpenFiles.allows FdAgree preadMoves .init .init := by
  rintro ⟨-, -, -, ⟨hallowed, -⟩, -⟩
  have heq : FdOut.offset 1 = FdOut.offset 2 := hallowed
  cases heq

end CoolPotOS
