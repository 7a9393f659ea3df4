import Mathlib

namespace CoolPotOS

abbrev Word64 := BitVec 64

/-- `Elf64_Rela`, with the two parts of `r_info`. -/
structure Rela where
  rOffset : Word64
  rSym : ℕ
  rType : ℕ
  rAddend : Word64
  deriving DecidableEq

/-- `Elf64_Sym`, with the two parts of `st_info`. -/
structure ElfSym where
  stName : ℕ
  bind : ℕ
  type : ℕ
  stShndx : ℕ
  stValue : Word64

structure Dlfunc where
  name : List Char
  addr : Word64
  deriving DecidableEq

/-- An entry of the dynamic section: `d_tag` and `d_un`. -/
structure ElfDyn where
  dTag : ℕ
  dUn : Word64

/-- A section with symbols, and the names of the string table that it is linked to. -/
structure SymbolSection where
  shType : ℕ
  symbols : List ElfSym
  names : ℕ → List Char

/-- A module, and what its segments hold at an address after they have been mapped. What the
segments hold at an address is an argument, since the loops patch other words of the module. -/
structure ModuleImage where
  testHead : Bool
  eType : ℕ
  phdrs : List (ℕ × Word64)
  mapped : Bool
  dyn : Word64 → List ElfDyn
  rela : Word64 → ℕ → Rela
  sym : Word64 → ℕ → ElfSym
  str : Word64 → ℕ → List Char
  sections : List SymbolSection

def ptDynamic : ℕ := 2
def etDyn : ℕ := 3
def shtSymtab : ℕ := 2
def shnUndef : ℕ := 0
def shnAbs : ℕ := 0xfff1
def stbGlobal : ℕ := 1
def sttFunc : ℕ := 2
def rX8664 : ℕ := 1
def rGlobDat : ℕ := 6
def rJumpSlot : ℕ := 7
def rRelative : ℕ := 8

/-- `find_func`, among the functions that the kernel and the modules before have registered. -/
def findFunc (kmods : List (List Dlfunc)) (name : List Char) : Option Word64 :=
  (kmods.flatten.find? fun func => func.name = name).map Dlfunc.addr

/-- The tables that the loop over the dynamic section finds. -/
structure DynTables where
  symtab : Word64 := 0
  strtab : Word64 := 0
  rel : Word64 := 0
  relsz : Word64 := 0
  jmprel : Word64 := 0
  jmprelSz : Word64 := 0

def DynTables.add (offset : Word64) (t : DynTables) (d : ElfDyn) : DynTables :=
  match d.dTag with
  -- DT_SYMTAB, DT_STRTAB
  | 6 => { t with symtab := d.dUn + offset }
  | 5 => { t with strtab := d.dUn + offset }
  -- DT_RELA, DT_RELASZ
  | 7 => { t with rel := d.dUn + offset }
  | 8 => { t with relsz := d.dUn }
  -- DT_JMPREL, DT_PLTRELSZ
  | 23 => { t with jmprel := d.dUn + offset }
  | 2 => { t with jmprelSz := d.dUn }
  | _ => t

/-- What the two loops read: the exports, the symbols and their names, and where the module is. -/
structure Linking where
  kmods : List (List Dlfunc)
  sym : ℕ → ElfSym
  str : ℕ → List Char
  offset : Word64

abbrev Store := Word64 × Word64

namespace Linking

variable (l : Linking) (r : Rela)

/-- The store of a turn of the loop over `DT_RELA`. -/
def relocate : Option Store :=
  -- the symbol is taken for one of the module, also where it is not
  if r.rType = rGlobDat ∨ r.rType = rJumpSlot then some (r.rOffset + l.offset, (l.sym r.rSym).stValue + l.offset)
  else if r.rType = rRelative then some (r.rOffset + l.offset, l.offset + r.rAddend)
  else if r.rType = rX8664 then some (r.rOffset + l.offset, (l.sym r.rSym).stValue + r.rAddend + l.offset)
  else none

/-- The store of a turn of `handle_relocations`. A name that is not found is reported, no more. -/
def handleRelocation : Option Store :=
  if (l.sym r.rSym).bind = stbGlobal ∧ (l.sym r.rSym).stShndx = shnUndef then
    (findFunc l.kmods (l.str (l.sym r.rSym).stName)).map fun addr => (r.rOffset + l.offset, addr)
  else none

end Linking

/-- The entries of a table of `size` bytes. -/
def relaTable (rela : ℕ → Rela) (size : Word64) : List Rela := (List.range (size.toNat / 24)).map rela

/-- `dlfunc_register` for a symbol; `alloc` tells whether there is memory for the entry. -/
def exported (names : ℕ → List Char) (offset : Word64) (alloc : Bool) (sym : ElfSym) : Option Dlfunc :=
  if sym.stShndx = shnUndef then none
  else if sym.type = sttFunc ∧ sym.bind = stbGlobal then
    if offset + sym.stValue = 0 ∨ alloc = false then none else some ⟨names sym.stName, offset + sym.stValue⟩
  else none

/-- `export_symbol`: what the module has registered afterwards. -/
def exportSymbol (image : ModuleImage) (offset : Word64) (alloc : ElfSym → Bool) : List Dlfunc :=
  match image.sections.find? fun s => s.shType = shtSymtab with
  | none => []
  | some s => s.symbols.filterMap fun sym => exported s.names offset (alloc sym) sym

def findFuncMode (exports : List Dlfunc) (name : List Char) : Option Word64 :=
  (exports.find? fun func => func.name = name).map Dlfunc.addr

/-- What `load_dynamic` has done: what it returns, and each entry of the two tables with its store. -/
structure Relocated where
  dlinit : Option Word64
  patches : List (Rela × Option Store)

def ModuleImage.tables (image : ModuleImage) (offset vaddr : Word64) : DynTables :=
  (image.dyn (vaddr + offset)).foldl (DynTables.add offset) {}

def ModuleImage.linking (image : ModuleImage) (kmods : List (List Dlfunc)) (offset vaddr : Word64) : Linking where
  kmods := kmods
  sym := image.sym (image.tables offset vaddr).symtab
  str := image.str (image.tables offset vaddr).strtab
  offset := offset

def ModuleImage.rel (image : ModuleImage) (offset vaddr : Word64) : List Rela :=
  relaTable (image.rela (image.tables offset vaddr).rel) (image.tables offset vaddr).relsz

def ModuleImage.jmprel (image : ModuleImage) (offset vaddr : Word64) : List Rela :=
  relaTable (image.rela (image.tables offset vaddr).jmprel) (image.tables offset vaddr).jmprelSz

/-- The address of the dynamic section; one at the address 0 is not found. -/
def ModuleImage.dynEntry (image : ModuleImage) : Option Word64 :=
  (image.phdrs.find? fun p => p.1 = ptDynamic).bind fun p => if p.2 = 0 then none else some p.2

def loadDynamic (kmods : List (List Dlfunc)) (alloc : ElfSym → Bool) (image : ModuleImage) (offset : Word64) :
    Relocated :=
  match image.dynEntry with
  | none => ⟨none, []⟩
  | some vaddr =>
    let l := image.linking kmods offset vaddr
    ⟨findFuncMode (exportSymbol image offset alloc) "dlmain".toList,
      (image.rel offset vaddr).map (fun r => (r, l.relocate r)) ++
        (image.jmprel offset vaddr).map fun r => (r, l.handleRelocation r)⟩

/-- `dlinker_load`, up to the call of `dlinit`. -/
def dlinkerLoad (kmods : List (List Dlfunc)) (alloc : ElfSym → Bool) (image : ModuleImage) (offset : Word64) :
    Relocated :=
  if image.testHead = false ∨ image.eType ≠ etDyn ∨ image.mapped = false then ⟨none, []⟩
  else loadDynamic kmods alloc image offset

/-- The address of a symbol: the index 0 is no symbol, an absolute one does not move with the module. -/
def Linking.symbolAddress (l : Linking) (idx : ℕ) : Option Word64 :=
  if idx = 0 then some 0
  else if (l.sym idx).stShndx = shnUndef then findFunc l.kmods (l.str (l.sym idx).stName)
  else if (l.sym idx).stShndx = shnAbs then some (l.sym idx).stValue
  else some ((l.sym idx).stValue + l.offset)

/-- `S` for `R_X86_64_GLOB_DAT` and `R_X86_64_JUMP_SLOT`, `B + A` for `R_X86_64_RELATIVE` and `S + A` for
`R_X86_64_64`. -/
def Linking.abiValue (l : Linking) (r : Rela) : Option Word64 :=
  if r.rType = rRelative then some (l.offset + r.rAddend)
  else (l.symbolAddress r.rSym).map fun s => if r.rType = rX8664 then s + r.rAddend else s

def Rela.Supported (r : Rela) : Prop :=
  r.rType = rX8664 ∨ r.rType = rGlobDat ∨ r.rType = rJumpSlot ∨ r.rType = rRelative

def Linking.Patched (l : Linking) (x : Rela × Option Store) : Prop :=
  x.1.Supported → ∃ v, l.abiValue x.1 = some v ∧ x.2 = some (x.1.rOffset + l.offset, v)

/-- The symbol of the entry is neither in the module nor exported. -/
def Linking.Missing (l : Linking) (r : Rela) : Prop :=
  r.Supported ∧ r.rType ≠ rRelative ∧ l.symbolAddress r.rSym = none

/-- A load that succeeds has patched all entries, and no symbol is missing. -/
def RelocationComplete (kmods : List (List Dlfunc)) (alloc : ElfSym → Bool) (image : ModuleImage)
    (offset : Word64) : Prop :=
  ∀ vaddr, image.dynEntry = some vaddr →
    ((dlinkerLoad kmods alloc image offset).dlinit ≠ none →
      ∀ x ∈ (dlinkerLoad kmods alloc image offset).patches, (image.linking kmods offset vaddr).Patched x) ∧
    ((∃ r ∈ image.rel offset vaddr ++ image.jmprel offset vaddr, (image.linking kmods offset vaddr).Missing r) →
      (dlinkerLoad kmods alloc image offset).dlinit = none)

def ElfSym.InModule (sym : ElfSym) : Prop := sym.stShndx ≠ shnUndef ∧ sym.stShndx ≠ shnAbs

/-- An entry of `DT_RELA` needs no symbol, or one of the module; another symbol would have to be at the address
that it has in the module. -/
def Linking.RelaOk (l : Linking) (r : Rela) : Prop :=
  r.rType = rRelative ∨ r.rSym ≠ 0 ∧ (l.sym r.rSym).InModule ∨
    l.symbolAddress r.rSym = some ((l.sym r.rSym).stValue + l.offset)

/-- An entry of `DT_JMPREL` is about a global symbol that is exported and not in the module, and has the address
of it as its value. -/
def Linking.PltOk (l : Linking) (r : Rela) : Prop :=
  (l.sym r.rSym).bind = stbGlobal ∧ (l.sym r.rSym).stShndx = shnUndef ∧
    ∃ addr, findFunc l.kmods (l.str (l.sym r.rSym).stName) = some addr ∧ l.abiValue r = some addr

/-- The module has a `dlmain` to be called. -/
def ModuleImage.HasDlmain (image : ModuleImage) (offset : Word64) (alloc : ElfSym → Bool) : Prop :=
  ∃ s sym, image.sections.find? (fun s => s.shType = shtSymtab) = some s ∧ sym ∈ s.symbols ∧
    sym.stShndx ≠ shnUndef ∧ sym.type = sttFunc ∧ sym.bind = stbGlobal ∧ offset + sym.stValue ≠ 0 ∧
      alloc sym = true ∧ s.names sym.stName = "dlmain".toList

/-- Where nothing keeps the module from being loaded, its entries are of these kinds. -/
def EntriesOk (kmods : List (List Dlfunc)) (alloc : ElfSym → Bool) (image : ModuleImage) (offset : Word64) :
    Prop :=
  image.testHead = true → image.eType = etDyn → image.mapped = true → image.HasDlmain offset alloc →
    ∀ vaddr, image.dynEntry = some vaddr →
      (∀ r ∈ image.rel offset vaddr, r.Supported → (image.linking kmods offset vaddr).RelaOk r) ∧
        ∀ r ∈ image.jmprel offset vaddr, r.Supported → (image.linking kmods offset vaddr).PltOk r

variable {l : Linking} {r : Rela} {kmods : List (List Dlfunc)} {alloc : ElfSym → Bool} {image : ModuleImage}
  {offset vaddr : Word64}

theorem patched_relocate (hr : r.Supported) : l.Patched (r, l.relocate r) ↔ l.RelaOk r := by
  have hok : l.RelaOk r ↔ r.rType = rRelative ∨
      l.symbolAddress r.rSym = some ((l.sym r.rSym).stValue + l.offset) := by
    unfold Linking.RelaOk
    constructor
    · rintro (h | ⟨hidx, hundef, habs⟩ | h)
      · exact .inl h
      · right
        unfold Linking.symbolAddress
        rw [if_neg hidx, if_neg hundef, if_neg habs]
      · exact .inr h
    · exact Or.imp_right .inr
  rw [hok]
  unfold Linking.Patched Linking.abiValue Linking.relocate
  simp only [hr, true_imp_iff]
  rcases hr with h | h | h | h
  all_goals
    rw [h]
    simp [rX8664, rGlobDat, rJumpSlot, rRelative]
  rw [add_right_comm]
  simp

theorem patched_handleRelocation (hr : r.Supported) : l.Patched (r, l.handleRelocation r) ↔ l.PltOk r := by
  unfold Linking.Patched Linking.PltOk Linking.handleRelocation
  simp only [hr, true_imp_iff]
  by_cases hglobal : (l.sym r.rSym).bind = stbGlobal ∧ (l.sym r.rSym).stShndx = shnUndef
  · rw [if_pos hglobal]
    simp only [hglobal, true_and]
    cases findFunc l.kmods (l.str (l.sym r.rSym).stName) with
    | none => simp
    | some addr => simp [and_comm]
  · rw [if_neg hglobal]
    have hno : ¬ ((l.sym r.rSym).bind = stbGlobal ∧ (l.sym r.rSym).stShndx = shnUndef ∧
        ∃ addr, findFunc l.kmods (l.str (l.sym r.rSym).stName) = some addr ∧ l.abiValue r = some addr) :=
      fun h => hglobal ⟨h.1, h.2.1⟩
    simp [hno]

theorem Linking.Patched.not_missing {o : Option Store} (h : l.Patched (r, o)) : ¬ l.Missing r := by
  rintro ⟨hr, hrel, hnone⟩
  obtain ⟨v, hv, -⟩ := h hr
  unfold Linking.abiValue at hv
  rw [if_neg hrel, hnone] at hv
  cases hv

theorem exported_eq_some {names : ℕ → List Char} {ok : Bool} {sym : ElfSym} {func : Dlfunc} :
    exported names offset ok sym = some func ↔ sym.stShndx ≠ shnUndef ∧ sym.type = sttFunc ∧
      sym.bind = stbGlobal ∧ offset + sym.stValue ≠ 0 ∧ ok = true ∧
        ⟨names sym.stName, offset + sym.stValue⟩ = func := by
  unfold exported
  split_ifs with hundef hfunc hbad
  · simp [hundef]
  · rcases hbad with hbad | hbad <;> simp [hbad]
  · rw [not_or, Bool.not_eq_false] at hbad
    rw [Option.some.injEq]
    exact ⟨fun h => ⟨hundef, hfunc.1, hfunc.2, hbad.1, hbad.2, h⟩, fun h => h.2.2.2.2.2⟩
  · exact iff_of_false id fun h => hfunc ⟨h.2.1, h.2.2.1⟩

theorem findFuncMode_dlmain :
    findFuncMode (exportSymbol image offset alloc) "dlmain".toList ≠ none ↔ image.HasDlmain offset alloc := by
  unfold findFuncMode exportSymbol ModuleImage.HasDlmain
  cases image.sections.find? fun s => s.shType = shtSymtab with
  | none => simp
  | some s =>
    rw [ne_eq, Option.map_eq_none_iff, List.find?_eq_none]
    push Not
    constructor
    · rintro ⟨func, hmem, hname⟩
      obtain ⟨sym, hsym, hexp⟩ := List.mem_filterMap.mp hmem
      obtain ⟨hundef, htype, hbind, haddr, halloc, rfl⟩ := exported_eq_some.mp hexp
      exact ⟨s, sym, rfl, hsym, hundef, htype, hbind, haddr, halloc, of_decide_eq_true hname⟩
    · rintro ⟨s', sym, hs, hsym, hundef, htype, hbind, haddr, halloc, hname⟩
      obtain rfl := Option.some.inj hs
      refine ⟨_, List.mem_filterMap.mpr ⟨sym, hsym, exported_eq_some.mpr ⟨hundef, htype, hbind, haddr, halloc,
        rfl⟩⟩, decide_eq_true hname⟩

theorem dlinkerLoad_dlinit (hdyn : image.dynEntry = some vaddr) :
    (dlinkerLoad kmods alloc image offset).dlinit ≠ none ↔
      image.testHead = true ∧ image.eType = etDyn ∧ image.mapped = true ∧ image.HasDlmain offset alloc := by
  unfold dlinkerLoad
  split_ifs with hbad
  · rcases hbad with h | h | h <;> simp [h]
  · simp only [not_or, Bool.not_eq_false, not_not] at hbad
    unfold loadDynamic
    rw [hdyn]
    dsimp only
    rw [findFuncMode_dlmain]
    simp [hbad]

theorem patches_patched (hdyn : image.dynEntry = some vaddr)
    (hinit : (dlinkerLoad kmods alloc image offset).dlinit ≠ none) :
    (∀ x ∈ (dlinkerLoad kmods alloc image offset).patches, (image.linking kmods offset vaddr).Patched x) ↔
      (∀ r ∈ image.rel offset vaddr, r.Supported → (image.linking kmods offset vaddr).RelaOk r) ∧
        ∀ r ∈ image.jmprel offset vaddr, r.Supported → (image.linking kmods offset vaddr).PltOk r := by
  obtain ⟨hhead, htype, hmap, -⟩ := (dlinkerLoad_dlinit hdyn).mp hinit
  unfold dlinkerLoad loadDynamic
  rw [if_neg (by simp [hhead, htype, hmap]), hdyn]
  simp only [List.forall_mem_append, List.forall_mem_map]
  apply and_congr
  · refine forall₂_congr fun r _ => ⟨fun h hr => (patched_relocate hr).mp h, fun h hr => ?_⟩
    exact (patched_relocate hr).mpr (h hr) hr
  · refine forall₂_congr fun r _ => ⟨fun h hr => (patched_handleRelocation hr).mp h, fun h hr => ?_⟩
    exact (patched_handleRelocation hr).mpr (h hr) hr

/-- Relocation is complete if and only if a module that can be loaded has no other entries than those that the
two loops are right about. -/
theorem relocation_complete_iff (kmods : List (List Dlfunc)) (alloc : ElfSym → Bool) (image : ModuleImage)
    (offset : Word64) :
    RelocationComplete kmods alloc image offset ↔ EntriesOk kmods alloc image offset := by
  constructor
  · intro h hhead htype hmap hmain vaddr hdyn
    have hinit : (dlinkerLoad kmods alloc image offset).dlinit ≠ none :=
      (dlinkerLoad_dlinit hdyn).mpr ⟨hhead, htype, hmap, hmain⟩
    exact (patches_patched hdyn hinit).mp ((h vaddr hdyn).1 hinit)
  · intro h vaddr hdyn
    have hok : (dlinkerLoad kmods alloc image offset).dlinit ≠ none → _ := fun hinit => by
      obtain ⟨hhead, htype, hmap, hmain⟩ := (dlinkerLoad_dlinit hdyn).mp hinit
      exact h hhead htype hmap hmain vaddr hdyn
    refine ⟨fun hinit => (patches_patched hdyn hinit).mpr (hok hinit), ?_⟩
    rintro ⟨r, hr, hmissing⟩
    by_contra hinit
    obtain ⟨hrel, hplt⟩ := hok hinit
    rcases List.mem_append.mp hr with hmem | hmem
    · exact ((patched_relocate hmissing.1).mpr (hrel r hmem hmissing.1)).not_missing hmissing
    · exact ((patched_handleRelocation hmissing.1).mpr (hplt r hmem hmissing.1)).not_missing hmissing

/-- A module with `dlmain` and a slot for a function that nobody exports. -/
def someModule : ModuleImage where
  testHead := true
  eType := 3
  phdrs := [(2, 0x100)]
  mapped := true
  dyn := fun _ => [⟨23, 0x200⟩, ⟨2, 24⟩, ⟨6, 0x300⟩, ⟨5, 0x400⟩]
  rela := fun _ _ => ⟨0x500, 1, 7, 0⟩
  sym := fun _ _ => ⟨1, 1, 2, 0, 0⟩
  str := fun _ _ => ['f']
  sections := [⟨2, [⟨1, 1, 2, 4, 0x40⟩], fun _ => "dlmain".toList⟩]

/-- The module is loaded, with the slot as it was. -/
theorem relocation_not_complete :
    ¬ ∀ (kmods : List (List Dlfunc)) (alloc : ElfSym → Bool) (image : ModuleImage) (offset : Word64),
      RelocationComplete kmods alloc image offset := by
  intro h
  have hloaded : (dlinkerLoad [] (fun _ => true) someModule 0xffffffffb0000000).dlinit ≠ none := by decide
  apply hloaded
  apply (h [] (fun _ => true) someModule 0xffffffffb0000000 0x100 rfl).2
  refine ⟨⟨0x500, 1, 7, 0⟩, by decide, .inr (.inr (.inl rfl)), by decide, rfl⟩

end CoolPotOS
