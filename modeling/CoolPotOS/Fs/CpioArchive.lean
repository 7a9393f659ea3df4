import CoolPotOS.Fs.Cpio

namespace CoolPotOS

open List Option

structure CpioRecord where
  offset : ℕ
  header : List (BitVec 8)
  name : List (BitVec 8)
  filedata : List (BitVec 8)

namespace CpioRecord

/-- Where the contents begin, and where the next record does. -/
def dataStart (r : CpioRecord) : ℕ := (r.offset + cpioHeaderSize + r.name.length + 3) / 4 * 4

def next (r : CpioRecord) : ℕ := (r.dataStart + r.filedata.length + 3) / 4 * 4

def filename (r : CpioRecord) : List (BitVec 8) := 47 :: r.name.takeWhile (· ≠ 0)

/-- The record lies in the archive at its offset, and the fields of its header give the sizes. -/
structure In (image : CpioImage) (num : List (BitVec 8) → ℕ) (r : CpioRecord) : Prop where
  header_eq : readAt image r.offset cpioHeaderSize = some r.header
  name_eq : readAt image (r.offset + cpioHeaderSize) r.name.length = some r.name
  filedata_eq : readAt image r.dataStart r.filedata.length = some r.filedata
  namesize : num (cNamesize r.header) = r.name.length
  filesize : num (cFilesize r.header) = r.filedata.length
  terminated : 0 ∈ r.name

def visit (num : List (BitVec 8) → ℕ) (r : CpioRecord) : CpioVisit :=
  ⟨r.offset, r.filename,
    if r.filename = trailerName ∨ r.filename = dotName then none
    else some (num (cMode r.header), r.filedata)⟩

end CpioRecord

/-- Records that follow each other from `offset` on, the last of which is the trailer. -/
def Chained (image : CpioImage) (num : List (BitVec 8) → ℕ) (trailer : CpioRecord) :
    ℕ → List CpioRecord → Prop
  | offset, [] => trailer.offset = offset ∧ trailer.In image num ∧ trailer.filename = trailerName
  | offset, r :: records => r.offset = offset ∧ r.In image num ∧ r.filename ≠ trailerName ∧
      Chained image num trailer r.next records

variable {offset fuel : ℕ} {trailer r' : CpioRecord} {records : List CpioRecord}

theorem length_of_readAt {image : CpioImage} {n : ℕ} {bytes : List (BitVec 8)}
    (h : readAt image offset n = some bytes) :
    bytes.length = n ∧ (n = 0 ∨ offset + n ≤ image.data.length) := by
  unfold readAt at h
  split at h
  · rename_i hin
    refine ⟨?_, hin⟩
    rw [← Option.some.inj h, length_take, length_drop]
    omega
  · simp at h

theorem align4_eq (h : offset + 3 < 2 ^ 64) : align4 offset = (offset + 3) / 4 * 4 := by
  unfold align4
  rw [wrap_of_lt h]

variable {image : CpioImage} {r : CpioRecord} {num : List (BitVec 8) → ℕ}

theorem CpioRecord.In.bounds (h : r.In image num) :
    r.offset + cpioHeaderSize + r.name.length ≤ image.data.length ∧
      (r.filedata.length = 0 ∨ r.dataStart + r.filedata.length ≤ image.data.length) := by
  have hname := (length_of_readAt h.name_eq).2
  have hhdr := (length_of_readAt h.header_eq).2
  have hdata := (length_of_readAt h.filedata_eq).2
  have hne : r.name.length ≠ 0 := fun hzero => by
    have hterm := h.terminated
    rw [eq_nil_of_length_eq_zero hzero] at hterm
    simp at hterm
  exact ⟨by omega, hdata⟩

theorem cString_slash {name : List (BitVec 8)} (h : 0 ∈ name) :
    cString (47 :: name) = some (47 :: name.takeWhile (· ≠ 0)) := by
  unfold cString
  rw [if_pos (mem_cons_of_mem _ h), takeWhile_cons_of_pos (by decide)]

theorem dataStart_lt (h : r.In image num) : r.dataStart + r.filedata.length + 3 < 2 ^ 64 := by
  have hbounds := h.bounds
  have hlt := image.length_lt
  unfold CpioRecord.dataStart at *
  omega

theorem cpioTurn_record (h : r.In image readNum) :
    cpioTurn image r.offset = some (r.visit readNum, r.next) := by
  have hbounds := h.bounds
  have hlt := image.length_lt
  have hdata := dataStart_lt h
  have hstart : wrap (r.offset + cpioHeaderSize) = r.offset + cpioHeaderSize := wrap_of_lt (by omega)
  have halign : align4 (r.offset + cpioHeaderSize + r.name.length) = r.dataStart := align4_eq (by omega)
  unfold cpioTurn
  rw [h.header_eq, bind_some]
  dsimp only
  rw [hstart, h.namesize, h.name_eq, bind_some, halign, h.filesize, h.filedata_eq,
    bind_some, cString_slash h.terminated, align4_eq hdata]
  rfl

theorem record_of_cpioTurn {next : ℕ} {visit : CpioVisit} (h : cpioTurn image offset = some (visit, next)) :
    ∃ r : CpioRecord, r.offset = offset ∧ r.In image readNum ∧ visit = r.visit readNum ∧ next = r.next := by
  have hlt := image.length_lt
  have hturn := h
  unfold cpioTurn at h
  obtain ⟨hdr, hhdr, h⟩ := bind_eq_some_iff.mp h
  obtain ⟨name, hname, h⟩ := bind_eq_some_iff.mp h
  obtain ⟨filedata, hfile, h⟩ := bind_eq_some_iff.mp h
  obtain ⟨filename, hstring, -⟩ := map_eq_some_iff.mp h
  obtain ⟨-, hin⟩ := length_of_readAt hhdr
  have hin' : offset + cpioHeaderSize ≤ image.data.length := hin.resolve_left (by decide)
  have hstart : wrap (offset + cpioHeaderSize) = offset + cpioHeaderSize := wrap_of_lt (by omega)
  rw [hstart] at hname hfile
  obtain ⟨hnlen, hnin⟩ := length_of_readAt hname
  rw [← hnlen] at hname hfile
  have halign : align4 (offset + cpioHeaderSize + name.length) =
      (offset + cpioHeaderSize + name.length + 3) / 4 * 4 := align4_eq (by omega)
  rw [halign] at hfile
  obtain ⟨hflen, hfin⟩ := length_of_readAt hfile
  rw [← hflen] at hfile
  have hterm : 0 ∈ name := by
    unfold cString at hstring
    split at hstring
    · rename_i hmem
      rcases mem_cons.mp hmem with h47 | hmem
      · exact absurd h47 (by decide)
      · exact hmem
    · simp at hstring
  have hr : (⟨offset, hdr, name, filedata⟩ : CpioRecord).In image readNum :=
    ⟨hhdr, hname, hfile, hnlen.symm, hflen.symm, hterm⟩
  refine ⟨⟨offset, hdr, name, filedata⟩, rfl, hr, ?_⟩
  have heq := Option.some.inj (hturn.symm.trans (cpioTurn_record hr))
  exact Prod.mk.inj heq

theorem next_ge (r : CpioRecord) : r.offset + cpioHeaderSize ≤ r.next := by
  unfold CpioRecord.next CpioRecord.dataStart
  omega

/-- How the loop goes through the visits to some records: to the trailer, or to an entry that is not
created. -/
def visitAll (status : List CpioVisit → Bool) :
    List CpioVisit → List CpioVisit → List CpioVisit × CpioEnd
  | visits, [] => (visits, .trailer)
  | visits, visit :: rest =>
    let visits := visits ++ [visit]
    if visit.filename = trailerName then (visits, .trailer)
    else if visit.filename = dotName ∨ status visits then visitAll status visits rest
    else (visits, .refused)

theorem visitAll_ne_outside (status : List CpioVisit → Bool) (visits rest : List CpioVisit) :
    (visitAll status visits rest).2 ≠ .outside := by
  induction rest generalizing visits with
  | nil => simp [visitAll]
  | cons visit rest ih =>
    unfold visitAll
    dsimp only
    split
    · simp
    · split
      · exact ih _
      · simp

theorem cpioLoop_chained (status : List CpioVisit → Bool) (h : Chained image readNum trailer offset records)
    (hfuel : records.length < fuel) (visits : List CpioVisit) : cpioLoop status image fuel offset visits =
      some (visitAll status visits ((records ++ [trailer]).map (CpioRecord.visit readNum))) := by
  induction records generalizing offset fuel visits with
  | nil =>
    obtain ⟨fuel, rfl⟩ := Nat.exists_eq_succ_of_ne_zero (by omega : fuel ≠ 0)
    obtain ⟨hoffset, hin, hname⟩ := h
    have hvisit : (trailer.visit readNum).filename = trailerName := hname
    unfold cpioLoop
    rw [← hoffset, cpioTurn_record hin]
    dsimp only
    rw [if_pos hvisit]
    simp only [nil_append, map_cons, map_nil, visitAll, hvisit, if_true]
  | cons r records ih =>
    obtain ⟨fuel, rfl⟩ := Nat.exists_eq_succ_of_ne_zero (by omega : fuel ≠ 0)
    obtain ⟨hoffset, hin, hname, hrest⟩ := h
    have hvisit : (r.visit readNum).filename ≠ trailerName := hname
    unfold cpioLoop
    rw [← hoffset, cpioTurn_record hin, cons_append, map_cons]
    unfold visitAll
    dsimp only
    rw [if_neg hvisit, if_neg hvisit]
    split
    · exact ih hrest (by simpa using hfuel) _
    · rfl

theorem chained_of_cpioLoop {visits visits' : List CpioVisit} {e : CpioEnd}
    (h : cpioLoop (fun _ => true) image fuel offset visits = some (visits', e)) (he : e ≠ .outside) :
    ∃ trailer records, Chained image readNum trailer offset records := by
  induction fuel generalizing offset visits with
  | zero => simp [cpioLoop] at h
  | succ fuel ih =>
    unfold cpioLoop at h
    cases hturn : cpioTurn image offset with
    | none =>
      rw [hturn] at h
      exact absurd (Prod.mk.inj (Option.some.inj h)).2.symm he
    | some turn =>
      obtain ⟨visit, next⟩ := turn
      rw [hturn] at h
      obtain ⟨r, hoffset, hin, rfl, rfl⟩ := record_of_cpioTurn hturn
      dsimp only at h
      split at h
      · rename_i hname
        exact ⟨r, [], hoffset, hin, hname⟩
      · rename_i hname
        rw [if_pos (.inr rfl)] at h
        obtain ⟨trailer, records, hchain⟩ := ih h
        exact ⟨trailer, r :: records, hoffset, hin, hname, hchain⟩

/-- The archive is a chain of records with hexadecimal digits in either case, from its first byte
on. -/
structure WellFormed (image : CpioImage) (records : List CpioRecord) (trailer : CpioRecord) :
    Prop where
  chained : Chained image hexNum trailer 0 records
  magic : ∀ r ∈ records ++ [trailer], r.header.take 6 = asciiBytes "070701"
  fields : ∀ r ∈ records ++ [trailer], IsField (cMode r.header) ∧ IsField (cFilesize r.header) ∧
    IsField (cNamesize r.header)

/-- The loop ends, does not read outside, and visits the records of a well-formed archive in their
order, with the names, modes and contents that they have. -/
def Unpacks (image : CpioImage) : Prop :=
  ∀ (status : List CpioVisit → Bool) (fuel : ℕ), image.data.length + 3 < fuel →
    (∃ r, cpioInit status fuel image = some r ∧ r.2 ≠ .outside) ∧
      ∀ records trailer, WellFormed image records trailer →
        cpioInit status fuel image =
          some (visitAll status [] ((records ++ [trailer]).map (CpioRecord.visit hexNum)))

/-- The magic number is another one and is read inside the archive, or the archive begins with a
chain of records as `read_num` sees them. -/
def Inside (image : CpioImage) : Prop :=
  isCpio image = some false ∨
    isCpio image = some true ∧ ∃ trailer records, Chained image readNum trailer 0 records

/-- The fields of a record that are read have no letter in lower case. -/
def CpioRecord.Upper (r : CpioRecord) : Prop :=
  UpperCase (cNamesize r.header) ∧ UpperCase (cFilesize r.header) ∧
    (r.filename ≠ dotName → UpperCase (cMode r.header))

/-- If the archive is well formed, the records before the trailer are in upper case. -/
def UpperArchive (image : CpioImage) : Prop :=
  ∀ records trailer, WellFormed image records trailer → ∀ r ∈ records, r.Upper

theorem CpioRecord.In.unique (h : r.In image readNum) (h' : r'.In image readNum)
    (hoffset : r'.offset = r.offset) : r' = r := by
  obtain ⟨offset, header, name, filedata⟩ := r
  obtain ⟨offset', header', name', filedata'⟩ := r'
  obtain rfl : offset' = offset := hoffset
  obtain rfl : header' = header := some.inj (h'.header_eq.symm.trans h.header_eq)
  have hlen : name'.length = name.length := h'.namesize.symm.trans h.namesize
  have hname := h'.name_eq
  dsimp only at hname hlen
  rw [hlen] at hname
  obtain rfl : name' = name := some.inj (hname.symm.trans h.name_eq)
  have hlen' : filedata'.length = filedata.length := h'.filesize.symm.trans h.filesize
  have hdata := h'.filedata_eq
  dsimp only at hdata hlen'
  rw [hlen'] at hdata
  obtain rfl : filedata' = filedata := some.inj (hdata.symm.trans h.filedata_eq)
  rfl

theorem CpioRecord.In.toReadNum (h : r.In image hexNum) (hname : IsField (cNamesize r.header))
    (hfile : IsField (cFilesize r.header)) (hupper : r.Upper) : r.In image readNum where
  header_eq := h.header_eq
  name_eq := h.name_eq
  filedata_eq := h.filedata_eq
  namesize := (readNum_upper hname hupper.1).trans h.namesize
  filesize := (readNum_upper hfile hupper.2.1).trans h.filesize
  terminated := h.terminated

theorem CpioRecord.In.filename_eq (h : r.In image hexNum) (h' : r'.In image readNum)
    (hoffset : r'.offset = r.offset) (hfield : IsField (cNamesize r.header)) :
    r'.header = r.header ∧ r'.filename = r.filename := by
  have hheader : r'.header = r.header := by
    have hread := h'.header_eq
    rw [hoffset] at hread
    exact some.inj (hread.symm.trans h.header_eq)
  refine ⟨hheader, ?_⟩
  have hle : r.name.length ≤ r'.name.length := by
    rw [← h.namesize, ← h'.namesize, hheader]
    exact hexNum_le_readNum hfield
  have hbytes : ∀ {s : CpioRecord} {num : List (BitVec 8) → ℕ}, s.In image num →
      s.name = (image.data.drop (s.offset + cpioHeaderSize)).take s.name.length := by
    intro s num hs
    have hread := hs.name_eq
    unfold readAt at hread
    split at hread
    · exact (some.inj hread).symm
    · simp at hread
  have hprefix : r.name = r'.name.take r.name.length := by
    rw [hbytes h', hoffset, take_take, Nat.min_eq_left hle]
    exact hbytes h
  unfold CpioRecord.filename
  congr 1
  have happend := take_append_drop r.name.length r'.name
  rw [← hprefix] at happend
  rw [← happend]
  -- the string ends inside the shorter name
  obtain ⟨pre, post, hsplit, hpre⟩ : ∃ pre post, r.name = pre ++ 0 :: post ∧ 0 ∉ pre := by
    obtain ⟨pre, post, hsplit, hpre⟩ := eq_append_cons_of_mem h.terminated
    exact ⟨pre, post, hsplit, hpre⟩
  have hall : ∀ c ∈ pre, decide (c ≠ 0) = true := fun c hc => decide_eq_true fun hzero => hpre (hzero ▸ hc)
  rw [hsplit, append_assoc, takeWhile_append_of_pos hall, takeWhile_append_of_pos hall]
  simp

theorem visit_upper (hfield : IsField (cMode r.header)) (hupper : r.Upper) :
    r.visit readNum = r.visit hexNum := by
  unfold CpioRecord.visit
  by_cases hdot : r.filename = dotName
  · rw [if_pos (.inr hdot), if_pos (.inr hdot)]
  · rw [readNum_upper hfield (hupper.2.2 hdot)]

theorem visits_upper {trailer' : CpioRecord} {records' : List CpioRecord}
    (h : Chained image hexNum trailer offset records) (h' : Chained image readNum trailer' offset records')
    (hfields : ∀ r ∈ records ++ [trailer], IsField (cMode r.header) ∧ IsField (cFilesize r.header) ∧ IsField (cNamesize r.header))
    (hupper : ∀ r ∈ records, r.Upper) : (records' ++ [trailer']).map (CpioRecord.visit readNum) =
      (records ++ [trailer]).map (CpioRecord.visit hexNum) := by
  induction records generalizing offset records' with
  | nil =>
    obtain ⟨hoffset, hin, hname⟩ := h
    have hfield := (hfields trailer (by simp)).2.2
    cases records' with
    | nil =>
      obtain ⟨hoffset', hin', hname'⟩ := h'
      simp only [nil_append, map_cons, map_nil, CpioRecord.visit, hname, hname', hoffset,
        hoffset', true_or, if_true]
    | cons r' records' =>
      obtain ⟨hoffset', hin', hname', -⟩ := h'
      have hsame := (hin.filename_eq hin' (hoffset'.trans hoffset.symm) hfield).2
      exact absurd (hsame.trans hname) hname'
  | cons r records ih =>
    obtain ⟨hoffset, hin, hname, hrest⟩ := h
    obtain ⟨hmode, hfile, hnames⟩ := hfields r (by simp)
    have hup := hupper r mem_cons_self
    have hread := hin.toReadNum hnames hfile hup
    cases records' with
    | nil =>
      obtain ⟨hoffset', hin', hname'⟩ := h'
      rw [hread.unique hin' (hoffset'.trans hoffset.symm)] at hname'
      exact absurd hname' hname
    | cons r' records' =>
      obtain ⟨hoffset', hin', hname', hrest'⟩ := h'
      obtain rfl := hread.unique hin' (hoffset'.trans hoffset.symm)
      have htail := ih hrest hrest' (fun s hs => hfields s (mem_cons_of_mem _ hs))
        fun s hs => hupper s (mem_cons_of_mem _ hs)
      rw [cons_append, map_cons, cons_append, map_cons, htail, visit_upper hmode hup]

theorem next_lt (hoffset : r'.offset = r.offset) (hname : r.name.length ≤ r'.name.length)
    (hfile : r.filedata.length ≤ r'.filedata.length)
    (h : r.name.length + 32 ≤ r'.name.length ∨ r.filedata.length + 32 ≤ r'.filedata.length) :
    r.next < r'.next := by
  unfold CpioRecord.next CpioRecord.dataStart
  omega

theorem head_visits (h : Chained image num trailer offset records) :
    ∃ rest, (records ++ [trailer]).map (fun r => (r.visit num).offset) = offset :: rest := by
  cases records with
  | nil => exact ⟨[], by simp [CpioRecord.visit, h.1]⟩
  | cons r records => exact ⟨_, by rw [cons_append, map_cons, ← h.1]; rfl⟩

theorem upper_of_visits {trailer' : CpioRecord} {records' : List CpioRecord}
    (h : Chained image hexNum trailer offset records) (h' : Chained image readNum trailer' offset records')
    (hfields : ∀ r ∈ records ++ [trailer], IsField (cMode r.header) ∧ IsField (cFilesize r.header) ∧ IsField (cNamesize r.header))
    (hvisits : (records' ++ [trailer']).map (CpioRecord.visit readNum) = (records ++ [trailer]).map (CpioRecord.visit hexNum)) :
    ∀ r ∈ records, r.Upper := by
  induction records generalizing offset records' with
  | nil => exact fun r hr => absurd hr not_mem_nil
  | cons r records ih =>
    obtain ⟨hoffset, hin, hname, hrest⟩ := h
    obtain ⟨hmode, hfile, hnames⟩ := hfields r (by simp)
    cases records' with
    | nil =>
      have hlen := congrArg length hvisits
      simp at hlen
    | cons r' records' =>
      obtain ⟨hoffset', hin', hname', hrest'⟩ := h'
      rw [cons_append, map_cons, cons_append, map_cons] at hvisits
      obtain ⟨hvisit, htail⟩ := List.cons.inj hvisits
      have hsame := hin.filename_eq hin' (hoffset'.trans hoffset.symm) hnames
      have hle : r.name.length ≤ r'.name.length := by
        rw [← hin.namesize, ← hin'.namesize, hsame.1]
        exact hexNum_le_readNum hnames
      have hle' : r.filedata.length ≤ r'.filedata.length := by
        rw [← hin.filesize, ← hin'.filesize, hsame.1]
        exact hexNum_le_readNum hfile
      -- the next visits are to the same place
      have hnext : r'.next = r.next := by
        obtain ⟨rest, hhead⟩ := head_visits hrest
        obtain ⟨rest', hhead'⟩ := head_visits hrest'
        have hoffsets := congrArg (map CpioVisit.offset) htail
        rw [List.map_map, List.map_map] at hoffsets
        exact (List.cons.inj (hhead'.symm.trans (hoffsets.trans hhead))).1
      have hnot : ¬(r.name.length + 32 ≤ r'.name.length ∨
          r.filedata.length + 32 ≤ r'.filedata.length) := fun hbig =>
        (next_lt (hoffset'.trans hoffset.symm) hle hle' hbig).ne hnext.symm
      have hup : r.Upper := by
        refine ⟨?_, ?_, fun hdot => ?_⟩
        · by_contra hlower
          have hread := readNum_lower hnames hlower
          rw [hin.namesize, ← hsame.1, hin'.namesize] at hread
          exact hnot (.inl hread)
        · by_contra hlower
          have hread := readNum_lower hfile hlower
          rw [hin.filesize, ← hsame.1, hin'.filesize] at hread
          exact hnot (.inr hread)
        · have hentry := congrArg CpioVisit.entry hvisit
          unfold CpioRecord.visit at hentry
          dsimp only at hentry
          rw [hsame.2, if_neg (not_or.mpr ⟨hname, hdot⟩), if_neg (not_or.mpr ⟨hname, hdot⟩),
            hsame.1] at hentry
          exact (readNum_eq_iff hmode).mp (Prod.mk.inj (some.inj hentry)).1
      rw [hnext] at hrest'
      have hups := ih hrest hrest' (fun s hs => hfields s (mem_cons_of_mem _ hs)) htail
      intro s hs
      rcases mem_cons.mp hs with rfl | hs
      · exact hup
      · exact hups s hs

theorem visitAll_true (h : Chained image num trailer offset records) (visits : List CpioVisit) :
    visitAll (fun _ => true) visits ((records ++ [trailer]).map (CpioRecord.visit num)) =
      (visits ++ (records ++ [trailer]).map (CpioRecord.visit num), .trailer) := by
  induction records generalizing offset visits with
  | nil =>
    have hname : (trailer.visit num).filename = trailerName := h.2.2
    simp only [nil_append, map_cons, map_nil, visitAll, hname, if_true]
  | cons r records ih =>
    obtain ⟨-, -, hname, hrest⟩ := h
    have hvisit : (r.visit num).filename ≠ trailerName := hname
    rw [cons_append, map_cons]
    unfold visitAll
    dsimp only
    rw [if_neg hvisit, if_pos (.inr rfl), ih hrest, append_assoc, singleton_append]

theorem length_le_of_chained (h : Chained image num trailer offset records) :
    offset + records.length ≤ image.data.length := by
  induction records generalizing offset with
  | nil =>
    have hbounds := h.2.1.bounds
    have hoffset := h.1
    simp
    omega
  | cons r records ih =>
    have hrest := ih h.2.2.2
    have hnext := next_ge r
    have hoffset := h.1
    rw [length_cons]
    unfold cpioHeaderSize at hnext
    omega

theorem cpioInit_chained (status : List CpioVisit → Bool) (hmagic : isCpio image = some true)
    (h : Chained image readNum trailer 0 records) (hfuel : image.data.length + 3 < fuel) :
    cpioInit status fuel image =
      some (visitAll status [] ((records ++ [trailer]).map (CpioRecord.visit readNum))) := by
  have hlen := length_le_of_chained h
  unfold cpioInit
  rw [hmagic]
  exact cpioLoop_chained status h (by omega) []

theorem inside_iff (hfuel : image.data.length + 3 < fuel) :
    Inside image ↔ ∀ status, ∃ r, cpioInit status fuel image = some r ∧ r.2 ≠ .outside := by
  constructor
  · rintro (hmagic | ⟨hmagic, trailer, records, hchain⟩) status
    · refine ⟨([], .unsupported), ?_, by simp⟩
      unfold cpioInit
      rw [hmagic]
    · exact ⟨_, cpioInit_chained status hmagic hchain hfuel, visitAll_ne_outside status _ _⟩
  · intro h
    obtain ⟨⟨visits, e⟩, hrun, he⟩ := h fun _ => true
    unfold cpioInit at hrun
    cases hmagic : isCpio image with
    | none =>
      rw [hmagic] at hrun
      exact absurd (Prod.mk.inj (Option.some.inj hrun)).2.symm he
    | some newc =>
      cases newc with
      | false => exact .inl hmagic
      | true =>
        rw [hmagic] at hrun
        exact .inr ⟨hmagic, chained_of_cpioLoop hrun he⟩

theorem magicMatches_of_take {data magic : List (BitVec 8)} (h : data.take magic.length = magic) :
    magicMatches data magic = some true := by
  induction magic generalizing data with
  | nil => cases data <;> rfl
  | cons c magic ih =>
    cases data with
    | nil => simp at h
    | cons d data =>
      rw [length_cons, take_succ_cons] at h
      obtain ⟨rfl, htake⟩ := List.cons.inj h
      unfold magicMatches
      rw [if_pos rfl]
      exact ih htake

variable {records : List CpioRecord} {trailer : CpioRecord}

theorem WellFormed.isCpio (h : WellFormed image records trailer) : isCpio image = some true := by
  have hfirst : ∃ r ∈ records ++ [trailer], r.offset = 0 ∧ r.In image hexNum := by
    have hchain := h.chained
    cases records with
    | nil => exact ⟨trailer, by simp, hchain.1, hchain.2.1⟩
    | cons r records => exact ⟨r, by simp, hchain.1, hchain.2.1⟩
  obtain ⟨r, hr, hoffset, hin⟩ := hfirst
  have hmagic := h.magic r hr
  have hread := hin.header_eq
  obtain ⟨-, hbound⟩ := length_of_readAt hread
  rw [hoffset] at hbound
  unfold cpioHeaderSize at hbound
  unfold readAt at hread
  split at hread
  · rw [hoffset, drop_zero] at hread
    rw [← Option.some.inj hread, take_take] at hmagic
    have hmagic' : image.data.take (asciiBytes "070701").length = asciiBytes "070701" := hmagic
    unfold CoolPotOS.isCpio
    rw [if_neg (by omega), magicMatches_of_take hmagic']
    rfl
  · simp at hread

/-- `cpio_init` ends, stays in the buffer and visits the entries of a well-formed archive if and only
if `read_num` sees whole records up to a trailer in the buffer, or the buffer is refused at its
magic number, and no well-formed archive in the buffer has a field in lower case. -/
theorem cpioInit_unpacks_iff (image : CpioImage) :
    Unpacks image ↔ Inside image ∧ UpperArchive image := by
  constructor
  · intro h
    have hfuel := Nat.lt_succ_self (image.data.length + 3)
    have hinside : Inside image := (inside_iff hfuel).mpr fun status => (h status _ hfuel).1
    refine ⟨hinside, fun records trailer hwf => ?_⟩
    have hrun := (h (fun _ => true) _ hfuel).2 records trailer hwf
    rcases hinside with hmagic | ⟨hmagic, trailer', records', hchain⟩
    · rw [hwf.isCpio] at hmagic
      simp at hmagic
    · rw [cpioInit_chained _ hmagic hchain hfuel, visitAll_true hchain, visitAll_true hwf.chained,
        List.nil_append, List.nil_append] at hrun
      exact upper_of_visits hwf.chained hchain hwf.fields (Prod.mk.inj (Option.some.inj hrun)).1
  · rintro ⟨hinside, hupper⟩ status fuel hfuel
    refine ⟨(inside_iff hfuel).mp hinside status, fun records trailer hwf => ?_⟩
    rcases hinside with hmagic | ⟨hmagic, trailer', records', hchain⟩
    · rw [hwf.isCpio] at hmagic
      simp at hmagic
    · rw [cpioInit_chained status hmagic hchain hfuel,
        visits_upper hwf.chained hchain hwf.fields (hupper records trailer hwf)]

def cutImage : CpioImage := ⟨asciiBytes "070701", by decide⟩

/-- The header is read from behind the end of the archive. -/
theorem cpioInit_not_unpacks : ¬Unpacks cutImage := by
  intro h
  obtain ⟨⟨r, hrun, hr⟩, -⟩ := h (fun _ => true) 10 (by decide)
  have houtside : cpioInit (fun _ => true) 10 cutImage = some ([], .outside) := by decide
  rw [houtside] at hrun
  exact hr (congrArg Prod.snd (Option.some.inj hrun)).symm

end CoolPotOS
