import CoolPotOS.Lib.Bytes
import CoolPotOS.Lib.ByteStore

namespace CoolPotOS

open Bytes ByteStore List

def cBytes (str : List (BitVec 8)) : List (BitVec 8) := str ++ [0]

def buildProcCmdline (argv : List (List (BitVec 8))) : List (BitVec 8) := argv.flatMap cBytes

def restoreLoop : ℕ → List (BitVec 8) → List (List (BitVec 8))
  | 0, _ => []
  | n + 1, buf =>
    if buf = [] then []
    else
      let str := buf.takeWhile (· ≠ 0)
      str :: restoreLoop n (buf.drop (str.length + 1))

def restoreArgv (cmdline : List (BitVec 8)) : List (List (BitVec 8)) :=
  restoreLoop (cmdline.count 0) cmdline

/-- The memory, `tmp_stack`, and the places and lengths of the writes. -/
structure UserStack where
  mem : ℕ → BitVec 8
  ptr : ℕ
  writes : List (ℕ × ℕ)

def pushSlice (s : UserStack) (slice : List (BitVec 8)) : UserStack :=
  let tmp := s.ptr - slice.length
  let tmp := tmp - tmp % 8
  ⟨overwrite s.mem tmp slice, tmp, (tmp, slice.length) :: s.writes⟩

/-- Makes room below `tmp_stack` so that a block of `total` bytes would end at a multiple of 16. -/
def correctPtr (s : UserStack) (total : ℕ) : UserStack := { s with ptr := s.ptr - (s.ptr - total) % 16 }

def totalLength (argc envc : ℕ) : ℕ := 2 * 8 + 7 * 2 * 8 + envc * 8 + 8 + argc * 8 + 8 + 8

def pushStrings (s : UserStack) : List (List (BitVec 8)) → UserStack × List ℕ
  | [] => (s, [])
  | str :: strs =>
    let pushed := pushSlice s (cBytes str)
    let rest := pushStrings pushed strs
    (rest.1, pushed.ptr :: rest.2)

def encodeWords (words : List (BitVec 64)) : List (BitVec 8) := words.flatMap (encode (k := 8))

/-- What the stack says of the program: its entry point, where its linker is, and the program headers. -/
structure LoadInfo where
  entryPoint : BitVec 64
  linkStart : BitVec 64
  phoff : BitVec 64
  phnum : BitVec 16
  loadStart : BitVec 64

def randomBytes : List (BitVec 8) := (List.range 16).map fun i => BitVec.ofNat 8 (i * 17 + 42)

/-- The entries of the auxiliary vector as they are pushed: `AT_NULL`, `AT_PHDR`, `AT_PHENT`, `AT_PHNUM`, `AT_ENTRY`,
`AT_UID`, `AT_EUID`, `AT_GID`, `AT_EGID`, `AT_SECURE`, `AT_RANDOM`, `AT_EXECFN`, for a program with a linker `AT_BASE`,
and `AT_PAGESZ`. -/
def auxvPushed (info : LoadInfo) (execfn random : ℕ) : List (BitVec 64 × BitVec 64) :=
  [(0, 0), (3, info.phoff + info.loadStart), (4, 56), (5, info.phnum.setWidth 64), (9, info.entryPoint), (11, 0),
    (12, 0), (13, 0), (14, 0), (23, 0), (25, BitVec.ofNat 64 random), (31, BitVec.ofNat 64 execfn)] ++
  (if info.linkStart ≠ 0 then [(7, info.linkStart)] else []) ++ [(6, 4096)]

/-- The result: the stack, and the tables `envps` and `argvps`. -/
structure BuiltStack where
  stack : UserStack
  envps : List ℕ
  argvps : List ℕ

def pointerBytes (ptrs : List ℕ) : List (BitVec 8) := encodeWords (ptrs.map (BitVec.ofNat 64))

def buildUserStack (mem : ℕ → BitVec 8) (sp : ℕ) (name : List (BitVec 8)) (envp : List (List (BitVec 8)))
    (cmdline : List (BitVec 8)) (info : LoadInfo) : BuiltStack :=
  let argv := restoreArgv cmdline
  let named := pushSlice ⟨mem, sp, []⟩ (cBytes name)
  let envs := pushStrings named envp
  let args := pushStrings envs.1 argv
  let aligned := correctPtr args.1 (totalLength args.2.length envs.2.length)
  let random := pushSlice aligned randomBytes
  let auxed := (auxvPushed info named.ptr random.ptr).foldl (fun s entry => pushSlice s (encodeWords [entry.1, entry.2]))
    random
  let ended := pushSlice auxed (encodeWords [0])
  let withEnv := pushSlice ended (pointerBytes envs.2)
  let ended := pushSlice withEnv (encodeWords [0])
  let withArgs := pushSlice ended (pointerBytes args.2)
  ⟨pushSlice withArgs (pointerBytes [args.2.length]), envs.2, args.2⟩

variable {argv : List (List (BitVec 8))} {s : UserStack} {mem : ℕ → BitVec 8} {i : ℕ}

theorem restoreLoop_cmdline (h : ∀ str ∈ argv, 0 ∉ str) :
    restoreLoop argv.length (buildProcCmdline argv) = argv := by
  induction argv with
  | nil => rfl
  | cons str argv ih =>
    have hstr : ∀ b ∈ str, (decide (b ≠ 0)) = true := by
      intro b hb
      exact decide_eq_true fun hzero => h str mem_cons_self (hzero ▸ hb)
    have hbuf : buildProcCmdline (str :: argv) = str ++ 0 :: buildProcCmdline argv := by
      rw [buildProcCmdline, flatMap_cons, cBytes, append_assoc]
      rfl
    have htake : (str ++ 0 :: buildProcCmdline argv).takeWhile (fun b => decide (b ≠ 0)) = str := by
      rw [takeWhile_append_of_pos hstr, takeWhile_cons_of_neg (by decide), append_nil]
    rw [hbuf, length_cons, restoreLoop, if_neg (by simp)]
    dsimp only
    rw [htake, drop_append, drop_of_length_le (Nat.le_succ _), Nat.add_sub_cancel_left]
    rw [nil_append, drop_one, tail_cons, ih fun s hs => h s (mem_cons_of_mem _ hs)]

theorem count_cmdline (h : ∀ str ∈ argv, 0 ∉ str) : (buildProcCmdline argv).count 0 = argv.length := by
  induction argv with
  | nil => rfl
  | cons str argv ih =>
    rw [buildProcCmdline, flatMap_cons, count_append, cBytes, count_append,
      count_eq_zero_of_not_mem (h str mem_cons_self), count_singleton_self, length_cons]
    have hrest := ih fun s hs => h s (mem_cons_of_mem _ hs)
    unfold buildProcCmdline at hrest
    rw [hrest]
    omega

theorem restoreArgv_cmdline (h : ∀ str ∈ argv, 0 ∉ str) : restoreArgv (buildProcCmdline argv) = argv := by
  rw [restoreArgv, count_cmdline h, restoreLoop_cmdline h]

def pushPtr (ptr : ℤ) (len : ℕ) : ℤ := ptr - len - (ptr - len) % 8

theorem pushPtr_le (ptr : ℤ) (len : ℕ) : pushPtr ptr len ≤ ptr - len := by
  unfold pushPtr
  have := Int.emod_nonneg (ptr - len) (show (8 : ℤ) ≠ 0 by decide)
  omega

theorem foldl_pushPtr_le (lens : List ℕ) (ptr : ℤ) : lens.foldl pushPtr ptr ≤ ptr := by
  induction lens generalizing ptr with
  | nil => exact le_refl _
  | cons len lens ih =>
    have hstep := pushPtr_le ptr len
    exact (ih _).trans (by omega)

/-- A stack grows down from another: what was above stays, and the writes are in between. -/
structure GrownDown (s s' : UserStack) : Prop where
  le : s'.ptr ≤ s.ptr
  above : ∀ a, s.ptr ≤ a → s'.mem a = s.mem a
  writes : ∃ new, s'.writes = new ++ s.writes ∧ ∀ w ∈ new, s'.ptr ≤ w.1 ∧ w.1 + w.2 ≤ s.ptr

theorem GrownDown.refl (s : UserStack) : GrownDown s s := ⟨le_refl _, fun _ _ => rfl, [], rfl, by simp⟩

theorem GrownDown.trans {s' s'' : UserStack} (h : GrownDown s s') (h' : GrownDown s' s'') : GrownDown s s'' := by
  obtain ⟨new, hnew, hin⟩ := h.writes
  obtain ⟨new', hnew', hin'⟩ := h'.writes
  refine ⟨h'.le.trans h.le, fun a ha => (h'.above a (h.le.trans ha)).trans (h.above a ha), new' ++ new, ?_, ?_⟩
  · rw [hnew', hnew, append_assoc]
  · intro w hw
    obtain hw | hw := mem_append.mp hw
    · exact ⟨(hin' w hw).1, (hin' w hw).2.trans h.le⟩
    · exact ⟨h'.le.trans (hin w hw).1, (hin w hw).2⟩

theorem GrownDown.slice {s' : UserStack} (h : GrownDown s s') {a : ℕ} (ha : s.ptr ≤ a) (n : ℕ) :
    Bytes.slice s'.mem a n = Bytes.slice s.mem a n :=
  slice_congr fun i _ => h.above (a + i) (by omega)

structure Pushed (s s' : UserStack) (bytes : List (BitVec 8)) : Prop where
  grown : GrownDown s s'
  ptr : (s'.ptr : ℤ) = pushPtr s.ptr bytes.length
  aligned : 8 ∣ s'.ptr
  room : s'.ptr + bytes.length ≤ s.ptr
  bytes : Bytes.slice s'.mem s'.ptr bytes.length = bytes

theorem pushSlice_pushed {bytes : List (BitVec 8)} (h : bytes.length ≤ s.ptr) :
    Pushed s (pushSlice s bytes) bytes := by
  have hptr : (pushSlice s bytes).ptr = s.ptr - bytes.length - (s.ptr - bytes.length) % 8 := rfl
  have hroom : (pushSlice s bytes).ptr + bytes.length ≤ s.ptr := by omega
  refine ⟨⟨by omega, fun a ha => ?_, [(_, bytes.length)], rfl, ?_⟩, ?_, ?_, hroom, ?_⟩
  · exact overwrite_of_le _ (by omega)
  · intro w hw
    rw [mem_singleton.mp hw]
    exact ⟨le_refl _, hroom⟩
  · rw [hptr]
    unfold pushPtr
    omega
  · exact Nat.dvd_sub_mod _
  · exact slice_overwrite_self _ _ _

def StringAt (mem : ℕ → BitVec 8) (ptr : ℕ) (str : List (BitVec 8)) : Prop :=
  Bytes.slice mem ptr (str.length + 1) = cBytes str

theorem length_cBytes (str : List (BitVec 8)) : (cBytes str).length = str.length + 1 := by
  rw [cBytes, length_append, length_singleton]

/-- Strings with their places between two addresses, each below the one before it. -/
structure Strung (mem : ℕ → BitVec 8) (lo hi : ℕ) (strs : List (ℕ × List (BitVec 8))) : Prop where
  at' : ∀ x ∈ strs, StringAt mem x.1 x.2
  inside : ∀ x ∈ strs, lo ≤ x.1 ∧ x.1 + (x.2.length + 1) ≤ hi
  apart : strs.Pairwise fun x y => y.1 + (y.2.length + 1) ≤ x.1

theorem pushStrings_spec (s : UserStack) (strs : List (List (BitVec 8)))
    (h : 0 ≤ (strs.map fun str => str.length + 1).foldl pushPtr s.ptr) : GrownDown s (pushStrings s strs).1 ∧
      ((pushStrings s strs).1.ptr : ℤ) = (strs.map fun str => str.length + 1).foldl pushPtr s.ptr ∧
      (pushStrings s strs).2.length = strs.length ∧
      Strung (pushStrings s strs).1.mem (pushStrings s strs).1.ptr s.ptr ((pushStrings s strs).2.zip strs) := by
  induction strs generalizing s with
  | nil => exact ⟨.refl s, rfl, rfl, by simp [pushStrings], by simp [pushStrings], by simp [pushStrings]⟩
  | cons str strs ih =>
    rw [map_cons, foldl_cons] at h ⊢
    have hle := foldl_pushPtr_le (strs.map fun str => str.length + 1) (pushPtr s.ptr (str.length + 1))
    have hle' := pushPtr_le s.ptr (str.length + 1)
    have hpush : Pushed s (pushSlice s (cBytes str)) (cBytes str) :=
      pushSlice_pushed (by rw [length_cBytes]; omega)
    have hptr := hpush.ptr
    have hroom := hpush.room
    have hbytes := hpush.bytes
    rw [length_cBytes] at hptr hroom hbytes
    obtain ⟨hgrown, hend, hlen, hat, hin, hapart⟩ := ih (pushSlice s (cBytes str)) (by rw [hptr]; exact h)
    rw [hptr] at hend
    refine ⟨hpush.grown.trans hgrown, hend, congrArg (· + 1) hlen, ?_, ?_, ?_⟩
    · intro x hx
      obtain rfl | hx := mem_cons.mp hx
      · exact (hgrown.slice (le_refl _) _).trans hbytes
      · exact hat x hx
    · intro x hx
      obtain rfl | hx := mem_cons.mp hx
      · exact ⟨hgrown.le, hroom⟩
      · exact ⟨(hin x hx).1, (hin x hx).2.trans hpush.grown.le⟩
    · exact pairwise_cons.mpr ⟨fun x hx => (hin x hx).2, hapart⟩

theorem pushStrings_append (s : UserStack) (strs strs' : List (List (BitVec 8))) :
    pushStrings s (strs ++ strs') =
      ((pushStrings (pushStrings s strs).1 strs').1, (pushStrings s strs).2 ++ (pushStrings (pushStrings s strs).1 strs').2) := by
  induction strs generalizing s with
  | nil => rfl
  | cons str strs ih =>
    simp only [cons_append, pushStrings, ih]

theorem foldl_pushSlice (hs : 8 ∣ s.ptr) (slices : List (List (BitVec 8)))
    (hwords : ∀ bytes ∈ slices, 8 ∣ bytes.length) (h : slices.flatten.length ≤ s.ptr) :
    GrownDown s (slices.foldl pushSlice s) ∧ (slices.foldl pushSlice s).ptr + slices.flatten.length = s.ptr ∧
      Bytes.slice (slices.foldl pushSlice s).mem (slices.foldl pushSlice s).ptr slices.flatten.length =
        slices.reverse.flatten := by
  induction slices generalizing s with
  | nil => exact ⟨.refl s, rfl, rfl⟩
  | cons bytes slices ih =>
    rw [flatten_cons, length_append] at h ⊢
    have hpush : Pushed s (pushSlice s bytes) bytes := pushSlice_pushed (by omega)
    obtain ⟨n, hn⟩ := hwords bytes mem_cons_self
    have hptr : (pushSlice s bytes).ptr + bytes.length = s.ptr := by
      have hval := hpush.ptr
      unfold pushPtr at hval
      omega
    obtain ⟨hgrown, hend, hslice⟩ := ih hpush.aligned (fun b hb => hwords b (mem_cons_of_mem _ hb)) (by omega)
    refine ⟨hpush.grown.trans hgrown, ?_, ?_⟩
    · rw [foldl_cons]
      omega
    · rw [foldl_cons, Nat.add_comm bytes.length, slice_add, hslice, hend, hgrown.slice (le_refl _), hpush.bytes,
        reverse_cons, flatten_append, flatten_singleton]

def readWord (mem : ℕ → BitVec 8) (a : ℕ) : BitVec 64 := (takeWord 8 (Bytes.slice mem a 8)).1

theorem length_encodeWords (words : List (BitVec 64)) : (encodeWords words).length = 8 * words.length := by
  unfold encodeWords
  induction words with
  | nil => rfl
  | cons word words ih =>
    rw [flatMap_cons, length_append, ih, length_encode, length_cons]
    omega

theorem readWord_of_slice {a : ℕ} {words : List (BitVec 64)} {rest : List (BitVec 8)}
    (h : Bytes.slice mem a (8 * words.length + rest.length) = encodeWords words ++ rest) {w : BitVec 64}
    (hi : words[i]? = some w) : readWord mem (a + 8 * i) = w := by
  induction words generalizing a i with
  | nil => cases hi
  | cons word words ih =>
    have hlen : 8 * (word :: words).length + rest.length = 8 + (8 * words.length + rest.length) := by
      rw [length_cons]
      omega
    rw [hlen, slice_add, encodeWords, flatMap_cons, append_assoc] at h
    obtain ⟨hhead, htail⟩ := append_inj h (by rw [length_slice, length_encode])
    cases i with
    | zero =>
      obtain rfl := Option.some.inj hi
      have hword := takeWord_encode (k := 8) word []
      rw [append_nil] at hword
      rw [Nat.mul_zero, Nat.add_zero, readWord, hhead]
      exact congrArg Prod.fst hword
    | succ i =>
      have hrest := ih htail hi
      rw [show a + 8 * (i + 1) = a + 8 + 8 * i by omega]
      exact hrest

/-- The block at the stack pointer by the rule of the System V interface: `argc`, as many pointers to arguments,
`NULL`, pointers to the environment up to a `NULL`, and the auxiliary vector up to `AT_NULL`. -/
structure DecodesTo (mem : ℕ → BitVec 8) (sp : ℕ) (argvps envps : List ℕ) (auxv : List (BitVec 64 × BitVec 64)) :
    Prop where
  argcWord : (readWord mem sp).toNat = argvps.length
  argvWords : ∀ i ptr, argvps[i]? = some ptr → (readWord mem (sp + 8 * (1 + i))).toNat = ptr
  argvEnd : readWord mem (sp + 8 * (1 + argvps.length)) = 0
  envpWords : ∀ i ptr, envps[i]? = some ptr → ptr ≠ 0 ∧ (readWord mem (sp + 8 * (argvps.length + 2 + i))).toNat = ptr
  envpEnd : readWord mem (sp + 8 * (argvps.length + 2 + envps.length)) = 0
  auxvWords : ∀ i entry, auxv[i]? = some entry →
    readWord mem (sp + 8 * (argvps.length + envps.length + 3 + 2 * i)) = entry.1 ∧
      readWord mem (sp + 8 * (argvps.length + envps.length + 3 + 2 * i + 1)) = entry.2
  auxvEnd : ∃ entries, auxv = entries ++ [(0, 0)] ∧ ∀ entry ∈ entries, entry.1 ≠ 0

def stackWords (argvps envps : List ℕ) (auxv : List (BitVec 64 × BitVec 64)) : List (BitVec 64) :=
  BitVec.ofNat 64 argvps.length :: (argvps.map (BitVec.ofNat 64) ++
    0 :: (envps.map (BitVec.ofNat 64) ++ 0 :: auxv.flatMap fun entry => [entry.1, entry.2]))

theorem getElem?_append_add {α : Type*} (l l' : List α) (i : ℕ) : (l ++ l')[l.length + i]? = l'[i]? := by
  rw [List.getElem?_append_right (Nat.le_add_right _ _), Nat.add_sub_cancel_left]

theorem getElem?_pairs (auxv : List (BitVec 64 × BitVec 64)) {entry : BitVec 64 × BitVec 64}
    (h : auxv[i]? = some entry) : (auxv.flatMap fun entry => [entry.1, entry.2])[2 * i]? = some entry.1 ∧
      (auxv.flatMap fun entry => [entry.1, entry.2])[2 * i + 1]? = some entry.2 := by
  induction auxv generalizing i with
  | nil => cases h
  | cons first auxv ih =>
    cases i with
    | zero =>
      obtain rfl := Option.some.inj h
      exact ⟨rfl, rfl⟩
    | succ i => exact ih h

theorem getElem?_argv {argvps : List ℕ} {ptr : ℕ} (h : argvps[i]? = some ptr) (envps : List ℕ)
    (auxv : List (BitVec 64 × BitVec 64)) :
    (stackWords argvps envps auxv)[1 + i]? = some (BitVec.ofNat 64 ptr) := by
  have hlt := (List.getElem?_eq_some_iff.mp h).1
  rw [stackWords, Nat.add_comm 1 i, List.getElem?_cons_succ, List.getElem?_append_left (by rw [length_map]; exact hlt),
    List.getElem?_map, h]
  rfl

theorem getElem?_behind_argv (argvps envps : List ℕ) (auxv : List (BitVec 64 × BitVec 64)) (i : ℕ) :
    (stackWords argvps envps auxv)[1 + argvps.length + i]? =
      (0 :: (envps.map (BitVec.ofNat 64) ++ 0 :: auxv.flatMap fun entry => [entry.1, entry.2]) : List (BitVec 64))[i]? := by
  rw [stackWords, show 1 + argvps.length + i = (argvps.length + i) + 1 by omega, List.getElem?_cons_succ]
  have hadd := getElem?_append_add (argvps.map (BitVec.ofNat 64))
    (0 :: (envps.map (BitVec.ofNat 64) ++ 0 :: auxv.flatMap fun entry => [entry.1, entry.2])) i
  rw [length_map] at hadd
  exact hadd

theorem getElem?_behind_envp (argvps envps : List ℕ) (auxv : List (BitVec 64 × BitVec 64)) (i : ℕ) :
    (stackWords argvps envps auxv)[argvps.length + 2 + envps.length + i]? =
      (0 :: auxv.flatMap fun entry => [entry.1, entry.2] : List (BitVec 64))[i]? := by
  have hadd := getElem?_append_add (envps.map (BitVec.ofNat 64)) (0 :: auxv.flatMap fun entry => [entry.1, entry.2]) i
  rw [length_map] at hadd
  rw [show argvps.length + 2 + envps.length + i = 1 + argvps.length + ((envps.length + i) + 1) by omega,
    getElem?_behind_argv, List.getElem?_cons_succ, hadd]

theorem decodesTo_of_slice {sp : ℕ} {argvps envps : List ℕ} {auxv : List (BitVec 64 × BitVec 64)}
    {rest : List (BitVec 8)}
    (h : Bytes.slice mem sp (8 * (stackWords argvps envps auxv).length + rest.length) = encodeWords (stackWords argvps envps auxv) ++ rest)
    (hargc : argvps.length < 2 ^ 64) (hargvps : ∀ ptr ∈ argvps, ptr < 2 ^ 64)
    (henvps : ∀ ptr ∈ envps, ptr ≠ 0 ∧ ptr < 2 ^ 64)
    (hend : ∃ entries, auxv = entries ++ [(0, 0)] ∧ ∀ entry ∈ entries, entry.1 ≠ 0) :
    DecodesTo mem sp argvps envps auxv := by
  have htoNat : ∀ n < 2 ^ 64, (BitVec.ofNat 64 n).toNat = n := by
    intro n hn
    rw [BitVec.toNat_ofNat, Nat.mod_eq_of_lt hn]
  constructor
  · have hword := readWord_of_slice h (i := 0) rfl
    rw [Nat.mul_zero, Nat.add_zero] at hword
    rw [hword, htoNat _ hargc]
  · intro i ptr hi
    rw [readWord_of_slice h (getElem?_argv hi envps auxv), htoNat _ (hargvps ptr (mem_of_getElem? hi))]
  · apply readWord_of_slice h
    exact getElem?_behind_argv argvps envps auxv 0
  · intro i ptr hi
    have hlt := (List.getElem?_eq_some_iff.mp hi).1
    obtain ⟨hne, hsmall⟩ := henvps ptr (mem_of_getElem? hi)
    refine ⟨hne, ?_⟩
    rw [readWord_of_slice h (w := BitVec.ofNat 64 ptr), htoNat _ hsmall]
    rw [show argvps.length + 2 + i = 1 + argvps.length + (i + 1) by omega, getElem?_behind_argv, List.getElem?_cons_succ,
      List.getElem?_append_left (by rw [length_map]; exact hlt), List.getElem?_map, hi]
    rfl
  · apply readWord_of_slice h
    exact getElem?_behind_envp argvps envps auxv 0
  · intro i entry hi
    obtain ⟨hfst, hsnd⟩ := getElem?_pairs auxv hi
    constructor
    · apply readWord_of_slice h
      rw [show argvps.length + envps.length + 3 + 2 * i = argvps.length + 2 + envps.length + (2 * i + 1) by omega,
        getElem?_behind_envp, List.getElem?_cons_succ, hfst]
    · apply readWord_of_slice h
      rw [show argvps.length + envps.length + 3 + 2 * i + 1 = argvps.length + 2 + envps.length + (2 * i + 1 + 1) by omega,
        getElem?_behind_envp, List.getElem?_cons_succ, hsnd]
  · exact hend

/-- Where the stack pointer ends up: below the strings, the correction and the block. -/
def userStackPointer (sp : ℕ) (name : List (BitVec 8)) (envp argv : List (List (BitVec 8))) (info : LoadInfo) : ℤ :=
  let strings := ((name :: (envp ++ argv)).map fun str => str.length + 1).foldl pushPtr (sp : ℤ)
  strings - (strings - totalLength argv.length envp.length) % 16 -
    (16 + 16 * (auxvPushed info 0 0).length + 8 * (argv.length + envp.length + 3) : ℕ)

/-- The stack is in the region from `lo` to `sp` and reads as what was passed, its strings lie above the block and
apart, and no table of pointers is written behind its end. -/
structure StackOk (lo sp : ℕ) (name : List (BitVec 8)) (envp argv : List (List (BitVec 8))) (info : LoadInfo)
    (built : BuiltStack) : Prop where
  counts : built.argvps.length = argv.length ∧ built.envps.length = envp.length
  decodes : ∃ execfn random block,
    DecodesTo built.stack.mem built.stack.ptr built.argvps built.envps (auxvPushed info execfn random).reverse ∧
      built.stack.ptr + 8 * (stackWords built.argvps built.envps (auxvPushed info execfn random).reverse).length ≤ block ∧
        Strung built.stack.mem block sp ((execfn :: (built.envps ++ built.argvps)).zip (name :: (envp ++ argv)))
  aligned : 16 ∣ built.stack.ptr
  inRegion : ∀ w ∈ built.stack.writes, lo ≤ w.1 ∧ w.1 + w.2 ≤ sp
  inTables : (∀ i < built.envps.length, 8 * (i + 1) ≤ 1024) ∧ ∀ i < built.argvps.length, 8 * (i + 1) ≤ 1024

theorem dvd_foldl_pushPtr (len : ℕ) (lens : List ℕ) (ptr : ℤ) : (8 : ℤ) ∣ (len :: lens).foldl pushPtr ptr := by
  induction lens generalizing len ptr with
  | nil =>
    change (8 : ℤ) ∣ pushPtr ptr len
    unfold pushPtr
    omega
  | cons len' lens ih => exact ih len' (pushPtr ptr len)

theorem le_length_auxvPushed (info : LoadInfo) : 13 ≤ (auxvPushed info 0 0).length := by
  simp only [auxvPushed, length_append, length_cons, length_nil]
  omega

theorem length_auxvPushed (info : LoadInfo) (execfn random : ℕ) :
    (auxvPushed info execfn random).length = (auxvPushed info 0 0).length := by
  simp only [auxvPushed, length_append, length_cons, length_nil]

theorem auxvPushed_reverse (info : LoadInfo) (execfn random : ℕ) :
    ∃ entries, (auxvPushed info execfn random).reverse = entries ++ [(0, 0)] ∧ ∀ entry ∈ entries, entry.1 ≠ 0 := by
  refine ⟨(auxvPushed info execfn random).tail.reverse, ?_, ?_⟩
  · rw [← reverse_singleton, ← reverse_append]
    rfl
  · intro entry hentry
    rw [mem_reverse] at hentry
    have hne : ∀ e ∈ (auxvPushed info execfn random).tail, e.1 ≠ 0 := by
      by_cases hlink : info.linkStart = 0
      · simp [auxvPushed, hlink]
      · simp only [auxvPushed, ne_eq, hlink, not_false_eq_true, if_true, cons_append, nil_append,
          tail_cons, forall_mem_cons]
        simp
    exact hne entry hentry

def blockSlices (info : LoadInfo) (execfn random : ℕ) (argvps envps : List ℕ) : List (List (BitVec 8)) :=
  randomBytes :: ((auxvPushed info execfn random).map (fun entry => encodeWords [entry.1, entry.2]) ++
    [encodeWords [0], pointerBytes envps, encodeWords [0], pointerBytes argvps, pointerBytes [argvps.length]])

theorem encodeWords_append (words words' : List (BitVec 64)) :
    encodeWords (words ++ words') = encodeWords words ++ encodeWords words' := flatMap_append

theorem blockSlices_flatten (info : LoadInfo) (execfn random : ℕ) (argvps envps : List ℕ) :
    (blockSlices info execfn random argvps envps).reverse.flatten =
      encodeWords (stackWords argvps envps (auxvPushed info execfn random).reverse) ++ randomBytes := by
  have hpairs : ∀ auxv : List (BitVec 64 × BitVec 64),
      (auxv.map fun entry => encodeWords [entry.1, entry.2]).flatten =
        encodeWords (auxv.flatMap fun entry => [entry.1, entry.2]) := by
    intro auxv
    unfold encodeWords
    rw [flatMap_assoc]
    rfl
  rw [blockSlices, reverse_cons, reverse_append, flatten_append, flatten_append,
    flatten_singleton, ← map_reverse, hpairs]
  congr 1
  have hcons : ∀ (word : BitVec 64) words, encodeWords (word :: words) = encodeWords [word] ++ encodeWords words :=
    fun word words => encodeWords_append [word] words
  rw [stackWords, hcons (BitVec.ofNat 64 argvps.length), encodeWords_append, hcons 0 (_ ++ _), encodeWords_append,
    hcons 0 (flatMap _ _)]
  simp only [reverse_cons, reverse_nil, nil_append, cons_append, flatten_cons,
    flatten_nil, append_nil, append_assoc]
  rfl

theorem length_pointerBytes (ptrs : List ℕ) : (pointerBytes ptrs).length = 8 * ptrs.length := by
  rw [pointerBytes, length_encodeWords, length_map]

theorem length_randomBytes : randomBytes.length = 16 := rfl

theorem blockSlices_length (info : LoadInfo) (execfn random : ℕ) (argvps envps : List ℕ) :
    (∀ bytes ∈ blockSlices info execfn random argvps envps, 8 ∣ bytes.length) ∧
      (blockSlices info execfn random argvps envps).flatten.length =
        16 + 16 * (auxvPushed info 0 0).length + 8 * (argvps.length + envps.length + 3) := by
  have hpairs : ∀ auxv : List (BitVec 64 × BitVec 64),
      (auxv.map fun entry => encodeWords [entry.1, entry.2]).flatten.length = 16 * auxv.length := by
    intro auxv
    induction auxv with
    | nil => rfl
    | cons entry auxv ih =>
      rw [map_cons, flatten_cons, length_append, ih, length_encodeWords]
      simp only [length_cons, length_nil]
      omega
  constructor
  · intro bytes hbytes
    unfold blockSlices at hbytes
    simp only [mem_cons, mem_append, mem_map, not_mem_nil, or_false] at hbytes
    rcases hbytes with rfl | ⟨entry, -, rfl⟩ | rfl | rfl | rfl | rfl | rfl
    · rw [length_randomBytes]
      decide
    · rw [length_encodeWords]
      exact Nat.dvd_mul_right 8 _
    all_goals first | (rw [length_pointerBytes]; exact Nat.dvd_mul_right 8 _) |
      (rw [length_encodeWords]; exact Nat.dvd_mul_right 8 _)
  · rw [blockSlices, flatten_cons, length_append, flatten_append, length_append, hpairs,
      length_auxvPushed, length_randomBytes]
    simp only [flatten_cons, flatten_nil, length_append, length_pointerBytes, length_encodeWords,
      length_cons, length_nil]
    omega

theorem buildUserStack_eq {sp : ℕ} {name : List (BitVec 8)} {envp : List (List (BitVec 8))}
    (hnul : ∀ str ∈ argv, 0 ∉ str) (info : LoadInfo) {built : BuiltStack}
    (h : built = buildUserStack mem sp name envp (buildProcCmdline argv) info) :
    ∃ execfn random, (pushStrings ⟨mem, sp, []⟩ (name :: (envp ++ argv))).2 = execfn :: (built.envps ++ built.argvps) ∧
      built.argvps = (pushStrings (pushStrings (pushSlice ⟨mem, sp, []⟩ (cBytes name)) envp).1 argv).2 ∧
      built.envps = (pushStrings (pushSlice ⟨mem, sp, []⟩ (cBytes name)) envp).2 ∧
      built.stack = (blockSlices info execfn random built.argvps built.envps).foldl pushSlice
        (correctPtr (pushStrings ⟨mem, sp, []⟩ (name :: (envp ++ argv))).1
          (totalLength built.argvps.length built.envps.length)) := by
  have hall : pushStrings ⟨mem, sp, []⟩ (name :: (envp ++ argv)) =
      let named := pushSlice ⟨mem, sp, []⟩ (cBytes name)
      let envs := pushStrings named envp
      let args := pushStrings envs.1 argv
      (args.1, named.ptr :: (envs.2 ++ args.2)) := by
    rw [pushStrings, pushStrings_append]
  unfold buildUserStack at h
  rw [restoreArgv_cmdline hnul] at h
  rw [h, hall]
  dsimp only
  generalize pushSlice ⟨mem, sp, []⟩ (cBytes name) = named
  generalize pushStrings named envp = envs
  generalize pushStrings envs.1 argv = args
  refine ⟨named.ptr, (pushSlice (correctPtr args.1 (totalLength args.2.length envs.2.length)) randomBytes).ptr,
    rfl, rfl, rfl, ?_⟩
  simp only [blockSlices, foldl_cons, foldl_append, foldl_map, foldl_nil]

theorem length_pushStrings (s : UserStack) (strs : List (List (BitVec 8))) :
    (pushStrings s strs).2.length = strs.length := by
  induction strs generalizing s with
  | nil => rfl
  | cons str strs ih => exact congrArg (· + 1) (ih _)

theorem grownDown_correctPtr (s : UserStack) (total : ℕ) : GrownDown s (correctPtr s total) :=
  ⟨Nat.sub_le _ _, fun _ _ => rfl, [], rfl, by simp⟩

section Built

variable {mem : ℕ → BitVec 8} {lo sp : ℕ} {name : List (BitVec 8)} {envp argv : List (List (BitVec 8))}
  {info : LoadInfo}

theorem mem_of_zip {α β : Type*} {l : List α} {l' : List β} (h : l.length = l'.length) {x : α} (hx : x ∈ l) :
    ∃ y, (x, y) ∈ l.zip l' := by
  obtain ⟨i, hi, rfl⟩ := getElem_of_mem hx
  exact ⟨l'[i], mem_iff_getElem.mpr ⟨i, by simp; omega, by simp⟩⟩

/-- What was passed is read back, wherever it fits. -/
theorem stackOk_iff (hsp : sp < 2 ^ 64) (hnul : ∀ str ∈ argv, 0 ∉ str)
    (hfits : (lo : ℤ) ≤ userStackPointer sp name envp argv info) :
    StackOk lo sp name envp argv info (buildUserStack mem sp name envp (buildProcCmdline argv) info) ↔
      argv.length ≤ 128 ∧ envp.length ≤ 128 := by
  obtain ⟨built, hbuilt⟩ : ∃ built, built = buildUserStack mem sp name envp (buildProcCmdline argv) info := ⟨_, rfl⟩
  rw [← hbuilt]
  obtain ⟨execfn, random, hptrs, hargvps, henvps, hstack⟩ := buildUserStack_eq hnul info hbuilt
  have hargc : built.argvps.length = argv.length := by rw [hargvps, length_pushStrings]
  have henvc : built.envps.length = envp.length := by rw [henvps, length_pushStrings]
  constructor
  · intro hok
    have htables := hok.inTables
    rw [hargc, henvc] at htables
    constructor
    · by_contra hlarge
      have := htables.2 128 (by omega)
      omega
    · by_contra hlarge
      have := htables.1 128 (by omega)
      omega
  · intro hsmall
    have hsum := Int.emod_nonneg ((((name :: (envp ++ argv)).map fun str => str.length + 1).foldl pushPtr (sp : ℤ)) -
      totalLength argv.length envp.length) (show (16 : ℤ) ≠ 0 by decide)
    unfold userStackPointer at hfits
    dsimp only at hfits
    obtain ⟨hgrown, hptr, hlen, hstrung⟩ := pushStrings_spec ⟨mem, sp, []⟩ (name :: (envp ++ argv)) (by
      change 0 ≤ (((name :: (envp ++ argv)).map fun str => str.length + 1).foldl pushPtr (sp : ℤ))
      omega)
    have hdvd := dvd_foldl_pushPtr (name.length + 1) ((envp ++ argv).map fun str => str.length + 1) (sp : ℤ)
    rw [← List.map_cons (f := fun str : List (BitVec 8) => str.length + 1)] at hdvd
    change ((pushStrings ⟨mem, sp, []⟩ (name :: (envp ++ argv))).1.ptr : ℤ) =
      ((name :: (envp ++ argv)).map fun str => str.length + 1).foldl pushPtr (sp : ℤ) at hptr
    rw [← hptr] at hfits hdvd
    rw [hptrs] at hstrung hlen
    generalize pushStrings ⟨mem, sp, []⟩ (name :: (envp ++ argv)) = strings at hfits hdvd hstrung hstack hgrown
    have haux := le_length_auxvPushed info
    have hcorrect : ((correctPtr strings.1 (totalLength built.argvps.length built.envps.length)).ptr : ℤ) =
        strings.1.ptr - ((strings.1.ptr : ℤ) - totalLength argv.length envp.length) % 16 := by
      rw [hargc, henvc]
      change ((strings.1.ptr - (strings.1.ptr - totalLength argv.length envp.length) % 16 : ℕ) : ℤ) = _
      unfold totalLength at *
      omega
    have hgrown' := grownDown_correctPtr strings.1 (totalLength built.argvps.length built.envps.length)
    generalize correctPtr strings.1 (totalLength built.argvps.length built.envps.length) = corrected at *
    obtain ⟨hwords, hblock⟩ := blockSlices_length info execfn random built.argvps built.envps
    rw [hargc, henvc] at hblock
    obtain ⟨hgrown'', hend, hslice⟩ := foldl_pushSlice (s := corrected) (by unfold totalLength at *; omega)
      (blockSlices info execfn random built.argvps built.envps) hwords (by omega)
    rw [← hstack] at hgrown'' hend hslice
    rw [blockSlices_flatten] at hslice
    have hlength := congrArg List.length hslice
    rw [length_slice, List.length_append, length_encodeWords] at hlength
    rw [hlength] at hslice
    have hptr' : ∀ ptr ∈ built.envps ++ built.argvps, ptr ≠ 0 ∧ ptr < 2 ^ 64 := by
      intro ptr hptr
      obtain ⟨str, hstr⟩ := mem_of_zip hlen (List.mem_cons_of_mem execfn hptr)
      have hin := hstrung.inside _ hstr
      dsimp only at hin
      omega
    refine ⟨⟨hargc, henvc⟩, ⟨execfn, random, strings.1.ptr, ?_, ?_, ?_⟩, ?_, ?_, ?_, ?_⟩
    · exact decodesTo_of_slice hslice (by omega) (fun ptr h => (hptr' ptr (List.mem_append_right _ h)).2)
        (fun ptr h => hptr' ptr (List.mem_append_left _ h)) (auxvPushed_reverse info execfn random)
    · have hle := hgrown'.le
      omega
    · have habove := hgrown'.trans hgrown''
      refine ⟨fun x hx => ?_, hstrung.inside, hstrung.apart⟩
      exact (habove.slice (hstrung.inside x hx).1 _).trans (hstrung.at' x hx)
    · unfold totalLength at *
      omega
    · obtain ⟨new, hnew, hin⟩ := ((hgrown.trans hgrown').trans hgrown'').writes
      intro w hw
      rw [hnew, List.append_nil] at hw
      obtain ⟨hlow, hhigh⟩ := hin w hw
      exact ⟨by omega, hhigh⟩
    · intro i hi
      omega
    · intro i hi
      omega

end Built

theorem stackOk_iff_hello :
    StackOk 0x1000 0x2005 [0x69] [[0x61, 0x3d, 0x62]] [[0x69], []] ⟨0x400000, 0, 0x40, 3, 0⟩
      (buildUserStack (fun _ => 0) 0x2005 [0x69] [[0x61, 0x3d, 0x62]] (buildProcCmdline [[0x69], []])
        ⟨0x400000, 0, 0x40, 3, 0⟩) :=
  (stackOk_iff (by decide) (by decide) (by decide)).mpr (by decide)

/-- The pointer to the 129th argument is written behind the table. -/
theorem stack_table_overflows : ∃ argv : List (List (BitVec 8)), (∀ str ∈ argv, 0 ∉ str) ∧
    (0x1000 : ℤ) ≤ userStackPointer 0x2000 [0x69] [] argv ⟨0x400000, 0, 0x40, 3, 0⟩ ∧
      ¬ StackOk 0x1000 0x2000 [0x69] [] argv ⟨0x400000, 0, 0x40, 3, 0⟩
        (buildUserStack (fun _ => 0) 0x2000 [0x69] [] (buildProcCmdline argv) ⟨0x400000, 0, 0x40, 3, 0⟩) := by
  refine ⟨List.replicate 129 [], ?_, by decide +kernel, ?_⟩
  · intro str hstr
    rw [List.eq_of_mem_replicate hstr]
    exact List.not_mem_nil
  · intro hok
    have hcount := hok.counts.1
    rw [List.length_replicate] at hcount
    have hlast := hok.inTables.2 128 (by omega)
    omega

end CoolPotOS
