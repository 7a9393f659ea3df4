import CoolPotOS.Task.UserStack

namespace CoolPotOS

open List Option

/-- `i++` of an `int` that counts from zero. -/
def incInt (i : ℕ) : Option ℕ := if i + 1 < 2 ^ 31 then some (i + 1) else none

/-- The answers of `malloc`: for the buffer of the command line, for the array of the arguments, and
for the argument of each index. The strings are kept without their `NUL`. A call gives `none` where
it reads or writes outside a buffer, or where an `int` overflows. -/
structure CmdlineMemory where
  buffer : Bool
  argv : Bool
  arg : ℕ → Bool

namespace Krlibc

/-- The first loop of `build_proc_cmdline`, with `total_length` and `i`. -/
def cmdlineLength : List (List (BitVec 8)) → ℕ → ℕ → Option ℕ
  | [], total, _ => some total
  | str :: argv, total, i =>
    (incInt i).bind fun i => cmdlineLength argv ((total + (str.length + 1)) % 2 ^ 64) i

/-- The second loop, with the bytes that are already in the buffer of `total` bytes. -/
def cmdlineCopy (total : ℕ) : List (List (BitVec 8)) → List (BitVec 8) → ℕ →
    Option (List (BitVec 8))
  | [], buf, _ => some buf
  | str :: argv, buf, i =>
    if buf.length + (str.length + 1) ≤ total then
      (incInt i).bind fun i => cmdlineCopy total argv (buf ++ cBytes str) i
    else none

/-- `build_proc_cmdline`: the buffer, and its length behind `out_len`. -/
def buildProcCmdline (mem : CmdlineMemory) :
    Option (List (List (BitVec 8))) → Option (Option (List (BitVec 8)) × ℕ)
  | none => some (none, 0)
  | some argv =>
    (cmdlineLength argv 0 0).bind fun total =>
      if total = 0 then some (none, 0)
      else if ¬ mem.buffer then some (none, 0)
      else (cmdlineCopy total argv [] 0).map fun buf => (some buf, total)

/-- The loop of `restore_argv` that counts the `NUL`s. -/
def countNuls : List (BitVec 8) → ℕ → Option ℕ
  | [], argc => some argc
  | b :: buf, argc =>
    if b = 0 then (incInt argc).bind fun argc => countNuls buf argc else countNuls buf argc

def strlenAt (buf : List (BitVec 8)) (ptr : ℕ) : Option ℕ :=
  let len := ((buf.drop ptr).takeWhile (· ≠ 0)).length
  if ptr + len < buf.length then some len else none

/-- The loop of `restore_argv` that copies the strings, with the number of entries that are left. The
entries behind the end of the buffer stay as `malloc` gave them. -/
def restoreArgs (mem : CmdlineMemory) (buf : List (BitVec 8)) (len : ℕ) :
    ℕ → ℕ → ℕ → Option (Option (List (Option (List (BitVec 8)))))
  | 0, _, _ => some (some [])
  | left + 1, index, ptr =>
    if ptr < len then
      (strlenAt buf ptr).bind fun strLen =>
        if mem.arg index then
          (restoreArgs mem buf len left (index + 1) (ptr + (strLen + 1))).map fun r =>
            r.map fun argv => some ((buf.drop ptr).take strLen) :: argv
        else some none
    else some (some (List.replicate (left + 1) none))

/-- `restore_argv`: the array, and the count behind `out_argc`. -/
def restoreArgv (mem : CmdlineMemory) :
    Option (List (BitVec 8)) → ℕ → Option (Option (List (Option (List (BitVec 8)))) × ℕ)
  | none, _ => some (none, 0)
  | some buf, len =>
    if len = 0 then some (none, 0)
    else if buf.length < len then none
    else
      (countNuls (buf.take len) 0).bind fun argc =>
        (incInt argc).bind fun _ =>
          if ¬ mem.argv then some (none, argc)
          else (restoreArgs mem buf len argc 0 0).map fun argv => (argv, argc)

end Krlibc

theorem length_cmdline (argv : List (List (BitVec 8))) :
    (buildProcCmdline argv).length = (argv.map fun str => str.length + 1).sum := by
  unfold buildProcCmdline
  rw [length_flatMap]
  simp only [length_cBytes]

theorem buildProcCmdline_cons (str : List (BitVec 8)) (argv : List (List (BitVec 8))) :
    buildProcCmdline (str :: argv) = cBytes str ++ buildProcCmdline argv :=
  flatMap_cons

variable {argv : List (List (BitVec 8))} {buf : List (BitVec 8)} {mem : CmdlineMemory}

theorem cmdlineLength_eq {total i : ℕ} (hi : i < 2 ^ 31) (htotal : total < 2 ^ 64) :
    Krlibc.cmdlineLength argv total i =
      if i + argv.length < 2 ^ 31 then some ((total + (buildProcCmdline argv).length) % 2 ^ 64)
      else none := by
  induction argv generalizing total i with
  | nil =>
    have hsum : (total + (buildProcCmdline []).length) % 2 ^ 64 = total := Nat.mod_eq_of_lt htotal
    rw [length_nil, Nat.add_zero, if_pos hi, hsum]
    rfl
  | cons str argv ih =>
    rw [Krlibc.cmdlineLength, incInt, buildProcCmdline_cons, length_append, length_cBytes,
      length_cons]
    by_cases hnext : i + 1 < 2 ^ 31
    · rw [if_pos hnext, bind_some, ih hnext (Nat.mod_lt _ (by decide)), Nat.mod_add_mod]
      have hsum : total + (str.length + 1) + (buildProcCmdline argv).length =
          total + (str.length + 1 + (buildProcCmdline argv).length) := by omega
      have hcount : i + 1 + argv.length = i + (argv.length + 1) := by omega
      rw [hsum, hcount]
    · have hover : ¬ i + (argv.length + 1) < 2 ^ 31 := by omega
      rw [if_neg hnext, if_neg hover]
      rfl

theorem cmdlineCopy_eq {total i : ℕ} (hi : i < 2 ^ 31) (hbuf : buf.length ≤ total) :
    Krlibc.cmdlineCopy total argv buf i =
      if i + argv.length < 2 ^ 31 ∧ buf.length + (buildProcCmdline argv).length ≤ total then
        some (buf ++ buildProcCmdline argv)
      else none := by
  induction argv generalizing buf i with
  | nil =>
    have hnil : buildProcCmdline [] = [] := rfl
    rw [hnil, append_nil, if_pos ⟨hi, hbuf⟩]
    rfl
  | cons str argv ih =>
    rw [Krlibc.cmdlineCopy, incInt, buildProcCmdline_cons, length_append, length_cBytes,
      length_cons]
    by_cases hroom : buf.length + (str.length + 1) ≤ total
    · rw [if_pos hroom]
      by_cases hnext : i + 1 < 2 ^ 31
      · have hlen : (buf ++ cBytes str).length = buf.length + (str.length + 1) := by
          rw [length_append, length_cBytes]
        rw [if_pos hnext, bind_some, ih hnext (hlen.trans_le hroom), hlen, append_assoc]
        have hiff : (i + 1 + argv.length < 2 ^ 31 ∧
            buf.length + (str.length + 1) + (buildProcCmdline argv).length ≤ total) ↔
            i + (argv.length + 1) < 2 ^ 31 ∧
              buf.length + (str.length + 1 + (buildProcCmdline argv).length) ≤ total := by omega
        simp only [hiff]
      · rw [if_neg hnext, if_neg (by omega)]
        rfl
    · rw [if_neg hroom, if_neg (by omega)]

theorem buildProcCmdline_iff (hne : argv ≠ []) (buf : List (BitVec 8)) (len : ℕ) :
    Krlibc.buildProcCmdline mem (some argv) = some (some buf, len) ↔
      (argv.length < 2 ^ 31 ∧ (buildProcCmdline argv).length < 2 ^ 64 ∧ mem.buffer = true) ∧
        buf = buildProcCmdline argv ∧ len = (buildProcCmdline argv).length := by
  have hpos : 0 < (buildProcCmdline argv).length := by
    obtain ⟨str, rest, rfl⟩ := exists_cons_of_ne_nil hne
    rw [buildProcCmdline_cons, length_append, length_cBytes]
    omega
  have hlength : Krlibc.cmdlineLength argv 0 0 =
      if argv.length < 2 ^ 31 then some ((buildProcCmdline argv).length % 2 ^ 64) else none := by
    rw [cmdlineLength_eq (by decide) (by decide), Nat.zero_add, Nat.zero_add]
  unfold Krlibc.buildProcCmdline
  dsimp only
  rw [hlength]
  by_cases hcount : argv.length < 2 ^ 31
  · rw [if_pos hcount, bind_some]
    by_cases hfits : (buildProcCmdline argv).length < 2 ^ 64
    · rw [Nat.mod_eq_of_lt hfits, if_neg hpos.ne']
      by_cases hmem : mem.buffer = true
      · have hcopy : Krlibc.cmdlineCopy (buildProcCmdline argv).length argv [] 0 =
            some (buildProcCmdline argv) := by
          rw [cmdlineCopy_eq (by decide) (Nat.zero_le _), length_nil, Nat.zero_add,
            Nat.zero_add, if_pos ⟨hcount, le_rfl⟩, nil_append]
        rw [if_neg (not_not.mpr hmem), hcopy, map_some]
        simp only [Option.some.injEq, Prod.mk.injEq, hcount, hfits, hmem, true_and]
        exact and_congr eq_comm eq_comm
      · rw [if_pos hmem]
        simp [hmem]
    · -- the buffer is too short for the strings
      have hlt := Nat.mod_lt (buildProcCmdline argv).length (show 2 ^ 64 > 0 by decide)
      have hcopy :
          Krlibc.cmdlineCopy ((buildProcCmdline argv).length % 2 ^ 64) argv [] 0 = none := by
        rw [cmdlineCopy_eq (by decide) (Nat.zero_le _), length_nil, Nat.zero_add,
          Nat.zero_add, if_neg (by omega)]
      rw [hcopy]
      constructor
      · intro h
        split_ifs at h <;> cases h
      · exact fun h => absurd h.1.2.1 hfits
  · rw [if_neg hcount]
    constructor
    · intro h
      cases h
    · exact fun h => absurd h.1.1 hcount

theorem countNuls_eq {argc : ℕ} (h : argc < 2 ^ 31) : Krlibc.countNuls buf argc =
      if argc + buf.count 0 < 2 ^ 31 then some (argc + buf.count 0) else none := by
  induction buf generalizing argc with
  | nil =>
    rw [count_nil, Nat.add_zero, if_pos h]
    rfl
  | cons b buf ih =>
    rw [Krlibc.countNuls]
    by_cases hb : b = 0
    · subst hb
      rw [if_pos rfl, incInt, count_cons_self]
      by_cases hnext : argc + 1 < 2 ^ 31
      · have hsum : argc + 1 + buf.count 0 = argc + (buf.count 0 + 1) := by omega
        rw [if_pos hnext, bind_some, ih hnext, hsum]
      · rw [if_neg hnext, if_neg (by omega)]
        rfl
    · rw [if_neg hb, count_cons_of_ne hb, ih h]

theorem strlenAt_cmdline (pre rest : List (BitVec 8)) {str : List (BitVec 8)} (hstr : 0 ∉ str) :
    Krlibc.strlenAt (pre ++ (cBytes str ++ rest)) pre.length = some str.length ∧
      ((pre ++ (cBytes str ++ rest)).drop pre.length).take str.length = str := by
  have hbytes : cBytes str ++ rest = str ++ 0 :: rest := by
    rw [cBytes, append_assoc]
    rfl
  have hall : ∀ b ∈ str, decide (b ≠ 0) = true := fun b hb => decide_eq_true fun hzero => hstr (hzero ▸ hb)
  have htake : (str ++ 0 :: rest).takeWhile (fun b => decide (b ≠ 0)) = str := by
    rw [takeWhile_append_of_pos hall, takeWhile_cons_of_neg (by decide), append_nil]
  have hroom : pre.length + str.length < (pre ++ (str ++ 0 :: rest)).length := by
    rw [length_append, length_append, length_cons]
    omega
  unfold Krlibc.strlenAt
  rw [hbytes, drop_left]
  dsimp only
  rw [htake, if_pos hroom]
  exact ⟨rfl, take_left⟩

theorem restoreArgs_eq (mem : CmdlineMemory) (h : ∀ str ∈ argv, 0 ∉ str) {pre : List (BitVec 8)}
    (hbuf : buf = pre ++ buildProcCmdline argv) (index : ℕ) :
    Krlibc.restoreArgs mem buf buf.length argv.length index pre.length =
      some (if ∀ k < argv.length, mem.arg (index + k) = true then some (argv.map some) else none) := by
  induction argv generalizing pre index with
  | nil =>
    have hall : ∀ k < ([] : List (List (BitVec 8))).length, mem.arg (index + k) = true :=
      fun k hk => absurd hk (Nat.not_lt_zero k)
    rw [if_pos hall]
    rfl
  | cons str argv ih =>
    obtain ⟨hstr, hargv⟩ := forall_mem_cons.mp h
    rw [buildProcCmdline_cons] at hbuf
    have hptr : pre.length < buf.length := by
      rw [hbuf, length_append, length_append, length_cBytes]
      omega
    obtain ⟨hlen, htake⟩ := strlenAt_cmdline pre (buildProcCmdline argv) hstr
    rw [← hbuf] at hlen htake
    have hnext : pre.length + (str.length + 1) = (pre ++ cBytes str).length := by
      rw [length_append, length_cBytes]
    rw [length_cons, Krlibc.restoreArgs, if_pos hptr, hlen, bind_some, htake, hnext,
      ih hargv (hbuf.trans (append_assoc _ _ _).symm) (index + 1), map_some]
    by_cases hmem : mem.arg index = true
    · rw [if_pos hmem]
      have hiff : (∀ k < argv.length + 1, mem.arg (index + k) = true) ↔
          ∀ k < argv.length, mem.arg (index + 1 + k) = true := by
        constructor
        · intro hall k hk
          have hk' := hall (k + 1) (by omega)
          rwa [← Nat.add_assoc, Nat.add_right_comm] at hk'
        · intro hall k hk
          cases k with
          | zero => exact hmem
          | succ k =>
            rw [← Nat.add_assoc, Nat.add_right_comm]
            exact hall k (by omega)
      simp only [hiff]
      split_ifs <;> rfl
    · have hno : ¬ ∀ k < argv.length + 1, mem.arg (index + k) = true :=
        fun hall => hmem (hall 0 (Nat.succ_pos _))
      rw [if_neg hmem, if_neg hno]

theorem restoreArgv_iff (hne : argv ≠ []) (h : ∀ str ∈ argv, 0 ∉ str) (found : List (List (BitVec 8)))
    (argc : ℕ) : Krlibc.restoreArgv mem (some (buildProcCmdline argv)) (buildProcCmdline argv).length =
        some (some (found.map some), argc) ↔
      (argv.length + 1 < 2 ^ 31 ∧ mem.argv = true ∧ ∀ k < argv.length, mem.arg k = true) ∧
        found = argv ∧ argc = argv.length := by
  have hpos : (buildProcCmdline argv).length ≠ 0 := by
    obtain ⟨str, rest, rfl⟩ := exists_cons_of_ne_nil hne
    rw [buildProcCmdline_cons, length_append, length_cBytes]
    omega
  have hcount : Krlibc.countNuls (buildProcCmdline argv) 0 =
      if argv.length < 2 ^ 31 then some argv.length else none := by
    rw [countNuls_eq (by decide), Nat.zero_add, count_cmdline h]
  have hargs : Krlibc.restoreArgs mem (buildProcCmdline argv) (buildProcCmdline argv).length argv.length 0 0 =
      some (if ∀ k < argv.length, mem.arg k = true then some (argv.map some) else none) := by
    have hstart := restoreArgs_eq mem h (nil_append (buildProcCmdline argv)).symm 0
    rw [length_nil] at hstart
    rw [hstart]
    simp only [Nat.zero_add]
  unfold Krlibc.restoreArgv
  dsimp only
  rw [if_neg hpos, if_neg (lt_irrefl _), take_length, hcount]
  by_cases hcounted : argv.length < 2 ^ 31
  · rw [if_pos hcounted, bind_some, incInt]
    by_cases hfew : argv.length + 1 < 2 ^ 31
    · rw [if_pos hfew, bind_some, hargs, map_some]
      by_cases harray : mem.argv = true
      · rw [if_neg (not_not.mpr harray)]
        by_cases hall : ∀ k < argv.length, mem.arg k = true
        · rw [if_pos hall]
          simp only [Option.some.injEq, Prod.mk.injEq, (map_injective_iff.mpr
            (some_injective _)).eq_iff, hfew, harray, true_and]
          exact ⟨fun heq => ⟨hall, heq.1.symm, heq.2.symm⟩, fun heq => ⟨heq.2.1.symm, heq.2.2.symm⟩⟩
        · rw [if_neg hall]
          exact iff_of_false (fun heq => by cases heq) fun hyes => hall hyes.1.2.2
      · rw [if_pos harray]
        exact iff_of_false (fun heq => by cases heq) fun hyes => harray hyes.1.2.1
    · rw [if_neg hfew]
      exact iff_of_false (fun heq => by cases heq) fun hyes => hfew hyes.1.1
  · rw [if_neg hcounted]
    exact iff_of_false (fun heq => by cases heq) fun hyes => hcounted (Nat.lt_of_succ_lt hyes.1.1)

/-- The strings of a buffer whose last byte is `NUL`. -/
def cStrings (buf : List (BitVec 8)) : List (List (BitVec 8)) := (buf.splitOn 0).dropLast

theorem exists_cmdline (buf : List (BitVec 8)) :
    ∃ argv tail, (∀ str ∈ argv, 0 ∉ str) ∧ 0 ∉ tail ∧ buf = buildProcCmdline argv ++ tail := by
  induction buf with
  | nil => exact ⟨[], [], fun _ hs => absurd hs not_mem_nil, not_mem_nil, rfl⟩
  | cons b buf ih =>
    obtain ⟨argv, tail, hargv, htail, hbuf⟩ := ih
    by_cases hb : b = 0
    · subst hb
      refine ⟨[] :: argv, tail, forall_mem_cons.mpr ⟨not_mem_nil, hargv⟩, htail, ?_⟩
      rw [hbuf, buildProcCmdline_cons]
      rfl
    · have hcons : ∀ str : List (BitVec 8), 0 ∉ str → 0 ∉ b :: str := by
        intro str hstr hmem
        obtain hzero | hmem := mem_cons.mp hmem
        · exact hb hzero.symm
        · exact hstr hmem
      cases argv with
      | nil =>
        refine ⟨[], b :: tail, hargv, hcons tail htail, ?_⟩
        rw [hbuf]
        rfl
      | cons str argv =>
        obtain ⟨hstr, hargv⟩ := forall_mem_cons.mp hargv
        refine ⟨(b :: str) :: argv, tail, forall_mem_cons.mpr ⟨hcons str hstr, hargv⟩, htail, ?_⟩
        rw [hbuf, buildProcCmdline_cons, buildProcCmdline_cons]
        rfl

theorem cStrings_cmdline (h : ∀ str ∈ argv, 0 ∉ str) : cStrings (buildProcCmdline argv) = argv := by
  have hsplit : (buildProcCmdline argv).splitOn 0 = argv ++ [[]] := by
    induction argv with
    | nil => rfl
    | cons str argv ih =>
      obtain ⟨hstr, hargv⟩ := forall_mem_cons.mp h
      have hbytes : buildProcCmdline (str :: argv) = str ++ 0 :: buildProcCmdline argv := by
        rw [buildProcCmdline_cons, cBytes, append_assoc]
        rfl
      rw [hbytes, splitOn_append_cons_self_of_not_mem hstr, ih hargv]
      rfl
  unfold cStrings
  rw [hsplit, dropLast_concat]

theorem cmdline_cStrings (h : buf.getLast? = some 0) :
    cStrings buf ≠ [] ∧ (∀ str ∈ cStrings buf, 0 ∉ str) ∧ buildProcCmdline (cStrings buf) = buf := by
  obtain ⟨argv, tail, hargv, htail, rfl⟩ := exists_cmdline buf
  have hnil : tail = [] := by
    by_contra hne
    rw [getLast?_append_of_ne_nil _ hne] at h
    exact htail (List.mem_of_getLast? h)
  subst hnil
  rw [append_nil] at h ⊢
  rw [cStrings_cmdline hargv]
  refine ⟨?_, hargv, rfl⟩
  rintro rfl
  cases h

/-- The counters and the lengths fit, and all requests for memory succeed. -/
structure CmdlineFits (mem : CmdlineMemory) (argv : List (List (BitVec 8))) : Prop where
  count : argv.length + 1 < 2 ^ 31
  bytes : (argv.map fun str => str.length + 1).sum < 2 ^ 64
  buffer : mem.buffer = true
  array : mem.argv = true
  arg : ∀ k < argv.length, mem.arg k = true

/-- The strings come back from the buffer and the length that they are written to, and their count. -/
def StringsReturn (mem : CmdlineMemory) (argv : List (List (BitVec 8))) : Prop :=
  ∃ buf len, Krlibc.buildProcCmdline mem (some argv) = some (some buf, len) ∧
    Krlibc.restoreArgv mem (some buf) len = some (some (argv.map some), argv.length)

/-- The bytes come back from the strings that they are read as. -/
def BytesReturn (mem : CmdlineMemory) (buf : List (BitVec 8)) : Prop :=
  ∃ argv argc, Krlibc.restoreArgv mem (some buf) buf.length = some (some (argv.map some), argc) ∧
    Krlibc.buildProcCmdline mem (some argv) = some (some buf, buf.length)

theorem stringsReturn_iff (hne : argv ≠ []) (h : ∀ str ∈ argv, 0 ∉ str) :
    StringsReturn mem argv ↔ CmdlineFits mem argv := by
  constructor
  · rintro ⟨buf, len, hbuild, hrestore⟩
    obtain ⟨⟨-, hbytes, hbuffer⟩, rfl, rfl⟩ := (buildProcCmdline_iff hne buf len).mp hbuild
    obtain ⟨⟨hcount, harray, harg⟩, -⟩ := (restoreArgv_iff hne h argv argv.length).mp hrestore
    exact ⟨hcount, length_cmdline argv ▸ hbytes, hbuffer, harray, harg⟩
  · rintro ⟨hcount, hbytes, hbuffer, harray, harg⟩
    refine ⟨buildProcCmdline argv, _, (buildProcCmdline_iff hne _ _).mpr ⟨?_, rfl, rfl⟩,
      (restoreArgv_iff hne h argv argv.length).mpr ⟨⟨hcount, harray, harg⟩, rfl, rfl⟩⟩
    exact ⟨Nat.lt_of_succ_lt hcount, (length_cmdline argv).symm ▸ hbytes, hbuffer⟩

theorem bytesReturn_iff (h : buf.getLast? = some 0) :
    BytesReturn mem buf ↔ CmdlineFits mem (cStrings buf) := by
  obtain ⟨hne, hnul, hbuf⟩ := cmdline_cStrings h
  rw [← stringsReturn_iff hne hnul]
  unfold BytesReturn StringsReturn
  generalize cStrings buf = argv at hne hnul hbuf
  subst hbuf
  constructor
  · rintro ⟨found, argc, hrestore, hbuild⟩
    obtain ⟨-, rfl, rfl⟩ := (restoreArgv_iff hne hnul found argc).mp hrestore
    exact ⟨_, _, hbuild, hrestore⟩
  · rintro ⟨buf, len, hbuild, hrestore⟩
    obtain ⟨-, rfl, rfl⟩ := (buildProcCmdline_iff hne buf len).mp hbuild
    exact ⟨argv, argv.length, hrestore, hbuild⟩

/-- Command lines round-trip, from the strings and from the bytes, exactly when the `int` counters and
the lengths fit and all requests for memory succeed. -/
theorem cmdline_round_trips_iff (mem : CmdlineMemory) :
    (∀ argv, argv ≠ [] → (∀ str ∈ argv, 0 ∉ str) → (StringsReturn mem argv ↔ CmdlineFits mem argv)) ∧
      ∀ buf, buf.getLast? = some 0 → (BytesReturn mem buf ↔ CmdlineFits mem (cStrings buf)) :=
  ⟨fun _ hne h => stringsReturn_iff hne h, fun _ h => bytesReturn_iff h⟩

/-- An empty string before, between and behind others. -/
theorem cmdline_round_trips_iff_empty :
    StringsReturn ⟨true, true, fun _ => true⟩ [[], [0x61], [], [0x62], []] :=
  ((cmdline_round_trips_iff ⟨true, true, fun _ => true⟩).1 [[], [0x61], [], [0x62], []] (by decide)
    (by decide)).mpr ⟨by decide, by decide, rfl, rfl, fun _ _ => rfl⟩

/-- The last count of an `int`: `argc + 1` overflows in the size of the array. -/
theorem cmdline_not_round_trips :
    ¬ StringsReturn ⟨true, true, fun _ => true⟩ (List.replicate (2 ^ 31 - 1) []) := by
  have hne : List.replicate (2 ^ 31 - 1) ([] : List (BitVec 8)) ≠ [] := by
    intro h
    have hlen := congrArg List.length h
    rw [List.length_replicate, List.length_nil] at hlen
    omega
  have hnul : ∀ str ∈ List.replicate (2 ^ 31 - 1) ([] : List (BitVec 8)), 0 ∉ str := by
    intro str hmem
    rw [List.eq_of_mem_replicate hmem]
    exact List.not_mem_nil
  rw [stringsReturn_iff hne hnul]
  intro h
  have hcount := h.count
  rw [List.length_replicate] at hcount
  omega

end CoolPotOS
