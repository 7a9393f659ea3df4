import CoolPotOS.Fs.Pipefs
import CoolPotOS.Fs.Tmpfs

namespace CoolPotOS

open Bytes

/-- The word for the negative number `-n`. -/
def errWord (n : ℕ) : ℕ := 2 ^ 64 - n

def codeEintr : ℕ := 4
def codeEio : ℕ := 5
def codeEbadf : ℕ := 9
def codeEwouldblock : ℕ := 11

/-- A node of a regular file of `tmpfs`, with the size that `do_update` copies. -/
structure RegularNode where
  file : TmpfsFile
  size : ℕ

/-- An end of a pipe. `nonblock` is the bit of the flags of its node. -/
structure PipeEnd where
  info : PipeInfo
  write : Bool
  nonblock : Bool

inductive IoNode
  | regular (node : RegularNode)
  | pipe (node : PipeEnd)

/-- A descriptor. `nonblock` is the bit of its own flags. `signals` is how many of the waits of the
call a signal ends. Nobody else uses the file during a call, so a wait of the call is ended by a
signal or not at all. -/
structure IoFd where
  offset : ℕ
  nonblock : Bool
  node : IoNode
  signals : ℕ

/-- What the allocators find: `heap` for a size, `frames` for a file of so many pages that is to have
room up to an end. -/
structure Memory where
  heap : ℕ → Bool
  frames : ℕ → ℕ → Bool

/-- What a callback returns, with the bytes that it stores. -/
inductive Answer
  | value (v : ℕ) (bytes : List UInt8)
  | asleep
  | overrun

/-- What a call comes to, with the bytes that it stores in each of its buffers. -/
inductive IoOut
  | ret (v : ℕ) (stored : List (List UInt8))
  | asleep
  | overrun
  deriving DecidableEq

def IoFd.wait (fd : IoFd) (interrupted : Answer) : IoFd × Answer :=
  match fd.signals with
  | 0 => (fd, .asleep)
  | signals + 1 => ({ fd with signals := signals }, interrupted)

def IoFd.setPipe (fd : IoFd) (p : PipeEnd) (info : PipeInfo) : IoFd :=
  { fd with node := .pipe { p with info := info } }

def IoFd.pipefsRead (fd : IoFd) (p : PipeEnd) (size : ℕ) : IoFd × Answer :=
  let size := min size pipeBuff
  if size = 0 then (fd, .value 0 [])
  else if p.write then (fd, .value (errWord 1) [])
  else
    match CoolPotOS.pipefsRead p.info size p.nonblock with
    | (info, .moved bytes) => (fd.setPipe p info, .value bytes.length bytes)
    | (_, .over) =>
      (fd, .value (if p.info.writeFds = 0 then 0 else errWord codeEwouldblock) [])
    | (_, .sleep) => fd.wait (.value (errWord codeEintr) [])

def pipeWritten (written : ℕ) : Answer :=
  .value (if written ≠ 0 then written else errWord codeEwouldblock) []

/-- The loop of `pipefs_write`, with what is left of the data, which has at most `fuel` bytes. An
interrupted wait ends the loop. -/
def IoFd.pipeWriteLoop (p : PipeEnd) (atomic : Bool) :
    ℕ → IoFd → PipeInfo → List UInt8 → ℕ → IoFd × Answer
  | 0, fd, _, _, written => (fd, pipeWritten written)
  | fuel + 1, fd, info, data, written =>
    if data = [] then (fd, pipeWritten written)
    else
      match pipeWriteInner info data atomic (!p.nonblock) with
      | (info, .moved bytes) =>
        if bytes = [] then (fd, pipeWritten written)
        else
          IoFd.pipeWriteLoop p atomic fuel (fd.setPipe p info) info (data.drop bytes.length)
            (written + bytes.length)
      | (_, .over) => (fd, pipeWritten written)
      | (_, .sleep) => fd.wait (pipeWritten written)

def IoFd.pipefsWrite (fd : IoFd) (p : PipeEnd) (data : List UInt8) : IoFd × Answer :=
  if p.write then
    IoFd.pipeWriteLoop p (data.length ≤ pipeAtomicMax : Bool) data.length fd p.info data 0
  else (fd, .value (errWord 1) [])

def RegularNode.update (n : RegularNode) : RegularNode := { n with size := n.file.size }

def IoFd.vfsRead (fd : IoFd) (offset size : ℕ) : IoFd × Answer :=
  match fd.node with
  | .regular n =>
    ({ fd with node := .regular n.update },
      match tmpfsRead n.file offset size with
      | some bytes => .value bytes.length bytes
      | none => .overrun)
  | .pipe p => fd.pipefsRead p size

def IoFd.vfsWrite (mem : Memory) (fd : IoFd) (offset : ℕ)
    (data : List UInt8) : IoFd × Answer :=
  match fd.node with
  | .regular n =>
    match tmpfsWrite n.file data offset (mem.frames n.file.pageNum (offset + data.length)) with
    | (file, written) => ({ fd with node := .regular ⟨file, file.size⟩ }, .value written [])
  | .pipe p => fd.pipefsWrite p data

def eioOf (v : ℕ) : ℕ := if v = errWord 1 then errWord codeEio else v

def plainOut (r : IoFd × Answer) : IoFd × IoOut :=
  match r with
  | (fd, .value v bytes) => (fd, .ret (eioOf v) [bytes])
  | (fd, .asleep) => (fd, .asleep)
  | (fd, .overrun) => (fd, .overrun)

/-- The size of a node, which is `-1` when it has none. -/
def hasSize (size : ℕ) : Prop := size ≠ errWord 1

instance (size : ℕ) : Decidable (hasSize size) := inferInstanceAs (Decidable (_ ≠ _))

/-- `handle->offset += ret`, for a node with a size. -/
def IoFd.advance (fd : IoFd) (ret : ℕ) : IoFd :=
  match fd.node with
  | .regular n => if hasSize n.size then { fd with offset := wrap (fd.offset + ret) } else fd
  | _ => fd

def offsetOut (r : IoFd × Answer) (stored : List UInt8 → List (List UInt8)) : IoFd × IoOut :=
  match r with
  | (fd, .value v bytes) =>
    if v = errWord 1 then (fd, .ret (errWord codeEio) (stored [])) else (fd.advance v, .ret v (stored bytes))
  | (fd, .asleep) => (fd, .asleep)
  | (fd, .overrun) => (fd, .overrun)

def fdRead (fd : IoFd) (size : ℕ) : IoFd × IoOut :=
  match fd.node with
  | .pipe p =>
    if p.info.ptr = 0 ∧ fd.nonblock then (fd, .ret (errWord codeEwouldblock) [[]])
    else plainOut (fd.vfsRead 0 size)
  | .regular n =>
    if hasSize n.size ∧ fd.offset ≥ n.size then (fd, .ret 0 [[]])
    else offsetOut (fd.vfsRead fd.offset size) fun bytes => [bytes]

def fdWrite (mem : Memory) (fd : IoFd) (data : List UInt8) :
    IoFd × IoOut :=
  match fd.node with
  | .regular _ => offsetOut (fd.vfsWrite mem fd.offset data) fun bytes => [bytes]
  | .pipe _ => plainOut (fd.vfsWrite mem 0 data)

/-- `sys_read`, of a descriptor that there may not be. -/
def sysRead (handle : Option IoFd) (size : ℕ) :
    Option IoFd × IoOut :=
  if size = 0 then (handle, .ret 0 [[]])
  else
    match handle with
    | none => (none, .ret (errWord codeEbadf) [[]])
    | some fd => Prod.map some id (fdRead fd size)

def sysWrite (mem : Memory) (handle : Option IoFd) (data : List UInt8) :
    Option IoFd × IoOut :=
  if data.length = 0 then (handle, .ret 0 [[]])
  else
    match handle with
    | none => (none, .ret (errWord codeEbadf) [[]])
    | some fd => Prod.map some id (fdWrite mem fd data)

def totalOrEio (total : ℕ) : ℕ := if total ≠ 0 then total else errWord codeEio

def untouched {α : Type} (entries : List α) : List (List UInt8) := entries.map fun _ => []

/-- The loop of `sys_readv` over the sizes of the entries, for a node without offset. `stored` is what
the entries so far were given. -/
def readvLoop :
    List ℕ → IoFd → ℕ → List (List UInt8) → IoFd × IoOut
  | [], fd, total, stored => (fd, .ret total stored)
  | len :: lens, fd, total, stored =>
    if len = 0 then readvLoop lens fd total (stored ++ [[]])
    else
      match fd.vfsRead 0 len with
      | (fd, .value status bytes) =>
        if status = errWord 1 then (fd, .ret (totalOrEio total) (stored ++ bytes :: untouched lens))
        else if status < len then
          (fd, .ret (wrap (total + status)) (stored ++ bytes :: untouched lens))
        else readvLoop lens fd (wrap (total + status)) (stored ++ [bytes])
      | (fd, .asleep) => (fd, .asleep)
      | (fd, .overrun) => (fd, .overrun)

def scatter : List ℕ → List UInt8 → List (List UInt8)
  | [], _ => []
  | len :: lens, bytes => bytes.take len :: scatter lens (bytes.drop len)

def fdReadv (mem : Memory) (fd : IoFd) (lens : List ℕ) : IoFd × IoOut :=
  match fd.node with
  | .regular n =>
    let bufLen := wrap lens.sum
    if hasSize n.size ∧ fd.offset > n.size then (fd, .ret 0 (untouched lens))
    else if mem.heap bufLen then offsetOut (fd.vfsRead fd.offset bufLen) (scatter lens)
    else (fd, .ret (errWord codeEio) (untouched lens))
  | .pipe _ => readvLoop lens fd 0 []

def sysReadv (mem : Memory) (handle : Option IoFd) (lens : List ℕ) :
    Option IoFd × IoOut :=
  if lens = [] then (handle, .ret 0 [])
  else
    match handle with
    | none => (none, .ret (errWord codeEbadf) (untouched lens))
    | some fd => Prod.map some id (fdReadv mem fd lens)

/-- The loop of `sys_writev` over the entries. -/
def writevLoop (mem : Memory) :
    List (List UInt8) → IoFd → ℕ → IoFd × IoOut
  | [], fd, total => (fd, .ret total [])
  | entry :: entries, fd, total =>
    if entry.length = 0 then writevLoop mem entries fd total
    else
      let offset :=
        match fd.node with
        | .regular _ => fd.offset
        | .pipe _ => 0
      match fd.vfsWrite mem offset entry with
      | (fd, .value status _) =>
        if status = errWord 1 then (fd, .ret (totalOrEio total) [])
        else if status < entry.length then (fd.advance status, .ret (wrap (total + status)) [])
        else writevLoop mem entries (fd.advance status) (wrap (total + status))
      | (fd, .asleep) => (fd, .asleep)
      | (fd, .overrun) => (fd, .overrun)

def sysWritev (mem : Memory) (handle : Option IoFd)
    (entries : List (List UInt8)) : Option IoFd × IoOut :=
  if entries = [] then (handle, .ret 0 [])
  else
    match handle with
    | none => (none, .ret (errWord codeEbadf) [])
    | some fd => Prod.map some id (writevLoop mem entries fd 0)

end CoolPotOS
