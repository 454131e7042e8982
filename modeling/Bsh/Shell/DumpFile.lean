import Bsh.Library.Words

/-!
# Compiled function files

`bld_eprog`, `dupeprog`, `write_dump`, `load_dump_header`, `dump_find_func`, `load_dump_file` and
`check_dump_file` of `parse.c`.  A file has the functions twice, the words of the second copy in the
byte order of other machines.  Opening files, the check for the newest file and the reference counts
are left out, as is the empty program `dummy_eprog`.

A function gives `none` where the code would access memory outside of a block or of a mapping.
-/

namespace Bsh.Shell

open Bsh.Library List

/-- `EF_REAL`, `EF_HEAP` and `EF_MAP`. -/
inductive EprogKind where
  | real
  | heap
  | map
deriving DecidableEq

/-- `struct eprog`.  `memory` is what can be read from `prog` on, and `strs` the offset of the strings
in it.  The patterns, all of them `dummy_patprog1`, stand before `prog` in the same block, and `len`
is the size of that block; but for a mapped program they have a block of their own. -/
structure Eprog where
  kind : EprogKind
  run : Bool
  len : ℕ
  npats : ℕ
  memory : Bytes
  strs : ℕ

/-- What the machine and the version of the shell decide: `sizeof(Patprog)`, `BSH_VERSION`, and
whether `mmap` is used. -/
structure DumpConfig where
  patprog : ℕ
  patprog_pos : 0 < patprog
  version : Bytes
  version_ne : ∀ b ∈ version, b ≠ 0
  version_lt : version.length < 40
  useMmap : Bool

/-- `struct wcfunc`; the flags are 0, `FDHF_KSHLOAD` or `FDHF_BSHLOAD`. -/
structure WcFunc where
  name : Bytes
  name_ne : ∀ b ∈ name, b ≠ 0
  prog : Eprog
  flags : Fin 4

/-- `struct fdhead`. -/
structure FdHead where
  start : ℕ
  len : ℕ
  npats : ℕ
  strs : ℕ
  hlen : ℕ
  flags : ℕ

namespace Dump

variable (cfg : DumpConfig)

def fdPrelen : ℕ := 12

def fdMagic : ℕ := 0x04050607

def fdOmagic : ℕ := 0x07060504

def fdMinmap : ℕ := 4096

/-! ## Programs -/

/-- `bld_eprog`: the patterns, the code and the strings in one block. -/
def bldEprog (o : ByteOrder) (heap : Bool) (code : List ℕ) (strings : Bytes) (npats : ℕ) : Eprog where
  kind := if heap then .heap else .real
  run := false
  len := npats * cfg.patprog + 4 * code.length + strings.length
  npats := npats
  memory := o.words code ++ strings
  strs := 4 * code.length

/-- `dupeprog`.  The patterns have to fit into the new block, and what is copied behind them has to
be there. -/
def dupeprog (heap : Bool) (p : Eprog) : Option Eprog :=
  if p.len < p.npats * cfg.patprog then none
  else
    let size := p.len - p.npats * cfg.patprog
    if p.memory.length < size then none
    else some { p with kind := if heap then .heap else .real, memory := p.memory.take size }

/-! ## Writing -/

/-- The words of a header with the name. -/
def headWords (f : WcFunc) : ℕ := 6 + (f.name.length + 4) / 4

/-- The words of a program without its patterns. -/
def progWords (p : Eprog) : ℕ := (p.len - p.npats * cfg.patprog + 3) / 4

/-- `hlen` of `build_dump` and `build_cur_dump`. -/
def hlen (fs : List WcFunc) : ℕ := fdPrelen + (fs.map headWords).sum

/-- `tlen`, the size of one copy in bytes. -/
def tlen (fs : List WcFunc) : ℕ := ((fs.map fun f ↦ progWords cfg f.prog).sum + hlen fs) * 4

/-- Where the name has its tail: behind the last slash. -/
def tailOffset (name : Bytes) : ℕ :=
  name.length - (name.reverse.takeWhile (· ≠ 0x2f)).length

/-- The first `FD_PRELEN` words; `map` and `other` are the flags `FDF_MAP` and `FDF_OTHER`. -/
def pre (o : ByteOrder) (map other : Bool) (tlen : ℕ) : Bytes :=
  o.word (if other then fdOmagic else fdMagic) ++
    [UInt8.ofNat (map.toNat + 2 * other.toNat), UInt8.ofNat tlen, UInt8.ofNat (tlen / 256),
      UInt8.ofNat (tlen / 65536)] ++
    (cfg.version ++ List.replicate (40 - cfg.version.length) 0)

/-- The words of the header of a function. -/
def headOf (start : ℕ) (f : WcFunc) : List ℕ :=
  [start, f.prog.len - f.prog.npats * cfg.patprog, f.prog.npats, f.prog.strs, headWords f,
    f.flags.val ||| (tailOffset f.name <<< 2)]

/-- One header; the name is filled up with bytes of the header. -/
def writeHead (o : ByteOrder) (other : Bool) (start : ℕ) (f : WcFunc) : Bytes :=
  let head := o.words (headOf cfg start f)
  let head := if other then ByteOrder.swapWords 6 head else head
  let tmp := (f.name.length + 1) % 4
  head ++ f.name ++ [0] ++ (if tmp = 0 then [] else head.take (4 - tmp))

def writeHeads (o : ByteOrder) (other : Bool) : ℕ → List WcFunc → Bytes
  | _, [] => []
  | start, f :: fs =>
    writeHead cfg o other start f ++ writeHeads o other (start + progWords cfg f.prog) fs

/-- One program, in whole words; `junk` stands for what lies behind its block. -/
def writeProg (junk : UInt8) (other : Bool) (p : Eprog) : Bytes :=
  let memory := if other then ByteOrder.swapWords (p.strs / 4) p.memory else p.memory
  (memory ++ List.replicate 3 junk).take (4 * progWords cfg p)

def writeCopy (o : ByteOrder) (junk : UInt8) (map other : Bool) (fs : List WcFunc) : Bytes :=
  pre cfg o map other (tlen cfg fs) ++ writeHeads cfg o other (hlen fs) fs ++
    fs.flatMap fun f ↦ writeProg cfg junk other f.prog

/-- The flag `FDF_MAP`, for an argument `map` of 0, 1 or 2. -/
def mapFlag (map : Fin 3) (tlen : ℕ) : Bool := if map = 1 then fdMinmap ≤ tlen else map ≠ 0

/-- `write_dump`. -/
def writeDump (o : ByteOrder) (junk : UInt8) (map : Fin 3) (fs : List WcFunc) : Bytes :=
  let map := mapFlag map (tlen cfg fs)
  writeCopy cfg o junk map false fs ++ writeCopy cfg o junk map true fs

/-! ## Reading -/

/-- `fdother`. -/
def fdother (h : Bytes) : ℕ :=
  (h.getD 5 0).toNat + (h.getD 6 0).toNat * 256 + (h.getD 7 0).toNat * 65536

def fdflags (h : Bytes) : ℕ := (h.getD 4 0).toNat

/-- A C string in a memory, which has to come to its end there. -/
def cStringAt (h : Bytes) (off : ℕ) : Option Bytes :=
  if 0 ∈ h.drop off then some (Bytes.cString (h.drop off)) else none

/-- The first words of a file or of its second copy, if they are there. -/
def readPre (file : Bytes) (off : ℕ) : Option Bytes :=
  let buf := (file.drop off).take (4 * (fdPrelen + 1))
  if buf.length = 4 * (fdPrelen + 1) then some buf else none

/-- The end of `load_dump_header`, for the copy at an offset: `some none` if the file is too
short. -/
def readHeader (o : ByteOrder) (file : Bytes) (off : ℕ) : Option (Option Bytes) :=
  match readPre file off with
  | none => some none
  | some buf =>
    match o.wordAt buf fdPrelen with
    | none => none
    | some headerlen =>
      if headerlen < fdPrelen + 1 then none
      else
        let head := (file.drop off).take (4 * headerlen)
        if head.length = 4 * headerlen then some (some head) else some none

/-- `load_dump_header`, on a machine of the byte order: `some none` if the file is no valid one. -/
def loadDumpHeader (o : ByteOrder) (file : Bytes) : Option (Option Bytes) :=
  match readPre file 0 with
  | none => some none
  | some buf =>
    match o.wordAt buf 0, cStringAt buf 8 with
    | some magic, some version =>
      if (magic ≠ fdMagic && magic ≠ fdOmagic) || version ≠ cfg.version then some none
      else readHeader o file (if magic = fdMagic then 0 else fdother buf)
    | _, _ => none

/-- The header at a word of a memory. -/
def headAt (o : ByteOrder) (h : Bytes) (n : ℕ) : Option FdHead := do
  let start ← o.wordAt h n
  let len ← o.wordAt h (n + 1)
  let npats ← o.wordAt h (n + 2)
  let strs ← o.wordAt h (n + 3)
  let hlen ← o.wordAt h (n + 4)
  let flags ← o.wordAt h (n + 5)
  some ⟨start, len, npats, strs, hlen, flags⟩

/-- The loop of `dump_find_func`; the first argument bounds its turns. -/
def findFrom (o : ByteOrder) (h : Bytes) (e : ℕ) (name : Bytes) : ℕ → ℕ → Option (Option FdHead)
  | 0, _ => none
  | turns + 1, n =>
    if n < e then do
      let head ← headAt o h n
      let tail ← cStringAt h (4 * n + 24 + head.flags >>> 2)
      if name = tail then some (some head) else findFrom o h e name turns (n + head.hlen)
    else some none

/-- `dump_find_func`. -/
def dumpFindFunc (o : ByteOrder) (h : Bytes) (name : Bytes) : Option (Option FdHead) := do
  let e ← o.wordAt h fdPrelen
  findFrom o h e name (e + 1) fdPrelen

/-- The loop of `zcompile -t`, which prints the names. -/
def namesFrom (o : ByteOrder) (h : Bytes) (e : ℕ) : ℕ → ℕ → Option (List Bytes)
  | 0, _ => none
  | turns + 1, n =>
    if n < e then do
      let head ← headAt o h n
      let name ← cStringAt h (4 * n + 24)
      let rest ← namesFrom o h e turns (n + head.hlen)
      some (name :: rest)
    else some []

def dumpNames (o : ByteOrder) (h : Bytes) : Option (List Bytes) := do
  let e ← o.wordAt h fdPrelen
  namesFrom o h e (e + 1) fdPrelen

/-- `load_dump_file`: what is mapped. -/
def loadDumpFile (file : Bytes) (other : Bool) (len : ℕ) : Bytes :=
  (file.drop (if other then len else 0)).take len

/-- The flag that a function was compiled with, as `check_dump_file` gives it to its caller. -/
def kshFlag (h : FdHead) : ℕ := if h.flags &&& 1 ≠ 0 then 2 else if h.flags &&& 2 ≠ 0 then 0 else 1

/-- The program of a header in a mapping. -/
def mappedProg (map : Bytes) (h : FdHead) : Eprog where
  kind := .map
  run := false
  len := h.len
  npats := h.npats
  memory := map.drop (4 * h.start)
  strs := h.strs

/-- The program of a header, read from the file; `none` if the file is too short. -/
def readProg (file d : Bytes) (h : FdHead) : Option Eprog :=
  let memory := (file.drop (4 * h.start + if fdflags d &&& 2 ≠ 0 then fdother d else 0)).take h.len
  if memory.length = h.len then
    some ⟨.real, false, h.len + h.npats * cfg.patprog, h.npats, memory, h.strs⟩
  else none

/-- `check_dump_file` with a mapping of the file. -/
def checkMapped (o : ByteOrder) (map : Bytes) (name : Bytes) : Option (Option (Eprog × ℕ)) :=
  (dumpFindFunc o map name).map fun h ↦ h.map fun h ↦ (mappedProg map h, kshFlag h)

/-- `check_dump_file`; `map` is the mapping of the file, if it is mapped already. -/
def checkDumpFile (o : ByteOrder) (file : Bytes) (map : Option Bytes) (name : Bytes) :
    Option (Option (Eprog × ℕ)) :=
  match map with
  | some map => checkMapped o map name
  | none =>
    match loadDumpHeader cfg o file with
    | none => none
    | some none => some none
    | some (some d) =>
      match dumpFindFunc o d name with
      | none => none
      | some none => some none
      | some (some h) =>
        if cfg.useMmap && fdflags d &&& 1 ≠ 0 then
          checkMapped o (loadDumpFile file (fdflags d &&& 2 ≠ 0) (fdother d)) name
        else some ((readProg cfg file d h).map fun p ↦ (p, kshFlag h))

end Dump

end Bsh.Shell

/-!
# The layout of a compiled file

Seen by a machine of its byte order, either copy of a compiled file is the same: the first words, the
headers with their names and the programs, each in whole words.  A header is found at the word where
the one before it ends, and a program at the word that its header gives.
-/

namespace Bsh.Shell

open Bsh.Library List

/-- What a program is: its words, its strings and how many patterns it has. -/
structure CompiledCode where
  code : List ℕ
  code_lt : ∀ n ∈ code, n < 2 ^ 32
  strings : Bytes
  npats : ℕ
  npats_lt : npats < 2 ^ 31

/-- The size of the code with its strings. -/
def CompiledCode.size (g : CompiledCode) : ℕ := 4 * g.code.length + g.strings.length

namespace Dump

variable (cfg : DumpConfig) (o : ByteOrder)

/-- A program in the memory of a machine.  The size of a mapped one leaves the patterns out. -/
structure Represents (p : Eprog) (g : CompiledCode) : Prop where
  memory : o.words g.code ++ g.strings <+: p.memory
  strs : p.strs = 4 * g.code.length
  npats : p.npats = g.npats
  len : p.len = (if p.kind = .map then 0 else g.npats * cfg.patprog) + g.size

/-- A program in a block of its own. -/
structure Allocated (p : Eprog) (g : CompiledCode) : Prop extends Represents cfg o p g where
  kind : p.kind ≠ .map

variable {cfg o}

theorem allocated_bldEprog (heap : Bool) (g : CompiledCode) :
    Allocated cfg o (bldEprog cfg o heap g.code g.strings g.npats) g where
  memory := prefix_refl _
  strs := rfl
  npats := rfl
  kind := by cases heap <;> exact nofun
  len := by
    have hkind : (bldEprog cfg o heap g.code g.strings g.npats).kind ≠ .map := by
      cases heap <;> exact nofun
    rw [if_neg hkind, bldEprog, CompiledCode.size, Nat.add_assoc]

theorem words_strings_length (g : CompiledCode) :
    (o.words g.code ++ g.strings).length = g.size := by
  rw [length_append, ByteOrder.words_length, CompiledCode.size]

/-! ## Copies of programs -/

variable {g : CompiledCode} {p : Eprog}

/-- A program that is not mapped is copied in full. -/
theorem Allocated.dupeprog (h : Allocated cfg o p g) (heap : Bool) :
    ∃ q, dupeprog cfg heap p = some q ∧ Allocated cfg o q g := by
  obtain ⟨⟨hmemory, hstrs, hnpats, hlen⟩, hkind⟩ := h
  rw [if_neg hkind] at hlen
  have hroom : ¬ p.len < p.npats * cfg.patprog := by
    rw [hlen, hnpats]
    omega
  have hsize : p.len - p.npats * cfg.patprog = g.size := by
    rw [hlen, hnpats]
    omega
  have hlength : ¬ p.memory.length < g.size := by
    have hle := hmemory.length_le
    rw [words_strings_length] at hle
    omega
  have hnew : (if heap then EprogKind.heap else EprogKind.real) ≠ .map := by
    cases heap <;> exact nofun
  refine ⟨{ p with kind := if heap then .heap else .real, memory := p.memory.take g.size },
    ?_, ⟨?_, hstrs, hnpats, ?_⟩, hnew⟩
  · rw [Dump.dupeprog, if_neg hroom, hsize]
    exact if_neg hlength
  · rw [prefix_take_iff]
    exact ⟨hmemory, Nat.le_of_eq (words_strings_length g)⟩
  · rw [if_neg hnew]
    exact hlen

/-- A copy of a mapped program is complete exactly if the program has no patterns. -/
theorem Represents.dupeprog_mapped (h : Represents cfg o p g)
    (hkind : p.kind = .map) (heap : Bool) :
    (∃ q, dupeprog cfg heap p = some q ∧ Allocated cfg o q g) ↔ g.npats = 0 := by
  obtain ⟨hmemory, hstrs, hnpats, hlen⟩ := h
  rw [if_pos hkind, Nat.zero_add] at hlen
  have hnew : (if heap then EprogKind.heap else EprogKind.real) ≠ .map := by
    cases heap <;> exact nofun
  constructor
  · rintro ⟨q, hq, hallocated⟩
    simp only [Dump.dupeprog] at hq
    split at hq
    · exact nomatch hq
    · split at hq
      · exact nomatch hq
      · cases hq
        have hlen' := hallocated.len
        rw [if_neg hnew] at hlen'
        change p.len = _ at hlen'
        have hzero : g.npats * cfg.patprog = 0 := by omega
        exact (Nat.mul_eq_zero.mp hzero).resolve_right (Nat.ne_of_gt cfg.patprog_pos)
  · intro hzero
    have hallocated : Allocated cfg o { p with kind := .heap } g := by
      refine ⟨⟨hmemory, hstrs, hnpats, ?_⟩, nofun⟩
      rw [if_neg nofun, hzero, Nat.zero_mul, Nat.zero_add]
      exact hlen
    exact hallocated.dupeprog heap

/-! ## The parts of a copy -/

variable (cfg o)

/-- The order of the machines that read a copy as their own. -/
def readerOrder (other : Bool) : ByteOrder := if other then o.swap else o

variable {cfg o}

theorem headOf_length (start : ℕ) (f : WcFunc) : (headOf cfg start f).length = 6 := rfl

variable (cfg o) in
theorem exists_writeHead (other : Bool) (start : ℕ) (f : WcFunc) :
    ∃ padding, writeHead cfg o other start f =
        (readerOrder o other).words (headOf cfg start f) ++ (f.name ++ 0 :: padding) ∧
      (writeHead cfg o other start f).length = 4 * headWords f := by
  have hhead : (if other then ByteOrder.swapWords 6 (o.words (headOf cfg start f))
      else o.words (headOf cfg start f)) = (readerOrder o other).words (headOf cfg start f) := by
    cases other with
    | false => rfl
    | true =>
      have hswap := o.swapWords_words (headOf cfg start f) []
      rw [append_nil, append_nil] at hswap
      exact hswap
  rw [writeHead, hhead]
  refine ⟨_, by rw [append_assoc, append_assoc]; rfl, ?_⟩
  rw [headWords]
  split
  · next hzero =>
    simp only [length_append, ByteOrder.words_length, headOf_length, length_cons,
      length_nil]
    omega
  · next hne =>
    simp only [length_append, ByteOrder.words_length, headOf_length, length_cons,
      length_nil, length_take]
    omega

theorem progWords_eq (h : Allocated cfg o p g) :
    p.len - p.npats * cfg.patprog = g.size ∧ progWords cfg p = (g.size + 3) / 4 := by
  have hlen := h.len
  rw [if_neg h.kind] at hlen
  have hsize : p.len - p.npats * cfg.patprog = g.size := by
    rw [hlen, h.npats]
    omega
  exact ⟨hsize, by rw [progWords, hsize]⟩

theorem exists_writeProg (h : Allocated cfg o p g) (junk : UInt8)
    (other : Bool) : ∃ rest, writeProg cfg junk other p =
        (readerOrder o other).words g.code ++ g.strings ++ rest ∧
      (writeProg cfg junk other p).length = 4 * progWords cfg p := by
  obtain ⟨rest, hrest⟩ := h.memory
  have hwords := (progWords_eq h).2
  have hswap : (if other then ByteOrder.swapWords (p.strs / 4) p.memory else p.memory) =
      ((readerOrder o other).words g.code ++ g.strings) ++ rest := by
    have hcount : p.strs / 4 = g.code.length := by
      rw [h.strs]
      omega
    cases other with
    | false => exact hrest.symm
    | true =>
      rw [if_pos rfl, hcount, ← hrest, append_assoc, ByteOrder.swapWords_words,
        append_assoc]
      rfl
  have hlength := words_strings_length (o := readerOrder o other) g
  rw [writeProg, hswap]
  refine ⟨(rest ++ List.replicate 3 junk).take (4 * progWords cfg p - g.size), ?_, ?_⟩
  · rw [append_assoc, take_append, hlength, take_of_length_le (by omega)]
  · rw [length_take, length_append, length_append, hlength, List.length_replicate]
    omega

theorem writeHeads_length (other : Bool) (start : ℕ) (fs : List WcFunc) :
    (writeHeads cfg o other start fs).length = 4 * (fs.map headWords).sum := by
  induction fs generalizing start with
  | nil => rfl
  | cons f fs ih =>
    obtain ⟨padding, -, hlength⟩ := exists_writeHead cfg o other start f
    rw [writeHeads, length_append, hlength, ih, map_cons, sum_cons]
    omega

end Dump

end Bsh.Shell
