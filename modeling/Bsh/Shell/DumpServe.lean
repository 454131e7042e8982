import Bsh.Shell.DumpWalk

/-!
# The functions of a compiled file

A machine finds its copy of the file, the header of each function there and the program behind it.
What comes out of the file is what was written, for every function that comes first with its name.
-/

namespace Bsh.Shell

open Bsh.Library List

namespace Dump

variable {cfg : DumpConfig} {o : ByteOrder} {fs : List WcFunc}

/-! ## Programs in a copy -/

variable {before : Bytes} {r : ByteOrder} {start : ℕ}

theorem exists_body (hfs : AllAllocated cfg o fs) (junk : UInt8) (other : Bool) {x : ℕ × WcFunc} (hx : x ∈ placed cfg start fs) (rest : Bytes)
    (hbefore : before.length = 4 * start) :
    ∃ rest', (before ++ ((fs.flatMap fun f ↦ writeProg cfg junk other f.prog) ++ rest)).drop
      (4 * x.1) = writeProg cfg junk other x.2.prog ++ rest' := by
  induction fs generalizing start before with
  | nil => exact absurd hx not_mem_nil
  | cons f fs ih =>
    obtain ⟨g, hg⟩ := hfs f mem_cons_self
    obtain ⟨-, -, hlength⟩ := exists_writeProg hg junk other
    rcases List.mem_cons.mp hx with rfl | hx
    · refine ⟨(fs.flatMap fun f ↦ writeProg cfg junk other f.prog) ++ rest, ?_⟩
      rw [drop_left' hbefore, flatMap_cons, append_assoc]
    · have hnext : (before ++ writeProg cfg junk other f.prog).length =
          4 * (start + progWords cfg f.prog) := by
        rw [length_append, hbefore, hlength]
        omega
      obtain ⟨rest', hrest⟩ := ih hfs.tail hx hnext
      refine ⟨rest', ?_⟩
      rw [← hrest, flatMap_cons, append_assoc, append_assoc]

/-- The header of a copy. -/
def header (cfg : DumpConfig) (o : ByteOrder) (map other : Bool) (fs : List WcFunc) : Bytes :=
  pre cfg o map other (tlen cfg fs) ++ writeHeads cfg o other (hlen fs) fs

variable (cfg o fs) in
theorem header_length (map other : Bool) : (header cfg o map other fs).length = 4 * hlen fs := by
  rw [header, length_append, pre_length, writeHeads_length, hlen]
  omega

theorem writeCopy_eq (junk : UInt8) (map other : Bool) : writeCopy cfg o junk map other fs =
    header cfg o map other fs ++ fs.flatMap fun f ↦ writeProg cfg junk other f.prog := rfl

/-! ## Finding the copy -/

variable (cfg o) in
theorem exists_writeHeads (hne : fs ≠ []) (other : Bool) :
    ∃ rest, writeHeads cfg o other (hlen fs) fs = (readerOrder o other).word (hlen fs) ++ rest := by
  obtain ⟨f, fs', rfl⟩ := exists_cons_of_ne_nil hne
  obtain ⟨padding, hhead, -⟩ :=
    exists_writeHead cfg o other (hlen (f :: fs')) f
  rw [writeHeads, hhead, headOf, ByteOrder.words_cons, append_assoc, append_assoc]
  exact ⟨_, rfl⟩

theorem wordAt_fdPrelen {n : ℕ} (hn : n < 2 ^ 32)
    (hbefore : before.length = 4 * fdPrelen) (rest : Bytes) :
    r.wordAt (before ++ (r.word n ++ rest)) fdPrelen = some n := by
  have h : r.wordAt (before ++ (r.words [n] ++ rest)) (fdPrelen + 0) = some n :=
    r.wordAt_words hbefore rfl hn
  simpa [ByteOrder.words] using h

theorem hlen_lt (hsize : tlen cfg fs < 2 ^ 30) : hlen fs < 2 ^ 32 := by
  rw [tlen] at hsize
  omega

theorem lt_hlen (hne : fs ≠ []) : fdPrelen + 1 ≤ hlen fs ∧ fs.length < hlen fs + 1 := by
  obtain ⟨f, fs', rfl⟩ := exists_cons_of_ne_nil hne
  have hcount := length_le_sum_headWords (f :: fs')
  rw [length_cons] at hcount
  rw [hlen, length_cons]
  omega

variable (cfg fs) in
theorem hlen_le_tlen : 4 * hlen fs ≤ tlen cfg fs := by
  rw [tlen]
  omega

theorem readHeader_header (hne : fs ≠ []) (hsize : tlen cfg fs < 2 ^ 30) (map other : Bool)
    {rest : Bytes} :
    readHeader (readerOrder o other) (before ++ (header cfg o map other fs ++ rest))
      before.length = some (some (header cfg o map other fs)) := by
  obtain ⟨tail, hheads⟩ := exists_writeHeads cfg o hne other
  have hlong := (lt_hlen hne).1
  have hlength := header_length cfg o fs map other
  have hbuf : ((before ++ (header cfg o map other fs ++ rest)).drop before.length).take
      (4 * (fdPrelen + 1)) = pre cfg o map other (tlen cfg fs) ++
        ((readerOrder o other).word (hlen fs) ++ []) := by
    rw [drop_left, header, append_assoc, take_append, pre_length,
      take_of_length_le (by rw [pre_length]; omega), hheads, append_assoc,
      take_append, ByteOrder.word_length, take_of_length_le
        (by rw [ByteOrder.word_length]; omega)]
    have hnone : 4 * (fdPrelen + 1) - 4 * fdPrelen - 4 = 0 := by decide
    rw [hnone, take_zero]
  have hpre : readPre (before ++ (header cfg o map other fs ++ rest)) before.length =
      some (pre cfg o map other (tlen cfg fs) ++
        ((readerOrder o other).word (hlen fs) ++ [])) := by
    rw [readPre, hbuf]
    apply if_pos
    simp only [length_append, pre_length, ByteOrder.word_length, length_nil]
    omega
  rw [readHeader, hpre]
  simp only [wordAt_fdPrelen (hlen_lt hsize) (pre_length map other (tlen cfg fs))]
  rw [if_neg (by omega), drop_left, take_left' hlength, if_pos hlength]

/-- What `write_dump` has written, as a machine reads it: its copy and where it begins. -/
theorem writeDump_split (hfs : AllAllocated cfg o fs) (junk : UInt8) (m : Fin 3) (other : Bool) :
    ∃ before behind, before.length = (if other then tlen cfg fs else 0) ∧
      writeDump cfg o junk m fs =
        before ++ (writeCopy cfg o junk (mapFlag m (tlen cfg fs)) other fs ++ behind) := by
  cases other with
  | false => exact ⟨[], _, rfl, rfl⟩
  | true =>
    refine ⟨writeCopy cfg o junk (mapFlag m (tlen cfg fs)) false fs, [], ?_, ?_⟩
    · rw [writeCopy_length hfs]
      rfl
    · rw [writeDump, append_nil]

theorem loadDumpHeader_writeDump (hne : fs ≠ []) (hfs : AllAllocated cfg o fs)
    (hsize : tlen cfg fs < 2 ^ 30) (junk : UInt8) (m : Fin 3) {other : Bool}
    (hother : other = true → tlen cfg fs < 2 ^ 24) :
    loadDumpHeader cfg (readerOrder o other) (writeDump cfg o junk m fs) =
      some (some (header cfg o (mapFlag m (tlen cfg fs)) other fs)) := by
  obtain ⟨before, behind, hbefore, hfile⟩ := writeDump_split hfs junk m other
  obtain ⟨first, hfirst⟩ : ∃ first, writeDump cfg o junk m fs =
      pre cfg o _ false (tlen cfg fs) ++ first := by
    rw [writeDump, writeCopy, append_assoc, append_assoc]
    exact ⟨_, rfl⟩
  have hlong : 4 ≤ first.length := by
    have hlength := congrArg List.length hfirst
    have hcopy (other : Bool) := writeCopy_length hfs junk (mapFlag m (tlen cfg fs)) other
    have hle := hlen_le_tlen cfg fs
    have hheader := (lt_hlen hne).1
    rw [writeDump, length_append, length_append, pre_length] at hlength
    simp only [hcopy] at hlength
    omega
  have hbuf : ((writeDump cfg o junk m fs).drop 0).take (4 * (fdPrelen + 1)) =
      pre cfg o (mapFlag m (tlen cfg fs)) false (tlen cfg fs) ++ first.take 4 := by
    rw [drop_zero, hfirst, take_append, pre_length,
      take_of_length_le (by rw [pre_length]; omega)]
    rfl
  have hpre : readPre (writeDump cfg o junk m fs) 0 =
      some (pre cfg o (mapFlag m (tlen cfg fs)) false (tlen cfg fs) ++ first.take 4) := by
    rw [readPre, hbuf]
    apply if_pos
    rw [length_append, pre_length, length_take]
    omega
  have hbase : (if (if other then fdOmagic else fdMagic) = fdMagic then 0 else
      fdother (pre cfg o (mapFlag m (tlen cfg fs)) false (tlen cfg fs) ++ first.take 4)) =
        before.length := by
    rw [hbefore, fdother_pre]
    cases other with
    | false => rfl
    | true =>
      have hlt := hother rfl
      have hmagic : ¬ (if true then fdOmagic else fdMagic) = fdMagic := by decide
      rw [if_neg hmagic, Nat.mod_eq_of_lt hlt]
      rfl
  have hvalid : (((if other then fdOmagic else fdMagic) ≠ fdMagic &&
      (if other then fdOmagic else fdMagic) ≠ fdOmagic) || cfg.version ≠ cfg.version) = false := by
    cases other <;> simp
  rw [loadDumpHeader, hpre]
  simp only [magic_pre, version_pre]
  rw [hvalid, if_neg Bool.false_ne_true, hbase, hfile, writeCopy_eq, append_assoc]
  exact readHeader_header hne hsize _ _

/-! ## Finding a function -/

variable (cfg) in
/-- The first function with the tail of a name. -/
def firstPlaced (fs : List WcFunc) (name : Bytes) : Option (ℕ × WcFunc) :=
  (placed cfg (hlen fs) fs).find? fun x ↦ name = x.2.tail

theorem dumpFindFunc_header (hne : fs ≠ []) (hfs : AllAllocated cfg o fs)
    (hsize : tlen cfg fs < 2 ^ 30) (map other : Bool) (rest name : Bytes) :
    dumpFindFunc (readerOrder o other) (header cfg o map other fs ++ rest) name =
      some ((firstPlaced cfg fs name).map fun x ↦ headRead cfg x.1 x.2) := by
  obtain ⟨tail, hheads⟩ := exists_writeHeads cfg o hne other
  have hlen' : (readerOrder o other).wordAt (header cfg o map other fs ++ rest) fdPrelen =
      some (hlen fs) := by
    rw [header, append_assoc, hheads, append_assoc]
    exact wordAt_fdPrelen (hlen_lt hsize) (pre_length map other _) _
  rw [dumpFindFunc, hlen', Option.bind_eq_bind, Option.bind_some, header, append_assoc]
  exact findFrom_writeHeads other (fun x ↦ headFits_of_tlen hfs hsize) (pre_length map other _) rfl
    (lt_hlen hne).2 name

theorem dumpNames_header (hne : fs ≠ []) (hfs : AllAllocated cfg o fs)
    (hsize : tlen cfg fs < 2 ^ 30) (map other : Bool) :
    dumpNames (readerOrder o other) (header cfg o map other fs) =
      some (fs.map WcFunc.name) := by
  obtain ⟨tail, hheads⟩ := exists_writeHeads cfg o hne other
  have hlen' : (readerOrder o other).wordAt (header cfg o map other fs) fdPrelen =
      some (hlen fs) := by
    rw [header, hheads]
    exact wordAt_fdPrelen (hlen_lt hsize) (pre_length map other _) _
  have hheader : header cfg o map other fs =
      pre cfg o map other (tlen cfg fs) ++ (writeHeads cfg o other (hlen fs) fs ++ []) := by
    rw [append_nil]
    rfl
  rw [dumpNames, hlen', Option.bind_eq_bind, Option.bind_some, hheader]
  exact namesFrom_writeHeads other (fun x ↦ headFits_of_tlen hfs hsize) (pre_length map other _) rfl
    (lt_hlen hne).2

variable (cfg fs) in
theorem find?_placed (start : ℕ) (name : Bytes) :
    ((placed cfg start fs).find? fun x ↦ name = x.2.tail).map Prod.snd =
      fs.find? fun f ↦ name = f.tail := by
  induction fs generalizing start with
  | nil => rfl
  | cons f fs ih =>
    rw [placed, List.find?_cons, List.find?_cons]
    by_cases hname : name = f.tail
    · simp only [hname, decide_true]
      rfl
    · simp only [hname, decide_false]
      exact ih _

/-! ## The program of a function -/

theorem mappedProg_represents {map : Bytes} {g : CompiledCode} {f : WcFunc} (h : Allocated cfg o f.prog g)
    (hmap : r.words g.code ++ g.strings <+: map.drop (4 * start)) :
    Represents cfg r (mappedProg map (headRead cfg start f)) g where
  memory := hmap
  strs := h.strs
  npats := h.npats
  len := by
    have hkind : (mappedProg map (headRead cfg start f)).kind = .map := rfl
    rw [if_pos hkind, Nat.zero_add]
    exact (progWords_eq h).1

theorem readProg_allocated {file d : Bytes} {g : CompiledCode} {f : WcFunc} (h : Allocated cfg o f.prog g)
    (hfile : r.words g.code ++ g.strings <+:
      file.drop (4 * start + if fdflags d &&& 2 ≠ 0 then fdother d else 0)) :
    ∃ p, readProg cfg file d (headRead cfg start f) = some p ∧ Allocated cfg r p g := by
  have hlen : (headRead cfg start f).len = g.size := (progWords_eq h).1
  have htake : (file.drop (4 * start + if fdflags d &&& 2 ≠ 0 then fdother d else 0)).take g.size =
      r.words g.code ++ g.strings := by
    obtain ⟨rest, hrest⟩ := hfile
    rw [← hrest]
    exact take_left' (words_strings_length g)
  have hstart : (headRead cfg start f).start = start := rfl
  refine ⟨⟨.real, false, g.size + f.prog.npats * cfg.patprog, f.prog.npats,
    r.words g.code ++ g.strings, f.prog.strs⟩, ?_, ⟨⟨prefix_refl _, h.strs, h.npats, ?_⟩,
      nofun⟩⟩
  · rw [readProg, hlen, hstart]
    simp only [htake]
    rw [if_pos (words_strings_length g)]
    rfl
  · rw [if_neg nofun, h.npats]
    exact Nat.add_comm _ _

end Dump

end Bsh.Shell

/-!
# Compiled files are faithful

For copies below 2^24 bytes, and longer ones that need no second copy and no mapping, every function
comes out of the file as it was written.  That it can also be copied and compiled again holds of the
functions that are read, and of mapped ones without patterns.
-/

namespace Bsh.Shell

open Bsh.Library List

namespace Dump

variable {cfg : DumpConfig} {o : ByteOrder} {fs : List WcFunc}

/-- The mapping that a call of `check_dump_file` leaves behind. -/
def mappingOf (cfg : DumpConfig) (r : ByteOrder) (file : Bytes) : Option Bytes :=
  match loadDumpHeader cfg r file with
  | some (some d) =>
    if cfg.useMmap && fdflags d &&& 1 ≠ 0 then
      some (loadDumpFile file (fdflags d &&& 2 ≠ 0) (fdother d))
    else none
  | _ => none

/-- Whether the functions of the file are mapped. -/
def mapped (cfg : DumpConfig) (m : Fin 3) (fs : List WcFunc) : Bool :=
  cfg.useMmap && mapFlag m (tlen cfg fs)

/-- The functions that a machine gets from a file, and what can be done with them there. -/
structure Served (cfg : DumpConfig) (o r : ByteOrder) (junk : UInt8) (m : Fin 3)
    (fs : List WcFunc) : Prop where
  names : fs ≠ [] → ∃ d, loadDumpHeader cfg r (writeDump cfg o junk m fs) = some (some d) ∧
    dumpNames r d = some (fs.map WcFunc.name)
  missing : ∀ map ∈ [none, mappingOf cfg r (writeDump cfg o junk m fs)], ∀ name,
    (∀ f ∈ fs, name ≠ f.tail) →
      checkDumpFile cfg r (writeDump cfg o junk m fs) map name = some none
  found : ∀ map ∈ [none, mappingOf cfg r (writeDump cfg o junk m fs)], ∀ name f g,
    (fs.find? fun f ↦ name = f.tail) = some f → Allocated cfg o f.prog g →
      ∃ p flag, checkDumpFile cfg r (writeDump cfg o junk m fs) map name = some (some (p, flag)) ∧
        Represents cfg r p g ∧ ∀ heap, ∃ q, dupeprog cfg heap p = some q ∧ Allocated cfg r q g
  parsed : ∀ f ∈ fs, ∀ g, Allocated cfg o f.prog g →
    ∀ heap, ∃ q, dupeprog cfg heap f.prog = some q ∧ Allocated cfg o q g

/-- The size of a copy fits into the first words wherever it is needed. -/
def SizeFits (cfg : DumpConfig) (o r : ByteOrder) (m : Fin 3) (fs : List WcFunc) : Prop :=
  tlen cfg fs < 2 ^ 24 ∨ (r = o ∧ mapped cfg m fs = false ∧ tlen cfg fs < 2 ^ 30)

theorem exists_readerOrder (o r : ByteOrder) :
    ∃ other, r = readerOrder o other ∧ (other = true → r ≠ o) := by
  rcases o.eq_or_eq_swap r with rfl | rfl
  · exact ⟨false, rfl, nofun⟩
  · refine ⟨true, rfl, fun _ ↦ ?_⟩
    cases o <;> exact nofun

/-! ## A file without functions -/

variable (r : ByteOrder) (junk : UInt8) (m : Fin 3)

theorem loadDumpHeader_nil :
    loadDumpHeader cfg r (writeDump cfg o junk m []) = some none := by
  obtain ⟨other, rfl, -⟩ := exists_readerOrder o r
  have htlen : tlen cfg [] = 48 := rfl
  have hfile : writeDump cfg o junk m [] = pre cfg o (mapFlag m 48) false 48 ++
      (o.word fdOmagic ++ (pre cfg o (mapFlag m 48) true 48).drop 4) := by
    have hword : (pre cfg o (mapFlag m 48) true 48).take 4 = o.word fdOmagic := by
      rw [pre, append_assoc, take_left' (ByteOrder.word_length _ _)]
      rfl
    rw [← hword, List.take_append_drop]
    simp [writeDump, writeCopy, writeHeads, htlen]
  have hlength : (writeDump cfg o junk m []).length = 96 := by
    have hcopy (other : Bool) := writeCopy_length
      (fun f hf ↦ absurd hf not_mem_nil : AllAllocated cfg o []) junk (mapFlag m 48) other
    rw [writeDump, length_append]
    simp only [htlen, hcopy]
  have hbuf : readPre (writeDump cfg o junk m []) 0 =
      some (pre cfg o (mapFlag m 48) false 48 ++ (o.word fdOmagic ++ [])) := by
    have htake : ((writeDump cfg o junk m []).drop 0).take (4 * (fdPrelen + 1)) =
        pre cfg o (mapFlag m 48) false 48 ++ (o.word fdOmagic ++ []) := by
      rw [drop_zero, hfile, take_append, pre_length,
        take_of_length_le (by rw [pre_length]; omega), take_append,
        ByteOrder.word_length, take_of_length_le (by rw [ByteOrder.word_length]; omega)]
      rfl
    rw [readPre, htake]
    apply if_pos
    simp only [length_append, pre_length, ByteOrder.word_length, length_nil]
    omega
  have hvalid : (((if other then fdOmagic else fdMagic) ≠ fdMagic &&
      (if other then fdOmagic else fdMagic) ≠ fdOmagic) || cfg.version ≠ cfg.version) = false := by
    cases other <;> simp
  rw [loadDumpHeader, hbuf]
  simp only [magic_pre, version_pre]
  rw [hvalid, if_neg Bool.false_ne_true]
  cases other with
  | false =>
    have hlen : (readerOrder o false).wordAt (pre cfg o (mapFlag m 48) false 48 ++
        (o.word fdOmagic ++ [])) fdPrelen = some fdOmagic :=
      wordAt_fdPrelen (by decide) (pre_length _ _ _) _
    have hmagic : (if (if false then fdOmagic else fdMagic) = fdMagic then 0 else
        fdother (pre cfg o (mapFlag m 48) false 48 ++ (o.word fdOmagic ++ []))) = 0 := rfl
    have hbig : 96 < 4 * fdOmagic ∧ fdPrelen + 1 ≤ fdOmagic := by decide
    rw [hmagic, readHeader, hbuf]
    simp only [hlen]
    rw [if_neg (by omega), drop_zero, if_neg]
    rw [length_take, hlength]
    omega
  | true =>
    have hmagic : ¬ (if true then fdOmagic else fdMagic) = fdMagic := by decide
    have hshort : readPre (writeDump cfg o junk m []) 48 = none := by
      apply if_neg
      rw [length_take, length_drop, hlength, fdPrelen]
      omega
    have hbase : (48 : ℕ) % 2 ^ 24 = 48 := rfl
    rw [if_neg hmagic, fdother_pre, hbase, readHeader, hshort]

theorem mappingOf_nil :
    mappingOf cfg r (writeDump cfg o junk m []) = none := by
  rw [mappingOf, loadDumpHeader_nil]

/-! ## A file with functions -/

section

variable (hne : fs ≠ []) (hfs : AllAllocated cfg o fs) (junk : UInt8) (m : Fin 3) {other : Bool}

variable (cfg o fs other) in
theorem fdflags_header (map : Bool) :
    (decide (fdflags (header cfg o map other fs) &&& 1 ≠ 0) = map) ∧
      (decide (fdflags (header cfg o map other fs) &&& 2 ≠ 0) = other) := by
  rw [header, fdflags_pre]
  cases map <;> cases other <;> decide

theorem fdother_header (map : Bool) (hsize : tlen cfg fs < 2 ^ 24) :
    fdother (header cfg o map other fs) = tlen cfg fs := by
  rw [header, fdother_pre, Nat.mod_eq_of_lt hsize]

variable (other) in
include hne hfs in
theorem mappingOf_writeDump (hsize : tlen cfg fs < 2 ^ 24) :
    mappingOf cfg (readerOrder o other) (writeDump cfg o junk m fs) =
      if mapped cfg m fs then some (writeCopy cfg o junk (mapFlag m (tlen cfg fs)) other fs)
      else none := by
  obtain ⟨before, behind, hbefore, hfile⟩ := writeDump_split hfs junk m other
  have hload := loadDumpHeader_writeDump hne hfs (by omega) junk m (fun _ : other = true ↦ hsize)
  obtain ⟨hmap, hother⟩ := fdflags_header cfg o fs other
    (mapFlag m (tlen cfg fs))
  have hlength := writeCopy_length hfs junk (mapFlag m (tlen cfg fs)) other
  have hcopy : loadDumpFile (writeDump cfg o junk m fs) other (tlen cfg fs) =
      writeCopy cfg o junk (mapFlag m (tlen cfg fs)) other fs := by
    rw [loadDumpFile, hfile, ← hbefore, drop_left, take_left' hlength]
  rw [mappingOf, hload]
  simp only [hmap, hother, fdother_header _ hsize, hcopy]
  rfl

include hne hfs in
/-- A call without a mapping reads the header and the program. -/
theorem checkDumpFile_read (hsize : tlen cfg fs < 2 ^ 30)
    (hother : other = true → tlen cfg fs < 2 ^ 24) (hmapped : mapped cfg m fs = false)
    (name : Bytes) :
    checkDumpFile cfg (readerOrder o other) (writeDump cfg o junk m fs) none name =
      match firstPlaced cfg fs name with
      | none => some none
      | some x =>
        let d := header cfg o (mapFlag m (tlen cfg fs)) other fs
        some ((readProg cfg (writeDump cfg o junk m fs) d (headRead cfg x.1 x.2)).map
          fun p ↦ (p, kshFlag (headRead cfg x.1 x.2))) := by
  have hload := loadDumpHeader_writeDump hne hfs hsize junk m hother
  have hfind := dumpFindFunc_header hne hfs hsize (mapFlag m (tlen cfg fs)) other [] name
  rw [append_nil] at hfind
  obtain ⟨hmap, -⟩ := fdflags_header cfg o fs other
    (mapFlag m (tlen cfg fs))
  rw [checkDumpFile, hload]
  simp only [hfind]
  cases firstPlaced cfg fs name with
  | none => rfl
  | some x =>
    simp only [Option.map_some, hmap]
    exact if_neg (by rw [mapped] at hmapped; rw [hmapped]; exact Bool.false_ne_true)

include hne hfs in
/-- A call with a mapping, or that maps the file. -/
theorem checkDumpFile_mapped (hsize : tlen cfg fs < 2 ^ 24) (hmapped : mapped cfg m fs = true)
    {map : Option Bytes} (hmap : map ∈ [none, some (writeCopy cfg o junk
      (mapFlag m (tlen cfg fs)) other fs)]) (name : Bytes) :
    checkDumpFile cfg (readerOrder o other) (writeDump cfg o junk m fs) map name =
      some ((firstPlaced cfg fs name).map fun x ↦
        (mappedProg (writeCopy cfg o junk (mapFlag m (tlen cfg fs)) other fs)
          (headRead cfg x.1 x.2), kshFlag (headRead cfg x.1 x.2))) := by
  have hsmall : tlen cfg fs < 2 ^ 30 := by omega
  have hcheck : checkMapped (readerOrder o other)
      (writeCopy cfg o junk (mapFlag m (tlen cfg fs)) other fs) name =
        some ((firstPlaced cfg fs name).map fun x ↦
          (mappedProg (writeCopy cfg o junk (mapFlag m (tlen cfg fs)) other fs)
            (headRead cfg x.1 x.2), kshFlag (headRead cfg x.1 x.2))) := by
    have hfind := dumpFindFunc_header hne hfs hsmall (mapFlag m (tlen cfg fs)) other
      (fs.flatMap fun f ↦ writeProg cfg junk other f.prog) name
    rw [← writeCopy_eq] at hfind
    rw [checkMapped, hfind, Option.map_some, Option.map_map]
    rfl
  simp only [mem_cons, not_mem_nil, or_false] at hmap
  rcases hmap with rfl | rfl
  · have hload := loadDumpHeader_writeDump hne hfs hsmall junk m (fun _ : other = true ↦ hsize)
    have hfind := dumpFindFunc_header hne hfs hsmall (mapFlag m (tlen cfg fs)) other [] name
    rw [append_nil] at hfind
    have hmapping := mappingOf_writeDump hne hfs junk m other hsize
    rw [mappingOf, hload, if_pos hmapped] at hmapping
    simp only at hmapping
    obtain ⟨hflag, -⟩ := fdflags_header cfg o fs other
      _
    have htrue : (cfg.useMmap &&
        decide (fdflags (header cfg o (mapFlag m (tlen cfg fs)) other fs) &&& 1 ≠ 0)) = true := by
      rw [hflag]
      exact hmapped
    rw [if_pos htrue, Option.some.injEq] at hmapping
    rw [checkDumpFile, hload]
    simp only [hfind]
    cases hplaced : firstPlaced cfg fs name with
    | none => rfl
    | some x =>
      simp only [Option.map_some]
      rw [if_pos htrue, hmapping, hcheck, hplaced]
      rfl
  · exact hcheck

include hfs in
theorem exists_program {x : ℕ × WcFunc} {name : Bytes} (hx : firstPlaced cfg fs name = some x)
    {g : CompiledCode} (hg : Allocated cfg o x.2.prog g) (map : Bool) :
    (readerOrder o other).words g.code ++ g.strings <+:
      (writeCopy cfg o junk map other fs).drop (4 * x.1) := by
  have hmem : x ∈ placed cfg (hlen fs) fs := mem_of_find?_eq_some hx
  obtain ⟨rest', hbody⟩ := exists_body hfs junk other hmem []
    (header_length cfg o fs map other)
  obtain ⟨rest, hprog, -⟩ := exists_writeProg hg junk other
  rw [append_nil] at hbody
  rw [writeCopy_eq, hbody, hprog, append_assoc]
  exact prefix_append _ _

include hne hfs in
theorem mappingOf_not_mapped (hsize : tlen cfg fs < 2 ^ 30)
    (hother : other = true → tlen cfg fs < 2 ^ 24) (hmapped : mapped cfg m fs = false) :
    mappingOf cfg (readerOrder o other) (writeDump cfg o junk m fs) = none := by
  have hload := loadDumpHeader_writeDump hne hfs hsize junk m hother
  obtain ⟨hflag, -⟩ := fdflags_header cfg o fs other
    (mapFlag m (tlen cfg fs))
  rw [mappingOf, hload]
  simp only [hflag]
  exact if_neg (by rw [mapped] at hmapped; rw [hmapped]; exact Bool.false_ne_true)

include hfs in
theorem exists_readProg (hother : other = true → tlen cfg fs < 2 ^ 24) {x : ℕ × WcFunc}
    {name : Bytes} (hx : firstPlaced cfg fs name = some x) {g : CompiledCode}
    (hg : Allocated cfg o x.2.prog g) :
    ∃ p, readProg cfg (writeDump cfg o junk m fs) (header cfg o (mapFlag m (tlen cfg fs)) other fs)
      (headRead cfg x.1 x.2) = some p ∧ Allocated cfg (readerOrder o other) p g := by
  obtain ⟨before, behind, hbefore, hfile⟩ := writeDump_split hfs junk m other
  obtain ⟨-, hflag⟩ := fdflags_header cfg o fs other
    (mapFlag m (tlen cfg fs))
  have hoffset : (if fdflags (header cfg o (mapFlag m (tlen cfg fs)) other fs) &&& 2 ≠ 0 then
      fdother (header cfg o (mapFlag m (tlen cfg fs)) other fs) else 0) = before.length := by
    rw [hbefore]
    cases other with
    | false => exact if_neg (of_decide_eq_false hflag)
    | true =>
      rw [if_pos (of_decide_eq_true hflag), if_pos rfl]
      exact fdother_header _ (hother rfl)
  apply readProg_allocated hg
  rw [hoffset, hfile, Nat.add_comm, ← drop_drop, drop_left, drop_append]
  exact (exists_program hfs junk hx hg _).trans (prefix_append _ _)

end

/-! ## The functions that come out -/

theorem exists_firstPlaced {name : Bytes} {f : WcFunc}
    (h : (fs.find? fun f ↦ name = f.tail) = some f) :
    ∃ x, firstPlaced cfg fs name = some x ∧ x.2 = f := by
  have hfind := find?_placed cfg fs (hlen fs) name
  rw [h] at hfind
  exact Option.map_eq_some_iff.mp hfind

theorem firstPlaced_eq_none {name : Bytes} (h : ∀ f ∈ fs, name ≠ f.tail) :
    firstPlaced cfg fs name = none := by
  have hfind := find?_placed cfg fs (hlen fs) name
  have hnone : (fs.find? fun f ↦ name = f.tail) = none := by
    rw [List.find?_eq_none]
    intro f hf
    simpa using h f hf
  rw [hnone] at hfind
  exact Option.map_eq_none_iff.mp hfind

theorem parsed_of_allocated : ∀ f ∈ fs, ∀ g, Allocated cfg o f.prog g →
    ∀ heap, ∃ q, dupeprog cfg heap f.prog = some q ∧ Allocated cfg o q g :=
  fun _ _ _ hg heap ↦ hg.dupeprog heap

/-- Functions that are read can be copied. -/
theorem served_read (hne : fs ≠ []) (hfs : AllAllocated cfg o fs) (junk : UInt8) (m : Fin 3)
    {other : Bool} (hsize : tlen cfg fs < 2 ^ 30) (hother : other = true → tlen cfg fs < 2 ^ 24)
    (hmapped : mapped cfg m fs = false) : Served cfg o (readerOrder o other) junk m fs := by
  have hnone : ∀ map ∈ [none, mappingOf cfg (readerOrder o other) (writeDump cfg o junk m fs)],
      map = none := by
    intro map hmap
    rw [mappingOf_not_mapped hne hfs junk m hsize hother hmapped] at hmap
    simpa using hmap
  refine ⟨fun _ ↦ ⟨_, loadDumpHeader_writeDump hne hfs hsize junk m hother,
    dumpNames_header hne hfs hsize _ _⟩, ?_, ?_, parsed_of_allocated⟩
  · intro map hmap name hname
    obtain rfl := hnone map hmap
    rw [checkDumpFile_read hne hfs junk m hsize hother hmapped, firstPlaced_eq_none hname]
  · intro map hmap name f g hf hg
    obtain rfl := hnone map hmap
    obtain ⟨x, hx, rfl⟩ := exists_firstPlaced hf
    obtain ⟨p, hp, hallocated⟩ := exists_readProg hfs junk m hother hx hg
    refine ⟨p, kshFlag (headRead cfg x.1 x.2), ?_, hallocated.toRepresents,
      fun heap ↦ hallocated.dupeprog heap⟩
    rw [checkDumpFile_read hne hfs junk m hsize hother hmapped, hx]
    simp only [hp, Option.map_some]

/-- Functions that are mapped can be copied if they have no patterns. -/
theorem served_mapped_iff (hne : fs ≠ []) (hfs : AllAllocated cfg o fs) (junk : UInt8) (m : Fin 3)
    (other : Bool) (hsize : tlen cfg fs < 2 ^ 24) (hmapped : mapped cfg m fs = true) :
    Served cfg o (readerOrder o other) junk m fs ↔
      ∀ f ∈ fs, (fs.find? fun f' ↦ f.tail = f'.tail) = some f → f.prog.npats = 0 := by
  have hsmall : tlen cfg fs < 2 ^ 30 := by omega
  have hmapping := mappingOf_writeDump hne hfs junk m other hsize
  rw [if_pos hmapped] at hmapping
  have hrepresents {x : ℕ × WcFunc} {name : Bytes} (hx : firstPlaced cfg fs name = some x)
      {g : CompiledCode} (hg : Allocated cfg o x.2.prog g) :
      Represents cfg (readerOrder o other)
        (mappedProg (writeCopy cfg o junk (mapFlag m (tlen cfg fs)) other fs)
          (headRead cfg x.1 x.2)) g :=
    mappedProg_represents hg (exists_program hfs junk hx hg _)
  constructor
  · intro h f hf hfirst
    obtain ⟨g, hg⟩ := hfs f hf
    obtain ⟨x, hx, rfl⟩ := exists_firstPlaced hfirst
    obtain ⟨p, flag, hp, -, hcopy⟩ := h.found none mem_cons_self _ _ g hfirst hg
    rw [checkDumpFile_mapped hne hfs junk m hsize hmapped mem_cons_self, hx,
      Option.map_some, Option.some.injEq, Option.some.injEq] at hp
    obtain ⟨rfl, -⟩ := Prod.mk.inj hp
    rw [hg.npats]
    exact ((hrepresents hx hg).dupeprog_mapped rfl true).mp (hcopy true)
  · intro h
    refine ⟨fun _ ↦ ⟨_, loadDumpHeader_writeDump hne hfs hsmall junk m fun _ ↦ hsize,
      dumpNames_header hne hfs hsmall _ _⟩, ?_, ?_, parsed_of_allocated⟩
    · intro map hmap name hname
      rw [hmapping] at hmap
      rw [checkDumpFile_mapped hne hfs junk m hsize hmapped hmap, firstPlaced_eq_none hname]
      rfl
    · intro map hmap name f g hf hg
      rw [hmapping] at hmap
      have hmem := mem_of_find?_eq_some hf
      have htail : name = f.tail := by simpa using List.find?_some hf
      have hzero : g.npats = 0 := by
        rw [← hg.npats]
        exact h f hmem (htail ▸ hf)
      obtain ⟨x, hx, rfl⟩ := exists_firstPlaced hf
      refine ⟨_, kshFlag (headRead cfg x.1 x.2), ?_, hrepresents hx hg,
        fun heap ↦ ((hrepresents hx hg).dupeprog_mapped rfl heap).mpr hzero⟩
      rw [checkDumpFile_mapped hne hfs junk m hsize hmapped hmap, hx]
      rfl

theorem served_nil : Served cfg o r junk m [] := by
  have hnone : ∀ map ∈ [none, mappingOf cfg r (writeDump cfg o junk m [])], map = none := by
    intro map hmap
    rw [mappingOf_nil] at hmap
    simpa using hmap
  refine ⟨fun h ↦ absurd rfl h, fun map hmap name _ ↦ ?_, nofun, nofun⟩
  obtain rfl := hnone map hmap
  rw [checkDumpFile, loadDumpHeader_nil]

/-- The functions of a file are what was written, on either machine and with either loading, and
they can be copied and compiled again, exactly if no mapped one has patterns. -/
theorem served_iff (cfg : DumpConfig) (o r : ByteOrder) (junk : UInt8) (m : Fin 3)
    (fs : List WcFunc) (hfs : AllAllocated cfg o fs) (hsize : SizeFits cfg o r m fs) :
    Served cfg o r junk m fs ↔ (mapped cfg m fs = true →
      ∀ f ∈ fs, (fs.find? fun f' ↦ f.tail = f'.tail) = some f → f.prog.npats = 0) := by
  by_cases hne : fs = []
  · subst hne
    exact ⟨fun _ _ f hf ↦ absurd hf not_mem_nil, fun _ ↦ served_nil r junk m⟩
  · obtain ⟨other, rfl, hother⟩ := exists_readerOrder o r
    cases hmapped : mapped cfg m fs with
    | false =>
      have hsizes : tlen cfg fs < 2 ^ 30 ∧ (other = true → tlen cfg fs < 2 ^ 24) := by
        rcases hsize with hsize | ⟨hsame, -, hsize⟩
        · exact ⟨by omega, fun _ ↦ hsize⟩
        · exact ⟨hsize, fun h ↦ absurd hsame (hother h)⟩
      exact ⟨fun _ h ↦ absurd h Bool.false_ne_true,
        fun _ ↦ served_read hne hfs junk m hsizes.1 hsizes.2 hmapped⟩
    | true =>
      have hsmall : tlen cfg fs < 2 ^ 24 := by
        rcases hsize with hsize | ⟨-, hnot, -⟩
        · exact hsize
        · rw [hmapped] at hnot
          exact nomatch hnot
      rw [served_mapped_iff hne hfs junk m other hsmall hmapped]
      exact ⟨fun h _ ↦ h, fun h ↦ h rfl⟩

/-- A machine with pointers of eight bytes. -/
def wideConfig : DumpConfig where
  patprog := 8
  patprog_pos := by decide
  version := Bytes.ascii "5.9"
  version_ne := by decide
  version_lt := by decide
  useMmap := true

/-- A program of two words and a string of three bytes. -/
def shortCode (npats : ℕ) (h : npats < 2 ^ 31) : CompiledCode where
  code := [0x0102, 0x03]
  code_lt := by decide
  strings := Bytes.ascii "ab" ++ [0]
  npats := npats
  npats_lt := h

def shortFunc (npats : ℕ) : WcFunc where
  name := Bytes.ascii "dir/f"
  name_ne := by decide
  prog := bldEprog wideConfig .little true [0x0102, 0x03] (Bytes.ascii "ab" ++ [0]) npats
  flags := 0

theorem allAllocated_shortFunc {npats : ℕ} (h : npats < 2 ^ 31) :
    AllAllocated wideConfig .little [shortFunc npats] := by
  intro f hf
  obtain rfl := List.mem_singleton.mp hf
  have hbuilt : Allocated wideConfig .little (bldEprog wideConfig .little true
      (shortCode npats h).code (shortCode npats h).strings npats) (shortCode npats h) :=
    allocated_bldEprog true (shortCode npats h)
  exact ⟨shortCode npats h, hbuilt⟩

theorem served_iff_noPatterns : Served wideConfig .little .big 0 2 [shortFunc 0] := by
  refine (served_iff wideConfig .little .big 0 2 [shortFunc 0]
    (allAllocated_shortFunc (by decide)) (.inl (by decide))).mpr fun _ f hf _ ↦ ?_
  obtain rfl := List.mem_singleton.mp hf
  rfl

/-- A mapped function with a pattern: eight of the eleven bytes are lost in a copy. -/
theorem not_served : ¬ Served wideConfig .little .little 0 2 [shortFunc 1] ∧
    ((checkDumpFile wideConfig .little (writeDump wideConfig .little 0 2 [shortFunc 1]) none
      (Bytes.ascii "f")).join.bind fun x ↦ dupeprog wideConfig true x.1).map
        (fun q ↦ (q.len, q.memory)) = some (11, [0x02, 0x01, 0x00]) := by
  refine ⟨fun h ↦ ?_, by decide +kernel⟩
  have hzero := (served_mapped_iff (by simp) (allAllocated_shortFunc (by decide)) 0 2 false
    (by decide) rfl).mp h _ mem_cons_self rfl
  exact absurd hzero (by decide)

end Dump

end Bsh.Shell
