import Mathlib.Data.List.GetD
import Bsh.Shell.DumpFile

/-!
# The walk along the headers

In a copy that a machine reads as its own, `dump_find_func` comes from each header to the next one
and ends behind the last, so that it finds the first function whose name has the given tail.
-/

namespace Bsh.Shell

open Bsh.Library List

/-- The part of the name that a function is found by. -/
def WcFunc.tail (f : WcFunc) : Bytes := f.name.drop (Dump.tailOffset f.name)

namespace Dump

variable (cfg : DumpConfig)

/-- The header of a function as it is read. -/
def headRead (start : ℕ) (f : WcFunc) : FdHead where
  start := start
  len := f.prog.len - f.prog.npats * cfg.patprog
  npats := f.prog.npats
  strs := f.prog.strs
  hlen := headWords f
  flags := f.flags.val ||| (tailOffset f.name <<< 2)

/-- The functions with the words at which their programs start. -/
def placed : ℕ → List WcFunc → List (ℕ × WcFunc)
  | _, [] => []
  | start, f :: fs => (start, f) :: placed (start + progWords cfg f.prog) fs

/-- The words of the header hold its values. -/
def HeadFits (start : ℕ) (f : WcFunc) : Prop := ∀ n ∈ headOf cfg start f, n < 2 ^ 32

variable {cfg} {o : ByteOrder}

theorem tailOffset_le (name : Bytes) : tailOffset name ≤ name.length := Nat.sub_le _ _

theorem flags_tail (f : WcFunc) :
    (f.flags.val ||| (tailOffset f.name <<< 2)) >>> 2 = tailOffset f.name := by
  have hflags : f.flags.val / 4 = 0 := by
    omega
  rw [Nat.shiftRight_or_distrib, Nat.shiftRight_eq_div_pow, hflags, Nat.zero_or,
    Nat.shiftLeft_shiftRight]

variable {before rest : Bytes} {f : WcFunc} {n start : ℕ}

theorem headAt_writeHead (hfits : HeadFits cfg start f) (hbefore : before.length = 4 * n) :
    headAt o (before ++ (o.words (headOf cfg start f) ++ rest)) n = some (headRead cfg start f) := by
  have hword {i m : ℕ} (hi : (headOf cfg start f)[i]? = some m) :
      o.wordAt (before ++ (o.words (headOf cfg start f) ++ rest)) (n + i) = some m :=
    o.wordAt_words hbefore hi (hfits m (mem_of_getElem? hi))
  have hstart : o.wordAt (before ++ (o.words (headOf cfg start f) ++ rest)) n = some start :=
    hword (i := 0) rfl
  simp only [headAt, hstart, hword (i := 1) rfl, hword (i := 2) rfl, hword (i := 3) rfl,
    hword (i := 4) rfl, hword (i := 5) rfl, Option.bind_eq_bind, Option.bind_some]
  rfl

theorem cStringAt_name {offset : ℕ} (hoffset : offset ≤ f.name.length) (hbefore : before.length = 4 * n) :
    cStringAt (before ++ (o.words (headOf cfg start f) ++ (f.name ++ 0 :: rest)))
      (4 * n + 24 + offset) = some (f.name.drop offset) := by
  have hwords : (o.words (headOf cfg start f)).length = 24 := by
    rw [ByteOrder.words_length, headOf_length]
  have hdrop : (before ++ (o.words (headOf cfg start f) ++ (f.name ++ 0 :: rest))).drop
      (4 * n + 24 + offset) = f.name.drop offset ++ 0 :: rest := by
    have hsplit : 4 * n + 24 + offset = before.length + (24 + offset) := by omega
    rw [hsplit, drop_append, drop_eq_nil_of_le (by omega), nil_append,
      Nat.add_sub_cancel_left, drop_append, drop_eq_nil_of_le (by omega), hwords,
      nil_append, Nat.add_sub_cancel_left, drop_append_of_le_length hoffset]
  have hname : ∀ b ∈ f.name.drop offset, b ≠ 0 :=
    fun b hb ↦ f.name_ne b (mem_of_mem_drop hb)
  have hstring : Bytes.cString (f.name.drop offset ++ 0 :: rest) = f.name.drop offset := by
    generalize f.name.drop offset = text at hname
    induction text with
    | nil => rfl
    | cons c text ih =>
      have hc : c ≠ 0 := hname c mem_cons_self
      rw [cons_append, Bytes.cString, takeWhile_cons, if_pos (by simpa using hc)]
      exact congrArg (c :: ·) (ih fun b hb ↦ hname b (mem_cons_of_mem c hb))
  rw [cStringAt, hdrop, if_pos (by simp), hstring]

theorem headWords_pos (f : WcFunc) : 0 < headWords f := by
  rw [headWords]
  omega

theorem length_le_sum_headWords (fs : List WcFunc) : fs.length ≤ (fs.map headWords).sum := by
  induction fs with
  | nil => exact Nat.le_refl _
  | cons f fs ih =>
    have hpos := headWords_pos f
    rw [length_cons, map_cons, sum_cons]
    omega

/-- What one turn of a walk meets, and where the next one begins. -/
theorem exists_turn (o : ByteOrder) (other : Bool) (fs : List WcFunc)
    (hfits : HeadFits cfg start f) (rest : Bytes) (hbefore : before.length = 4 * n) :
    let memory := before ++ (writeHeads cfg o other start (f :: fs) ++ rest)
    headAt (readerOrder o other) memory n = some (headRead cfg start f) ∧
      (∀ offset ≤ f.name.length,
        cStringAt memory (4 * n + 24 + offset) = some (f.name.drop offset)) ∧
      ∃ before', before'.length = 4 * (n + headWords f) ∧ memory =
        before' ++ (writeHeads cfg o other (start + progWords cfg f.prog) fs ++ rest) := by
  obtain ⟨padding, hhead, hlength⟩ := exists_writeHead cfg o other start f
  intro memory
  have hmemory : memory = before ++ ((readerOrder o other).words (headOf cfg start f) ++
      (f.name ++ 0 :: (padding ++
        (writeHeads cfg o other (start + progWords cfg f.prog) fs ++ rest)))) := by
    simp only [memory, writeHeads, hhead, append_assoc, cons_append]
  refine ⟨?_, ?_, before ++ writeHead cfg o other start f, ?_, ?_⟩
  · rw [hmemory]
    exact headAt_writeHead hfits hbefore
  · intro offset hoffset
    rw [hmemory]
    exact cStringAt_name hoffset hbefore
  · rw [length_append, hbefore, hlength]
    omega
  · simp only [memory, writeHeads, append_assoc]

theorem findFrom_writeHeads (other : Bool) {fs : List WcFunc} {e turns : ℕ}
    (hfits : ∀ x ∈ placed cfg start fs, HeadFits cfg x.1 x.2)
    (hbefore : before.length = 4 * n) (he : e = n + (fs.map headWords).sum)
    (hturns : fs.length < turns) (name : Bytes) :
    findFrom (readerOrder o other) (before ++ (writeHeads cfg o other start fs ++ rest)) e name
        turns n =
      some (((placed cfg start fs).find? fun x ↦ name = x.2.tail).map
        fun x ↦ headRead cfg x.1 x.2) := by
  induction fs generalizing start n before turns with
  | nil =>
    obtain ⟨turns, rfl⟩ : ∃ k, turns = k + 1 := ⟨turns - 1, by omega⟩
    have hend : ¬ n < e := by
      rw [he]
      exact Nat.lt_irrefl n
    rw [findFrom, if_neg hend]
    rfl
  | cons f fs ih =>
    obtain ⟨turns, rfl⟩ : ∃ k, turns = k + 1 := ⟨turns - 1, by omega⟩
    rw [map_cons, sum_cons] at he
    have hpos := headWords_pos f
    have hfirst : HeadFits cfg start f := hfits (start, f) mem_cons_self
    obtain ⟨hhead, hnames, before', hbefore', hmemory⟩ :=
      exists_turn o other fs hfirst rest hbefore
    have htail := hnames _ (tailOffset_le f.name)
    rw [findFrom, if_pos (by omega), hhead, Option.bind_eq_bind, Option.bind_some]
    have hflags : (headRead cfg start f).flags >>> 2 = tailOffset f.name := flags_tail f
    rw [hflags, htail, Option.bind_eq_bind, Option.bind_some]
    change (if name = f.tail then _ else _) = _
    rw [placed, List.find?_cons]
    by_cases hname : name = f.tail
    · simp only [hname, decide_true]
      rfl
    · rw [if_neg hname, hmemory]
      simp only [hname, decide_false]
      exact ih (fun x hx ↦ hfits x (mem_cons_of_mem _ hx)) hbefore'
        (by rw [he]; exact (Nat.add_assoc _ _ _).symm) (by simpa using hturns)

theorem namesFrom_writeHeads (other : Bool) {fs : List WcFunc} {e turns : ℕ}
    (hfits : ∀ x ∈ placed cfg start fs, HeadFits cfg x.1 x.2)
    (hbefore : before.length = 4 * n) (he : e = n + (fs.map headWords).sum)
    (hturns : fs.length < turns) :
    namesFrom (readerOrder o other) (before ++ (writeHeads cfg o other start fs ++ rest)) e turns n =
      some (fs.map WcFunc.name) := by
  induction fs generalizing start n before turns with
  | nil =>
    obtain ⟨turns, rfl⟩ : ∃ k, turns = k + 1 := ⟨turns - 1, by omega⟩
    have hend : ¬ n < e := by
      rw [he]
      exact Nat.lt_irrefl n
    rw [namesFrom, if_neg hend]
    rfl
  | cons f fs ih =>
    obtain ⟨turns, rfl⟩ : ∃ k, turns = k + 1 := ⟨turns - 1, by omega⟩
    rw [map_cons, sum_cons] at he
    have hpos := headWords_pos f
    have hfirst : HeadFits cfg start f := hfits (start, f) mem_cons_self
    obtain ⟨hhead, hnames, before', hbefore', hmemory⟩ :=
      exists_turn o other fs hfirst rest hbefore
    have hname := hnames 0 (Nat.zero_le _)
    have hturns' : fs.length < turns := by simpa using hturns
    have hrest := ih (fun x hx ↦ hfits x (mem_cons_of_mem _ hx)) hbefore'
      (by rw [he]; exact (Nat.add_assoc _ _ _).symm) hturns'
    rw [← hmemory] at hrest
    rw [namesFrom, if_pos (by omega), hhead, Option.bind_eq_bind, Option.bind_some]
    rw [hname, Option.bind_eq_bind, Option.bind_some]
    change ((namesFrom _ _ e turns (n + headWords f)).bind fun rest ↦ _) = _
    rw [hrest]
    rfl

end Dump

end Bsh.Shell

/-!
# Writing and reading a compiled file

What `check_dump_file` gives of a file that `write_dump` has written, on a machine of either byte
order, for functions that are read and for functions that are mapped.  The size of one copy is kept in
24 bits, and a mapped program cannot be copied unless it has no patterns.
-/

namespace Bsh.Shell

open Bsh.Library List

namespace Dump

variable {cfg : DumpConfig} {o : ByteOrder}

/-! ## Sizes -/

theorem pre_length (map other : Bool) (t : ℕ) : (pre cfg o map other t).length = 4 * fdPrelen := by
  have hversion := cfg.version_lt
  simp only [pre, length_append, ByteOrder.word_length, length_cons, length_nil,
    List.length_replicate, fdPrelen]
  omega

/-- Every function of the list has a program in a block of its own. -/
def AllAllocated (cfg : DumpConfig) (o : ByteOrder) (fs : List WcFunc) : Prop :=
  ∀ f ∈ fs, ∃ g, Allocated cfg o f.prog g

variable {fs : List WcFunc} {x : ℕ × WcFunc}

theorem AllAllocated.tail {f : WcFunc} (h : AllAllocated cfg o (f :: fs)) :
    AllAllocated cfg o fs := fun f' hf' ↦ h f' (mem_cons_of_mem f hf')

theorem writeProgs_length (h : AllAllocated cfg o fs) (junk : UInt8)
    (other : Bool) : (fs.flatMap fun f ↦ writeProg cfg junk other f.prog).length =
      4 * (fs.map fun f ↦ progWords cfg f.prog).sum := by
  induction fs with
  | nil => rfl
  | cons f fs ih =>
    obtain ⟨g, hg⟩ := h f mem_cons_self
    obtain ⟨rest, -, hlength⟩ := exists_writeProg hg junk other
    rw [flatMap_cons, length_append, hlength, ih h.tail, map_cons, sum_cons]
    omega

theorem writeCopy_length (h : AllAllocated cfg o fs) (junk : UInt8)
    (map other : Bool) : (writeCopy cfg o junk map other fs).length = tlen cfg fs := by
  rw [writeCopy, length_append, length_append, pre_length, writeHeads_length,
    writeProgs_length h, tlen, hlen]
  omega

theorem mem_of_mem_placed {start : ℕ}
    (h : x ∈ placed cfg start fs) : x.2 ∈ fs := by
  induction fs generalizing start with
  | nil => exact absurd h not_mem_nil
  | cons f fs ih =>
    rcases List.mem_cons.mp h with rfl | h
    · exact mem_cons_self
    · exact mem_cons_of_mem f (ih h)

theorem placed_le {start : ℕ} (h : x ∈ placed cfg start fs) :
    x.1 + progWords cfg x.2.prog ≤ start + (fs.map fun f ↦ progWords cfg f.prog).sum := by
  induction fs generalizing start with
  | nil => exact absurd h not_mem_nil
  | cons f fs ih =>
    rw [map_cons, sum_cons]
    rcases List.mem_cons.mp h with rfl | h
    · simp only
      omega
    · have hle := ih h
      omega

theorem headWords_le {f : WcFunc} (h : f ∈ fs) :
    headWords f ≤ (fs.map headWords).sum := by
  obtain ⟨a, b, rfl⟩ := append_of_mem h
  simp only [map_append, map_cons, sum_append, sum_cons]
  omega

/-- The headers hold their values if a copy is not too long. -/
theorem headFits_of_tlen (hfs : AllAllocated cfg o fs)
    (hsize : tlen cfg fs < 2 ^ 30) (hx : x ∈ placed cfg (hlen fs) fs) :
    HeadFits cfg x.1 x.2 := by
  obtain ⟨g, hg⟩ := hfs x.2 (mem_of_mem_placed hx)
  obtain ⟨hlen', hwords⟩ := progWords_eq hg
  have hplace := placed_le hx
  have hhead := headWords_le (mem_of_mem_placed hx)
  have hname : x.2.name.length < 4 * headWords x.2 := by
    rw [headWords]
    omega
  have htail := tailOffset_le x.2.name
  have hstrs := hg.strs
  have hnpats := g.npats_lt
  rw [← hg.npats] at hnpats
  have htlen : tlen cfg fs = ((fs.map fun f ↦ progWords cfg f.prog).sum + hlen fs) * 4 := rfl
  have hhlen : hlen fs = fdPrelen + (fs.map headWords).sum := rfl
  have hstrings : 4 * g.code.length ≤ g.size := Nat.le_add_right _ _
  have hflags : x.2.flags.val ||| (tailOffset x.2.name <<< 2) < 2 ^ 32 := by
    apply Nat.or_lt_two_pow
    · omega
    · omega
  intro n hn
  simp only [headOf, mem_cons, not_mem_nil, or_false] at hn
  rcases hn with rfl | rfl | rfl | rfl | rfl | rfl
  · omega
  · omega
  · omega
  · omega
  · omega
  · exact hflags

/-! ## The first words -/

section Pre

variable (map other : Bool) (t : ℕ) (rest : Bytes)

variable (cfg o) in
theorem pre_cons : ∃ word : Bytes, word.length = 4 ∧
    word = o.word (if other then fdOmagic else fdMagic) ∧ pre cfg o map other t ++ rest =
      word ++ (UInt8.ofNat (map.toNat + 2 * other.toNat) :: UInt8.ofNat t :: UInt8.ofNat (t / 256) ::
        UInt8.ofNat (t / 65536) ::
          (cfg.version ++ (List.replicate (40 - cfg.version.length) 0 ++ rest))) := by
  simp [pre]

theorem fdflags_pre : fdflags (pre cfg o map other t ++ rest) = map.toNat + 2 * other.toNat := by
  obtain ⟨word, hlength, -, hpre⟩ := pre_cons cfg o map other t rest
  rw [hpre, fdflags, getD_append_right _ _ _ _ (by omega), hlength]
  cases map <;> cases other <;> rfl

theorem fdother_pre : fdother (pre cfg o map other t ++ rest) = t % 2 ^ 24 := by
  obtain ⟨word, hlength, -, hpre⟩ := pre_cons cfg o map other t rest
  have hbyte {i : ℕ} : (word ++ (UInt8.ofNat (map.toNat + 2 * other.toNat) :: UInt8.ofNat t ::
      UInt8.ofNat (t / 256) :: UInt8.ofNat (t / 65536) ::
        (cfg.version ++ (List.replicate (40 - cfg.version.length) 0 ++ rest)))).getD (4 + i) 0 =
      (UInt8.ofNat (map.toNat + 2 * other.toNat) :: UInt8.ofNat t :: UInt8.ofNat (t / 256) ::
        UInt8.ofNat (t / 65536) ::
          (cfg.version ++ (List.replicate (40 - cfg.version.length) 0 ++ rest))).getD i 0 := by
    rw [getD_append_right _ _ _ _ (by omega), hlength, Nat.add_sub_cancel_left]
  rw [hpre, fdother, hbyte (i := 1), hbyte (i := 2), hbyte (i := 3)]
  simp only [getD_cons_succ, getD_cons_zero, UInt8.toNat_ofNat']
  omega

theorem version_pre : cStringAt (pre cfg o map other t ++ rest) 8 = some cfg.version := by
  obtain ⟨word, hlength, -, hpre⟩ := pre_cons cfg o map other t rest
  have hzero : 0 < 40 - cfg.version.length := by
    have hversion := cfg.version_lt
    omega
  obtain ⟨k, hk⟩ : ∃ k, 40 - cfg.version.length = k + 1 := ⟨_, (Nat.succ_pred_eq_of_pos hzero).symm⟩
  have hdrop : (pre cfg o map other t ++ rest).drop 8 =
      cfg.version ++ 0 :: (List.replicate k 0 ++ rest) := by
    rw [hpre, drop_append, drop_eq_nil_of_le (by omega), hlength, hk]
    rfl
  have hstring : Bytes.cString (cfg.version ++ 0 :: (List.replicate k 0 ++ rest)) = cfg.version := by
    have hversion := cfg.version_ne
    rw [Bytes.cString, takeWhile_append_of_pos (by simpa using hversion)]
    simp
  rw [cStringAt, hdrop, if_pos (by simp), hstring]

end Pre

/-- A machine of the other order reads the one magic number as the other one. -/
theorem word_magic (o : ByteOrder) : o.word fdMagic = o.swap.word fdOmagic ∧
    o.word fdOmagic = o.swap.word fdMagic := by
  cases o <;> decide

theorem wordAt_word {r : ByteOrder} {n : ℕ} (hn : n < 2 ^ 32) (rest : Bytes) :
    r.wordAt (r.word n ++ rest) 0 = some n := by
  have h : r.wordAt ([] ++ (r.words [n] ++ rest)) (0 + 0) = some n := r.wordAt_words rfl rfl hn
  simpa [ByteOrder.words_cons, ByteOrder.words] using h

/-- The magic number of the first copy, on a machine that reads the copy with the flag. -/
theorem magic_pre (map other : Bool) (t : ℕ) (rest : Bytes) :
    (readerOrder o other).wordAt (pre cfg o map false t ++ rest) 0 =
      some (if other then fdOmagic else fdMagic) := by
  obtain ⟨word, -, hword, hpre⟩ := pre_cons cfg o map false t rest
  have hlt : fdOmagic < 2 ^ 32 ∧ fdMagic < 2 ^ 32 := by decide
  rw [hpre, hword]
  cases other with
  | false => exact wordAt_word hlt.2 _
  | true =>
    rw [if_neg Bool.false_ne_true, (word_magic o).1]
    exact wordAt_word hlt.1 _

end Dump

end Bsh.Shell
