import Bsh.Shell.HistoryFile

/-!
# The history file read back

With well-formed texts and times as the shell has them, `readhistfile` gets back from the file what
`savehistfile` has written, if and only if the lines fit a line buffer and, without extended history,
no text is made of blanks only or begins with a backslash and a colon.
-/

namespace Bsh.Shell

open Bsh.Library List

/-! ## Times -/

variable {c : UInt8} {s t : Bytes} (extendedHistory : Bool)

/-- `zstrtol` on a number behind which something else follows; a zero is read as octal. -/
theorem zstrtol_decimal {n : ℕ} (hn : n < 2 ^ 63) (hc : c = char ':' ∨ c = char ';')
    (rest : Bytes) :
    zstrtol (Decimal.decimal n ++ c :: rest) 0 = some (BitVec.ofNat 64 n, c :: rest) := by
  have hnodigit : ((c :: rest).head?.any idigit) = false := by rcases hc with rfl | rfl <;> rfl
  have hmsb : (BitVec.ofNat 64 n).msb = false := by
    rw [BitVec.msb_eq_decide, BitVec.toNat_ofNat, Nat.mod_eq_of_lt (by omega)]
    exact decide_eq_false (by omega)
  rcases Decimal.decimalCodes_head n with hzero | ⟨d, codes, hpos, hten, hcodes⟩
  · have hvalue : n = 0 := by
      rw [← Decimal.digitsValue_decimalCodes n, hzero]
      rfl
    subst hvalue
    rcases hc with rfl | rfl <;> rfl
  · have hdigits : ∀ b ∈ Decimal.decimal n, idigit b = true := fun b ↦ idigit_of_mem_decimal
    have hsmall : digitsFrom 0 (Decimal.decimal n) < 2 ^ 64 := by
      rw [digitsFrom_decimal]
      omega
    have hloop := zstrtolDigits_digits hdigits hsmall hnodigit
    rw [digitsFrom_decimal] at hloop
    have hhead : Decimal.decimal n = UInt8.ofNat (Decimal.digitCode d) :: Decimal.codeBytes codes := by
      rw [Decimal.decimal, hcodes]
      rfl
    obtain ⟨hdash, hblank, hplus, -⟩ := not_dash_of_digit (UInt8.ofNat _)
      (hdigits _ (by rw [hhead]; exact mem_cons_self))
    have hnozero : UInt8.ofNat (Decimal.digitCode d) ≠ char '0' := by
      interval_cases d <;> decide
    rw [hhead] at hloop ⊢
    unfold zstrtol zstrtolUnderscore
    rw [cons_append] at hloop ⊢
    rw [dropWhile_cons_of_neg (by simp [hblank])]
    simp only [List.head?_cons, Option.any_some, hdash, headIs, Option.some.injEq, hplus,
      decide_false, Bool.or_self, Bool.false_eq_true, if_false, if_true, announcedBase, hnozero]
    have hbits : (BitVec.ofNat 64 0 : Zlong) = 0 := rfl
    rw [hbits] at hloop
    rw [hloop]
    simp [hmsb]

theorem zstrtol_blank (s : Bytes) (base : ℕ) : zstrtol (char ' ' :: s) base = zstrtol s base := rfl

theorem printLong_eq {n : Zlong} (hn : 0 ≤ n.toInt) :
    ∃ m < 2 ^ 63, printLong n = Decimal.decimal m ∧ BitVec.ofNat 64 m = n := by
  have hlt := BitVec.toInt_lt (x := n)
  refine ⟨n.toInt.natAbs, by omega, ?_, ?_⟩
  · rw [printLong, if_neg (not_lt.mpr hn)]
  · apply BitVec.eq_of_toInt_eq
    rw [BitVec.toInt_ofNat', Int.bmod_eq_of_le] <;> omega

/-- The times of a command that has taken less time than since the epoch until its start. -/
structure GoodTimes (he : HistFileEntry) : Prop where
  pos : 0 < he.stim.toInt
  le : he.stim.toInt ≤ he.ftim.toInt
  lt : he.ftim.toInt < 2 * he.stim.toInt

theorem GoodTimes.delta {he : HistFileEntry} (h : GoodTimes he) :
    (he.ftim - he.stim).toInt = he.ftim.toInt - he.stim.toInt := by
  have hlt := BitVec.toInt_lt (x := he.ftim)
  obtain ⟨hpos, hle, hlt'⟩ := h
  rw [BitVec.toInt_sub, Int.bmod_eq_of_le] <;> omega

theorem dropWhile_until {rest : Bytes} (h : c ∉ s) :
    (s ++ c :: rest).dropWhile (· ≠ c) = c :: rest := by
  rw [dropWhile_append_of_pos, dropWhile_cons_of_neg (by simp)]
  intro b hb
  exact decide_eq_true fun heq ↦ h (heq ▸ hb)

theorem headIs_cons (c : Char) (s : Bytes) : headIs c (char c :: s) = true := by simp [headIs]

theorem not_mem_decimal (hc : idigit c = false) (n : ℕ) : c ∉ Decimal.decimal n := by
  intro h
  rw [idigit_of_mem_decimal h] at hc
  cases hc

/-- With extended history the times come back with the text. -/
theorem histEntry_extended (tim : Zlong) {he : HistFileEntry} (h : GoodTimes he) :
    histEntry tim (histLead true he ++ he.nam) = some he := by
  obtain ⟨start, hstart, hstim, hstim'⟩ := printLong_eq h.pos.le
  have hdelta : 0 ≤ (he.ftim - he.stim).toInt := by
    rw [h.delta]
    exact sub_nonneg.mpr h.le
  obtain ⟨took, htook, hprint, htook'⟩ := printLong_eq hdelta
  have hftim : he.ftim ≠ 0 := by
    intro h0
    have hpos := h.pos.trans_le h.le
    rw [h0] at hpos
    exact absurd hpos (by decide)
  have hstim0 : he.stim ≠ 0 := by
    intro h0
    have hpos := h.pos
    rw [h0] at hpos
    exact absurd hpos (by decide)
  have hlead : histLead true he ++ he.nam = char ':' :: char ' ' :: (Decimal.decimal start ++
      char ':' :: (Decimal.decimal took ++ char ';' :: he.nam)) := by
    rw [histLead, if_pos rfl, if_neg hftim, hstim, hprint]
    simp [Bytes.ascii, char]
  have hcolon : char ':' ∉ char ' ' :: Decimal.decimal start :=
    not_or.mpr ⟨by decide, not_mem_decimal rfl start⟩ ∘ List.mem_cons.mp
  have hslt : (he.ftim - he.stim).slt he.stim = true := by
    rw [BitVec.slt, h.delta]
    have hlt := h.lt
    exact decide_eq_true (by omega)
  rw [hlead, histEntry, if_pos (headIs_cons ':' _), tail_cons, zstrtol_blank,
    zstrtol_decimal hstart (.inl rfl), hstim']
  have hskip : (char ' ' :: (Decimal.decimal start ++ char ':' :: (Decimal.decimal took ++
      char ';' :: he.nam))).dropWhile (· ≠ char ':') =
      char ':' :: (Decimal.decimal took ++ char ';' :: he.nam) :=
    dropWhile_until (s := char ' ' :: Decimal.decimal start) hcolon
  simp only [Option.bind_some, hskip, isEmpty_cons, Bool.false_eq_true, if_false,
    tail_cons, zstrtol_decimal htook (.inr rfl), htook',
    dropWhile_until (not_mem_decimal (c := char ';') rfl took), Option.map_some, if_neg hstim0, hslt,
    if_true]
  rw [BitVec.add_comm, BitVec.sub_add_cancel]

/-- Without it, the backslash that protects a colon goes, whoever has put it there. -/
theorem histEntry_plain (tim : Zlong) (he : HistFileEntry) :
    (histEntry tim (histLead false he ++ he.nam)).map HistFileEntry.nam =
      some (if headIs '\\' he.nam && headIs ':' he.nam.tail then he.nam.tail else he.nam) := by
  rw [histLead, if_neg Bool.false_ne_true]
  by_cases hcolon : headIs ':' he.nam = true
  · have hlead : headIs '\\' he.nam = false := by
      cases hnam : he.nam with
      | nil => rfl
      | cons c t =>
        rw [hnam] at hcolon
        have hc : c = char ':' := by simpa [headIs] using hcolon
        rw [hc]
        rfl
    have hback : ¬ headIs ':' (char '\\' :: he.nam) = true := by
      change ¬ decide (some (char '\\') = some (char ':')) = true
      decide
    rw [if_pos hcolon, singleton_append, histEntry, if_neg hback, headIs_cons, tail_cons,
      hcolon, hlead]
    rfl
  · rw [if_neg hcolon, nil_append, histEntry, if_neg hcolon]
    rfl

/-! ## Metafied lines -/

theorem needsMetafy_wellFormed (h : metaCode.WellFormed s) : needsMetafy s = false := by
  induction h with
  | nil => rfl
  | @plain c rest hc _ ih =>
    have hc' : imeta c = false := hc
    cases rest with
    | nil => exact hc'
    | cons d rest => rw [needsMetafy, if_neg (not_imeta_ne_meta hc'), hc', ih, Bool.or_false]
  | @pair c rest _ _ ih => exact ih

theorem wellFormed_append (hs : ∀ c ∈ s, imeta c = false)
    (ht : metaCode.WellFormed t) : metaCode.WellFormed (s ++ t) := by
  induction s with
  | nil => exact ht
  | cons c s ih =>
    exact .plain (hs c mem_cons_self) (ih fun d hd ↦ hs d (mem_cons_of_mem _ hd))

set_option maxRecDepth 4000 in
theorem mem_histLead {extendedHistory : Bool} {he : HistFileEntry} (h : GoodTimes he)
    (hc : c ∈ histLead extendedHistory he) : imeta c = false ∧ c ≠ char '\n' := by
  have hfront : ∀ b ∈ Bytes.ascii ": ", imeta b = false ∧ b ≠ char '\n' := by decide
  have hdigit : ∀ b, idigit b = true → imeta b = false ∧ b ≠ char '\n' :=
    Bytes.forall_byte (by decide)
  have hlong : ∀ n : Zlong, 0 ≤ n.toInt → c ∈ printLong n → imeta c = false ∧ c ≠ char '\n' := by
    intro n hn hmem
    obtain ⟨m, -, hprint, -⟩ := printLong_eq hn
    rw [hprint] at hmem
    exact hdigit c (idigit_of_mem_decimal hmem)
  have hftim : he.ftim ≠ 0 := by
    intro h0
    have hpos := h.pos.trans_le h.le
    rw [h0] at hpos
    exact absurd hpos (by decide)
  unfold histLead at hc
  split at hc
  · rcases List.mem_append.mp hc with hc | hc
    · rcases List.mem_append.mp hc with hc | hc
      · exact hfront c hc
      · exact hlong _ h.pos.le hc
    · rcases List.mem_cons.mp hc with rfl | hc
      · decide
      · rcases List.mem_append.mp hc with hc | hc
        · exact hlong _ (by rw [h.delta]; exact sub_nonneg.mpr h.le) hc
        · rw [List.mem_singleton.mp hc]
          decide
  · split at hc
    · rw [List.mem_singleton.mp hc]
      decide
    · cases hc

/-! ## The blank at the end -/

theorem rdropWhile_append {p : UInt8 → Bool} (h : t.rdropWhile p ≠ []) :
    (s ++ t).rdropWhile p = s ++ t.rdropWhile p := by
  induction t using List.reverseRecOn with
  | nil => exact absurd rfl h
  | append_singleton t c ih =>
    rw [rdropWhile_concat] at h
    rw [← append_assoc, rdropWhile_concat, rdropWhile_concat]
    split
    · next hc =>
      rw [if_pos hc] at h
      exact ih h
    · exact append_assoc s t [c]

theorem rdropWhile_append_of_nil {p : UInt8 → Bool} (h : t.rdropWhile p = []) :
    (s ++ t).rdropWhile p = s.rdropWhile p := by
  induction t using List.reverseRecOn with
  | nil => rw [append_nil]
  | append_singleton t c ih =>
    rw [rdropWhile_concat] at h
    rw [← append_assoc, rdropWhile_concat]
    split at h
    · next hc =>
      rw [if_pos hc]
      exact ih h
    · exact absurd h (by simp)

/-- A text that is not empty and has nothing but blanks. -/
def OnlyBlanks (s : Bytes) : Prop := s ≠ [] ∧ ∀ c ∈ s, c = char ' '

instance (s : Bytes) : Decidable (OnlyBlanks s) := instDecidableAnd

theorem dropEndBlank_keep (h : (s.rdropWhile (· = char ' ')).getLast? ≠ some (char '\\'))
    (hne : s.rdropWhile (· = char ' ') = [] → s = []) : dropEndBlank s = some s := by
  rw [dropEndBlank]
  split
  · rfl
  · next hlen =>
    cases hlast : (s.rdropWhile (· = char ' ')).getLast? with
    | none =>
      rw [hne (List.getLast?_eq_none_iff.mp hlast)] at hlen
      exact absurd rfl hlen
    | some c =>
      rw [hlast] at h
      dsimp only
      rw [if_neg fun hc ↦ h (congrArg some hc)]

/-- What `readhistline` leaves of the line is what stood before the blank that was added. -/
theorem dropEndBlank_joined (he : HistFileEntry) :
    dropEndBlank (histJoined extendedHistory he) =
      if extendedHistory = false ∧ OnlyBlanks he.nam then none
      else some (histLead extendedHistory he ++ he.nam) := by
  unfold histJoined
  cases hflag : endBackslashes he.nam with
  | true =>
    have hlast := (endBackslashes_iff he.nam).mp hflag
    have hne : he.nam.rdropWhile (· = char ' ') ≠ [] := by
      intro hnil
      rw [hnil] at hlast
      cases hlast
    have hnot : ¬(extendedHistory = false ∧ OnlyBlanks he.nam) := by
      rintro ⟨-, -, hblank⟩
      exact hne (List.rdropWhile_eq_nil_iff.mpr fun c hc ↦ decide_eq_true (hblank c hc))
    have hbare : (histLead extendedHistory he ++ he.nam ++ [char ' ']).rdropWhile (· = char ' ') =
        histLead extendedHistory he ++ he.nam.rdropWhile (· = char ' ') := by
      rw [rdropWhile_concat_pos _ _ _ (by simp), rdropWhile_append hne]
    have hlen : (histLead extendedHistory he ++ he.nam.rdropWhile (· = char ' ')).length ≠
        (histLead extendedHistory he ++ he.nam ++ [char ' ']).length := by
      have hle := ( rdropWhile_prefix (· = char ' ') (l := he.nam)).length_le
      simp only [length_append, length_cons, length_nil]
      omega
    rw [if_neg hnot, if_pos rfl, dropEndBlank, hbare, if_neg hlen, List.getLast?_append, hlast]
    dsimp only [Option.or]
    rw [if_pos rfl, dropLast_concat]
  | false =>
    have hlast : (he.nam.rdropWhile (· = char ' ')).getLast? ≠ some (char '\\') := by
      rw [Ne, ← endBackslashes_iff, hflag]
      exact Bool.false_ne_true
    rw [if_neg Bool.false_ne_true, append_nil]
    by_cases hnil : he.nam.rdropWhile (· = char ' ') = []
    · have hblank : ∀ c ∈ he.nam, c = char ' ' := fun c hc ↦
        of_decide_eq_true (List.rdropWhile_eq_nil_iff.mp hnil c hc)
      cases extendedHistory with
      | true =>
        have hbare : (histLead true he ++ he.nam).rdropWhile (· = char ' ') = histLead true he := by
          rw [rdropWhile_append_of_nil hnil, histLead, if_pos rfl, ← cons_append,
            ← append_assoc, rdropWhile_concat_neg _ _ _ (by decide)]
        have hend : (histLead true he).getLast? = some (char ';') := by
          rw [histLead, if_pos rfl, ← cons_append, ← append_assoc, List.getLast?_concat]
        refine dropEndBlank_keep ?_ fun h ↦ ?_
        · rw [hbare, hend]
          decide
        · rw [hbare] at h
          rw [h] at hend
          cases hend
      | false =>
        have hcolon : ¬ headIs ':' he.nam = true := by
          cases hnam : he.nam with
          | nil => exact Bool.false_ne_true
          | cons c t =>
            rw [hblank c (by rw [hnam]; exact mem_cons_self)]
            change ¬ decide (some (char ' ') = some (char ':')) = true
            decide
        rw [histLead, if_neg Bool.false_ne_true, if_neg hcolon, nil_append]
        by_cases hempty : he.nam = []
        · rw [if_neg fun h ↦ h.2.1 hempty, hempty]
          rfl
        · rw [if_pos ⟨rfl, hempty, hblank⟩, dropEndBlank, hnil,
            if_neg fun h ↦ hempty (List.length_eq_zero_iff.mp h.symm)]
          rfl
    · have hnot : ¬(extendedHistory = false ∧ OnlyBlanks he.nam) := by
        rintro ⟨-, -, hblank⟩
        exact hnil (List.rdropWhile_eq_nil_iff.mpr fun c hc ↦ decide_eq_true (hblank c hc))
      rw [if_neg hnot]
      have hbare := rdropWhile_append (s := histLead extendedHistory he) hnil
      refine dropEndBlank_keep ?_ fun h ↦ ?_
      · rw [hbare, List.getLast?_append]
        obtain ⟨c, hc⟩ : ∃ c, (he.nam.rdropWhile (· = char ' ')).getLast? = some c :=
          ⟨_, List.getLast?_eq_some_getLast hnil⟩
        rw [hc] at hlast ⊢
        exact hlast
      · rw [hbare] at h
        exact absurd (List.append_eq_nil_iff.mp h).2 hnil

/-! ## Entries -/

/-- A metafied text and the times of a command. -/
structure GoodEntry (he : HistFileEntry) : Prop where
  nam : metaCode.WellFormed he.nam
  times : GoodTimes he

theorem histLine_eq {he : HistFileEntry} (h : GoodTimes he) :
    histLine extendedHistory he =
      escapedNewlines (histJoined extendedHistory he) ++ [char '\n'] := by
  have hlead : escapedNewlines (histLead extendedHistory he) = histLead extendedHistory he :=
    escapedNewlines_plain fun hmem ↦ (mem_histLead h hmem).2 rfl
  have hpad : escapedNewlines (if endBackslashes he.nam then [char ' '] else []) =
      if endBackslashes he.nam then [char ' '] else [] := by
    split <;> rfl
  rw [histJoined, escapedNewlines_append, escapedNewlines_append, hlead, hpad, histLine,
    histTextFrom_eq]
  rfl

theorem zero_not_mem_joined {he : HistFileEntry} (h : GoodEntry he) :
    0 ∉ histJoined extendedHistory he := by
  unfold histJoined
  rw [mem_append, mem_append, not_or, not_or]
  refine ⟨⟨fun hmem ↦ ?_, h.nam.not_mem rfl (by decide)⟩, ?_⟩
  · exact absurd (mem_histLead h.times hmem).1 (by decide)
  · split <;> decide

theorem getLast?_joined (he : HistFileEntry) :
    (histJoined extendedHistory he).getLast? ≠ some (char '\\') := by
  unfold histJoined
  cases hflag : endBackslashes he.nam with
  | true =>
    rw [if_pos rfl, List.getLast?_concat]
    decide
  | false =>
    rw [if_neg Bool.false_ne_true, append_nil, List.getLast?_append]
    cases hnam : he.nam.getLast? with
    | none =>
      rw [List.getLast?_eq_none_iff] at hnam
      cases extendedHistory with
      | true =>
        rw [histLead, if_pos rfl, ← cons_append, ← append_assoc, List.getLast?_concat]
        decide
      | false =>
        simp [histLead, hnam, headIs]
    | some c =>
      intro hc
      obtain rfl : c = char '\\' := Option.some.inj hc
      obtain ⟨front, hfront⟩ := List.getLast?_eq_some_iff.mp hnam
      have hflag' : endBackslashes he.nam = true := by
        rw [endBackslashes_iff, hfront, rdropWhile_concat_neg _ _ _ (by decide),
          List.getLast?_concat]
      rw [hflag] at hflag'
      cases hflag'

/-- What an entry must be like to come back. -/
structure Restorable (extendedHistory : Bool) (he : HistFileEntry) : Prop where
  /-- The line, every newline counted once, fits the largest buffer. -/
  fits : (histJoined extendedHistory he).length + 1 < 2 ^ 30
  blanks : extendedHistory = false → ¬ OnlyBlanks he.nam
  colon : extendedHistory = false → (headIs '\\' he.nam && headIs ':' he.nam.tail) = false

section Reading

variable (fresh : UInt8) (tim : Zlong) {extendedHistory : Bool} {he : HistFileEntry}

theorem histEntry_line (h : GoodTimes he) : ∃ read,
    histEntry tim (histLead extendedHistory he ++ he.nam) = some read ∧
      (Restorable extendedHistory he → read.nam = he.nam) ∧
      (read.nam = he.nam → extendedHistory = false →
        (headIs '\\' he.nam && headIs ':' he.nam.tail) = false) ∧
      (extendedHistory = true → read = he) := by
  cases extendedHistory with
  | true =>
    exact ⟨he, histEntry_extended tim h, fun _ ↦ rfl, fun _ hfalse ↦ (nomatch hfalse),
      fun _ ↦ rfl⟩
  | false =>
    obtain ⟨read, hread, hnam⟩ := Option.map_eq_some_iff.mp (histEntry_plain tim he)
    refine ⟨read, hread, fun hrestorable ↦ ?_, fun hsame _ ↦ ?_, fun htrue ↦ (nomatch htrue)⟩
    · rw [hnam, hrestorable.colon rfl, if_neg Bool.false_ne_true]
    · rw [hnam] at hsame
      by_cases hback : (headIs '\\' he.nam && headIs ':' he.nam.tail) = true
      · rw [if_pos hback] at hsame
        have hlen := congrArg List.length hsame
        rw [length_tail] at hlen
        cases hnil : he.nam with
        | nil =>
          rw [hnil] at hback
          cases hback
        | cons c t =>
          rw [hnil, length_cons] at hlen
          omega
      · exact Bool.eq_false_iff.mpr hback

/-- Reading the line of one entry: either there is no result, or an entry that has the text exactly if
it is to be restored. -/
theorem readhistfileFrom_line (h : GoodEntry he) (rest : Bytes) (turns : ℕ) {bufsiz : ℕ}
    (hsize : GoodSize bufsiz) :
    (¬ Restorable extendedHistory he ∧
      readhistfileFrom fresh tim (turns + 1) bufsiz (histLine extendedHistory he ++ rest) = none) ∨
    ∃ bufsiz' read, GoodSize bufsiz' ∧
      readhistfileFrom fresh tim (turns + 1) bufsiz (histLine extendedHistory he ++ rest) =
        (readhistfileFrom fresh tim turns bufsiz' rest).map (read :: ·) ∧
      (read.nam = he.nam ↔ Restorable extendedHistory he) ∧ (extendedHistory = true → read = he) := by
  have hfile : histLine extendedHistory he ++ rest =
      escapedNewlines (histJoined extendedHistory he) ++ char '\n' :: rest := by
    rw [histLine_eq _ h.times, append_assoc]
    rfl
  have hturns : (escapedNewlines (histJoined extendedHistory he)).length + rest.length + 1 <
      (escapedNewlines (histJoined extendedHistory he) ++ char '\n' :: rest).length + 1 := by
    rw [length_append, length_cons]
    omega
  have hstart : ([] : Bytes).length + 1 < bufsiz := by
    have hle := hsize.le.1
    simp only [length_nil]
    omega
  obtain ⟨hshort, hlong⟩ := readhistline_joined (zero_not_mem_joined extendedHistory h) rest hsize hstart
    hturns (getLast?_joined extendedHistory he)
  rw [nil_append] at hshort hlong
  rw [hfile, readhistfileFrom]
  by_cases hfits : (histJoined extendedHistory he).length + 1 < 2 ^ 30
  · obtain ⟨bufsiz', hsize', hread⟩ := hshort hfits
    rw [hread, dropEndBlank_joined]
    by_cases hblank : extendedHistory = false ∧ OnlyBlanks he.nam
    · rw [if_pos hblank]
      exact .inl ⟨fun hrestorable ↦ hrestorable.blanks hblank.1 hblank.2, rfl⟩
    · rw [if_neg hblank]
      obtain ⟨read, hentry, hsame, hcolon, hextended⟩ := histEntry_line tim h.times
      have hmeta : needsMetafy (histLead extendedHistory he ++ he.nam) = false :=
        needsMetafy_wellFormed (wellFormed_append (fun c hc ↦ (mem_histLead h.times hc).1) h.nam)
      refine .inr ⟨bufsiz', read, hsize', ?_, ⟨fun hnam ↦ ?_, hsame⟩, hextended⟩
      · simp only [Option.map_some, Option.bind_some, hmeta, Bool.false_eq_true, if_false, hentry]
      · exact ⟨hfits, fun hplain hb ↦ hblank ⟨hplain, hb⟩, hcolon hnam⟩
  · rw [hlong (not_lt.mp hfits)]
    exact .inl ⟨fun hrestorable ↦ hfits hrestorable.fits, rfl⟩

end Reading

/-! ## The round trip -/

/-- The file is read without an access outside of the buffer and gives back the texts in order, with
extended history their times as well. -/
def RoundTrips (fresh : UInt8) (tim : Zlong) (extendedHistory : Bool) (entries : List HistFileEntry) :
    Prop :=
  ∃ read, readhistfile fresh tim (savehistfile extendedHistory entries) = some read ∧
    read.map HistFileEntry.nam = entries.map HistFileEntry.nam ∧
    (extendedHistory = true → read.map (fun he ↦ (he.stim, he.ftim)) =
      entries.map fun he ↦ (he.stim, he.ftim))

theorem readhistfileFrom_iff {fresh : UInt8} {tim : Zlong} {extendedHistory : Bool}
    {entries : List HistFileEntry} (h : ∀ he ∈ entries, GoodEntry he) {turns bufsiz : ℕ}
    (hsize : GoodSize bufsiz) (hturns : entries.length < turns) :
    (∃ read, readhistfileFrom fresh tim turns bufsiz (savehistfile extendedHistory entries) = some read ∧
      read.map HistFileEntry.nam = entries.map HistFileEntry.nam ∧
      (extendedHistory = true → read.map (fun he ↦ (he.stim, he.ftim)) =
        entries.map fun he ↦ (he.stim, he.ftim))) ↔
      ∀ he ∈ entries, Restorable extendedHistory he := by
  induction entries generalizing turns bufsiz with
  | nil =>
    obtain ⟨turns, rfl⟩ : ∃ n, turns = n + 1 := ⟨turns - 1, by omega⟩
    exact iff_of_true ⟨[], rfl, rfl, fun _ ↦ rfl⟩ (by simp)
  | cons he entries ih =>
    obtain ⟨turns, rfl⟩ : ∃ n, turns = n + 1 := ⟨turns - 1, by omega⟩
    have hfile : savehistfile extendedHistory (he :: entries) =
        histLine extendedHistory he ++ savehistfile extendedHistory entries := rfl
    rw [hfile, forall_mem_cons]
    rcases readhistfileFrom_line fresh tim (h he mem_cons_self)
      _ turns hsize with ⟨hnot, hnone⟩ |
        ⟨bufsiz', first, hsize', hread, hfirst, htimes⟩
    · rw [hnone]
      exact iff_of_false (fun ⟨_, hsome, _⟩ ↦ nomatch hsome) fun hall ↦ hnot hall.1
    · rw [hread, ← hfirst, ← ih (fun other hother ↦ h other (mem_cons_of_mem _ hother)) hsize'
        (by simpa using hturns)]
      constructor
      · rintro ⟨read, hsome, hnam, htim⟩
        obtain ⟨read, hrest, rfl⟩ := Option.map_eq_some_iff.mp hsome
        refine ⟨(List.cons.inj hnam).1, read, hrest, (List.cons.inj hnam).2, fun hext ↦ ?_⟩
        have htim := htim hext
        exact (List.cons.inj htim).2
      · rintro ⟨hnam, read, hrest, hnams, htim⟩
        refine ⟨first :: read, by rw [hrest]; rfl, ?_, fun hext ↦ ?_⟩
        · rw [map_cons, map_cons, hnam, hnams]
        · rw [map_cons, map_cons, htim hext, htimes hext]

theorem length_le_savehistfile (entries : List HistFileEntry) :
    entries.length ≤ (savehistfile extendedHistory entries).length := by
  induction entries with
  | nil => exact le_rfl
  | cons he entries ih =>
    have hline : 1 ≤ (histLine extendedHistory he).length := by
      simp only [histLine, length_append, length_cons, length_nil]
      omega
    change entries.length + 1 ≤ (histLine extendedHistory he ++ savehistfile _ entries).length
    rw [length_append]
    omega

/-- The history file gives back what has been written to it exactly if every entry is restorable. -/
theorem roundTrips_iff (fresh : UInt8) (tim : Zlong) (extendedHistory : Bool)
    (entries : List HistFileEntry) (h : ∀ he ∈ entries, GoodEntry he) :
    RoundTrips fresh tim extendedHistory entries ↔
      ∀ he ∈ entries, Restorable extendedHistory he :=
  readhistfileFrom_iff h goodSize_start
    (Nat.lt_succ_of_le (length_le_savehistfile extendedHistory entries))

/-- A protected colon: `\:` is read as `:`. -/
def colonEntry : HistFileEntry := ⟨Bytes.ascii "\\:", 1, 1⟩

theorem goodEntry_plain {he : HistFileEntry} (hnam : ∀ c ∈ he.nam, imeta c = false)
    (h : GoodTimes he) : GoodEntry he := by
  have hformed := wellFormed_append hnam (.nil : metaCode.WellFormed [])
  rw [append_nil] at hformed
  exact ⟨hformed, h⟩

theorem roundTrips_not_colon : GoodEntry colonEntry ∧ ¬ RoundTrips 0 1 false [colonEntry] := by
  refine ⟨goodEntry_plain (by decide) ⟨?_, ?_, ?_⟩, ?_⟩
  · decide
  · decide
  · decide
  · rintro ⟨read, hread, hnam, -⟩
    cases hread
    revert hnam
    decide

/-- A text with a newline and backslashes before blanks at its end. -/
theorem roundTrips_backslashes : RoundTrips 0 1 false [⟨Bytes.ascii ":a\\\nb\\  ", 3, 5⟩] := by
  refine (roundTrips_iff 0 1 false _ fun he hhe ↦ ?_).mpr fun he hhe ↦ ?_
  · rw [List.mem_singleton.mp hhe]
    refine goodEntry_plain (by decide) ⟨?_, ?_, ?_⟩
    all_goals decide
  · rw [List.mem_singleton.mp hhe]
    exact ⟨by decide, fun _ ↦ by decide, fun _ ↦ by decide⟩

end Bsh.Shell
