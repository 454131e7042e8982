import Bsh.Shell.QuoteRoom
import Bsh.Shell.QuotedRound

/-!
# The buffer of `quotedzputs`

`quotedzputs` without a stream: the size of the buffer, and the text in it, which is metafied.  It
is the text of the version with a stream, but tokens are printed by one of them only, and a token in
a quoted string takes a byte more than the buffer has for it.
-/

namespace Bsh.Shell

open Bsh.Library List

/-! ## The text in the buffer -/

/-- A character other than a quote within quotes, metafied. -/
def junkQuotedHeap (env : NiceEnv) (c : UInt8) : Bytes :=
  (if c = char '\n' ∧ env.cshJunkieQuotes then [char '\\'] else []) ++ metaCode.unit c

/-- Quotes within quotes. -/
def rcQuotedHeap (env : NiceEnv) : Bytes → Bytes
  | [] => [char '\'']
  | c :: s =>
    (if c = char '\'' then char '\'' :: metaCode.unit c else junkQuotedHeap env c) ++
      rcQuotedHeap env s

/-- Quotes as in the Bourne shell. -/
def bourneQuotedHeap (env : NiceEnv) : Bool → Bytes → Bytes
  | inquote, [] => if inquote then [char '\''] else []
  | inquote, c :: s =>
    if c = char '\'' then
      (if inquote then [char '\''] else []) ++ [char '\\', char '\''] ++
        bourneQuotedHeap env false s
    else
      (if inquote then [] else [char '\'']) ++ junkQuotedHeap env c ++ bourneQuotedHeap env true s

/-- What `mb_niceformat` with `NICEFLAG_QUOTE` leaves in its string. -/
def mbNiceformatHeap (env : NiceEnv) (s : Bytes) : Bytes :=
  (unitsOf env s).flatMap fun unit ↦ unit.text env

/-- `quotedzputs` without a stream. -/
def quotedzputsHeap (env : NiceEnv) (s : Bytes) : Bytes :=
  if s = [] then [char '\'', char '\'']
  else if isMbNiceformat env s then
    [char '$', char '\''] ++ mbNiceformatHeap env s ++ [char '\'']
  else if !hasspecial env s then s
  else if env.rcQuotes then char '\'' :: rcQuotedHeap env (quotedChars s)
  else bourneQuotedHeap env false (quotedChars s)

/-- What the loop over the string adds for its quotes. -/
def quotesRoom (env : NiceEnv) : Bytes → ℕ
  | [] => 0
  | [c] => if c = char '\'' then if env.rcQuotes then 1 else 3 else 0
  | c :: d :: s =>
    if c = metaByte then quotesRoom env s
    else
      (if c = char '\'' then if env.rcQuotes then 1 else 3 else 0) + quotesRoom env (d :: s)

/-- The size of the buffer. -/
def quotedRoom (env : NiceEnv) (s : Bytes) : ℕ :=
  if s = [] then 3
  else if isMbNiceformat env s then 4 + (mbNiceformatHeap env s).length
  else if !hasspecial env s then s.length + 1
  else s.length + 2 + quotesRoom env s + 1

/-- The text fits the buffer, and it is what is printed to a stream. -/
def FitsWord (env : NiceEnv) (s : Bytes) : Prop :=
  (quotedzputsHeap env s).length + 1 ≤ quotedRoom env s ∧
    unmetafiedText (quotedzputsHeap env s) = quotedzputs env s

/-! ## When it fits -/

/-- The bytes that the buffer has no room for: one for a token other than `Dash`, and one for a
newline with `CSHJUNKIEQUOTES`. -/
def extraBytes (env : NiceEnv) (s : Bytes) : ℕ :=
  s.countP fun c ↦
    itok c && c ≠ dashToken || c = char '\n' && env.cshJunkieQuotes

/-- The parts between quotes that are not empty. -/
def quoteRuns : Bool → Bytes → ℕ
  | _, [] => 0
  | inquote, c :: s =>
    if c = char '\'' then quoteRuns false s
    else (if inquote then 0 else 1) + quoteRuns true s

/-- The text is printed with escapes, or has no tokens, or there is room for the extra bytes:
`RCQUOTES` leaves none, and otherwise there is room for two bytes at each empty part between
quotes. -/
def WordFits (env : NiceEnv) (s : Bytes) : Prop :=
  s = [] ∨ isMbNiceformat env s = true ∨
    if hasspecial env s then
      if env.rcQuotes then extraBytes env s = 0
      else extraBytes env s + 2 * quoteRuns false s ≤ 2 * (s.count (char '\'') + 1)
    else s.all (!itok ·) = true

/-! ## The texts -/

variable (env : NiceEnv) (c : UInt8)

theorem junkQuotedHeap_eq :
    junkQuotedHeap env c = metafied (junkQuoted env c) := by
  rw [junkQuotedHeap, junkQuoted]
  by_cases hnewline : c = char '\n' ∧ env.cshJunkieQuotes = true
  · rw [if_pos hnewline, if_pos hnewline]
    exact congrArg ([char '\\'] ++ ·) (append_nil _).symm
  · rw [if_neg hnewline, if_neg hnewline]
    exact (append_nil _).symm

theorem rcQuotedHeap_eq (s : Bytes) :
    rcQuotedHeap env s = metafied (rcQuoted env s) := by
  induction s with
  | nil => rfl
  | cons c s ih =>
    rw [rcQuotedHeap, rcQuoted, metafied_append, ih, junkQuotedHeap_eq]
    split
    · exact congrArg (· ++ _) (congrArg (char '\'' :: ·) (append_nil _).symm)
    · rfl

theorem bourneQuotedHeap_eq (inquote : Bool) (s : Bytes) :
    bourneQuotedHeap env inquote s = metafied (bourneQuoted env inquote s) := by
  induction s generalizing inquote with
  | nil =>
    cases inquote
    · rfl
    · rfl
  | cons c s ih =>
    rw [bourneQuotedHeap, bourneQuoted]
    by_cases hquote : c = char '\''
    · subst hquote
      rw [if_pos rfl, if_pos rfl, metafied_append, metafied_append, ih]
      cases inquote
      · rfl
      · rfl
    · rw [if_neg hquote, if_neg hquote, metafied_append, metafied_append, ih, junkQuotedHeap_eq]
      cases inquote
      · rfl
      · rfl

/-! ## Escapes -/

theorem metafied_self {b : Bytes} (hb : ∀ c ∈ b, imeta c = false) : b = metafied b :=
  (metafied_plain hb).symm

theorem controlParts_plain : ∀ d ∈ (controlParts true c).1, imeta d = false := by
  have hbackslash : ∀ d ∈ [char '\\'], imeta d = false := by decide
  rw [controlParts, if_pos rfl]
  by_cases hdel : c = 0x7F
  · rw [if_pos hdel]
    exact controlEscape_plain
  split_ifs
  · exact hbackslash
  · exact hbackslash
  · exact controlEscape_plain
  · exact forall_mem_nil _

theorem nicecharSel_metafied :
    ∃ b, nicecharSel env true c = metafied b := by
  have hescape : ∀ d ∈ (nicecharParts env true c).1, imeta d = false := by
    rw [nicecharParts]
    by_cases hprint : env.isPrint c = true
    · rw [if_pos hprint]
      exact forall_mem_nil _
    rw [if_neg hprint]
    by_cases hhigh : c &&& 0x80 ≠ 0
    · rw [if_pos hhigh]
      by_cases height : env.printEightBit = true
      · rw [if_pos height]
        exact forall_mem_nil _
      rw [if_neg height]
      by_cases hlow : env.isPrint (c &&& 0x7F) = true
      · rw [if_pos hlow]
        exact metaEscape_plain
      · rw [if_neg hlow]
        intro d hd
        obtain hd | hd := List.mem_append.mp hd
        · exact metaEscape_plain d hd
        · exact controlParts_plain _ d hd
    · rw [if_neg hhigh]
      exact controlParts_plain c
  refine ⟨(nicecharParts env true c).1 ++ [(nicecharParts env true c).2], ?_⟩
  rw [metafied_append, metafied_plain hescape]
  exact congrArg (_ ++ ·) (append_nil _).symm

theorem unconverted_metafied (c : ℕ) :
    ∃ b, unconverted env true c = metafied b := by
  have hcode (letter : UInt8) (n : ℕ) (hletter : imeta letter = false) :
      ∀ d ∈ [char '\\', letter] ++ hexText n c, imeta d = false := by
    intro d hd
    obtain hd | hd := List.mem_append.mp hd
    · obtain rfl | hd := List.mem_cons.mp hd
      · rfl
      · rw [List.mem_singleton.mp hd]
        exact hletter
    · exact (hexText_spec n c d hd).1
  rw [unconverted]
  split_ifs
  · exact ⟨_, metafied_self (hcode (char 'U') 8 rfl)⟩
  · exact ⟨_, metafied_self (hcode (char 'u') 4 rfl)⟩
  · exact nicecharSel_metafied env _

theorem text_metafied (unit : NiceUnit) : ∃ b, unit.text env = metafied b := by
  cases unit with
  | byte c => exact nicecharSel_metafied env c
  | char bytes wc =>
    rw [NiceUnit.text]
    split_ifs
    · exact ⟨_, metafied_self (by decide)⟩
    · exact ⟨_, metafied_self (by decide)⟩
    · rw [wcsNicecharSel]
      split_ifs
      · split
        · exact ⟨_, rfl⟩
        · exact unconverted_metafied env wc
      · dsimp only
        split
        · next mbstr _ =>
          refine ⟨(controlParts true (UInt8.ofNat wc)).1 ++ mbstr, ?_⟩
          rw [metafied_append, metafied_plain (controlParts_plain _)]
        · exact unconverted_metafied env _
      · exact unconverted_metafied env wc

/-- `mb_niceformat` writes the same to a string and to a stream. -/
theorem mbNiceformatHeap_eq (s : Bytes) :
    mbNiceformatHeap env s = metafied (mbNiceformat env s) := by
  rw [mbNiceformatHeap, mbNiceformat]
  induction unitsOf env s with
  | nil => rfl
  | cons unit units ih =>
    obtain ⟨b, hb⟩ := text_metafied env unit
    rw [flatMap_cons, flatMap_cons, ih, metafied_append, hb, zputs_metafied]

/-! ## Tokens -/

theorem quotesRoom_byte {c : UInt8} (hc : c ≠ metaByte) (s : Bytes) :
    quotesRoom env (c :: s) =
      (if c = char '\'' then if env.rcQuotes then 1 else 3 else 0) + quotesRoom env s := by
  cases s with
  | nil => rfl
  | cons d s => rw [quotesRoom, if_neg hc]

/-- A stream prints all but the tokens. -/
theorem zputs_length {s : Bytes} (hs : TokenText s) :
    (zputs s).length + s.countP itok = (unmetafiedText s).length := by
  induction hs with
  | nil => rfl
  | @byte c s hc _ ih =>
    have hmeta := (tokenText_byte c hc).2.1
    rw [zputs_byte hmeta, unmetafiedText_byte hmeta, countP_cons, length_cons]
    split
    · omega
    · rw [length_cons]
      omega
  | @pair c s hc _ ih =>
    have hpair : (metaByte :: (c ^^^ 32) :: s).countP itok = s.countP itok := by
      rw [countP_cons_of_neg (by decide),
        countP_cons_of_neg (Bool.eq_false_iff.mp (not_itok_flip c hc))]
    rw [zputs, if_pos rfl, unmetafiedText, if_pos rfl, hpair, length_cons, length_cons,
      ← ih]
    omega

theorem zputs_eq {s : Bytes} (hs : TokenText s) (htokens : ∀ c ∈ s, itok c = false) :
    zputs s = unmetafiedText s := by
  induction hs with
  | nil => rfl
  | @byte c s hc _ ih =>
    have hmeta := (tokenText_byte c hc).2.1
    rw [zputs_byte hmeta, unmetafiedText_byte hmeta,
      if_neg (Bool.eq_false_iff.mp (htokens c mem_cons_self)),
      ih fun d hd ↦ htokens d (mem_cons_of_mem c hd)]
  | @pair c s hc _ ih =>
    rw [zputs, if_pos rfl, unmetafiedText, if_pos rfl,
      ih fun d hd ↦ htokens d (mem_cons_of_mem _ (mem_cons_of_mem _ hd))]

theorem zputs_eq_iff {s : Bytes} (hs : TokenText s) :
    unmetafiedText s = zputs s ↔ s.all (!itok ·) = true := by
  have hall : s.all (!itok ·) = true ↔ ∀ c ∈ s, itok c = false := by
    rw [all_eq_true]
    simp only [Bool.not_eq_true']
  rw [hall]
  constructor
  · intro h
    have hlength := zputs_length hs
    rw [h] at hlength
    have hzero : s.countP itok = 0 := by omega
    intro c hc
    exact Bool.eq_false_iff.mpr (List.countP_eq_zero.mp hzero c hc)
  · exact fun h ↦ (zputs_eq hs h).symm

/-! ## Lengths -/

section Lengths

variable {env : NiceEnv}

set_option maxRecDepth 4000 in
/-- The length of one character within quotes, without a newline of its own. -/
theorem plainChar_length : ∀ c : UInt8, imeta c = false ∨ itok c = true →
    (metaCode.unit (plainChar c)).length = 1 + (if itok c && c ≠ dashToken then 1 else 0) ∧
      (plainChar c = char '\'' ↔ c = char '\'') ∧ (plainChar c = char '\n' ↔ c = char '\n') :=
  Bytes.forall_byte (by decide)

set_option maxRecDepth 4000 in
theorem flip_not_quote : ∀ c : UInt8, imeta c = true →
    c ≠ char '\'' ∧ c ≠ char '\n' ∧ c ^^^ 32 ≠ char '\'' ∧ c ^^^ 32 ≠ char '\n' :=
  Bytes.forall_byte (by decide)

theorem extraBytes_cons (c : UInt8) (s : Bytes) :
    extraBytes env (c :: s) =
      (if itok c && c ≠ dashToken || c = char '\n' && env.cshJunkieQuotes then 1 else 0) +
        extraBytes env s := by
  rw [extraBytes, countP_cons, Nat.add_comm]
  rfl

theorem extraBytes_pair {c : UInt8} (hc : imeta c = true) (s : Bytes) :
    extraBytes env (metaByte :: (c ^^^ 32) :: s) = extraBytes env s := by
  obtain ⟨_, _, _, hnewline⟩ := flip_not_quote c hc
  rw [extraBytes_cons, extraBytes_cons, not_itok_flip c hc, decide_eq_false hnewline]
  exact (Nat.zero_add _).trans (Nat.zero_add _)

theorem extraBytes_quote (s : Bytes) : extraBytes env (char '\'' :: s) = extraBytes env s := by
  have hnewline : decide (char '\'' = char '\n') = false := by decide
  have htoken : itok (char '\'') = false := by decide
  rw [extraBytes_cons, hnewline, htoken, Bool.false_and, Bool.false_and]
  exact Nat.zero_add _

theorem quotesRoom_eq {s : Bytes} (hs : TokenText s) :
    quotesRoom env s = (if env.rcQuotes then 1 else 3) * s.count (char '\'') := by
  induction hs with
  | nil => rfl
  | @byte c s hc _ ih =>
    rw [quotesRoom_byte env (tokenText_byte c hc).2.1, ih]
    by_cases hquote : c = char '\''
    · rw [if_pos hquote, hquote, count_cons_self, Nat.mul_add, Nat.mul_one, Nat.add_comm]
    · rw [if_neg hquote, count_cons_of_ne hquote, Nat.zero_add]
  | @pair c s hc _ ih =>
    obtain ⟨_, _, hquote, _⟩ := flip_not_quote c hc
    have hmeta : metaByte ≠ char '\'' := by decide
    rw [quotesRoom, if_pos rfl, ih, count_cons_of_ne hmeta, count_cons_of_ne hquote]

theorem junkQuotedHeap_byte {c : UInt8} (hc : imeta c = false ∨ itok c = true) :
    (junkQuotedHeap env (plainChar c)).length =
      1 + if itok c && c ≠ dashToken || c = char '\n' && env.cshJunkieQuotes then 1 else 0 := by
  obtain ⟨hlength, _, hnewline⟩ := plainChar_length c hc
  rw [junkQuotedHeap, length_append, hlength]
  by_cases hn : c = char '\n'
  · subst hn
    cases env.cshJunkieQuotes
    · rfl
    · rfl
  · rw [if_neg fun h ↦ hn (hnewline.mp h.1), decide_eq_false hn, Bool.false_and, Bool.or_false]
    exact Nat.zero_add _

theorem junkQuotedHeap_pair {c : UInt8} (hc : imeta c = true) :
    (junkQuotedHeap env c).length = 2 := by
  obtain ⟨_, hnewline, _, _⟩ := flip_not_quote c hc
  rw [junkQuotedHeap, if_neg fun h ↦ hnewline h.1, EscapeCode.unit_special metaCode hc]
  rfl

theorem rcQuotedHeap_length {s : Bytes} (hs : TokenText s) :
    (rcQuotedHeap env (quotedChars s)).length =
      s.length + s.count (char '\'') + extraBytes env s + 1 := by
  induction hs with
  | nil => rfl
  | @byte c s hc _ ih =>
    obtain ⟨_, hquote, _⟩ := plainChar_length c hc
    rw [quotedChars_byte (tokenText_byte c hc).2.1, rcQuotedHeap, length_append, ih,
      length_cons]
    by_cases hc' : c = char '\''
    · subst hc'
      have htwo : (char '\'' :: metaCode.unit (plainChar (char '\''))).length = 2 := rfl
      rw [if_pos (hquote.mpr rfl), htwo, extraBytes_quote, count_cons_self]
      omega
    · rw [if_neg (fun h ↦ hc' (hquote.mp h)), junkQuotedHeap_byte hc, extraBytes_cons,
        count_cons_of_ne hc']
      omega
  | @pair c s hc _ ih =>
    obtain ⟨hquote, _, hflip, _⟩ := flip_not_quote c hc
    have hmeta : metaByte ≠ char '\'' := by decide
    rw [quotedChars, if_pos rfl, flip_back, rcQuotedHeap, if_neg hquote, length_append, ih,
      junkQuotedHeap_pair hc, extraBytes_pair hc, count_cons_of_ne hmeta,
      count_cons_of_ne hflip, length_cons, length_cons]
    omega

theorem bourneQuotedHeap_length {s : Bytes} (hs : TokenText s) (inquote : Bool) :
    (bourneQuotedHeap env inquote (quotedChars s)).length =
      s.length + s.count (char '\'') + extraBytes env s + 2 * quoteRuns inquote s +
        if inquote then 1 else 0 := by
  induction hs generalizing inquote with
  | nil =>
    cases inquote
    · rfl
    · rfl
  | @byte c s hc _ ih =>
    obtain ⟨_, hquote, _⟩ := plainChar_length c hc
    rw [quotedChars_byte (tokenText_byte c hc).2.1, bourneQuotedHeap, quoteRuns, length_cons]
    by_cases hc' : c = char '\''
    · subst hc'
      rw [if_pos (hquote.mpr rfl), if_pos rfl, length_append, length_append, ih,
        extraBytes_quote, count_cons_self, if_neg Bool.false_ne_true]
      have htwo : [char '\\', char '\''].length = 2 := rfl
      have hclose : (if inquote then [char '\''] else []).length = if inquote then 1 else 0 := by
        cases inquote
        · rfl
        · rfl
      omega
    · have hopen : (if inquote then [] else [char '\'']).length = if inquote then 0 else 1 := by
        cases inquote
        · rfl
        · rfl
      rw [if_neg (fun h ↦ hc' (hquote.mp h)), if_neg hc', length_append, length_append,
        ih, junkQuotedHeap_byte hc, extraBytes_cons, count_cons_of_ne hc', if_pos rfl, hopen]
      cases inquote
      · rw [if_neg Bool.false_ne_true, if_neg Bool.false_ne_true]
        omega
      · rw [if_pos rfl, if_pos rfl]
        omega
  | @pair c s hc _ ih =>
    obtain ⟨hquote, _, hflip, _⟩ := flip_not_quote c hc
    have hmeta : metaByte ≠ char '\'' := by decide
    have hopen : (if inquote then [] else [char '\'']).length = if inquote then 0 else 1 := by
      cases inquote
      · rfl
      · rfl
    rw [quotedChars, if_pos rfl, flip_back, bourneQuotedHeap, if_neg hquote, length_append,
      length_append, ih, junkQuotedHeap_pair hc, extraBytes_pair hc, quoteRuns, if_neg hmeta,
      quoteRuns, if_neg hflip, count_cons_of_ne hmeta, count_cons_of_ne hflip,
      length_cons, length_cons, if_pos rfl, if_pos rfl, hopen]
    cases inquote
    · rw [if_neg Bool.false_ne_true, if_neg Bool.false_ne_true]
      omega
    · rw [if_pos rfl, if_pos rfl]
      omega

end Lengths

/-! ## The buffer -/

theorem fitsWord_iff {s : Bytes} (hs : TokenText s) :
    FitsWord env s ↔ WordFits env s := by
  rw [FitsWord, quotedzputsHeap, quotedRoom, quotedzputs]
  by_cases hnil : s = []
  · subst hnil
    exact iff_of_true ⟨Nat.le_refl 3, rfl⟩ (.inl rfl)
  rw [if_neg hnil, if_neg hnil, if_neg hnil]
  by_cases hnice : isMbNiceformat env s = true
  · rw [if_pos hnice, if_pos hnice, if_pos hnice, mbNiceformatHeap_eq]
    refine iff_of_true ⟨?_, ?_⟩ (.inr (.inl hnice))
    · rw [length_append, length_append, length_cons, length_singleton]
      omega
    · have hquoted : [char '$', char '\''] ++ metafied (mbNiceformat env s) ++ [char '\''] =
          metafied ([char '$', char '\''] ++ mbNiceformat env s ++ [char '\'']) := by
        rw [metafied_append, metafied_append]
        rfl
      rw [hquoted, unmetafiedText_metafied]
  rw [if_neg hnice, if_neg hnice, if_neg hnice]
  have hfits : WordFits env s ↔
      if hasspecial env s then
        if env.rcQuotes then extraBytes env s = 0
        else extraBytes env s + 2 * quoteRuns false s ≤ 2 * (s.count (char '\'') + 1)
      else s.all (!itok ·) = true := by
    exact (or_iff_right hnil).trans (or_iff_right hnice)
  rw [hfits]
  cases hspecial : hasspecial env s with
  | false =>
    exact (and_iff_right (Nat.le_refl _)).trans (zputs_eq_iff hs)
  | true =>
    have hnot : ¬ (!true) = true := by decide
    have hroom := @quotesRoom_eq env _ hs
    rw [if_neg hnot, if_neg hnot, if_neg hnot, if_pos rfl, hroom]
    cases hrc : env.rcQuotes with
    | true =>
      have hsame : char '\'' :: rcQuotedHeap env (quotedChars s) =
          metafied (char '\'' :: rcQuoted env (quotedChars s)) := by
        rw [rcQuotedHeap_eq]
        rfl
      have htext : unmetafiedText (char '\'' :: rcQuotedHeap env (quotedChars s)) =
          char '\'' :: rcQuoted env (quotedChars s) := by
        rw [hsame, unmetafiedText_metafied]
      rw [if_pos rfl, if_pos rfl, if_pos rfl, if_pos rfl, and_iff_left htext, length_cons,
        rcQuotedHeap_length hs]
      omega
    | false =>
      have htext : unmetafiedText (bourneQuotedHeap env false (quotedChars s)) =
          bourneQuoted env false (quotedChars s) := by
        rw [bourneQuotedHeap_eq, unmetafiedText_metafied]
      rw [if_neg Bool.false_ne_true, if_neg Bool.false_ne_true, if_neg Bool.false_ne_true,
        if_neg Bool.false_ne_true, and_iff_left htext, bourneQuotedHeap_length hs,
        if_neg Bool.false_ne_true]
      omega

/-- Both functions fit their buffers. -/
def QuotesFit (env : StyleEnv) (nice : NiceEnv) (s : Bytes) : Prop :=
  (∀ how shift, FitsBuffer env how shift s) ∧ FitsWord nice s

/-- Quoting in the C locale. -/
def StyleEnv.portable : StyleEnv where
  charset := Charset.portable
  multibyte := false
  banghist := true
  bangchar := char '!'
  isPrint c := 0x20 ≤ c && c < 0x7F
  bangchar_ascii := by decide
  rcQuotes := false
  magicEqualSubst := false
  extendedGlob := false
  bangSpecial := true
  spComma := false

end Bsh.Shell
