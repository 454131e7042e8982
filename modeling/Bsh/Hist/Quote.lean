import Bsh.Library.Cells
import Bsh.Shell.Numbers

/-!
# The modifiers `:q` and `:x`

`quote` and `quotebreak` count the bytes of the quoted text in a first pass, allocate that many and
write the text in a second one.  `quote` looks at the character in front of a blank, and takes the
state of the quotes from the first pass into the second.  The quoted text is read by the rules of
single quotes: the words that come out, joined by the blanks between them, are the text quoted.
-/

namespace Bsh.Hist

open Bsh.Library Bsh.Shell List

def singleQuote : UInt8 := char '\''

/-- `'\''`. -/
def escapedQuote : Bytes := [singleQuote, char '\\', singleQuote, singleQuote]

/-- A blank with the quotes closed around it. -/
def openBlank (c : UInt8) : Bytes := [singleQuote, c, singleQuote]

/-! ## The source -/

/-- `inblank(*ptr) && !inquotes && ptr[-1] != '\\'`; there is no character in front of the first. -/
def bareBlank (prev : Option UInt8) (inquotes : Bool) (c : UInt8) : Option Bool :=
  if inblank c && !inquotes then prev.map (fun p ↦ !decide (p = char '\\')) else some false

/-- The loop of `quote` that counts: `len` and `inquotes` behind it. -/
def quoteCount : Option UInt8 → Bool → ℕ → Bytes → Option (ℕ × Bool)
  | _, inquotes, len, [] => some (len, inquotes)
  | prev, inquotes, len, c :: s =>
    if c = singleQuote then quoteCount (some c) (!inquotes) (len + 3 + 1) s
    else (bareBlank prev inquotes c).bind fun bare ↦
      quoteCount (some c) inquotes (len + (if bare then 2 else 0) + 1) s

/-- The loop of `quote` that writes. -/
def quoteText : Option UInt8 → Bool → Bytes → Option Bytes
  | _, _, [] => some []
  | prev, inquotes, c :: s =>
    if c = singleQuote then (quoteText (some c) (!inquotes) s).map (escapedQuote ++ ·)
    else (bareBlank prev inquotes c).bind fun bare ↦
      (quoteText (some c) inquotes s).map ((if bare then openBlank c else [c]) ++ ·)

/-- `quote`: the memory allocated and the end of what was written to it. -/
def quote (s : Bytes) : Option (Cells UInt8 × ℕ) :=
  (quoteCount none false 3 s).bind fun (len, inquotes) ↦
    (quoteText none inquotes s).bind fun text ↦
      (Cells.sized len).bind fun room ↦
        room.storeAll 0 (singleQuote :: text ++ [singleQuote, 0])

/-- The loop of `quotebreak` that counts. -/
def quotebreakCount : ℕ → Bytes → ℕ
  | len, [] => len
  | len, c :: s =>
    quotebreakCount (len + (if c = singleQuote then 3 else if inblank c then 2 else 0) + 1) s

/-- The loop of `quotebreak` that writes. -/
def quotebreakText : Bytes → Bytes
  | [] => []
  | c :: s =>
    (if c = singleQuote then escapedQuote else if inblank c then openBlank c else [c]) ++
      quotebreakText s

def quotebreak (s : Bytes) : Option (Cells UInt8 × ℕ) :=
  (Cells.sized (quotebreakCount 3 s)).bind fun room ↦
    room.storeAll 0 (singleQuote :: quotebreakText s ++ [singleQuote, 0])

/-! ## The rules of single quotes -/

/-- A word and the words behind it, each with the blank in front of it. -/
abbrev Line := Bytes × List (UInt8 × Bytes)

/-- The words with the blanks between them. -/
def Line.joined (l : Line) : Bytes := l.1 ++ l.2.flatMap fun w ↦ w.1 :: w.2

def Line.push (c : UInt8) (l : Line) : Line := (c :: l.1, l.2)

/-- The words of a text, read inside or outside of single quotes. -/
def readLine : Bool → Bytes → Option Line
  | false, [] => some ([], [])
  | true, [] => none
  | true, c :: t => if c = singleQuote then readLine false t else (readLine true t).map (Line.push c)
  | false, [c] =>
    if c = singleQuote ∨ c = char '\\' then none
    else if inblank c then some ([], [(c, [])]) else some ([c], [])
  | false, c :: d :: t =>
    if c = singleQuote then readLine true (d :: t)
    else if c = char '\\' then (readLine false t).map (Line.push d)
    else if inblank c then (readLine false (d :: t)).map fun l ↦ ([], (c, l.1) :: l.2)
    else (readLine false (d :: t)).map (Line.push c)

/-- The memory holds a text and nothing else, and the text reads as the words of `s`. -/
def QuotedAs (s : Bytes) (result : Option (Cells UInt8 × ℕ)) : Prop :=
  ∃ text : Bytes, result = some ((text ++ [0]).map some, (text ++ [0]).length) ∧
    ∃ l, readLine false text = some l ∧ l.joined = s

/-! ## What is counted -/

/-- The blanks outside of quotes that no backslash stands in front of, when the text is read from
the given state. -/
def bareBlanks : Option UInt8 → Bool → Bytes → ℕ
  | _, _, [] => 0
  | prev, inquotes, c :: s =>
    (if inblank c = true ∧ inquotes = false ∧ prev ≠ some (char '\\') then 1 else 0) +
      bareBlanks (some c) (if c = singleQuote then !inquotes else inquotes) s

/-- The state behind a text. -/
def quotesBehind (inquotes : Bool) (s : Bytes) : Bool :=
  if Even (s.count singleQuote) then inquotes else !inquotes

theorem singleQuote_not_blank : inblank singleQuote = false := rfl

variable {c : UInt8} {text : Bytes} (p : UInt8) (inquotes : Bool) (s : Bytes)

theorem bareBlank_some (c : UInt8) :
    bareBlank (some p) inquotes c =
      some (decide (inblank c = true ∧ inquotes = false ∧ some p ≠ some (char '\\'))) := by
  unfold bareBlank
  cases hc : inblank c <;> cases inquotes <;> simp

theorem quotesBehind_cons (c : UInt8) (s : Bytes) :
    quotesBehind (if c = singleQuote then !inquotes else inquotes) s =
      quotesBehind inquotes (c :: s) := by
  unfold quotesBehind
  by_cases hc : c = singleQuote
  · rw [if_pos hc, hc, count_cons_self]
    by_cases heven : Even (s.count singleQuote)
    · rw [if_pos heven, if_neg (Nat.not_even_iff_odd.mpr heven.add_one)]
    · rw [if_neg heven, if_pos (Nat.not_even_iff_odd.mp heven).add_one, Bool.not_not]
  · rw [if_neg hc, count_cons_of_ne hc]

theorem quoteCount_some (len : ℕ) (s : Bytes) :
    quoteCount (some p) inquotes len s =
      some (len + s.length + 3 * s.count singleQuote + 2 * bareBlanks (some p) inquotes s,
        quotesBehind inquotes s) := by
  induction s generalizing p inquotes len with
  | nil => rfl
  | cons c s ih =>
    rw [quoteCount, ← quotesBehind_cons, bareBlanks, length_cons]
    by_cases hc : c = singleQuote
    · subst hc
      rw [if_pos rfl, if_pos rfl, ih, count_cons_self, singleQuote_not_blank,
        if_neg fun h ↦ Bool.false_ne_true h.1]
      congr 2
      omega
    · rw [if_neg hc, if_neg hc, bareBlank_some, Option.bind_some, ih, count_cons_of_ne hc]
      congr 2
      by_cases hbare : inblank c = true ∧ inquotes = false ∧ some p ≠ some (char '\\')
      · rw [if_pos (decide_eq_true hbare), if_pos hbare]
        omega
      · rw [if_neg (by simpa using hbare), if_neg hbare]
        omega

/-- The first character is read the same way behind any other, unless it is a blank. -/
theorem quoteCount_head (hc : inblank c = false) (inquotes : Bool) (len : ℕ) (s : Bytes) :
    quoteCount none inquotes len (c :: s) = quoteCount (some 0) inquotes len (c :: s) := by
  rw [quoteCount, quoteCount, bareBlank, bareBlank, hc, Bool.false_and, if_neg Bool.false_ne_true,
    if_neg Bool.false_ne_true]

theorem quoteText_head (hc : inblank c = false) (inquotes : Bool) (s : Bytes) :
    quoteText none inquotes (c :: s) = quoteText (some 0) inquotes (c :: s) := by
  rw [quoteText, quoteText, bareBlank, bareBlank, hc, Bool.false_and, if_neg Bool.false_ne_true,
    if_neg Bool.false_ne_true]

theorem bareBlanks_head (hc : inblank c = false) (inquotes : Bool) (s : Bytes) :
    bareBlanks none inquotes (c :: s) = bareBlanks (some 0) inquotes (c :: s) := by
  have hnot {P : Prop} : ¬ (inblank c = true ∧ P) := fun h ↦ Bool.false_ne_true (hc ▸ h.1)
  rw [bareBlanks, bareBlanks, if_neg hnot, if_neg hnot]

theorem bareBlanks_le (prev : Option UInt8) (inquotes : Bool) (s : Bytes) :
    bareBlanks prev inquotes s ≤ s.countP inblank := by
  induction s generalizing prev inquotes with
  | nil => exact Nat.le_refl 0
  | cons c s ih =>
    rw [bareBlanks, countP_cons]
    have hrest := ih (some c) (if c = singleQuote then !inquotes else inquotes)
    have hfirst : (if inblank c = true ∧ inquotes = false ∧ prev ≠ some (char '\\') then 1 else 0) ≤
        if inblank c = true then 1 else 0 := by
      by_cases hc : inblank c = true
      · split <;> omega
      · rw [if_neg fun h ↦ hc h.1]
        exact Nat.zero_le _
    omega

theorem quotebreakCount_eq (len : ℕ) (s : Bytes) :
    quotebreakCount len s =
      len + s.length + 3 * s.count singleQuote + 2 * s.countP inblank := by
  induction s generalizing len with
  | nil => rfl
  | cons c s ih =>
    rw [quotebreakCount, ih, length_cons, countP_cons]
    by_cases hc : c = singleQuote
    · rw [if_pos hc, hc, count_cons_self, singleQuote_not_blank, if_neg Bool.false_ne_true]
      omega
    · rw [if_neg hc, count_cons_of_ne hc]
      by_cases hblank : inblank c = true
      · rw [if_pos hblank, if_pos hblank]
        omega
      · rw [if_neg hblank, if_neg hblank]
        omega

/-! ## What is written -/

/-- The text, with the closing quote behind it, reads as the words of `s`. -/
def Encloses (text s : Bytes) : Prop :=
  ∃ l, readLine true (text ++ [singleQuote]) = some l ∧ l.joined = s

theorem encloses_nil : Encloses [] [] := ⟨([], []), rfl, rfl⟩

theorem Encloses.plain {s : Bytes} (h : Encloses text s) (hc : c ≠ singleQuote) :
    Encloses ([c] ++ text) (c :: s) := by
  obtain ⟨l, hread, hjoined⟩ := h
  refine ⟨l.push c, ?_, ?_⟩
  · rw [append_assoc, singleton_append, readLine, if_neg hc, hread, Option.map_some]
  · rw [← hjoined]
    rfl

theorem Encloses.escapedQuote {s : Bytes} (h : Encloses text s) :
    Encloses (escapedQuote ++ text) (singleQuote :: s) := by
  obtain ⟨l, hread, hjoined⟩ := h
  have hbackslash : ¬ char '\\' = singleQuote := by decide
  refine ⟨l.push singleQuote, ?_, ?_⟩
  · calc readLine true (Hist.escapedQuote ++ text ++ [singleQuote])
        = readLine false (char '\\' :: singleQuote :: singleQuote :: (text ++ [singleQuote])) := rfl
      _ = (readLine false (singleQuote :: (text ++ [singleQuote]))).map (Line.push singleQuote) := by
        rw [readLine, if_neg hbackslash, if_pos rfl]
      _ = (readLine true (text ++ [singleQuote])).map (Line.push singleQuote) := by
        cases text <;> rfl
      _ = some (l.push singleQuote) := by rw [hread, Option.map_some]
  · rw [← hjoined]
    rfl

theorem Encloses.openBlank {s : Bytes} (h : Encloses text s)
    (hc : inblank c = true) : Encloses (openBlank c ++ text) (c :: s) := by
  obtain ⟨l, hread, hjoined⟩ := h
  have hquote : ¬ c = singleQuote := by
    rintro rfl
    cases hc
  have hbackslash : ¬ c = char '\\' := by
    rintro rfl
    cases hc
  refine ⟨([], (c, l.1) :: l.2), ?_, ?_⟩
  · calc readLine true (Hist.openBlank c ++ text ++ [singleQuote])
        = readLine false (c :: singleQuote :: (text ++ [singleQuote])) := rfl
      _ = (readLine false (singleQuote :: (text ++ [singleQuote]))).map
          fun l ↦ ([], (c, l.1) :: l.2) := by
        rw [readLine, if_neg hquote, if_neg hbackslash, if_pos hc]
      _ = (readLine true (text ++ [singleQuote])).map fun l ↦ ([], (c, l.1) :: l.2) := by
        cases text <;> rfl
      _ = some ([], (c, l.1) :: l.2) := by rw [hread, Option.map_some]
  · rw [← hjoined]
    rfl

/-- With the quotes around it, the text is what the words of `s` are read from. -/
theorem Encloses.readLine {s : Bytes} (h : Encloses text s) :
    ∃ l, readLine false (singleQuote :: text ++ [singleQuote]) = some l ∧ l.joined = s := by
  obtain ⟨l, hread, hjoined⟩ := h
  refine ⟨l, ?_, hjoined⟩
  rw [← hread]
  cases text <;> rfl

theorem quoteText_some :
    ∃ text, quoteText (some p) inquotes s = some text ∧ Encloses text s ∧
      text.length = s.length + 3 * s.count singleQuote + 2 * bareBlanks (some p) inquotes s := by
  induction s generalizing p inquotes with
  | nil => exact ⟨[], rfl, encloses_nil, rfl⟩
  | cons c s ih =>
    rw [quoteText, bareBlanks, length_cons]
    by_cases hc : c = singleQuote
    · subst hc
      obtain ⟨text, htext, hencloses, hlength⟩ := ih singleQuote (!inquotes)
      rw [if_pos rfl, if_pos rfl, htext, Option.map_some, count_cons_self,
        singleQuote_not_blank, if_neg fun h ↦ Bool.false_ne_true h.1]
      refine ⟨_, rfl, hencloses.escapedQuote, ?_⟩
      rw [length_append, hlength]
      change 4 + _ = _
      omega
    · obtain ⟨text, htext, hencloses, hlength⟩ := ih c inquotes
      rw [if_neg hc, if_neg hc, bareBlank_some, Option.bind_some, htext, Option.map_some,
        count_cons_of_ne hc]
      refine ⟨_, rfl, ?_⟩
      by_cases hbare : inblank c = true ∧ inquotes = false ∧ some p ≠ some (char '\\')
      · rw [if_pos (decide_eq_true hbare), if_pos hbare]
        refine ⟨hencloses.openBlank hbare.1, ?_⟩
        rw [length_append, hlength]
        change 3 + _ = _
        omega
      · rw [if_neg (by simpa using hbare), if_neg hbare]
        refine ⟨hencloses.plain hc, ?_⟩
        rw [length_append, hlength, length_singleton]
        omega

theorem quotebreakText_spec :
    Encloses (quotebreakText s) s ∧
      (quotebreakText s).length =
        s.length + 3 * s.count singleQuote + 2 * s.countP inblank := by
  induction s with
  | nil => exact ⟨encloses_nil, rfl⟩
  | cons c s ih =>
    obtain ⟨hencloses, hlength⟩ := ih
    rw [quotebreakText, length_append, hlength, length_cons, countP_cons]
    by_cases hc : c = singleQuote
    · subst hc
      rw [if_pos rfl, count_cons_self, singleQuote_not_blank, if_neg Bool.false_ne_true]
      refine ⟨hencloses.escapedQuote, ?_⟩
      change 4 + _ = _
      omega
    · rw [if_neg hc, count_cons_of_ne hc]
      by_cases hblank : inblank c = true
      · rw [if_pos hblank, if_pos hblank]
        refine ⟨hencloses.openBlank hblank, ?_⟩
        change 3 + _ = _
        omega
      · rw [if_neg hblank, if_neg hblank]
        refine ⟨hencloses.plain hc, ?_⟩
        rw [length_singleton]
        omega

/-! ## Room for the text -/

theorem quotedAs_iff {n : ℕ} {s : Bytes} (h : Encloses text s) :
    QuotedAs s ((Cells.sized n).bind fun room ↦
        room.storeAll 0 (singleQuote :: text ++ [singleQuote, 0])) ↔
      wrapped 32 n = (text.length + 3 : ℕ) := by
  have hall : singleQuote :: text ++ [singleQuote, 0] = singleQuote :: text ++ [singleQuote] ++ [0] := by
    rw [append_assoc]
    rfl
  have hlength : (singleQuote :: text ++ [singleQuote, 0]).length = text.length + 3 := by
    rw [length_append, length_cons]
    rfl
  rw [← hlength, hall]
  constructor
  · rintro ⟨quoted, hfills, -⟩
    exact (Cells.sized_fills_iff.mp hfills).1
  · intro hroom
    obtain ⟨l, hread, hjoined⟩ := h.readLine
    exact ⟨_, Cells.sized_fills_iff.mpr ⟨hroom, rfl⟩, l, hread, hjoined⟩

theorem quotedAs_quotebreak_iff :
    QuotedAs s (quotebreak s) ↔
      intCount (s.length + 3 * s.count singleQuote + 2 * s.countP inblank + 3) := by
  obtain ⟨hencloses, hlength⟩ := quotebreakText_spec s
  have hcount : quotebreakCount 3 s = (quotebreakText s).length + 3 := by
    rw [quotebreakCount_eq, hlength]
    omega
  rw [quotebreak, quotedAs_iff hencloses, hcount, wrapped_int_eq_iff, hlength]

/-- `quote` does not get past a blank at the start. -/
theorem not_quotedAs_blank (hc : inblank c = true) (s : Bytes) :
    ¬ QuotedAs (c :: s) (quote (c :: s)) := by
  have hquote : ¬ c = singleQuote := by
    rintro rfl
    cases hc
  have hnone : quote (c :: s) = none := by
    rw [quote, quoteCount, if_neg hquote, bareBlank, hc]
    rfl
  rintro ⟨text, htext, -⟩
  rw [hnone] at htext
  cases htext

/-- The two passes agree on the size exactly when they find as many bare blanks. -/
theorem quotedAs_quote_iff {s : Bytes} (hhead : s.head?.any inblank = false)
    (hsize : intCount (s.length + 3 * s.count singleQuote + 2 * s.countP inblank + 3)) :
    QuotedAs s (quote s) ↔
      bareBlanks none false s = bareBlanks none (quotesBehind false s) s := by
  have hspec : ∃ text, quoteText none (quotesBehind false s) s = some text ∧ Encloses text s ∧
      text.length = s.length + 3 * s.count singleQuote +
        2 * bareBlanks none (quotesBehind false s) s := by
    cases s with
    | nil => exact ⟨[], rfl, encloses_nil, rfl⟩
    | cons c s =>
      have hc : inblank c = false := by simpa using hhead
      rw [quoteText_head hc, bareBlanks_head hc]
      exact quoteText_some _ _ _
  have hcount : quoteCount none false 3 s =
      some (s.length + 3 * s.count singleQuote + 2 * bareBlanks none false s + 3,
        quotesBehind false s) := by
    cases s with
    | nil => rfl
    | cons c s =>
      have hc : inblank c = false := by simpa using hhead
      rw [quoteCount_head hc, bareBlanks_head hc, quoteCount_some]
      congr 2
      omega
  obtain ⟨text, htext, hencloses, hlength⟩ := hspec
  have hfits : intCount (s.length + 3 * s.count singleQuote + 2 * bareBlanks none false s + 3) := by
    have hle := bareBlanks_le none false s
    unfold intCount at hsize ⊢
    omega
  rw [quote, hcount, Option.bind_some]
  dsimp only
  rw [htext, Option.bind_some, quotedAs_iff hencloses, (wrapped_int_eq_iff _).mpr hfits, hlength]
  constructor
  · omega
  · intro h
    rw [h]

/-- The texts that both modifiers quote: no blank stands at the start, the quotes are even in
number or as many bare blanks stand behind an even number of them as behind an odd one, and the
size is an `int`. -/
structure Quotable (s : Bytes) : Prop where
  head : s.head?.any inblank = false
  balanced : Even (s.count singleQuote) ∨ bareBlanks none false s = bareBlanks none true s
  size : intCount (s.length + 3 * s.count singleQuote + 2 * s.countP inblank + 3)

theorem quotedAs_iff_quotable (s : Bytes) :
    (QuotedAs s (quote s) ∧ QuotedAs s (quotebreak s)) ↔ Quotable s := by
  rw [quotedAs_quotebreak_iff]
  have hbalanced : bareBlanks none false s = bareBlanks none (quotesBehind false s) s ↔
      Even (s.count singleQuote) ∨ bareBlanks none false s = bareBlanks none true s := by
    unfold quotesBehind
    by_cases heven : Even (s.count singleQuote)
    · rw [if_pos heven]
      exact ⟨fun _ ↦ .inl heven, fun _ ↦ rfl⟩
    · rw [if_neg heven, or_iff_right heven]
      exact Iff.rfl
  constructor
  · rintro ⟨hquote, hsize⟩
    have hhead : s.head?.any inblank = false := by
      cases s with
      | nil => rfl
      | cons c s =>
        cases hc : inblank c with
        | false => exact hc
        | true => exact absurd hquote (not_quotedAs_blank hc s)
    exact ⟨hhead, hbalanced.mp ((quotedAs_quote_iff hhead hsize).mp hquote), hsize⟩
  · rintro ⟨hhead, hsame, hsize⟩
    exact ⟨(quotedAs_quote_iff hhead hsize).mpr (hbalanced.mpr hsame), hsize⟩

/-- The second pass starts inside of the quotes: room for 9 bytes is allocated, and 11 are written. -/
theorem not_quotedAs_oneQuote :
    ¬ (QuotedAs (Bytes.ascii "' a") (quote (Bytes.ascii "' a")) ∧
      QuotedAs (Bytes.ascii "' a") (quotebreak (Bytes.ascii "' a"))) := by
  rintro ⟨⟨text, htext, -⟩, -⟩
  cases htext

end Bsh.Hist
