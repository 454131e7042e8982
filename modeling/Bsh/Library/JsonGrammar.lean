import Bsh.Library.Bytes

/-!
# The grammar of JSON texts

The productions of RFC 8259 over bytes, with blanks wherever the grammar has them.  A string may hold
any bytes from the blank on, so that the well-formed UTF-8 texts are among the texts of the grammar.
-/

namespace Bsh.Library

open List

namespace JsonGrammar

/-- `ws`. -/
def Blanks (text : Bytes) : Prop := ∀ c ∈ text, c = 0x20 ∨ c = 0x09 ∨ c = 0x0A ∨ c = 0x0D

instance (text : Bytes) : Decidable (Blanks text) :=
  inferInstanceAs (Decidable (∀ c ∈ text, c = 0x20 ∨ c = 0x09 ∨ c = 0x0A ∨ c = 0x0D))

/-- `DIGIT`. -/
def IsDigit (c : UInt8) : Prop := 0x30 ≤ c ∧ c ≤ 0x39

instance (c : UInt8) : Decidable (IsDigit c) := inferInstanceAs (Decidable (_ ∧ _))

/-- `HEXDIG`. -/
def IsHexDigit (c : UInt8) : Prop :=
  IsDigit c ∨ (0x41 ≤ c ∧ c ≤ 0x46) ∨ (0x61 ≤ c ∧ c ≤ 0x66)

/-- One or more digits. -/
def Digits (text : Bytes) : Prop := text ≠ [] ∧ ∀ c ∈ text, IsDigit c

/-- `int`. -/
def Integer (text : Bytes) : Prop := text = [0x30] ∨ (Digits text ∧ text.head? ≠ some 0x30)

/-- `number`: the four parts of a numeral. -/
def Numeral (text : Bytes) : Prop :=
  ∃ minus int frac exp : Bytes, text = minus ++ int ++ frac ++ exp ∧
    (minus = [] ∨ minus = [0x2D]) ∧ Integer int ∧
    (frac = [] ∨ ∃ digits, Digits digits ∧ frac = 0x2E :: digits) ∧
    (exp = [] ∨ ∃ e sign digits, Digits digits ∧ (e = 0x65 ∨ e = 0x45) ∧
      (sign = [] ∨ sign = [0x2B] ∨ sign = [0x2D]) ∧ exp = e :: (sign ++ digits))

/-- `false`, `null`, `true` and the numbers. -/
def Scalar (text : Bytes) : Prop :=
  text = Bytes.ascii "false" ∨ text = Bytes.ascii "null" ∨ text = Bytes.ascii "true" ∨ Numeral text

/-- What stands between the quotes of a `string`. -/
inductive StringBody : Bytes → Prop
  | nil : StringBody []
  | unescaped {c : UInt8} {rest : Bytes} (hcontrol : 0x20 ≤ c) (hquote : c ≠ 0x22)
      (hbackslash : c ≠ 0x5C) (hrest : StringBody rest) : StringBody (c :: rest)
  | escape {c : UInt8} {rest : Bytes} (hc : c ∈ Bytes.ascii "\"\\/bfnrt")
      (hrest : StringBody rest) : StringBody (0x5C :: c :: rest)
  | unicode {digits rest : Bytes} (hlength : digits.length = 4)
      (hdigits : ∀ c ∈ digits, IsHexDigit c) (hrest : StringBody rest) :
      StringBody (0x5C :: 0x75 :: (digits ++ rest))

/-- What a text is a text of. -/
inductive Production where
  | value
  | object
  | array
  /-- The members of an object, up to its closing brace. -/
  | members
  /-- The elements of an array, up to its closing bracket. -/
  | elements

/-- One member with the blanks around its parts. -/
def memberText (before key middle after value behind : Bytes) : Bytes :=
  before ++ Bytes.quoted key ++ middle ++ 0x3A :: (after ++ value ++ behind)

/-- The texts of the productions. -/
inductive Text : Production → Bytes → Prop
  | scalar {t : Bytes} (h : Scalar t) : Text .value t
  | string {t : Bytes} (h : StringBody t) : Text .value (Bytes.quoted t)
  | ofObject {t : Bytes} (h : Text .object t) : Text .value t
  | ofArray {t : Bytes} (h : Text .array t) : Text .value t
  | emptyObject {t : Bytes} (h : Blanks t) : Text .object (0x7B :: t ++ [0x7D])
  | object {t : Bytes} (h : Text .members t) : Text .object (0x7B :: t ++ [0x7D])
  | emptyArray {t : Bytes} (h : Blanks t) : Text .array (0x5B :: t ++ [0x5D])
  | array {t : Bytes} (h : Text .elements t) : Text .array (0x5B :: t ++ [0x5D])
  | member {before key middle after value behind : Bytes} (hbefore : Blanks before)
      (hkey : StringBody key) (hmiddle : Blanks middle) (hafter : Blanks after)
      (hvalue : Text .value value) (hbehind : Blanks behind) :
      Text .members (memberText before key middle after value behind)
  | nextMember {t rest : Bytes} (h : Text .members t) (hrest : Text .members rest) :
      Text .members (t ++ 0x2C :: rest)
  | element {before value behind : Bytes} (hbefore : Blanks before) (hvalue : Text .value value)
      (hbehind : Blanks behind) : Text .elements (before ++ value ++ behind)
  | nextElement {t rest : Bytes} (h : Text .elements t) (hrest : Text .elements rest) :
      Text .elements (t ++ 0x2C :: rest)

/-! ## Bytes that are no punctuation -/

/-- A byte that neither begins nor ends a string, an escape or an object, and is not NUL. -/
def Inert (c : UInt8) : Prop := c ≠ 0x22 ∧ c ≠ 0x5C ∧ c ≠ 0x7B ∧ c ≠ 0x7D ∧ c ≠ 0

instance (c : UInt8) : Decidable (Inert c) := inferInstanceAs (Decidable (_ ∧ _ ∧ _ ∧ _ ∧ _))

variable {text : Bytes}

theorem Blanks.inert (h : Blanks text) : ∀ c ∈ text, Inert c := by
  intro c hc
  rcases h c hc with rfl | rfl | rfl | rfl <;> decide

theorem IsDigit.inert {c : UInt8} (h : IsDigit c) : Inert c := by
  obtain ⟨hlow, hhigh⟩ := h
  refine ⟨?_, ?_, ?_, ?_, ?_⟩ <;> rintro rfl <;> revert hlow hhigh <;> decide

theorem Digits.inert (h : Digits text) : ∀ c ∈ text, Inert c :=
  fun c hc ↦ (h.2 c hc).inert

theorem Integer.inert (h : Integer text) : ∀ c ∈ text, Inert c := by
  rcases h with rfl | ⟨h, -⟩
  · decide
  · exact h.inert

theorem Numeral.inert (h : Numeral text) : ∀ c ∈ text, Inert c := by
  obtain ⟨minus, int, frac, exp, rfl, hminus, hint, hfrac, hexp⟩ := h
  intro c hc
  simp only [mem_append] at hc
  rcases hc with ((hc | hc) | hc) | hc
  · rcases hminus with rfl | rfl
    · exact absurd hc not_mem_nil
    · obtain rfl := List.mem_singleton.mp hc
      decide
  · exact hint.inert c hc
  · rcases hfrac with rfl | ⟨digits, hdigits, rfl⟩
    · exact absurd hc not_mem_nil
    · rcases List.mem_cons.mp hc with rfl | hc
      · decide
      · exact hdigits.inert c hc
  · rcases hexp with rfl | ⟨e, sign, digits, hdigits, he, hsign, rfl⟩
    · exact absurd hc not_mem_nil
    · rcases List.mem_cons.mp hc with rfl | hc
      · rcases he with rfl | rfl <;> decide
      · rcases List.mem_append.mp hc with hc | hc
        · rcases hsign with rfl | rfl | rfl
          · exact absurd hc not_mem_nil
          · obtain rfl := List.mem_singleton.mp hc
            decide
          · obtain rfl := List.mem_singleton.mp hc
            decide
        · exact hdigits.inert c hc

theorem Scalar.inert (h : Scalar text) : ∀ c ∈ text, Inert c := by
  rcases h with rfl | rfl | rfl | h
  · decide
  · decide
  · decide
  · exact h.inert

theorem IsHexDigit.inert {c : UInt8} (h : IsHexDigit c) : Inert c := by
  rcases h with h | ⟨hlow, hhigh⟩ | ⟨hlow, hhigh⟩
  · exact h.inert
  all_goals
    refine ⟨?_, ?_, ?_, ?_, ?_⟩ <;> rintro rfl <;> revert hlow hhigh <;> decide

/-! ## No text contains NUL -/

theorem StringBody.ne_zero (h : StringBody text) : ∀ c ∈ text, c ≠ 0 := by
  induction h with
  | nil => exact fun c hc ↦ absurd hc not_mem_nil
  | @unescaped c rest hcontrol _ _ _ ih =>
    intro d hd
    rcases List.mem_cons.mp hd with rfl | hd
    · rintro rfl
      exact absurd hcontrol (by decide)
    · exact ih d hd
  | @escape c rest hc _ ih =>
    intro d hd
    rcases List.mem_cons.mp hd with rfl | hd
    · decide
    · rcases List.mem_cons.mp hd with rfl | hd
      · rintro rfl
        exact absurd hc (by decide)
      · exact ih d hd
  | @unicode digits rest _ hdigits _ ih =>
    intro d hd
    simp only [mem_cons, mem_append] at hd
    rcases hd with rfl | rfl | hd | hd
    · decide
    · decide
    · exact (hdigits d hd).inert.2.2.2.2
    · exact ih d hd

theorem Text.ne_zero {p : Production} (h : Text p text) : ∀ c ∈ text, c ≠ 0 := by
  have hquoted {t : Bytes} (ht : ∀ c ∈ t, c ≠ 0) : ∀ c ∈ Bytes.quoted t, c ≠ 0 := by
    intro c hc
    simp only [Bytes.quoted, mem_append, mem_cons, not_mem_nil, or_false] at hc
    rcases hc with (rfl | hc) | rfl
    · decide
    · exact ht c hc
    · decide
  have hbetween {a b : UInt8} {t : Bytes} (ha : a ≠ 0) (hb : b ≠ 0) (ht : ∀ c ∈ t, c ≠ 0) :
      ∀ c ∈ a :: t ++ [b], c ≠ 0 := by
    intro c hc
    simp only [mem_append, mem_cons, not_mem_nil, or_false] at hc
    rcases hc with (rfl | hc) | rfl
    · exact ha
    · exact ht c hc
    · exact hb
  have hblanks {t : Bytes} (ht : Blanks t) : ∀ c ∈ t, c ≠ 0 := fun c hc ↦ (ht.inert c hc).2.2.2.2
  have hcomma {t rest : Bytes} (ht : ∀ c ∈ t, c ≠ 0) (hrest : ∀ c ∈ rest, c ≠ 0) :
      ∀ c ∈ t ++ 0x2C :: rest, c ≠ 0 := by
    intro c hc
    simp only [mem_append, mem_cons] at hc
    rcases hc with hc | rfl | hc
    · exact ht c hc
    · decide
    · exact hrest c hc
  induction h with
  | scalar h => exact fun c hc ↦ (h.inert c hc).2.2.2.2
  | string h => exact hquoted h.ne_zero
  | ofObject _ ih => exact ih
  | ofArray _ ih => exact ih
  | emptyObject h => exact hbetween (by decide) (by decide) (hblanks h)
  | object _ ih => exact hbetween (by decide) (by decide) ih
  | emptyArray h => exact hbetween (by decide) (by decide) (hblanks h)
  | array _ ih => exact hbetween (by decide) (by decide) ih
  | member hbefore hkey hmiddle hafter _ hbehind ih =>
    intro c hc
    simp only [memberText, mem_append, mem_cons] at hc
    rcases hc with ((hc | hc) | hc) | rfl | (hc | hc) | hc
    · exact hblanks hbefore c hc
    · exact hquoted hkey.ne_zero c hc
    · exact hblanks hmiddle c hc
    · decide
    · exact hblanks hafter c hc
    · exact ih c hc
    · exact hblanks hbehind c hc
  | nextMember _ _ ih ihrest => exact hcomma ih ihrest
  | element hbefore _ hbehind ih =>
    intro c hc
    simp only [mem_append] at hc
    rcases hc with (hc | hc) | hc
    · exact hblanks hbefore c hc
    · exact ih c hc
    · exact hblanks hbehind c hc
  | nextElement _ _ ih ihrest => exact hcomma ih ihrest

end JsonGrammar

end Bsh.Library
