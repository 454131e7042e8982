import Bsh.Library.JsonText
import Bsh.Library.Base64
import Bsh.Library.Framing

/-!
# Flat JSON objects written byte by byte

A C program prints a JSON object with `snprintf`: quoted keys, and values that are numerals or
quoted strings.  `objectBytes` is that layout.  Printed from ASCII pieces it is read by `JSON.parse`
piece by piece, and it is a single message for a framer that cuts at closing braces exactly if no
piece contains one.
-/

namespace Bsh.Library

open List

namespace Json

open Utf Decimal Framing

/-- `"key":value`. -/
def memberBytes (member : Bytes × Bytes) : Bytes :=
  Bytes.quoted member.1 ++ 0x3A :: member.2

/-- The members of an object, separated by commas. -/
def memberListBytes : List (Bytes × Bytes) → Bytes
  | [] => []
  | [member] => memberBytes member
  | member :: next :: rest => memberBytes member ++ 0x2C :: memberListBytes (next :: rest)

/-- An object with the given keys and printed values. -/
def objectBytes (members : List (Bytes × Bytes)) : Bytes :=
  (0x7B :: memberListBytes members) ++ [0x7D]

/-! ## The same object as a JavaScript string -/

@[simp]
theorem latin1_nil : latin1 [] = [] := rfl

@[simp]
theorem latin1_cons (c : UInt8) (bytes : Bytes) :
    latin1 (c :: bytes) = c.toUInt16 :: latin1 bytes := rfl

@[simp]
theorem latin1_append (a b : Bytes) : latin1 (a ++ b) = latin1 a ++ latin1 b :=
  map_append

variable {members : List (Bytes × Bytes)} (bytes : Bytes)

@[simp]
theorem latin1_quoted : latin1 (Bytes.quoted bytes) = quotedText (latin1 bytes) := by
  simp [Bytes.quoted, quotedText]

/-- The keys and values of a printed object as JavaScript strings. -/
def memberTexts (members : List (Bytes × Bytes)) : List (JsString × JsString) :=
  members.map fun m ↦ (latin1 m.1, latin1 m.2)

theorem latin1_memberListBytes (members : List (Bytes × Bytes)) :
    latin1 (memberListBytes members ++ [0x7D]) = membersText (memberTexts members) := by
  induction members using memberListBytes.induct with
  | case1 => rfl
  | case2 m => simp [memberListBytes, memberBytes, memberTexts, membersText, memberText]
  | case3 m next rest ih =>
    have htail : membersText (memberTexts (m :: next :: rest)) =
        memberText (latin1 m.1) (latin1 m.2) ++
          0x2C :: membersText (memberTexts (next :: rest)) := rfl
    rw [htail, ← ih]
    simp [memberListBytes, memberBytes, memberText]

theorem latin1_objectBytes (members : List (Bytes × Bytes)) :
    latin1 (objectBytes members) = objectText (memberTexts members) := by
  rw [objectBytes, cons_append, latin1_cons, latin1_memberListBytes]
  rfl

/-! ## The bytes that occur in a printed object -/

/-- What holds of the punctuation and of every piece holds of every byte of the object. -/
theorem forall_memberListBytes (P : UInt8 → Prop) (hquote : P 0x22) (hcolon : P 0x3A)
    (hcomma : P 0x2C)
    (h : ∀ m ∈ members, (∀ c ∈ m.1, P c) ∧ ∀ c ∈ m.2, P c) :
    ∀ c ∈ memberListBytes members, P c := by
  have hmember {m : Bytes × Bytes} (hm : m ∈ members) : ∀ c ∈ memberBytes m, P c := by
    intro c hc
    simp only [memberBytes, Bytes.quoted, mem_append, mem_cons, not_mem_nil,
      or_false] at hc
    rcases hc with ((rfl | hc) | rfl) | rfl | hc
    · exact hquote
    · exact (h m hm).1 c hc
    · exact hquote
    · exact hcolon
    · exact (h m hm).2 c hc
  induction members using memberListBytes.induct with
  | case1 => simp [memberListBytes]
  | case2 m => exact hmember (by simp)
  | case3 m next rest ih =>
    intro c hc
    rw [memberListBytes, mem_append, mem_cons] at hc
    rcases hc with hc | rfl | hc
    · exact hmember (by simp) c hc
    · exact hcomma
    · exact ih (fun k hk ↦ h k (mem_cons_of_mem m hk))
        (fun hk ↦ hmember (mem_cons_of_mem m hk)) c hc

theorem isAscii_objectBytes
    (h : ∀ m ∈ members, IsAscii m.1 ∧ IsAscii m.2) : IsAscii (objectBytes members) := by
  have hinner : IsAscii (memberListBytes members) :=
    forall_memberListBytes (· < 0x80) (by decide) (by decide) (by decide) h
  intro c hc
  simp only [objectBytes, mem_append, mem_cons, not_mem_nil, or_false] at hc
  rcases hc with (rfl | hc) | rfl
  · decide
  · exact hinner c hc
  · decide

/-- An object without a brace in its pieces is a single message. -/
theorem cut_objectBytes
    (h : ∀ m ∈ members, 0x7D ∉ m.1 ∧ 0x7D ∉ m.2) :
    cut 0x7D (objectBytes members) = ([objectBytes members], []) := by
  have hinner : ∀ c ∈ memberListBytes members, c ≠ 0x7D := by
    apply forall_memberListBytes (· ≠ 0x7D) (by decide) (by decide) (by decide)
    exact fun m hm ↦ ⟨fun c hc heq ↦ (h m hm).1 (heq ▸ hc), fun c hc heq ↦ (h m hm).2 (heq ▸ hc)⟩
  apply cut_single
  intro hmem
  rcases List.mem_cons.mp hmem with heq | hmem
  · exact absurd heq (by decide)
  · exact hinner _ hmem rfl

/-- A brace in a value makes the object more than one message. -/
theorem cut_objectBytes_length {m : Bytes × Bytes}
    (hm : m ∈ members) (hbrace : 0x7D ∈ m.2) : 1 < (cut 0x7D (objectBytes members)).1.length := by
  have hmem : 0x7D ∈ memberListBytes members := by
    induction members using memberListBytes.induct with
    | case1 => simp at hm
    | case2 k =>
      rw [List.mem_singleton.mp hm] at hbrace
      simp [memberListBytes, memberBytes, hbrace]
    | case3 k next rest ih =>
      rw [memberListBytes, mem_append, mem_cons]
      rcases List.mem_cons.mp hm with rfl | hm
      · simp [memberBytes, hbrace]
      · exact .inr (.inr (ih hm))
  rw [length_cut, objectBytes, cons_append, count_cons, count_append]
  have hcount := List.one_le_count_iff.mpr hmem
  have hlast : List.count (0x7D : UInt8) [0x7D] = 1 := rfl
  omega

/-! ## Reading the pieces -/

variable {read : ℚ → Number}

/-- A string without quotes, backslashes and control characters is its own literal. -/
theorem plainKey_latin1 {text : Bytes}
    (h : ∀ c ∈ text, c ≠ 0x22 ∧ c ≠ 0x5C ∧ ¬ c < 0x20) : PlainKey (latin1 text) := by
  apply plainKey_of_forall
  intro c hc
  obtain ⟨b, hb, rfl⟩ := List.mem_map.mp hc
  obtain ⟨hquote, hbackslash, hcontrol⟩ := h b hb
  refine ⟨?_, ?_, ?_⟩
  · exact fun heq ↦ hquote (by simpa using congrArg UInt16.toUInt8 heq)
  · exact fun heq ↦ hbackslash (by simpa using congrArg UInt16.toUInt8 heq)
  · rwa [UInt8.lt_iff_toNat_lt] at hcontrol

theorem PlainWord.plainKey {word : Bytes} (h : PlainWord word) : PlainKey (latin1 word) := by
  apply plainKey_latin1
  intro c hc
  obtain ⟨hlow, -, hquote, hbackslash⟩ := h c hc
  exact ⟨hquote, hbackslash, UInt8.not_lt.mpr hlow⟩

theorem PlainWord.isAscii {word : Bytes} (h : PlainWord word) : IsAscii word :=
  fun c hc ↦ (h c hc).2.1

theorem reads_quoted {text : Bytes} {units : JsString} (h : ReadsUnits (latin1 text) units) :
    Reads read (latin1 (Bytes.quoted text)) (.str units) := by
  rw [latin1_quoted]
  exact reads_string h

theorem plainWord_encode : PlainWord (Base64.encode bytes) := by
  intro c hc
  obtain ⟨hascii, hquote, hbackslash, -, -, hblank, -⟩ := Base64.isTextByte_of_mem_encode hc
  exact ⟨UInt8.le_of_lt hblank, hascii, hquote, hbackslash⟩

theorem not_mem_encode_brace : 0x7D ∉ Base64.encode bytes :=
  fun h ↦ (Base64.isTextByte_of_mem_encode h).2.2.2.1 rfl

theorem reads_numeral {codes : List ℕ} {q : ℚ} (hne : codes ≠ [])
    (hcodes : ∀ c ∈ codes, isDigitCode c = true ∨ c = 0x2E) (hvalue : numberValue codes = some q) :
    Reads read (latin1 (codeBytes codes)) (.num (read q)) := by
  have hrange {c : ℕ} (hc : c ∈ codes) : 0x2E ≤ c ∧ c ≤ 0x39 := by
    rcases hcodes c hc with h | rfl
    · simp only [isDigitCode, Bool.and_eq_true, decide_eq_true_eq] at h
      omega
    · decide
  have hunit {c : ℕ} (hc : c ∈ codes) : (UInt8.ofNat c).toUInt16.toNat = c := by
    have h := hrange hc
    rw [UInt8.toNat_toUInt16, UInt8.toNat_ofNat']
    omega
  have hback : (latin1 (codeBytes codes)).map UInt16.toNat = codes := by
    simp only [latin1, codeBytes, map_map]
    calc
      List.map (UInt16.toNat ∘ UInt8.toUInt16 ∘ UInt8.ofNat) codes = List.map id codes :=
        map_congr_left fun c hc ↦ hunit hc
      _ = codes := map_id codes
  have htoken : ∀ u ∈ latin1 (codeBytes codes), 0x2E ≤ u.toNat ∧ u.toNat ≤ 0x39 := by
    intro u hu
    have hmem : u.toNat ∈ codes := by
      rw [← hback]
      exact mem_map_of_mem hu
    exact hrange hmem
  have hneUnits {u c : UInt16} (hu : u ∈ latin1 (codeBytes codes))
      (hc : c.toNat < 0x2E ∨ 0x39 < c.toNat) : u ≠ c := by
    rintro rfl
    have h := htoken u hu
    omega
  have hnames {name : JsString} (hname : ∃ c, name.head? = some c ∧ 0x39 < c.toNat) :
      latin1 (codeBytes codes) ≠ name := by
    rintro rfl
    obtain ⟨c, hc, hlarge⟩ := hname
    have h := htoken c (mem_of_mem_head? hc)
    omega
  apply reads_scalar
  · intro h
    apply hne
    rw [← hback, h]
    rfl
  · intro u hu
    simp [isDelimiter, isSpace, hneUnits hu (c := 0x20) (.inl (by decide)),
      hneUnits hu (c := 0x09) (.inl (by decide)), hneUnits hu (c := 0x0A) (.inl (by decide)),
      hneUnits hu (c := 0x0D) (.inl (by decide)), hneUnits hu (c := 0x2C) (.inl (by decide)),
      hneUnits hu (c := 0x5D) (.inr (by decide)), hneUnits hu (c := 0x7D) (.inr (by decide))]
  · intro u hu
    have hmem := mem_of_mem_head? hu
    exact ⟨hneUnits hmem (.inl (by decide)), hneUnits hmem (.inr (by decide)),
      hneUnits hmem (.inr (by decide))⟩
  · have hnull : latin1 (codeBytes codes) ≠ nullName := hnames ⟨_, rfl, by decide⟩
    have htrue : latin1 (codeBytes codes) ≠ trueName := hnames ⟨_, rfl, by decide⟩
    have hfalse : latin1 (codeBytes codes) ≠ falseName := hnames ⟨_, rfl, by decide⟩
    rw [scalarValue, if_neg hnull, if_neg htrue, if_neg hfalse, hback, hvalue]
    rfl

theorem reads_decimal (n : ℕ) : Reads read (latin1 (decimal n)) (.num (read n)) :=
  reads_numeral (decimalCodes_ne_nil n) (fun _ hc ↦ .inl (isDigitCode_of_mem_decimalCodes hc))
    (numberValue_decimalCodes n)

/-! ## Reading the object -/

/-- A printed member and the member it is read as. -/
structure ReadsMember (read : ℚ → Number) (piece : Bytes × Bytes) (m : JsString × Json) : Prop where
  key : latin1 piece.1 = m.1
  plain : PlainWord piece.1
  ascii : IsAscii piece.2
  value : Reads read (latin1 piece.2) m.2

theorem insertAll_append_of_nodup {values : List (JsString × Json)} {members : Members}
    (h : ((members ++ values).map Prod.fst).Nodup) : insertAll members values = members ++ values := by
  induction values generalizing members with
  | nil => simp [insertAll]
  | cons m rest ih =>
    obtain ⟨key, value⟩ := m
    have hnew : ∀ k ∈ members, k.1 ≠ key := by
      intro k hk heq
      rw [map_append, nodup_append] at h
      exact h.2.2 k.1 (mem_map_of_mem hk) key (by simp) heq
    have hset : ∀ ms : Members, (∀ k ∈ ms, k.1 ≠ key) →
        setMember key value ms = ms ++ [(key, value)] := by
      intro ms
      induction ms with
      | nil => intro _; rfl
      | cons k ms ihm =>
        intro hms
        obtain ⟨k, v⟩ := k
        rw [setMember, if_neg (hms (k, v) (by simp)),
          ihm fun j hj ↦ hms j (mem_cons_of_mem _ hj)]
        rfl
    rw [insertAll, hset members hnew, ih (by simpa using h)]
    simp

/-- A printed object with distinct keys is read as the object of its members. -/
theorem parse_objectBytes {pieces : List (Bytes × Bytes)} {values : List (JsString × Json)}
    (h : List.Forall₂ (ReadsMember read) pieces values) (hne : pieces ≠ [])
    (hkeys : (values.map Prod.fst).Nodup) :
    parse read (utf8Decode (objectBytes pieces)) = some (.obj values) := by
  have hascii : IsAscii (objectBytes pieces) := by
    apply isAscii_objectBytes
    intro m hm
    obtain ⟨i, hi, rfl⟩ := getElem_of_mem hm
    have hi' : i < values.length := h.length_eq ▸ hi
    have hread := h.get hi hi'
    exact ⟨hread.plain.isAscii, hread.ascii⟩
  have hpieces : List.Forall₂ (fun piece value ↦ piece.1 = value.1 ∧ PlainKey piece.1 ∧
      Reads read piece.2 value.2) (memberTexts pieces) values := by
    rw [memberTexts, forall₂_map_left_iff]
    exact h.imp fun m v hread ↦ ⟨hread.key, hread.plain.plainKey, hread.value⟩
  rw [utf8Decode_ascii hascii, latin1_objectBytes]
  have hobject := (reads_object hpieces (by simpa [memberTexts] using hne)).parse
  rwa [insertAll_append_of_nodup (by simpa using hkeys), nil_append] at hobject

end Json

end Bsh.Library
