import Bsh.Shell.KeyString

/-!
# Quoting and reading `$'...'`

What `quotestring` writes for `$'...'` spells the string byte for byte: every byte stands for itself,
behind a backslash, or as an escape that ends where the next byte's text starts.  `getkeystring`
reads any such text back.
-/

namespace Bsh.Shell

open Bsh.Library List

/-! ## Texts that spell a string -/

/-- A text for one byte in front of another text. -/
inductive Spells : UInt8 → Bytes → Bytes → Prop where
  | plain {c : UInt8} {next : Bytes} (hc : c ≠ char '\\') : Spells c (metaCode.unit c) next
  | backslash {c : UInt8} {next : Bytes} (hc : c = char '\\' ∨ c = char '\'' ∨ c = char '!') :
    Spells c [char '\\', c] next
  | escape {c : UInt8} {next : Bytes} : Spells c (unprintable c next) next

/-- A text that spells a string in front of the closing `Snull`. -/
inductive Spelled : Bytes → Bytes → Prop where
  | nil : Spelled [] []
  | cons {c : UInt8} {b piece text : Bytes} (hc : Spells c piece (text ++ [snullToken]))
    (h : Spelled b text) : Spelled (c :: b) (piece ++ text)

variable {next text x y : Bytes} (charset : Charset) (c : UInt8) (b : Bytes)

theorem Spelled.length_le {b : Bytes} (h : Spelled b text) : b.length ≤ text.length := by
  induction h with
  | nil => exact le_rfl
  | @cons c b piece text hc _ ih =>
    have hpos : 0 < piece.length := by
      cases hc with
      | plain hc =>
        unfold EscapeCode.unit
        split <;> exact Nat.succ_pos _
      | backslash hc => exact Nat.succ_pos _
      | escape =>
        unfold unprintable
        split_ifs <;> exact Nat.succ_pos _
    rw [length_cons, length_append]
    omega

set_option maxRecDepth 4000 in
theorem byte_classes : ∀ c : UInt8,
    (imeta c = false → itok c = false ∧ ¬ inull c = true) ∧
      (imeta c = true → isOctal c = false) ∧ (0x80 ≤ c → isOctal c = false) ∧
      (isOctal c = false → digitOf 8 c = none) :=
  Bytes.forall_byte (by decide)

set_option maxRecDepth 4000 in
/-- An octal digit is printable and stands for nothing else behind a backslash. -/
theorem octal_classes : ∀ c, isOctal c = true →
    0x21 ≤ c.toNat ∧ c.toNat ≤ 0x7E ∧ namedEscape c = none ∧
      c ≠ char 'M' ∧ c ≠ char 'C' ∧ c ≠ metaByte ∧ c ≠ char 'U' ∧ c ≠ char 'u' :=
  Bytes.forall_byte (by decide)

theorem not_itok (h : imeta c = false) : itok c = false := ((byte_classes c).1 h).1

theorem not_isOctal_of_imeta (h : imeta c = true) : isOctal c = false :=
  (byte_classes c).2.1 h

/-! ## Numeric escapes -/

theorem digitOf_eight (h : isOctal c = false) : digitOf 8 c = none :=
  (byte_classes c).2.2.2 h

set_option maxRecDepth 4000 in
theorem octal_digits : ∀ c : UInt8,
    zstrtol [octalDigit (c.toNat / 64 % 8), octalDigit (c.toNat / 8 % 8),
      octalDigit (c.toNat % 8)] 8 = some (BitVec.ofNat 64 c.toNat, []) ∧
    isOctal (octalDigit (c.toNat / 64 % 8)) = true ∧
    octalDigit (c.toNat / 64 % 8) ≠ char 'x' ∧
    UInt8.ofBitVec ((BitVec.ofNat 64 c.toNat).setWidth 8) = c :=
  Bytes.forall_byte (by decide)

theorem zstrtol_zero {t : Bytes} (ht : t.head?.any isOctal = false) :
    zstrtol (char '0' :: t) 8 = some (0, t) := by
  cases t with
  | nil => decide
  | cons c t =>
    have hdigit : digitOf 8 c = none := digitOf_eight c ht
    have hloop : zstrtolDigits 8 false (char '0' :: c :: t) 0 false = (0, false, c :: t) := by
      change zstrtolDigits 8 false (c :: t) 0 false = _
      rw [zstrtolDigits, if_neg (by simp), hdigit]
    unfold zstrtol zstrtolUnderscore
    have hdrop : (char '0' :: c :: t).dropWhile inblank = char '0' :: c :: t := rfl
    have hneg : (char '0' :: c :: t).head?.any isDash = false := rfl
    have hplus : headIs '+' (char '0' :: c :: t) = false := rfl
    simp only [hdrop, hneg, hplus, Bool.or_self, Bool.false_eq_true, if_false]
    have hbase (s : Bytes) : (if (8 : ℕ) = 0 then announcedBase s else (8, s)) = (8, s) := rfl
    have hrange : ¬ ((8 : ℕ) < 2 ∨ 36 < 8) := by norm_num
    simp only [hbase, hrange, if_false, hloop]
    rfl

theorem numericEscape_octal (hnext : next ≠ []) :
    numericEscape (octalDigit (c.toNat / 64 % 8))
      (octalDigit (c.toNat / 8 % 8) :: octalDigit (c.toNat % 8) :: next) = some (c, next) := by
  obtain ⟨d, rest, rfl⟩ := exists_cons_of_ne_nil hnext
  obtain ⟨hdigits, -, hx, hvalue⟩ := octal_digits c
  unfold numericEscape
  simp only [hx, if_false, length_cons, drop_zero, take_succ_cons, take_zero]
  rw [if_pos (by omega)]
  simp only [hdigits, hvalue, length_cons, length_nil]
  rfl

theorem numericEscape_zero (hnext : next.head?.any isOctal = false) :
    numericEscape (char '0') next = some (0, next) := by
  have hx : char '0' ≠ char 'x' := by decide
  have hwindow : ∃ t : Bytes, t.head?.any isOctal = false ∧
      (if 3 ≤ next.length then (char '0' :: next).take 3 else char '0' :: next) = char '0' :: t := by
    split
    · refine ⟨next.take 2, ?_, rfl⟩
      cases next with
      | nil => rfl
      | cons d next => exact hnext
    · exact ⟨next, hnext, rfl⟩
  obtain ⟨t, ht, hwindow⟩ := hwindow
  unfold numericEscape
  simp only [hx, if_false, drop_zero, hwindow, zstrtol_zero ht, length_cons,
    Nat.add_sub_cancel_left]
  rfl

/-! ## Reading -/

section Reading

variable {env : KeyEnv} {total turns : ℕ} {out : Bytes}

theorem add_eq (hposix : env.posixStrings = false) (c : UInt8) :
    KeyState.add env ⟨out, 0, false, false⟩ c = ⟨out ++ metaCode.unit c, 0, false, false⟩ := by
  unfold KeyState.add KeyState.modify
  simp [hposix]

theorem read_plain (hposix : env.posixStrings = false) {c : UInt8} (hc : c ≠ char '\\')
    (next : Bytes) :
    getkeystringFrom env total (turns + 1) ⟨out, 0, false, false⟩ (metaCode.unit c ++ next) =
      getkeystringFrom env total turns ⟨out ++ metaCode.unit c, 0, false, false⟩ next := by
  cases hmeta : imeta c with
  | true =>
    rw [EscapeCode.unit_special metaCode hmeta]
    change getkeystringFrom env total (turns + 1) _ (metaByte :: (c ^^^ 32) :: next) = _
    have hflip : c ^^^ 32 ^^^ 32 = c := metaCode.flip_flip c
    rw [getkeystringFrom, if_neg (by rintro ⟨h, -⟩; exact absurd h (by decide)),
      if_neg (by decide), if_pos rfl]
    simp only [hflip, add_eq hposix, EscapeCode.unit_special metaCode hmeta]
  | false =>
    have htoken := not_itok c hmeta
    have hsnull : c ≠ snullToken := by
      rintro rfl
      cases hmeta
    rw [EscapeCode.unit_plain metaCode hmeta]
    change getkeystringFrom env total (turns + 1) _ (c :: next) = _
    rw [getkeystringFrom.eq_def]
    dsimp only
    rw [if_neg (fun h ↦ hc h.1), if_neg hsnull,
      if_neg (not_imeta_ne_meta hmeta), if_neg (by simp [htoken]), add_eq hposix,
      EscapeCode.unit_plain metaCode hmeta]

theorem read_backslash (hposix : env.posixStrings = false) {c : UInt8}
    (hc : c = char '\\' ∨ c = char '\'' ∨ c = char '!') (next : Bytes) :
    getkeystringFrom env total (turns + 1) ⟨out, 0, false, false⟩ (char '\\' :: c :: next) =
      getkeystringFrom env total turns ⟨out ++ metaCode.unit c, 0, false, false⟩ next := by
  rw [getkeystringFrom, if_pos ⟨rfl, cons_ne_nil _ _⟩, ← add_eq hposix]
  rcases hc with rfl | rfl | rfl <;> rfl

theorem read_named (hposix : env.posixStrings = false) {letter c : UInt8}
    (hc : namedEscape letter = some c) (next : Bytes) :
    getkeystringFrom env total (turns + 1) ⟨out, 0, false, false⟩ (char '\\' :: letter :: next) =
      getkeystringFrom env total turns ⟨out ++ metaCode.unit c, 0, false, false⟩ next := by
  rw [getkeystringFrom, if_pos ⟨rfl, cons_ne_nil _ _⟩, ← add_eq hposix]
  simp only [headD_cons, hc, tail_cons]

theorem read_numeric (hposix : env.posixStrings = false) {digit c : UInt8} {rest next : Bytes}
    (hdigit : isOctal digit = true) (hc : numericEscape digit rest = some (c, next)) :
    getkeystringFrom env total (turns + 1) ⟨out, 0, false, false⟩ (char '\\' :: digit :: rest) =
      getkeystringFrom env total turns ⟨out ++ metaCode.unit c, 0, false, false⟩ next := by
  obtain ⟨-, -, hnamed, hM, hC, hmeta, hU, hu⟩ := octal_classes digit hdigit
  rw [getkeystringFrom, if_pos ⟨rfl, cons_ne_nil _ _⟩, ← add_eq hposix]
  simp only [headD_cons, hnamed, tail_cons, hM, hC, hmeta, hU, hu, or_self, if_false,
    hdigit, true_or, if_true, hc]

/-- Every text for a byte is read as this byte. -/
theorem read_spells (hposix : env.posixStrings = false) {c : UInt8} {piece next : Bytes}
    (h : Spells c piece next) (hnext : next ≠ []) :
    getkeystringFrom env total (turns + 1) ⟨out, 0, false, false⟩ (piece ++ next) =
      getkeystringFrom env total turns ⟨out ++ metaCode.unit c, 0, false, false⟩ next := by
  cases h with
  | plain hc => exact read_plain hposix hc next
  | backslash hc => exact read_backslash hposix hc next
  | escape =>
    unfold unprintable
    split_ifs with hzero hoctal ha hb hf hn hr ht hv
    · subst hzero
      have hdigit : isOctal (char '0') = true := rfl
      exact read_numeric hposix hdigit (numericEscape_octal 0 hnext)
    · subst hzero
      exact read_numeric hposix rfl (numericEscape_zero (Bool.eq_false_iff.mpr hoctal))
    · subst ha
      exact read_named hposix rfl next
    · subst hb
      exact read_named hposix rfl next
    · subst hf
      exact read_named hposix rfl next
    · subst hn
      exact read_named hposix rfl next
    · subst hr
      exact read_named hposix rfl next
    · subst ht
      exact read_named hposix rfl next
    · subst hv
      exact read_named hposix rfl next
    · refine read_numeric hposix ?_ (numericEscape_octal c hnext)
      exact (octal_digits c).2.1

/-- Whatever text spells a string is read as the string, up to the closing `Snull`. -/
theorem getkeystringFrom_spelled (hposix : env.posixStrings = false) {b text : Bytes}
    (h : Spelled b text) (hturns : b.length < turns) :
    getkeystringFrom env total turns ⟨out, 0, false, false⟩ (text ++ [snullToken]) =
      some ⟨out ++ metafied b, total⟩ := by
  obtain ⟨turns, rfl⟩ : ∃ n, turns = n + 1 := ⟨turns - 1, by omega⟩
  induction h generalizing turns out with
  | nil =>
    have hmetafied : out ++ metafied [] = out := append_nil out
    rw [hmetafied]
    rfl
  | @cons c b piece text hc _ ih =>
    rw [length_cons] at hturns
    obtain ⟨turns, rfl⟩ : ∃ n, turns = n + 1 := ⟨turns - 1, by omega⟩
    rw [append_assoc, read_spells hposix hc (by simp), ih turns (by omega)]
    rw [append_assoc]
    rfl

end Reading

/-! ## Characters of a metafied string -/

/-- The bytes of a character, and the character or `WEOF`. -/
def IsCharacter (x : Bytes) (cc : Option ℕ) : Prop :=
  (∃ c < 0x80, x = [c] ∧ (cc = some c.toNat ∨ imeta c = true ∧ cc = none)) ∨
    x ≠ [] ∧ (∀ c ∈ x, 0x80 ≤ c) ∧ ∀ wc, cc = some wc → 0x80 ≤ wc

theorem lt_or_ge_ascii : c < 0x80 ∨ 0x80 ≤ c := by
  by_cases hc : c < 0x80
  · exact Or.inl hc
  · exact Or.inr (UInt8.not_lt.mp hc)

theorem isCharacter_byte : IsCharacter [c] (some c.toNat) := by
  rcases lt_or_ge_ascii c with hc | hc
  · exact Or.inl ⟨c, hc, rfl, Or.inl rfl⟩
  · refine Or.inr ⟨cons_ne_nil _ _, ?_, ?_⟩
    · simpa using hc
    · rintro wc ⟨⟩
      exact UInt8.le_iff_toNat_le.mp hc

theorem isCharacter_eof {c : UInt8} (hc : c < 0x80 → imeta c = true) : IsCharacter [c] none := by
  rcases lt_or_ge_ascii c with hlt | hge
  · exact Or.inl ⟨c, hlt, rfl, Or.inr ⟨hc hlt, rfl⟩⟩
  · refine Or.inr ⟨cons_ne_nil _ _, ?_, by rintro wc ⟨⟩⟩
    simpa using hge

theorem mbConvert_metafied (used : ℕ)
    (st : charset.State) :
    mbConvert charset (metafied (c :: b)) used st =
      match charset.mbrtowc c st with
      | (.invalid, _) => some none
      | (.incomplete, st) => mbConvert charset (metafied b) (used + (metafied [c]).length) st
      | (.char wc, st) => some (some (used + (metafied [c]).length, wc, st)) := by
  have hsplit := metafied_append [c] b
  cases hc : imeta c with
  | true =>
    have hunit : metafied [c] = [metaByte, c ^^^ 32] := by
      rw [← append_nil (metafied [c]), metafied_cons_special hc]
      rfl
    have hflip : c ^^^ 32 ^^^ 32 = c := metaCode.flip_flip c
    rw [singleton_append] at hsplit
    rw [hsplit, hunit]
    change mbConvert charset (metaByte :: (c ^^^ 32) :: metafied b) used st = _
    rw [mbConvert, if_pos rfl, hflip]
    rfl
  | false =>
    have hunit : metafied [c] = [c] := by
      rw [← append_nil (metafied [c]), metafied_cons_plain hc]
      rfl
    have hmeta := not_imeta_ne_meta hc
    have hfalse : ¬ imeta c = true := by simp [hc]
    rw [singleton_append] at hsplit
    rw [hsplit, hunit]
    change mbConvert charset (c :: metafied b) used st = _
    cases metafied b with
    | nil =>
      rw [mbConvert, if_neg hmeta, if_neg hfalse]
      rcases charset.mbrtowc c st with ⟨_ | _ | _, _⟩ <;> rfl
    | cons d rest =>
      rw [mbConvert, if_neg hmeta, if_neg hfalse]
      rfl

/-- Behind an incomplete character, a character ends within bytes from 128 on. -/
theorem mbConvert_tail (used : ℕ) (st : charset.State)
    (hst : ∀ c < 0x80, (charset.mbrtowc c st).1 = .invalid) :
    mbConvert charset (metafied b) used st = some none ∨
      ∃ x y wc st', b = x ++ y ∧ (∀ c ∈ x, 0x80 ≤ c) ∧ 0x80 ≤ wc ∧
        mbConvert charset (metafied b) used st =
          some (some (used + (metafied x).length, wc, st')) := by
  induction b generalizing used st with
  | nil => exact Or.inl rfl
  | cons c b ih =>
    have hwide (h : (charset.mbrtowc c st).1 ≠ .invalid) : 0x80 ≤ c := by
      by_contra hlt
      exact h (hst c (UInt8.not_le.mp hlt))
    rw [mbConvert_metafied]
    cases hread : charset.mbrtowc c st with
    | mk result st' =>
      rw [hread] at hwide
      cases result with
      | invalid => exact Or.inl rfl
      | incomplete =>
        have hc := hwide (by rintro ⟨⟩)
        have hst' : ∀ d < 0x80, (charset.mbrtowc d st').1 = .invalid := by
          intro d hd
          have htail := charset.ascii_tail c d st (by rw [hread]) hd
          rwa [hread] at htail
        rcases ih _ st' hst' with hnone | hsome
        · exact Or.inl hnone
        · obtain ⟨x, y, wc, st'', rfl, hx, hwc, hconvert⟩ := hsome
          refine Or.inr ⟨c :: x, y, wc, st'', rfl, ?_, hwc, ?_⟩
          · rintro d hd
            rcases List.mem_cons.mp hd with rfl | hd
            · exact hc
            · exact hx d hd
          · have hlength : (metafied (c :: x)).length =
                (metafied [c]).length + (metafied x).length := by
              rw [← singleton_append, metafied_append, length_append]
            dsimp only
            rw [hconvert, hlength, Nat.add_assoc]
      | char wc =>
        have hc := hwide (by rintro ⟨⟩)
        refine Or.inr ⟨[c], b, wc, st', rfl, by simpa using hc, ?_, rfl⟩
        exact charset.other_char c st wc hc (by rw [hread])

theorem mbConvert_head (st : charset.State) :
    mbConvert charset (metafied (c :: b)) 0 st = some none ∨
      ∃ x y wc st', c :: b = x ++ y ∧ IsCharacter x (some wc) ∧
        mbConvert charset (metafied (c :: b)) 0 st =
          some (some ((metafied x).length, wc, st')) := by
  rw [mbConvert_metafied]
  cases hread : charset.mbrtowc c st with
  | mk result st' =>
    cases result with
    | invalid => exact Or.inl rfl
    | incomplete =>
      have hc : 0x80 ≤ c := by
        by_contra hlt
        exact charset.ascii_complete c st (UInt8.not_le.mp hlt) (by rw [hread])
      have hst' : ∀ d < 0x80, (charset.mbrtowc d st').1 = .invalid := by
        intro d hd
        have htail := charset.ascii_tail c d st (by rw [hread]) hd
        rwa [hread] at htail
      rcases mbConvert_tail charset b _ st' hst' with hnone | hsome
      · exact Or.inl hnone
      · obtain ⟨x, y, wc, st'', rfl, hx, hwc, hconvert⟩ := hsome
        refine Or.inr ⟨c :: x, y, wc, st'', rfl, Or.inr ⟨cons_ne_nil _ _, ?_, ?_⟩, ?_⟩
        · rintro d hd
          rcases List.mem_cons.mp hd with rfl | hd
          · exact hc
          · exact hx d hd
        · rintro _ ⟨⟩
          exact hwc
        · have hlength : (metafied (c :: x)).length =
              (metafied [c]).length + (metafied x).length := by
            rw [← singleton_append, metafied_append, length_append]
          dsimp only
          rw [hconvert, hlength, Nat.zero_add]
    | char wc =>
      refine Or.inr ⟨[c], b, wc, st', rfl, ?_, by rw [Nat.zero_add]⟩
      rcases lt_or_ge_ascii c with hc | hc
      · obtain rfl := charset.ascii_char c st wc hc (by rw [hread])
        exact isCharacter_byte c
      · refine Or.inr ⟨cons_ne_nil _ _, by simpa using hc, ?_⟩
        rintro _ ⟨⟩
        exact charset.other_char c st wc hc (by rw [hread])

theorem metafied_cons_head :
    ∃ h rest, metafied (c :: b) = h :: rest ∧
      (imeta c = true ∧ h = metaByte ∧ rest = (c ^^^ 32) :: metafied b ∨
        imeta c = false ∧ h = c ∧ rest = metafied b) := by
  cases hc : imeta c with
  | true =>
    refine ⟨_, _, ?_, Or.inl ⟨rfl, rfl, rfl⟩⟩
    rw [← append_nil (metafied (c :: b)), metafied_cons_special hc, append_nil]
  | false =>
    refine ⟨_, _, ?_, Or.inr ⟨rfl, rfl, rfl⟩⟩
    rw [← append_nil (metafied (c :: b)), metafied_cons_plain hc, append_nil]

theorem length_metafied_singleton :
    (metafied [c]).length = if imeta c then 2 else 1 := by
  cases hc : imeta c with
  | true =>
    rw [← append_nil (metafied [c]), metafied_cons_special hc]
    rfl
  | false =>
    rw [← append_nil (metafied [c]), metafied_cons_plain hc]
    rfl

theorem mbMetacharlenconv_metafied (multibyte : Bool) (c : UInt8) (b : Bytes)
    (st : charset.State) {h : UInt8} {rest : Bytes} (hs : metafied (c :: b) = h :: rest) :
    ∃ x y cc st', c :: b = x ++ y ∧ IsCharacter x cc ∧
      mbMetacharlenconv charset multibyte h rest st = some ((metafied x).length, cc, st') := by
  obtain ⟨h', rest', hs', hcases⟩ := metafied_cons_head c b
  rw [hs] at hs'
  cases hs'
  -- A string that is not a plain ASCII character goes through the conversion.
  have hconvert (hh : ¬ h ≤ 0x7F) (hbyte : (metafied [c]).length = byteLength h)
      (hno : ¬ (h ≠ metaByte ∧ imeta h)) (hc : c < 0x80 → imeta c = true) :
      ∃ x y cc st', c :: b = x ++ y ∧ IsCharacter x cc ∧
        mbMetacharlenconvR charset h rest st = some ((metafied x).length, cc, st') := by
    unfold mbMetacharlenconvR
    rw [if_neg hh, ← hs]
    rcases mbConvert_head charset c b st with hnone | hsome
    · refine ⟨[c], b, none, charset.initial, rfl, isCharacter_eof hc, ?_⟩
      rw [hnone, hbyte]
      rw [if_neg hno]
    · obtain ⟨x, y, wc, st', heq, hx, hsome⟩ := hsome
      exact ⟨x, y, some wc, st', heq, hx, by rw [hsome]⟩
  have hbytes := isCharacter_byte c
  unfold mbMetacharlenconv
  obtain ⟨hc, rfl, rfl⟩ | ⟨hc, rfl, rfl⟩ := hcases
  · cases multibyte with
    | false =>
      refine ⟨[c], b, some c.toNat, st, rfl, hbytes, ?_⟩
      have hflip : c ^^^ 32 ^^^ 32 = c := metaCode.flip_flip c
      rw [length_metafied_singleton, if_pos hc]
      change some (2, some (c ^^^ 32 ^^^ 32).toNat, st) = _
      rw [hflip]
    | true =>
      refine hconvert (by decide) ?_ (fun h ↦ h.1 rfl) (fun _ ↦ hc)
      rw [length_metafied_singleton, if_pos hc]
      rfl
  · have hplain := not_imeta_ne_meta hc
    have htoken := not_itok h hc
    by_cases hascii : (!multibyte || decide (h ≤ 0x7F)) = true
    · refine ⟨[h], b, some h.toNat, st, rfl, hbytes, ?_⟩
      rw [if_pos hascii, if_neg hplain, length_metafied_singleton, hc]
      rfl
    · have hh : ¬ h ≤ 0x7F := fun hle ↦ hascii (by simp [hle])
      have hlt : ¬ h < 0x80 := fun hlt ↦ hh (by
        exact Nat.le_of_lt_succ hlt)
      have hbyte : (metafied [h]).length = byteLength h := by
        rw [length_metafied_singleton, hc, byteLength, if_neg hplain]
        rfl
      obtain ⟨x, y, cc, st', heq, hx, hread⟩ :=
        hconvert hh hbyte (by simp [hc]) (fun h ↦ absurd h hlt)
      refine ⟨x, y, cc, st', heq, hx, ?_⟩
      rw [if_neg hascii, if_neg (by simp [htoken]), hread]

/-! ## Writing -/

theorem Spelled.plain_append (hx : ∀ c ∈ x, c ≠ char '\\')
    (h : Spelled y text) : Spelled (x ++ y) (metafied x ++ text) := by
  induction x with
  | nil => exact h
  | cons c x ih =>
    have hrest := ih fun d hd ↦ hx d (mem_cons_of_mem _ hd)
    have hpiece := Spelled.cons (.plain (hx c mem_cons_self)) hrest
    rw [← append_assoc] at hpiece
    exact hpiece

theorem addunprintable_metafied (len : ℕ) :
    addunprintable (metafied (c :: b)) ((metafied [c]).length + len) =
      (addunprintable (metafied b) len).map (unprintable c (metafied b) ++ ·) := by
  obtain ⟨h, rest, hs, hcases⟩ := metafied_cons_head c b
  rw [hs, length_metafied_singleton]
  obtain ⟨hc, rfl, rfl⟩ | ⟨hc, rfl, rfl⟩ := hcases
  · have hflip : c ^^^ 32 ^^^ 32 = c := metaCode.flip_flip c
    have hlen : 2 + len = len + 1 + 1 := by omega
    rw [if_pos hc, hlen, addunprintable, if_pos rfl, hflip, Nat.add_sub_cancel]
  · have hmeta := not_imeta_ne_meta hc
    have hlen : (if imeta h = true then 2 else 1) + len = len + 1 := by
      rw [hc]
      exact Nat.add_comm 1 len
    rw [hlen]
    cases metafied b with
    | nil =>
      rw [addunprintable]
      cases len with
      | zero =>
        rw [if_neg (by simp [hmeta])]
        simp [addunprintable]
      | succ len =>
        rw [if_pos (Or.inr (Nat.succ_ne_zero len))]
        rfl
    | cons d rest => rw [addunprintable, if_neg hmeta]

theorem unprintable_congr {c : UInt8} {next' : Bytes}
    (h : c = 0 → next.head?.any isOctal = next'.head?.any isOctal) :
    unprintable c next = unprintable c next' := by
  unfold unprintable
  by_cases hc : c = 0
  · rw [if_pos hc, if_pos hc, h hc]
  · rw [if_neg hc, if_neg hc]

theorem unprintable_head (next : Bytes) :
    ∃ rest, unprintable c next = char '\\' :: rest := by
  unfold unprintable
  split_ifs <;> exact ⟨_, rfl⟩

/-- The escapes for the bytes of a character spell it. -/
theorem addunprintable_spelled {cc : Option ℕ} (hx : IsCharacter x cc)
    (h : Spelled y text)
    (hnext : (text ++ [snullToken]).head?.any isOctal = (metafied y).head?.any isOctal) :
    ∃ piece, addunprintable (metafied (x ++ y)) (metafied x).length = some piece ∧
      Spelled (x ++ y) (piece ++ text) ∧ ∃ rest, piece = char '\\' :: rest := by
  have hzero (s : Bytes) : addunprintable s 0 = some [] := by cases s <;> rfl
  -- One byte in front of the text.
  have hone (c : UInt8) : addunprintable (metafied (c :: y)) (metafied [c]).length =
      some (unprintable c (text ++ [snullToken])) := by
    have hstep := addunprintable_metafied c y 0
    rw [Nat.add_zero, hzero, Option.map_some, append_nil] at hstep
    rw [hstep, unprintable_congr fun _ ↦ hnext]
  rcases hx with ⟨c, -, rfl, -⟩ | ⟨hne, hwide, -⟩
  · exact ⟨_, hone c, .cons .escape h, unprintable_head c _⟩
  · induction x with
    | nil => exact absurd rfl hne
    | cons c x ih =>
      cases x with
      | nil => exact ⟨_, hone c, .cons .escape h, unprintable_head c _⟩
      | cons d x =>
        obtain ⟨piece, hpiece, hspelled, -⟩ :=
          ih (cons_ne_nil _ _) fun e he ↦ hwide e (mem_cons_of_mem _ he)
        have hstep := addunprintable_metafied c (d :: x ++ y) (metafied (d :: x)).length
        have hlength : (metafied [c]).length + (metafied (d :: x)).length =
            (metafied (c :: d :: x)).length := by
          rw [← length_append, ← metafied_append]
          rfl
        have hc : c ≠ 0 := by
          rintro rfl
          exact absurd (hwide 0 mem_cons_self) (by decide)
        have hescape : unprintable c (metafied (d :: x ++ y)) =
            unprintable c (piece ++ text ++ [snullToken]) := unprintable_congr fun h ↦ absurd h hc
        rw [hlength, hpiece, Option.map_some, hescape] at hstep
        refine ⟨_, hstep, ?_, ?_⟩
        · rw [append_assoc]
          exact .cons .escape hspelled
        · obtain ⟨rest, hrest⟩ := unprintable_head c _
          exact ⟨rest ++ piece, by rw [hrest]; rfl⟩

theorem metafied_head_octal (rest : Bytes) :
    (metafied (c :: b) ++ rest).head?.any isOctal = isOctal c := by
  cases hc : imeta c with
  | true =>
    rw [metafied_cons_special hc, not_isOctal_of_imeta c hc]
    rfl
  | false =>
    rw [metafied_cons_plain hc]
    rfl

theorem backslash_byte {env : QuoteEnv} (hbang : env.bangchar = char '!') (c : UInt8) :
    env.backslash c.toNat = [] ∧ c ≠ char '\\' ∨
      env.backslash c.toNat = [char '\\'] ∧ (c = char '\\' ∨ c = char '\'' ∨ c = char '!') := by
  unfold QuoteEnv.backslash
  simp only [UInt8.toNat_inj, hbang]
  by_cases hspecial : c = char '\\' ∨ c = char '\''
  · rw [if_pos hspecial]
    exact Or.inr ⟨rfl, hspecial.imp_right Or.inl⟩
  · split_ifs with hhist
    · rw [Bool.and_eq_true, decide_eq_true_eq] at hhist
      exact Or.inr ⟨rfl, Or.inr (Or.inr hhist.2)⟩
    · exact Or.inl ⟨rfl, fun h ↦ hspecial (Or.inl h)⟩

theorem backslash_wide {env : QuoteEnv} (hbang : env.bangchar = char '!') {wc : ℕ}
    (hwc : 0x80 ≤ wc) : env.backslash wc = [] := by
  have hne {c : UInt8} (hc : c.toNat < 0x80) : wc ≠ c.toNat := by omega
  unfold QuoteEnv.backslash
  rw [hbang, if_neg (not_or.mpr ⟨hne (by decide), hne (by decide)⟩),
    if_neg (by simp [hne (show (char '!').toNat < 0x80 by decide)])]

theorem quoteCharacter_spelled (env : QuoteEnv)
    (hprint : ∀ c, 0x21 ≤ c → c ≤ 0x7E → env.isPrint c = true) (hbang : env.bangchar = char '!') {cc : Option ℕ} (hx : IsCharacter x cc) (h : Spelled y text)
    (hnext : (text ++ [snullToken]).head?.any isOctal = (metafied y).head?.any isOctal) :
    ∃ piece, quoteCharacter env (metafied (x ++ y)) (metafied x).length cc = some piece ∧
      Spelled (x ++ y) (piece ++ text) ∧
        (piece ++ text ++ [snullToken]).head?.any isOctal =
          (metafied (x ++ y)).head?.any isOctal := by
  have htake : (metafied (x ++ y)).take (metafied x).length = metafied x := by
    rw [metafied_append, take_left]
  have hplain (hbackslash : ∀ c ∈ x, c ≠ char '\\') :
      Spelled (x ++ y) (metafied x ++ text) ∧
        (metafied x ++ text ++ [snullToken]).head?.any isOctal =
          (metafied (x ++ y)).head?.any isOctal := by
    refine ⟨h.plain_append hbackslash, ?_⟩
    cases x with
    | nil => exact hnext
    | cons c x =>
      rw [append_assoc, metafied_head_octal, metafied_append, metafied_head_octal]
  -- An escape starts with a backslash, and what it stands for with no octal digit.
  have hescape (hhead : ∀ c rest, x = c :: rest → isOctal c = false) :
      ∃ piece, addunprintable (metafied (x ++ y)) (metafied x).length = some piece ∧
        Spelled (x ++ y) (piece ++ text) ∧
          (piece ++ text ++ [snullToken]).head?.any isOctal =
            (metafied (x ++ y)).head?.any isOctal := by
    obtain ⟨piece, hpiece, hspelled, rest, rfl⟩ := addunprintable_spelled hx h hnext
    refine ⟨_, hpiece, hspelled, ?_⟩
    obtain ⟨c, tail, rfl⟩ : ∃ c tail, x = c :: tail := by
      rcases hx with ⟨d, -, rfl, -⟩ | ⟨hne, -⟩
      · exact ⟨d, [], rfl⟩
      · exact exists_cons_of_ne_nil hne
    rw [metafied_append, metafied_head_octal, hhead c tail rfl]
    rfl
  have hprinted {wc : ℕ} (h : env.isPrint wc = true) :
      quoteCharacter env (metafied (x ++ y)) (metafied x).length (some wc) =
        some (env.backslash wc ++ metafied x) :=
    (if_pos h).trans (by rw [htake])
  rcases hx with ⟨c, hlt, rfl, hcc⟩ | ⟨hne, hwide, hwc⟩
  · rcases hcc with rfl | ⟨hmeta, rfl⟩
    · by_cases hprintable : env.isPrint c.toNat = true
      · refine ⟨_, hprinted hprintable, ?_⟩
        rcases backslash_byte hbang c with ⟨hnone, hc⟩ | ⟨hsome, hc⟩
        · rw [hnone]
          exact hplain fun d hd ↦ by rwa [List.mem_singleton.mp hd]
        · have hunit : env.backslash c.toNat ++ metafied [c] = [char '\\', c] := by
            rw [hsome]
            rcases hc with rfl | rfl | rfl <;> rfl
          rw [hunit]
          refine ⟨.cons (.backslash hc) h, ?_⟩
          rcases hc with rfl | rfl | rfl <;> rfl
      · have hnot : quoteCharacter env (metafied ([c] ++ y)) (metafied [c]).length
            (some c.toNat) = addunprintable (metafied ([c] ++ y)) (metafied [c]).length :=
          if_neg hprintable
        rw [hnot]
        refine hescape ?_
        rintro _ _ ⟨⟩
        by_contra hoctal
        rw [Bool.not_eq_false] at hoctal
        obtain ⟨hlow, hhigh, -⟩ := octal_classes c hoctal
        exact hprintable (hprint _ hlow hhigh)
    · refine hescape ?_
      rintro _ _ ⟨⟩
      exact not_isOctal_of_imeta c hmeta
  · have hoctal : ∀ c rest, x = c :: rest → isOctal c = false := by
      rintro c rest rfl
      exact (byte_classes c).2.2.1 (hwide c mem_cons_self)
    cases cc with
    | none => exact hescape hoctal
    | some wc =>
      by_cases hprintable : env.isPrint wc = true
      · refine ⟨_, hprinted hprintable, ?_⟩
        rw [backslash_wide hbang (hwc wc rfl)]
        refine hplain fun c hc ↦ ?_
        rintro rfl
        exact absurd (hwide _ hc) (by decide)
      · have hnot : quoteCharacter env (metafied (x ++ y)) (metafied x).length (some wc) =
            addunprintable (metafied (x ++ y)) (metafied x).length := if_neg hprintable
        rw [hnot]
        exact hescape hoctal

theorem quoteDollarsFrom_spelled (env : QuoteEnv)
    (hprint : ∀ c, 0x21 ≤ c → c ≤ 0x7E → env.isPrint c = true) (hbang : env.bangchar = char '!')
    (b : Bytes) (st : env.charset.State) {turns : ℕ} (hturns : b.length < turns) :
    ∃ text, quoteDollarsFrom env turns (metafied b) st = some text ∧ Spelled b text ∧
      (text ++ [snullToken]).head?.any isOctal = (metafied b).head?.any isOctal := by
  induction hn : b.length using Nat.strong_induction_on generalizing b st turns with
  | _ n ih =>
  obtain ⟨turns, rfl⟩ : ∃ n, turns = n + 1 := ⟨turns - 1, by omega⟩
  cases b with
  | nil => exact ⟨[], rfl, .nil, rfl⟩
  | cons c b =>
    obtain ⟨h, rest, hs, -⟩ := metafied_cons_head c b
    obtain ⟨x, y, cc, st', hxy, hx, hread⟩ :=
      mbMetacharlenconv_metafied env.charset env.multibyte c b st hs
    have hxne : x ≠ [] := by
      rcases hx with ⟨d, -, rfl, -⟩ | ⟨hne, -⟩
      · exact cons_ne_nil _ _
      · exact hne
    have hlength : x.length + y.length = (c :: b).length := by rw [hxy, length_append]
    have hpos := length_pos_of_ne_nil hxne
    have hturns' : y.length < turns := by omega
    obtain ⟨text, hrun, hspelled, hnext⟩ := ih y.length (by omega) y st' hturns' rfl
    obtain ⟨piece, hpiece, hwhole, hhead⟩ :=
      quoteCharacter_spelled env hprint hbang hx hspelled hnext
    have hdrop : (metafied (x ++ y)).drop (metafied x).length = metafied y := by
      rw [metafied_append, drop_left]
    rw [← hxy] at hpiece hwhole hhead hdrop
    refine ⟨piece ++ text, ?_, hwhole, hhead⟩
    rw [hs] at hpiece hdrop ⊢
    rw [quoteDollarsFrom, hread]
    dsimp only
    rw [hpiece]
    dsimp only
    rw [hdrop, hrun, Option.map_some]

/-- `getkeystring` reads back what `quotestring` writes, and consumes all of it. -/
theorem getkeystring_quotestring (quoteEnv : QuoteEnv) (keyEnv : KeyEnv)
    (hprint : ∀ c, 0x21 ≤ c → c ≤ 0x7E → quoteEnv.isPrint c = true)
    (hbang : quoteEnv.bangchar = char '!') (hposix : keyEnv.posixStrings = false) (b : Bytes) :
    ∃ text, quotestringDollars quoteEnv (metafied b) = some text ∧
      getkeystring keyEnv (text ++ [snullToken]) =
        some ⟨metafied b, (text ++ [snullToken]).length⟩ := by
  have hstart : (if (metafied b).head?.any inull then (metafied b).tail else metafied b) =
      metafied b := by
    refine if_neg ?_
    cases b with
    | nil => simp [metafied]
    | cons c b =>
      obtain ⟨h, rest, hs, hcases⟩ := metafied_cons_head c b
      rw [hs]
      obtain ⟨-, rfl, -⟩ | ⟨hc, rfl, -⟩ := hcases
      · exact Bool.false_ne_true
      · exact ((byte_classes h).1 hc).2
  have hturns : b.length < (metafied b).length + 1 := by
    rw [length_metafied]
    omega
  obtain ⟨text, hrun, hspelled, -⟩ := quoteDollarsFrom_spelled quoteEnv hprint hbang b
    _ hturns
  refine ⟨text, ?_, ?_⟩
  · unfold quotestringDollars
    rw [hstart, hrun]
  · refine getkeystringFrom_spelled hposix hspelled ?_
    have hle := hspelled.length_le
    rw [length_append, length_singleton]
    omega

/-- A NUL in front of a digit, a backslash and a byte that is no character. -/
theorem getkeystring_quotestring_nul : ∃ text,
    quotestringDollars ⟨.portable, true, true, char '!', fun wc ↦ 0x20 ≤ wc ∧ wc ≤ 0x7E⟩
      (metafied [0, char '7', char '\\', 0xFF]) = some text ∧
    getkeystring ⟨false, fun _ ↦ none⟩ (text ++ [snullToken]) =
      some ⟨metafied [0, char '7', char '\\', 0xFF], (text ++ [snullToken]).length⟩ := by
  refine getkeystring_quotestring _ _ (fun c hlow hhigh ↦ ?_) rfl rfl _
  exact decide_eq_true ⟨Nat.le_of_succ_le hlow, hhigh⟩

end Bsh.Shell
