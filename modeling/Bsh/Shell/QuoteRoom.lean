import Bsh.Shell.Passages

/-!
# The buffer of `quotestring`

What one turn of the loop writes is at most seven, four or three times what it reads, depending on
the style of quotes, apart from a newline that is the history character.  So the text fits the
buffer if no arithmetic passage is open at the end, and, with a newline as the history character, if
there are not too many newlines; and in no other case.
-/

namespace Bsh.Shell

open Bsh.Library List

/-! ## Characters -/

/-- A text of whole characters, none of them a token, in front of a string. -/
inductive WholeUnits : ℕ → Bytes → Prop
  | nil {s : Bytes} (h : TokenText s) : WholeUnits 0 s
  | byte {k : ℕ} {c : UInt8} {s : Bytes} (hc : imeta c = false) (h : WholeUnits k s) :
    WholeUnits (k + 1) (c :: s)
  | pair {k : ℕ} {c : UInt8} {s : Bytes} (hc : imeta c = true) (h : WholeUnits k s) :
    WholeUnits (k + 2) (metaByte :: (c ^^^ 32) :: s)

set_option maxRecDepth 4000 in
theorem imeta_of_token : ∀ c : UInt8, itok c = true → imeta c = true :=
  Bytes.forall_byte (by decide)

theorem token_false {c : UInt8} (hc : imeta c = false) : itok c = false :=
  Bool.eq_false_iff.mpr fun h ↦ Bool.eq_false_iff.mp hc (imeta_of_token c h)

theorem step_plain {c : UInt8} (hc : itok c = false) (next : Option UInt8) :
    Passage.step c next .outside = .outside := by
  have hne (d : UInt8) (hd : itok d = true) : c ≠ d := fun h ↦
    Bool.eq_false_iff.mp hc (h ▸ hd)
  rw [Passage.step, if_neg (not_or.mpr ⟨hne _ (by decide), hne _ (by decide)⟩),
    if_neg (not_or.mpr ⟨hne _ (by decide), hne _ (by decide)⟩)]
  exact if_neg (hne _ (by decide))

theorem unprintable_length (c : UInt8) (next : Bytes) : (unprintable c next).length ≤ 4 := by
  rw [unprintable]
  split_ifs <;> simp

namespace WholeUnits

variable {k : ℕ} {s : Bytes}

theorem length_le (h : WholeUnits k s) : k ≤ s.length := by
  induction h with
  | nil _ => exact Nat.zero_le _
  | byte _ _ ih => exact Nat.succ_le_succ ih
  | pair _ _ ih => exact Nat.add_le_add_right ih 2

theorem behind (h : WholeUnits k s) : TokenText (s.drop k) := by
  induction h with
  | nil h => exact h
  | byte _ _ ih => exact ih
  | pair _ _ ih => exact ih

theorem mathOpen_drop (h : WholeUnits k s) :
    mathOpen .outside s = mathOpen .outside (s.drop k) := by
  induction h with
  | nil _ => rfl
  | byte hc _ ih => rw [mathOpen_cons, step_plain (token_false hc), drop_succ_cons, ih]
  | @pair k c s hc _ ih =>
    have hmeta : itok metaByte = false := by decide
    rw [mathOpen_cons, step_plain hmeta, mathOpen_cons, step_plain (not_itok_flip c hc), ih]
    rfl

theorem copy (h : WholeUnits k s) : copyCharacter s k = some (s.take k, k) := by
  induction h with
  | nil _ =>
    rw [copyCharacter]
    rfl
  | @byte k c s hc h ih =>
    cases s with
    | nil =>
      have hzero : k = 0 := Nat.le_zero.mp h.length_le
      subst hzero
      rw [copyCharacter, if_neg (not_or.mpr ⟨not_imeta_ne_meta hc, not_not.mpr rfl⟩)]
      rfl
    | cons d s =>
      rw [copyCharacter, if_neg (not_imeta_ne_meta hc), ih]
      rfl
  | pair _ _ ih =>
    rw [copyCharacter, if_pos rfl, Nat.add_sub_cancel, ih]
    rfl

theorem escaped (h : WholeUnits k s) :
    ∃ text, addunprintable s k = some text ∧ text.length ≤ 4 * k := by
  induction h with
  | nil _ => exact ⟨[], by rw [addunprintable], Nat.zero_le _⟩
  | @byte k c s hc h ih =>
    cases s with
    | nil =>
      have hzero : k = 0 := Nat.le_zero.mp h.length_le
      subst hzero
      refine ⟨unprintable c [], ?_, unprintable_length c []⟩
      rw [addunprintable, if_neg (not_or.mpr ⟨not_imeta_ne_meta hc, not_not.mpr rfl⟩)]
    | cons d s =>
      obtain ⟨text, htext, hle⟩ := ih
      refine ⟨unprintable c (d :: s) ++ text, ?_, ?_⟩
      · rw [addunprintable, if_neg (not_imeta_ne_meta hc), htext]
        rfl
      · have hone := unprintable_length c (d :: s)
        rw [length_append]
        omega
  | @pair k c s hc h ih =>
    obtain ⟨text, htext, hle⟩ := ih
    refine ⟨unprintable (c ^^^ 32 ^^^ 32) s ++ text, ?_, ?_⟩
    · rw [addunprintable, if_pos rfl, Nat.add_sub_cancel, htext]
      rfl
    · have hone := unprintable_length (c ^^^ 32 ^^^ 32) s
      rw [length_append]
      omega

end WholeUnits

theorem mbConvert_units_whole (charset : Charset) {s : Bytes} (h : TokenText s) (used : ℕ)
    (st : charset.State) :
    mbConvert charset s used st = some none ∨ ∃ k wc st',
      mbConvert charset s used st = some (some (used + k, wc, st')) ∧ 0 < k ∧ WholeUnits k s := by
  induction h generalizing used st with
  | nil => exact .inl rfl
  | @byte c s hc h ih =>
    have hmeta := (tokenText_byte c hc).2.1
    cases hplain : imeta c with
    | true =>
      apply Or.inl
      cases s with
      | nil => rw [mbConvert, if_neg hmeta, if_pos hplain]
      | cons d s => rw [mbConvert, if_neg hmeta, if_pos hplain]
    | false =>
      cases s with
      | nil =>
        rw [mbConvert, if_neg hmeta, if_neg (Bool.eq_false_iff.mp hplain)]
        split
        · next wc st' _ => exact .inr ⟨1, wc, st', rfl, Nat.one_pos, .byte hplain (.nil .nil)⟩
        · exact .inl rfl
      | cons d s =>
        rw [mbConvert, if_neg hmeta, if_neg (Bool.eq_false_iff.mp hplain)]
        split
        · exact .inl rfl
        · next st' _ =>
          obtain hnone | ⟨k, wc, st'', hsome, _, hk⟩ := ih (used + 1) st'
          · exact .inl hnone
          · refine .inr ⟨k + 1, wc, st'', ?_, Nat.succ_pos k, .byte hplain hk⟩
            rw [hsome, Nat.add_assoc, Nat.add_comm 1 k]
        · next wc st' _ => exact .inr ⟨1, wc, st', rfl, Nat.one_pos, .byte hplain (.nil h)⟩
  | @pair c s hc h ih =>
    rw [mbConvert, if_pos rfl]
    split
    · exact .inl rfl
    · next st' _ =>
      obtain hnone | ⟨k, wc, st'', hsome, _, hk⟩ := ih (used + 2) st'
      · exact .inl hnone
      · refine .inr ⟨k + 2, wc, st'', ?_, Nat.succ_pos _, .pair hc hk⟩
        rw [hsome, Nat.add_assoc, Nat.add_comm 2 k]
    · next wc st' _ => exact .inr ⟨2, wc, st', rfl, Nat.two_pos, .pair hc (.nil h)⟩

theorem mbMetacharlenconv_units (charset : Charset) (multibyte : Bool) {c : UInt8} {rest : Bytes}
    (h : TokenText (c :: rest)) (st : charset.State) :
    ∃ len cc st', mbMetacharlenconv charset multibyte c rest st = some (len, cc, st') ∧ 0 < len ∧
      (WholeUnits len (c :: rest) ∨ itok c = true ∧ len = 1) := by
  have hbyte (hc : c ≠ metaByte) : WholeUnits 1 (c :: rest) ∨ itok c = true ∧ 1 = 1 := by
    cases h with
    | byte hplain h =>
      obtain hplain | htoken := hplain
      · exact .inl (.byte hplain (.nil h))
      · exact .inr ⟨htoken, rfl⟩
    | pair _ _ => exact absurd rfl hc
  have hpair (hc : c = metaByte) : ∃ d s, rest = d :: s ∧ WholeUnits 2 (c :: rest) := by
    cases h with
    | byte hplain _ => exact absurd hc (tokenText_byte c hplain).2.1
    | pair hd h => exact ⟨_, _, rfl, .pair hd (.nil h)⟩
  rw [mbMetacharlenconv]
  by_cases hsingle : (!multibyte || decide (c ≤ 0x7F)) = true
  · rw [if_pos hsingle]
    by_cases hmeta : c = metaByte
    · obtain ⟨d, s, rfl, hwhole⟩ := hpair hmeta
      rw [if_pos hmeta]
      exact ⟨2, _, st, rfl, Nat.two_pos, .inl hwhole⟩
    · rw [if_neg hmeta]
      exact ⟨1, _, st, rfl, Nat.one_pos, hbyte hmeta⟩
  · rw [if_neg hsingle]
    by_cases htoken : itok c = true
    · rw [if_pos htoken]
      exact ⟨1, none, st, rfl, Nat.one_pos, .inr ⟨htoken, rfl⟩⟩
    · have hlow : ¬ c ≤ 0x7F := fun hlow ↦
        hsingle (by rw [decide_eq_true hlow, Bool.or_true])
      rw [if_neg htoken, mbMetacharlenconvR, if_neg hlow]
      obtain hnone | ⟨k, wc, st', hsome, hpos, hwhole⟩ := mbConvert_units_whole charset h 0 st
      · rw [hnone]
        by_cases hmeta : c = metaByte
        · obtain ⟨d, s, rfl, hwhole⟩ := hpair hmeta
          rw [if_neg fun h ↦ h.1 hmeta, byteLength, if_pos hmeta]
          exact ⟨2, none, _, rfl, Nat.two_pos, .inl hwhole⟩
        · have hspecial : ¬ (c ≠ metaByte ∧ imeta c = true) := by
            rintro ⟨_, hspecial⟩
            cases h with
            | byte hplain _ =>
              obtain hplain | hplain := hplain
              · exact absurd hspecial (Bool.eq_false_iff.mp hplain)
              · exact htoken hplain
            | pair _ _ => exact hmeta rfl
          rw [if_neg hspecial, byteLength, if_neg hmeta]
          exact ⟨1, none, _, rfl, Nat.one_pos, hbyte hmeta⟩
      · rw [hsome]
        exact ⟨0 + k, some wc, st', rfl, by omega, .inl (by rwa [Nat.zero_add])⟩

/-! ## One turn -/

section Turns

variable {env : StyleEnv} {how : QuoteType} {prev : Option UInt8} {c : UInt8} {rest : Bytes}
  {st : QuoteState env.charset}

/-- The backslash that a character may need. -/
def backslashText (dobackslash : Bool) : Bytes := if dobackslash then [char '\\'] else []

/-- What a turn can do. -/
inductive StyleTurn (env : StyleEnv) (how : QuoteType) (prev : Option UInt8) (c : UInt8)
    (rest : Bytes) (st : QuoteState env.charset) : QuoteState env.charset → ℕ → Prop
  | tick (hc : c = tickToken ∨ c = qtickToken) :
    StyleTurn env how prev c rest st (st.put (c :: rest.takeWhile (· ≠ c) ++ [c]))
      (1 + (rest.takeWhile (· ≠ c)).length +
        if (rest.takeWhile (· ≠ c)).length < rest.length then 1 else 0)
  | dollar (hc : c = qstringToken ∨ c = char '$') (hd : rest.head? = some (char '\''))
    (hhow : how = .double) : StyleTurn env how prev c rest st (st.put [c, char '\'']) 2
  | subst {close : UInt8} (hc : c = stringToken ∨ c = qstringToken)
    (hclose : rest.head?.bind closingToken = some close) :
    StyleTurn env how prev c rest st (st.put (c :: rest.take (1 + substLength c close 0 rest.tail)))
      (1 + (1 + substLength c close 0 rest.tail))
  | optional (hneeds : needsQuote env how prev c = true) (hhow : how = .singleOptional) :
    StyleTurn env how prev c rest st (quoteOptional env c st) 1
  | broken (hneeds : needsQuote env how prev c = true) (hhow : how ≠ .singleOptional)
    (hc : c = char '\n' ∨ how = .single ∧ c = char '\'') :
    StyleTurn env how prev c rest st (st.put (quoteBroken env c)) 1
  | math {n : ℕ} (hc : c = inparmathToken) (hn : mathLength 1 rest = some n) :
    StyleTurn env how prev c rest st
      (st.put (backslashText (needsQuote env how prev c) ++ c :: rest.take n)) (1 + n)
  | passed (houtside : Passage.step c rest.head? .outside = .outside)
    (hpass : itok c = true ∨ how ≠ .backslash)
    (hdollar : ¬ (c = char '$' ∧ rest.head? = some (char '\'') ∧ how = .double))
    (hneeds : needsQuote env how prev c = true →
      how ≠ .singleOptional ∧ ¬ (c = char '\n' ∨ how = .single ∧ c = char '\'')) :
    StyleTurn env how prev c rest st
      (st.put (backslashText (needsQuote env how prev c) ++ [c])) 1
  | printable {len taken : ℕ} {cc : Option ℕ} {shift : env.charset.State} {text : Bytes}
    (htoken : itok c = false) (hhow : how = .backslash)
    (hread : mbMetacharlenconv env.charset env.multibyte c rest st.shift = some (len, cc, shift))
    (htext : copyCharacter (c :: rest) len = some (text, taken)) :
    StyleTurn env how prev c rest st
      { st.put (backslashText (needsQuote env how prev c) ++ text) with shift } taken
  | unprintable {len : ℕ} {cc : Option ℕ} {shift : env.charset.State} {text : Bytes}
    (htoken : itok c = false) (hhow : how = .backslash)
    (hread : mbMetacharlenconv env.charset env.multibyte c rest st.shift = some (len, cc, shift))
    (htext : addunprintable (c :: rest) len = some text) :
    StyleTurn env how prev c rest st
      { st.put ([char '$', char '\''] ++ text ++ [char '\'']) with shift } len

/-- A turn that reads past the end of the string is in an arithmetic passage, if the string is made
of whole characters as far as these matter. -/
def Overreads (how : QuoteType) (c : UInt8) (rest : Bytes) : Prop :=
  mathOpen .outside (c :: rest) = true ∨ how = .backslash ∧ ¬ TokenText (c :: rest)

theorem passCharacter_turn (prev : Option UInt8) (st : QuoteState env.charset)
    (houtside : c ≠ inparmathToken →
      Passage.step c rest.head? .outside = .outside)
    (hdollar : ¬ (c = char '$' ∧ rest.head? = some (char '\'') ∧ how = .double))
    (hneeds : needsQuote env how prev c = true →
      how ≠ .singleOptional ∧ ¬ (c = char '\n' ∨ how = .single ∧ c = char '\'')) :
    match passCharacter env how (needsQuote env how prev c) c rest st with
    | none => Overreads how c rest
    | some (st', n) => StyleTurn env how prev c rest st st' n := by
  rw [passCharacter]
  by_cases hpass : itok c = true ∨ how ≠ .backslash
  · rw [if_pos hpass]
    by_cases hmath : c = inparmathToken
    · rw [if_pos hmath]
      have hend := math_end how Nat.one_pos rest
      cases hlength : mathLength 1 rest with
      | none =>
        rw [hlength] at hend
        refine .inl ?_
        rw [mathOpen_cons, hmath]
        exact hend
      | some n => exact .math hmath hlength
    · rw [if_neg hmath]
      exact .passed (houtside hmath) hpass hdollar hneeds
  · rw [if_neg hpass]
    obtain ⟨htoken, hhow⟩ := not_or.mp hpass
    rw [Bool.not_eq_true] at htoken
    rw [not_not] at hhow
    cases hread : mbMetacharlenconv env.charset env.multibyte c rest st.shift with
    | none =>
      refine .inr ⟨hhow, fun h ↦ ?_⟩
      obtain ⟨len, cc, st', hsome, _⟩ := mbMetacharlenconv_units env.charset env.multibyte h st.shift
      rw [hread] at hsome
      cases hsome
    | some read =>
      obtain ⟨len, cc, shift⟩ := read
      have hwhole (h : TokenText (c :: rest)) : WholeUnits len (c :: rest) := by
        obtain ⟨_, _, _, hsome, _, hwhole | ⟨htoken', _⟩⟩ :=
          mbMetacharlenconv_units env.charset env.multibyte h st.shift
        · rw [hread] at hsome
          cases hsome
          exact hwhole
        · rw [htoken] at htoken'
          cases htoken'
      dsimp only
      by_cases hprint : cc.any env.isPrint = true
      · rw [if_pos hprint]
        cases htext : copyCharacter (c :: rest) len with
        | none =>
          refine .inr ⟨hhow, fun h ↦ ?_⟩
          rw [(hwhole h).copy] at htext
          cases htext
        | some copied => exact .printable htoken hhow hread htext
      · rw [if_neg hprint]
        cases htext : addunprintable (c :: rest) len with
        | none =>
          refine .inr ⟨hhow, fun h ↦ ?_⟩
          obtain ⟨text, hsome, _⟩ := (hwhole h).escaped
          rw [htext] at hsome
          cases hsome
        | some text => exact .unprintable htoken hhow hread htext

theorem quoteStep_turn (env : StyleEnv) (how : QuoteType) (prev : Option UInt8) (c : UInt8)
    (rest : Bytes) (st : QuoteState env.charset) :
    match quoteStep env how prev c rest st with
    | none => Overreads how c rest
    | some (st', n) => StyleTurn env how prev c rest st st' n := by
  rw [quoteStep]
  by_cases htick : c = tickToken ∨ c = qtickToken
  · rw [if_pos htick]
    exact .tick htick
  rw [if_neg htick]
  by_cases hdollar : (c = qstringToken ∨ c = char '$') ∧ rest.head? = some (char '\'') ∧
      how = .double
  · rw [if_pos hdollar]
    exact .dollar hdollar.1 hdollar.2.1 hdollar.2.2
  rw [if_neg hdollar]
  cases hsubst : (if c = stringToken ∨ c = qstringToken then rest.head?.bind closingToken
      else none) with
  | some close =>
    have hc : c = stringToken ∨ c = qstringToken := by
      by_contra hc
      rw [if_neg hc] at hsubst
      cases hsubst
    rw [if_pos hc] at hsubst
    exact .subst hc hsubst
  | none =>
    have houtside (hmath : c ≠ inparmathToken) :
        Passage.step c rest.head? .outside = .outside := by
      rw [Passage.step, if_neg htick, hsubst]
      exact if_neg hmath
    have hdollar' : ¬ (c = char '$' ∧ rest.head? = some (char '\'') ∧ how = .double) :=
      fun h ↦ hdollar ⟨.inr h.1, h.2⟩
    by_cases hneeds : needsQuote env how prev c = true
    · rw [if_pos hneeds]
      by_cases hhow : how = .singleOptional
      · rw [if_pos hhow]
        exact .optional hneeds hhow
      · rw [if_neg hhow]
        by_cases hbroken : c = char '\n' ∨ how = .single ∧ c = char '\''
        · rw [if_pos hbroken]
          exact .broken hneeds hhow hbroken
        · have hpass := passCharacter_turn prev st houtside hdollar' fun _ ↦ ⟨hhow, hbroken⟩
          rw [hneeds] at hpass
          rw [if_neg hbroken]
          exact hpass
    · have hpass := passCharacter_turn prev st houtside hdollar' fun h ↦ absurd h hneeds
      rw [Bool.not_eq_true] at hneeds
      rw [hneeds] at hpass
      rw [hneeds, if_neg Bool.false_ne_true]
      exact hpass

/-! ### What a turn leaves -/

set_option maxRecDepth 4000 in
theorem specc_ascii : ∀ c : UInt8, speccChars.contains c = true → c < 0x80 :=
  Bytes.forall_byte (by decide)

set_option maxRecDepth 4000 in
theorem ascii_not_token : ∀ c : UInt8, c < 0x80 → itok c = false := Bytes.forall_byte (by decide)

set_option maxRecDepth 4000 in
theorem ascii_ne_meta : ∀ c : UInt8, c < 0x80 → c ≠ metaByte := Bytes.forall_byte (by decide)

theorem special_ascii (h : env.ispecial c = true) : c < 0x80 := by
  rw [StyleEnv.ispecial, Bool.or_eq_true, Bool.or_eq_true, Bool.and_eq_true, Bool.and_eq_true,
    decide_eq_true_eq, decide_eq_true_eq] at h
  obtain (hspecc | ⟨_, rfl⟩) | ⟨_, rfl⟩ := h
  · exact specc_ascii c hspecc
  · exact env.bangchar_ascii
  · decide

theorem needsQuote_ascii (h : needsQuote env how prev c = true) : c < 0x80 := by
  rw [needsQuote, Bool.and_eq_true, Bool.and_eq_true] at h
  exact special_ascii h.1.1

theorem closingToken_spec {d close : UInt8} (h : closingToken d = some close) :
    d ≠ close ∧ d ≠ stringToken ∧ d ≠ qstringToken ∧ itok close = true := by
  rw [closingToken] at h
  split_ifs at h
  all_goals
    next hd =>
      cases h
      subst hd
      decide

variable {n : ℕ} {st' : QuoteState env.charset}

theorem TokenText.behind_at {s : Bytes} {d : UInt8} (h : TokenText s)
    (hd : itok d = true) (hn : s[n]? = some d) : TokenText (s.drop (n + 1)) := by
  obtain ⟨hlt, rfl⟩ := List.getElem?_eq_some_iff.mp hn
  have hsplit : s = s.take n ++ s[n] :: s.drop (n + 1) := by
    rw [← drop_eq_getElem_cons hlt, List.take_append_drop]
  rw [hsplit] at h
  exact h.behind hd

/-- What a turn leaves is as open as the string was. -/
structure Leaves (how : QuoteType) (s : Bytes) (n : ℕ) : Prop where
  pos : 0 < n
  le : n ≤ s.length
  same : mathOpen .outside s = mathOpen .outside (s.drop n)
  whole : how = .backslash → TokenText s → TokenText (s.drop n)

theorem leaves_one (hstep : Passage.step c rest.head? .outside = .outside)
    (hwhole : how = .backslash → TokenText (c :: rest) → TokenText rest) :
    Leaves how (c :: rest) 1 where
  pos := Nat.one_pos
  le := Nat.le_add_left 1 rest.length
  same := by rw [mathOpen_cons, hstep, drop_one, tail_cons]
  whole := hwhole

theorem leaves_units (hpos : 0 < n)
    (h : WholeUnits n (c :: rest)) : Leaves how (c :: rest) n where
  pos := hpos
  le := h.length_le
  same := h.mathOpen_drop
  whole _ _ := h.behind

theorem TokenText.tail_of_plain (h : TokenText (c :: rest)) (hc : c ≠ metaByte) :
    TokenText rest := by
  cases h with
  | byte _ h => exact h
  | pair _ _ => exact absurd rfl hc

theorem leaves_tick (hc : c = tickToken ∨ c = qtickToken) :
    Leaves how (c :: rest) (1 + (rest.takeWhile (· ≠ c)).length +
      if (rest.takeWhile (· ≠ c)).length < rest.length then 1 else 0) := by
  have htoken : itok c = true := by
    obtain rfl | rfl := hc
    all_goals decide
  obtain ⟨hopen, _, hle, hlast⟩ := tick_end how c rest
  have hopen' : mathOpen .outside (c :: rest) =
      mathOpen .outside (rest.drop ((rest.takeWhile (· ≠ c)).length + 1)) := by
    rw [mathOpen_cons, Passage.step, if_pos hc, hopen]
  by_cases hless : (rest.takeWhile (· ≠ c)).length < rest.length
  · rw [if_pos hless]
    have hdrop : (c :: rest).drop (1 + (rest.takeWhile (· ≠ c)).length + 1) =
        rest.drop ((rest.takeWhile (· ≠ c)).length + 1) := by
      rw [Nat.add_comm 1, drop_succ_cons]
    refine ⟨Nat.succ_pos _, by rw [length_cons]; omega, by rw [hdrop, hopen'], ?_⟩
    intro _ hs
    apply hs.behind_at htoken
    rw [Nat.add_comm 1, List.getElem?_cons_succ]
    exact hlast hless
  · rw [if_neg hless, Nat.add_zero]
    have hdrop : (c :: rest).drop (1 + (rest.takeWhile (· ≠ c)).length) = [] := by
      rw [drop_eq_nil_iff, length_cons]
      omega
    have hnil : rest.drop ((rest.takeWhile (· ≠ c)).length + 1) = [] := by
      rw [drop_eq_nil_iff]
      omega
    refine ⟨by omega, by rw [length_cons]; omega, by rw [hdrop, hopen', hnil], ?_⟩
    intro _ _
    rw [hdrop]
    exact .nil

theorem leaves_subst {close : UInt8} (hc : c = stringToken ∨ c = qstringToken)
    (hclose : rest.head?.bind closingToken = some close) :
    Leaves how (c :: rest) (1 + (1 + substLength c close 0 rest.tail)) ∧
      growth how .outside (c :: rest) =
        growth how .outside (rest.tail.drop (substLength c close 0 rest.tail)) := by
  cases rest with
  | nil => cases hclose
  | cons d rest =>
    obtain ⟨hne, hstring, hqstring, htoken⟩ := closingToken_spec hclose
    have hdc : d ≠ c := by
      obtain rfl | rfl := hc
      · exact hstring
      · exact hqstring
    have htick : ¬ (c = tickToken ∨ c = qtickToken) := by
      obtain rfl | rfl := hc
      all_goals decide
    have hfirst : Passage.step c (some d) .outside = .subst c close 0 := by
      rw [Passage.step, if_neg htick, if_pos hc]
      have hbind : (some d).bind closingToken = some close := hclose
      rw [hbind]
    have hsecond (next : Option UInt8) :
        Passage.step d next (.subst c close 0) = .subst c close 0 := by
      rw [Passage.step, if_neg fun h ↦ hne h.1, if_neg hdc, if_neg hne]
    obtain ⟨hopen, hgrow, hle, hlast⟩ := subst_end how c close 0 rest
    rw [tail_cons]
    have hdrop : (c :: d :: rest).drop (1 + (1 + substLength c close 0 rest)) =
        rest.drop (substLength c close 0 rest) := by
      rw [Nat.add_comm 1, drop_succ_cons, Nat.add_comm 1, drop_succ_cons]
    refine ⟨⟨by omega, by rw [length_cons, length_cons]; omega, ?_, ?_⟩, ?_⟩
    · rw [hdrop, mathOpen_cons, List.head?_cons, hfirst, mathOpen_cons, hsecond, hopen]
    · intro _ hs
      rw [hdrop]
      obtain hnil | ⟨hpos, hlast⟩ := hlast
      · rw [hnil]
        exact .nil
      · rw [← hdrop]
        obtain ⟨k, hk⟩ := Nat.exists_eq_add_of_lt hpos
        rw [hk, Nat.zero_add] at hlast ⊢
        have hend : (c :: d :: rest)[k + 2]? = some close := hlast
        have hthree : 1 + (1 + (k + 1)) = k + 2 + 1 := by omega
        rw [hthree]
        exact hs.behind_at htoken hend
    · rw [growth_cons, List.head?_cons, hfirst, if_neg (fun h ↦ Passage.noConfusion h.2),
        Nat.zero_add, growth_inside how Passage.noConfusion, hsecond, hgrow]

theorem leaves_math (hc : c = inparmathToken) (hn : mathLength 1 rest = some n) :
    Leaves how (c :: rest) (1 + n) ∧
      growth how .outside (c :: rest) = growth how .outside (rest.drop n) := by
  have hfirst (next : Option UInt8) : Passage.step c next .outside = .math 1 := by
    rw [hc]
    rfl
  have hend := math_end how Nat.one_pos rest
  rw [hn] at hend
  obtain ⟨hopen, hgrow, hpos, hle, hlast⟩ := hend
  have hdrop : (c :: rest).drop (1 + n) = rest.drop n := by
    rw [Nat.add_comm 1, drop_succ_cons]
  refine ⟨⟨by omega, by rw [length_cons]; omega, ?_, ?_⟩, ?_⟩
  · rw [hdrop, mathOpen_cons, hfirst, hopen]
  · intro _ hs
    obtain ⟨k, rfl⟩ : ∃ k, n = k + 1 := ⟨n - 1, by omega⟩
    have hbehind : (c :: rest)[k + 1]? = some outparmathToken := hlast
    rw [Nat.add_comm 1]
    exact hs.behind_at (by decide) hbehind
  · rw [growth_cons, hfirst, if_neg (fun h ↦ Passage.noConfusion h.2), Nat.zero_add, hgrow]

set_option maxRecDepth 4000 in
theorem token_ne_meta : ∀ c : UInt8, itok c = true → c ≠ metaByte := Bytes.forall_byte (by decide)

theorem StyleTurn.leaves
    (h : StyleTurn env how prev c rest st st' n)
    (hs : how = .backslash → TokenText (c :: rest)) : Leaves how (c :: rest) n := by
  cases h with
  | tick hc => exact leaves_tick hc
  | dollar hc hd hhow =>
    cases rest with
    | nil => cases hd
    | cons d rest =>
      cases hd
      have hfirst : Passage.step c (some (char '\'')) .outside = .outside := by
        obtain rfl | rfl := hc
        all_goals rfl
      have hsecond : Passage.step (char '\'') rest.head? .outside = .outside :=
        step_plain (by decide) _
      refine ⟨Nat.two_pos, by simp, ?_, fun hback ↦ absurd (hhow.symm.trans hback) (by decide)⟩
      rw [mathOpen_cons, List.head?_cons, hfirst, mathOpen_cons, hsecond]
      rfl
  | subst hc hclose => exact (leaves_subst hc hclose).1
  | optional hneeds _ =>
    have hlow := needsQuote_ascii hneeds
    exact leaves_one (step_plain (ascii_not_token c hlow) _) fun _ hs ↦
      hs.tail_of_plain (ascii_ne_meta c hlow)
  | broken hneeds _ _ =>
    have hlow := needsQuote_ascii hneeds
    exact leaves_one (step_plain (ascii_not_token c hlow) _) fun _ hs ↦
      hs.tail_of_plain (ascii_ne_meta c hlow)
  | math hc hn => exact (leaves_math hc hn).1
  | passed houtside hpass _ _ =>
    exact leaves_one houtside fun hback hs ↦
      hs.tail_of_plain (token_ne_meta c (hpass.resolve_right (not_not.mpr hback)))
  | printable htoken hhow hread htext =>
    obtain ⟨_, _, _, hsome, hpos, hwhole | ⟨htoken', _⟩⟩ :=
      mbMetacharlenconv_units env.charset env.multibyte (hs hhow) st.shift
    · rw [hread] at hsome
      cases hsome
      rw [hwhole.copy] at htext
      cases htext
      exact leaves_units hpos hwhole
    · rw [htoken] at htoken'
      cases htoken'
  | unprintable htoken hhow hread _ =>
    obtain ⟨_, _, _, hsome, hpos, hwhole | ⟨htoken', _⟩⟩ :=
      mbMetacharlenconv_units env.charset env.multibyte (hs hhow) st.shift
    · rw [hread] at hsome
      cases hsome
      exact leaves_units hpos hwhole
    · rw [htoken] at htoken'
      cases htoken'

/-! ### What a turn writes -/

@[simp] theorem put_text_length (text : Bytes) :
    (st.put text).text.length = st.text.length + text.length := by
  rw [QuoteState.put, QuoteState.text, QuoteState.text, length_append, length_append,
    length_append, Nat.add_assoc]

/-- How many bytes a turn may write for each byte that it reads. -/
def styleFactor : QuoteType → ℕ
  | .backslash => 7
  | .singleOptional => 3
  | _ => 4

theorem three_le_styleFactor (how : QuoteType) : 3 ≤ styleFactor how := by
  cases how <;> decide

/-- A newline that is the history character, in a style that does not quote newlines anyway. -/
def BreaksNewlines (env : StyleEnv) (how : QuoteType) : Prop :=
  env.banghist = true ∧ env.bangchar = char '\n' ∧
    how ≠ .backslash ∧ how ≠ .singleOptional ∧ how ≠ .single

theorem length_backslashText (dobackslash : Bool) : (backslashText dobackslash).length ≤ 1 := by
  cases dobackslash
  · exact Nat.zero_le 1
  · exact Nat.le_refl 1

theorem quoteOptional_length (c : UInt8) (st : QuoteState env.charset) :
    (quoteOptional env c st).text.length ≤ st.text.length + 3 := by
  rw [quoteOptional]
  split_ifs
  all_goals simp only [QuoteState.put, QuoteState.text, length_append, length_cons,
    length_nil]
  all_goals omega

/-- A newline is broken only where quotes are written for it. -/
theorem broken_length (hnewline : ¬ BreaksNewlines env how)
    (hneeds : needsQuote env how prev c = true) (hc : c = char '\n' ∨ how = .single ∧ c = char '\'')
    (hhow : how ≠ .singleOptional) : (quoteBroken env c).length ≤ styleFactor how := by
  rw [quoteBroken]
  by_cases hn : c = char '\n'
  · subst hn
    have hback : how = .backslash := by
      by_contra hback
      rw [needsQuote, Bool.and_eq_true, Bool.and_eq_true] at hneeds
      have hstyle := hneeds.2
      simp only [Bool.or_eq_true, Bool.and_eq_true, decide_eq_true_eq] at hstyle
      obtain ((((hstyle | hstyle) | ⟨⟨hhist, hbang⟩, hsingle⟩) | ⟨_, hstyle⟩) | ⟨_, hstyle⟩) :=
        hstyle
      · exact hback hstyle
      · exact hhow hstyle
      · exact hnewline ⟨hhist, hbang.symm, hback, hhow, hsingle⟩
      · all_goals exact absurd hstyle (by decide)
      · exact absurd hstyle (by decide)
    rw [if_pos rfl, hback]
    exact Nat.le_add_right 5 2
  · obtain ⟨hsingle, _⟩ := hc.resolve_left hn
    rw [if_neg hn, hsingle]
    split
    · exact Nat.le_add_right 2 2
    · exact Nat.le_refl 4

theorem StyleTurn.length_le
    (h : StyleTurn env how prev c rest st st' n)
    (hs : how = .backslash → TokenText (c :: rest)) (hnewline : ¬ BreaksNewlines env how) :
    st'.text.length ≤ st.text.length + styleFactor how * n := by
  have hthree := three_le_styleFactor how
  have hmul (m : ℕ) : 3 * m ≤ styleFactor how * m := Nat.mul_le_mul_right m hthree
  cases h with
  | tick hc =>
    have hm := hmul (1 + (rest.takeWhile (· ≠ c)).length +
      if (rest.takeWhile (· ≠ c)).length < rest.length then 1 else 0)
    rw [put_text_length, length_append, length_cons, length_singleton]
    omega
  | dollar hc hd hhow =>
    rw [put_text_length, length_cons, length_singleton]
    omega
  | @subst close hc hclose =>
    have hm := hmul (1 + (1 + substLength c close 0 rest.tail))
    rw [put_text_length, length_cons, length_take]
    omega
  | optional hneeds hhow =>
    have hlength := quoteOptional_length c st
    omega
  | broken hneeds hhow hc =>
    rw [put_text_length, Nat.mul_one]
    exact Nat.add_le_add_left (broken_length hnewline hneeds hc hhow) _
  | @math n hc hn =>
    have hm := hmul (1 + n)
    have hback := length_backslashText (needsQuote env how prev c)
    rw [put_text_length, length_append, length_cons, length_take]
    omega
  | passed houtside hpass _ _ =>
    have hback := length_backslashText (needsQuote env how prev c)
    rw [put_text_length, length_append, length_singleton]
    omega
  | printable htoken hhow hread htext =>
    obtain ⟨_, _, _, hsome, hpos, hwhole | ⟨htoken', _⟩⟩ :=
      mbMetacharlenconv_units env.charset env.multibyte (hs hhow) st.shift
    · rw [hread] at hsome
      cases hsome
      rw [hwhole.copy] at htext
      cases htext
      have hm := hmul n
      have hback := length_backslashText (needsQuote env how prev c)
      have htext := @put_text_length _ st
        (backslashText (needsQuote env how prev c) ++ (c :: rest).take n)
      rw [length_append, length_take] at htext
      change (st.put _).text.length ≤ _
      omega
    · rw [htoken] at htoken'
      cases htoken'
  | @unprintable _ cc shift text htoken hhow hread htext =>
    obtain ⟨_, _, _, hsome, hpos, hwhole | ⟨htoken', _⟩⟩ :=
      mbMetacharlenconv_units env.charset env.multibyte (hs hhow) st.shift
    · rw [hread] at hsome
      cases hsome
      obtain ⟨_, hescaped, hle⟩ := hwhole.escaped
      rw [htext] at hescaped
      cases hescaped
      have hput := @put_text_length _ st ([char '$', char '\''] ++ text ++ [char '\''])
      rw [length_append, length_append, length_cons, length_singleton]
        at hput
      rw [hhow]
      change (st.put _).text.length ≤ _ + 7 * n
      omega
    · rw [htoken] at htoken'
      cases htoken'

/-! ### Newlines as history characters -/

/-- The characters with a backslash in double quotes. -/
def EscapedDouble (c : UInt8) : Prop :=
  c = char '$' ∨ c = char '`' ∨ c = char '"' ∨ c = char '\\'

theorem special_of_specc (hc : speccChars.contains c = true) : env.ispecial c = true := by
  rw [StyleEnv.ispecial, hc]
  rfl

theorem needsQuote_newline (hnewline : BreaksNewlines env how) :
    needsQuote env how prev c = true ↔ c = char '\n' ∨ how = .double ∧ EscapedDouble c := by
  obtain ⟨hhist, hbang, hback, hoptional, hsingle⟩ := hnewline
  have hspecc (hc : c ∈ [char '\n', char '$', char '`', char '"', char '\\']) :
      env.ispecial c = true ∧ c ≠ char '=' ∧ c ≠ char '~' := by
    have hall : ∀ d ∈ [char '\n', char '$', char '`', char '"', char '\\'],
        speccChars.contains d = true ∧ d ≠ char '=' ∧ d ≠ char '~' := by decide
    exact ⟨special_of_specc (hall c hc).1, (hall c hc).2⟩
  have hstyle : needsQuote env how prev c = true ↔
      (env.ispecial c = true ∧ ((c ≠ char '=' ∧ c ≠ char '~') ∨ prev.isNone = true ∨
        (env.magicEqualSubst = true ∧ (prev = some (char '=') ∨ prev = some (char ':'))) ∨
        (c = char '~' ∧ env.extendedGlob = true))) ∧
      (c = char '\n' ∨ how = .double ∧ EscapedDouble c) := by
    simp only [needsQuote, hhist, hbang, hback, hoptional, hsingle, EscapedDouble,
      Bool.and_eq_true, Bool.or_eq_true, decide_eq_true_eq, decide_false, Bool.false_or,
      Bool.true_and, ne_eq, not_false_eq_true, and_true, Bool.false_eq_true, false_and, or_false,
      or_assoc]
  rw [hstyle]
  constructor
  · exact fun h ↦ h.2
  · intro h
    have hmem : c ∈ [char '\n', char '$', char '`', char '"', char '\\'] := by
      obtain rfl | ⟨_, rfl | rfl | rfl | rfl⟩ := h
      all_goals simp
    obtain ⟨hspecial, hne⟩ := hspecc hmem
    exact ⟨⟨hspecial, .inl hne⟩, h⟩

theorem byteGrowth_eq (hnewline : BreaksNewlines env how)
    (hneeds : needsQuote env how prev c = true → c ≠ char '\n') {next : Option UInt8}
    (hdollar : ¬ (c = char '$' ∧ next = some (char '\'') ∧ how = .double)) :
    byteGrowth how c next = (backslashText (needsQuote env how prev c)).length := by
  have hneeds' := @needsQuote_newline _ _ prev c hnewline
  have hplain : c ≠ char '\n' := fun hc ↦ hneeds (hneeds'.mpr (.inl hc)) hc
  rw [byteGrowth, if_neg hplain]
  by_cases hescape : how = .double ∧ EscapedDouble c
  · rw [hneeds'.mpr (.inr hescape), if_pos]
    · rfl
    · obtain ⟨hdouble, hc | hc | hc | hc⟩ := hescape
      · exact ⟨hdouble, .inr (.inr (.inr ⟨hc, fun hnext ↦ hdollar ⟨hc, hnext, hdouble⟩⟩))⟩
      · exact ⟨hdouble, .inl hc⟩
      · exact ⟨hdouble, .inr (.inl hc)⟩
      · exact ⟨hdouble, .inr (.inr (.inl hc))⟩
  · have hfalse : needsQuote env how prev c = false :=
      Bool.eq_false_iff.mpr fun h ↦ (hneeds'.mp h).elim hplain hescape
    rw [hfalse, if_neg]
    · rfl
    · rintro ⟨hdouble, hc⟩
      apply hescape
      obtain hc | hc | hc | ⟨hc, _⟩ := hc
      · exact ⟨hdouble, .inr (.inl hc)⟩
      · exact ⟨hdouble, .inr (.inr (.inl hc))⟩
      · exact ⟨hdouble, .inr (.inr (.inr hc))⟩
      · exact ⟨hdouble, .inl hc⟩

theorem growth_outside (hstep : Passage.step c rest.head? .outside = .outside) :
    growth how .outside (c :: rest) = byteGrowth how c rest.head? + growth how .outside rest := by
  rw [growth_cons, hstep, if_pos ⟨rfl, rfl⟩]

theorem StyleTurn.growth_eq
    (h : StyleTurn env how prev c rest st st' n) (hnewline : BreaksNewlines env how) :
    st'.text.length + growth how .outside ((c :: rest).drop n) =
      st.text.length + n + growth how .outside (c :: rest) := by
  cases h with
  | tick hc =>
    obtain ⟨_, hgrow, hle, _⟩ := tick_end how c rest
    have hfirst : Passage.step c rest.head? .outside = .tick c := by
      rw [Passage.step, if_pos hc]
    have hinside : growth how .outside (c :: rest) = growth how (.tick c) rest := by
      rw [growth_cons, hfirst, if_neg (fun h ↦ Passage.noConfusion h.2), Nat.zero_add]
    rw [hinside, hgrow, put_text_length, length_append, length_cons,
      length_singleton]
    by_cases hless : (rest.takeWhile (· ≠ c)).length < rest.length
    · rw [if_pos hless, if_pos hless, Nat.add_comm 1, drop_succ_cons]
      omega
    · have hdrop : (c :: rest).drop (1 + (rest.takeWhile (· ≠ c)).length + 0) = [] := by
        rw [drop_eq_nil_iff, length_cons]
        omega
      have hnil : rest.drop ((rest.takeWhile (· ≠ c)).length + 1) = [] := by
        rw [drop_eq_nil_iff]
        omega
      rw [if_neg hless, if_neg hless, hdrop, hnil]
      omega
  | dollar hc hd hhow =>
    cases rest with
    | nil => cases hd
    | cons d rest =>
      cases hd
      have hfirst : Passage.step c (some (char '\'')) .outside = .outside ∧
          byteGrowth how c (some (char '\'')) = 0 := by
        rw [hhow]
        obtain rfl | rfl := hc
        all_goals exact ⟨rfl, rfl⟩
      have hquote : byteGrowth how (char '\'') rest.head? = 0 := by
        rw [hhow]
        rfl
      rw [growth_outside hfirst.1, List.head?_cons, hfirst.2,
        growth_outside (step_plain (by decide) _), hquote, put_text_length, Nat.zero_add,
        Nat.zero_add]
      rfl
  | @subst close hc hclose =>
    obtain ⟨hleaves, hgrow⟩ := @leaves_subst how _ _ _ hc hclose
    have hle := hleaves.le
    cases rest with
    | nil => cases hclose
    | cons d rest =>
      rw [length_cons, length_cons] at hle
      rw [hgrow, put_text_length, length_cons, length_take, length_cons]
      have hdrop : (c :: d :: rest).drop (1 + (1 + substLength c close 0 (d :: rest).tail)) =
          (d :: rest).tail.drop (substLength c close 0 (d :: rest).tail) := by
        rw [Nat.add_comm 1, drop_succ_cons, Nat.add_comm 1, drop_succ_cons,
          tail_cons]
      rw [hdrop]
      omega
  | optional _ hhow => exact absurd hhow hnewline.2.2.2.1
  | broken hneeds _ hc =>
    obtain rfl | ⟨hsingle, _⟩ := hc
    · rw [growth_outside (step_plain (by decide) _), put_text_length, drop_one,
        tail_cons, byteGrowth, if_pos rfl]
      change _ + 5 + _ = _
      omega
    · exact absurd hsingle hnewline.2.2.2.2
  | @math n hc hn =>
    obtain ⟨hleaves, hgrow⟩ := @leaves_math how _ _ _ hc hn
    have hle := hleaves.le
    have hfalse : needsQuote env how prev c = false := by
      rw [Bool.eq_false_iff]
      intro h
      have htoken := ascii_not_token c (needsQuote_ascii h)
      rw [hc] at htoken
      exact absurd htoken (by decide)
    rw [length_cons] at hle
    rw [hgrow, put_text_length, hfalse, Nat.add_comm 1 n, drop_succ_cons]
    change _ + (rest.take n).length.succ + _ = _
    rw [length_take]
    omega
  | passed houtside _ hdollar hneeds =>
    have hgrow : byteGrowth how c rest.head? =
        (backslashText (needsQuote env how prev c)).length :=
      byteGrowth_eq hnewline (fun h hc ↦ (hneeds h).2 (.inl hc)) hdollar
    rw [growth_outside houtside, hgrow, put_text_length, length_append,
      length_singleton, drop_one, tail_cons]
    omega
  | printable _ hhow _ _ => exact absurd hhow hnewline.2.2.1
  | unprintable _ hhow _ _ => exact absurd hhow hnewline.2.2.1

theorem StyleTurn.sub_eq
    (h : StyleTurn env how prev c rest st st' n) (hhow : how ≠ .singleOptional) :
    st'.sub = st.sub := by
  cases h with
  | optional _ hoptional => exact absurd hoptional hhow
  | _ => rfl

end Turns

/-! ## The loop -/

section Loop

variable {env : StyleEnv} {how : QuoteType}

/-- The loop reads past the end in an open arithmetic passage only, and what it writes is bounded by
what it reads, or known when newlines are history characters. -/
theorem quoteLoop_spec {turns : ℕ} (prev : Option UInt8) {s : Bytes} (st : QuoteState env.charset)
    (hs : how = .backslash → TokenText s) (hturns : s.length < turns) :
    match quoteLoop env how turns prev s st with
    | none => mathOpen .outside s = true
    | some st' =>
      mathOpen .outside s = false ∧
        (¬ BreaksNewlines env how →
          st'.text.length ≤ st.text.length + styleFactor how * s.length) ∧
        (BreaksNewlines env how →
          st'.text.length = st.text.length + s.length + growth how .outside s) ∧
        (how ≠ .singleOptional → st'.sub = st.sub) := by
  induction turns generalizing prev s st with
  | zero => exact absurd hturns (Nat.not_lt_zero _)
  | succ turns ih =>
    cases s with
    | nil => exact ⟨rfl, fun _ ↦ Nat.le_add_right _ _, fun _ ↦ rfl, fun _ ↦ rfl⟩
    | cons c rest =>
      have hturn := quoteStep_turn env how prev c rest st
      rw [quoteLoop]
      cases hstep : quoteStep env how prev c rest st with
      | none =>
        rw [hstep] at hturn
        exact hturn.resolve_right fun h ↦ h.2 (hs h.1)
      | some result =>
        obtain ⟨st₁, n⟩ := result
        rw [hstep] at hturn
        have hleaves := hturn.leaves hs
        have hle := hleaves.le
        have hpos := hleaves.pos
        have hlength : ((c :: rest).drop n).length + n = (c :: rest).length := by
          rw [length_drop]
          exact Nat.sub_add_cancel hle
        have hrest := ih (c :: rest)[n - 1]? st₁ (fun hhow ↦ hleaves.whole hhow (hs hhow))
          (by omega)
        rw [Option.bind_some, hleaves.same]
        dsimp only
        cases hloop : quoteLoop env how turns (c :: rest)[n - 1]? _ st₁ with
        | none =>
          rw [hloop] at hrest
          exact hrest
        | some st₂ =>
          rw [hloop] at hrest
          obtain ⟨hopen, hbound, hexact, hsub⟩ := hrest
          refine ⟨hopen, fun hnewline ↦ ?_, fun hnewline ↦ ?_, fun hhow ↦ ?_⟩
          · calc st₂.text.length
                ≤ st₁.text.length + styleFactor how * ((c :: rest).drop n).length := hbound hnewline
              _ ≤ st.text.length + styleFactor how * n +
                    styleFactor how * ((c :: rest).drop n).length :=
                  Nat.add_le_add_right (hturn.length_le hs hnewline) _
              _ = st.text.length + styleFactor how * (c :: rest).length := by
                  rw [Nat.add_assoc, ← Nat.mul_add, Nat.add_comm n, hlength]
          · have hgrow := hturn.growth_eq hnewline
            have hlater := hexact hnewline
            omega
          · rw [hsub hhow, hturn.sub_eq hhow]

end Loop

/-! ## The other loops -/

theorem backslash_length (env : QuoteEnv) (wc : ℕ) : (env.backslash wc).length ≤ 1 := by
  rw [QuoteEnv.backslash]
  split_ifs <;> simp

theorem quoteDollarsFrom_length (env : QuoteEnv) {turns : ℕ} {s : Bytes} (hs : TokenText s)
    (hturns : s.length < turns) (st : env.charset.State) :
    ∃ text, quoteDollarsFrom env turns s st = some text ∧ text.length ≤ 4 * s.length := by
  induction turns generalizing s st with
  | zero => exact absurd hturns (Nat.not_lt_zero _)
  | succ turns ih =>
    cases s with
    | nil => exact ⟨[], rfl, Nat.zero_le _⟩
    | cons c rest =>
      obtain ⟨len, cc, st', hread, hpos, hunits⟩ :=
        mbMetacharlenconv_units env.charset env.multibyte hs st
      have hhead : len ≤ (c :: rest).length ∧ TokenText ((c :: rest).drop len) ∧
          ∃ text, addunprintable (c :: rest) len = some text ∧ text.length ≤ 4 * len := by
        obtain hwhole | ⟨htoken, rfl⟩ := hunits
        · exact ⟨hwhole.length_le, hwhole.behind, hwhole.escaped⟩
        · have hmeta := token_ne_meta c htoken
          refine ⟨Nat.le_add_left 1 rest.length, hs.tail_of_plain hmeta, unprintable c rest, ?_,
            unprintable_length c rest⟩
          cases rest with
          | nil => rw [addunprintable, if_neg (not_or.mpr ⟨hmeta, not_not.mpr rfl⟩)]
          | cons d rest =>
            rw [addunprintable, if_neg hmeta, addunprintable, Option.map_some, append_nil]
      obtain ⟨hle, hbehind, escaped, hescaped, hlength⟩ := hhead
      obtain ⟨text, htext, hbound⟩ : ∃ text, quoteCharacter env (c :: rest) len cc = some text ∧
          text.length ≤ 4 * len := by
        cases cc with
        | none => exact ⟨escaped, hescaped, hlength⟩
        | some wc =>
          rw [quoteCharacter]
          by_cases hprint : env.isPrint wc = true
          · have hback := backslash_length env wc
            rw [if_pos hprint]
            refine ⟨_, rfl, ?_⟩
            rw [length_append, length_take]
            omega
          · rw [if_neg hprint]
            exact ⟨escaped, hescaped, hlength⟩
      have hdrop : ((c :: rest).drop len).length + len = (c :: rest).length := by
        rw [length_drop]
        exact Nat.sub_add_cancel hle
      obtain ⟨later, hlater, hlaterLength⟩ := ih hbehind (by omega) st'
      refine ⟨text ++ later, ?_, ?_⟩
      · rw [quoteDollarsFrom, hread]
        dsimp only
        rw [htext]
        dsimp only
        rw [hlater, Option.map_some]
      · rw [length_append]
        omega

theorem pattern_length (s : Bytes) :
    (s.flatMap fun c ↦ if ipattern c then [char '\\', c] else [c]).length ≤ 2 * s.length := by
  induction s with
  | nil => exact Nat.le_refl 0
  | cons c s ih =>
    rw [flatMap_cons, length_append, length_cons]
    split
    · rw [length_cons, length_singleton]
      omega
    · rw [length_singleton]
      omega

/-! ## The buffer -/

/-- The text fits the buffer with its terminating zero, and the string is not read past its end. -/
def FitsBuffer (env : StyleEnv) (how : QuoteType) (shift : env.charset.State) (s : Bytes) : Prop :=
  ∃ text, quotestring env how shift s = some text ∧ text.length < how.alloclen s

/-- No arithmetic passage is open, and when newlines are history characters what quotes add is at
most three times the string. -/
def StyleFits (env : StyleEnv) (how : QuoteType) (s : Bytes) : Prop :=
  how ≠ .dollars → how ≠ .backslashPattern →
    mathOpen .outside s = false ∧
      (BreaksNewlines env how → how ≠ .backslashShownull → growth how .outside s ≤ 3 * s.length)

theorem finish_length {charset : Charset} (st : QuoteState charset) :
    st.finish.length ≤ st.text.length + 1 ∧
      (st.sub = .inactive → st.finish.length = st.text.length) := by
  rw [QuoteState.finish, length_append]
  constructor
  · split <;> simp
  · intro hsub
    rw [hsub]
    rfl

/-- Where the loop starts. -/
def styleStart (env : StyleEnv) (how : QuoteType) (shift : env.charset.State) (s : Bytes) :
    QuoteState env.charset where
  front := []
  back := if s = [] ∧ how.shownull then [char '\'', char '\''] else []
  sub := if how = .singleOptional then .pending else .inactive
  shift := shift

theorem quotestring_loop {env : StyleEnv} {how : QuoteType} (hdollars : how ≠ .dollars)
    (hpattern : how ≠ .backslashPattern) (shift : env.charset.State) (s : Bytes) :
    quotestring env how shift s =
      (quoteLoop env (if how = .backslashShownull then .backslash else how) (s.length + 1) none s
        (styleStart env how shift s)).map QuoteState.finish := by
  cases how with
  | dollars => exact absurd rfl hdollars
  | backslashPattern => exact absurd rfl hpattern
  | _ => rfl

theorem fitsBuffer_iff (env : StyleEnv) (how : QuoteType) (shift : env.charset.State) {s : Bytes}
    (hs : TokenText s) : FitsBuffer env how shift s ↔ StyleFits env how s := by
  by_cases hdollars : how = .dollars
  · subst hdollars
    refine iff_of_true ?_ fun h ↦ absurd rfl h
    have htail : TokenText (if s.head?.any inull then s.tail else s) := by
      cases hs with
      | nil => exact .nil
      | byte hc h =>
        split
        · exact h
        · exact .byte hc h
      | pair hc h => exact .pair hc h
    have hle : (if s.head?.any inull then s.tail else s).length ≤ s.length := by
      split
      · rw [length_tail]
        exact Nat.sub_le _ _
      · exact Nat.le_refl _
    obtain ⟨text, htext, hlength⟩ := quoteDollarsFrom_length env.toQuoteEnv htail
      (Nat.lt_succ_of_le hle) env.charset.initial
    refine ⟨text, htext, ?_⟩
    change text.length < s.length * 4 + 1 + _
    omega
  by_cases hpattern : how = .backslashPattern
  · subst hpattern
    refine iff_of_true ⟨_, rfl, ?_⟩ fun _ h ↦ absurd rfl h
    have hlength := pattern_length s
    change _ < s.length * 2 + 1 + _
    omega
  rw [FitsBuffer, quotestring_loop hdollars hpattern]
  generalize hstart : styleStart env how shift s = start
  generalize hused : (if how = .backslashShownull then .backslash else how) = used
  have hlength : start.text.length = if s = [] ∧ how.shownull then 2 else 0 := by
    rw [← hstart]
    change (if s = [] ∧ how.shownull then [char '\'', char '\''] else []).length = _
    split
    · rfl
    · rfl
  have hspec := @quoteLoop_spec _ used _ none _ start (fun _ ↦ hs) (Nat.lt_succ_self s.length)
  cases hloop : quoteLoop env used (s.length + 1) none s start with
  | none =>
    rw [hloop] at hspec
    refine iff_of_false ?_ fun h ↦ ?_
    · rintro ⟨text, htext, _⟩
      cases htext
    · have hclosed := (h hdollars hpattern).1
      rw [hspec] at hclosed
      cases hclosed
  | some st =>
    rw [hloop] at hspec
    obtain ⟨hopen, hbound, hexact, hsub⟩ := hspec
    have hfits : (∃ text, (some st).map QuoteState.finish = some text ∧
        text.length < how.alloclen s) ↔ st.finish.length < how.alloclen s := by
      constructor
      · rintro ⟨text, htext, hless⟩
        cases htext
        exact hless
      · exact fun hless ↦ ⟨_, rfl, hless⟩
    obtain ⟨hfinish, hinactive⟩ := finish_length st
    rw [hfits]
    by_cases hnewline : BreaksNewlines env used
    · have hshow : how ≠ .backslashShownull := by
        rintro rfl
        exact hnewline.2.2.1 hused.symm
      rw [if_neg hshow] at hused
      subst hused
      have hback := hnewline.2.2.1
      have hoptional := hnewline.2.2.2.1
      have halloc : how.alloclen s = s.length * 4 + 1 ∧ how.shownull = false := by
        cases how with
        | backslash => exact absurd rfl hback
        | backslashPattern => exact absurd rfl hpattern
        | singleOptional => exact absurd rfl hoptional
        | backslashShownull => exact absurd rfl hshow
        | _ =>
          refine ⟨?_, rfl⟩
          change s.length * 4 + 1 + (if s = [] ∧ false = true then 2 else 0) = _
          rw [if_neg fun h ↦ Bool.false_ne_true h.2]
      have hnil : start.text.length = 0 := by
        rw [hlength, halloc.2, if_neg fun h ↦ Bool.false_ne_true h.2]
      have hstop : st.sub = .inactive := by
        rw [hsub hoptional, ← hstart]
        exact if_neg hoptional
      have htotal := hexact hnewline
      rw [hinactive hstop, halloc.1]
      constructor
      · intro hless _ _
        exact ⟨hopen, fun _ _ ↦ by omega⟩
      · intro h
        have hgrow := (h hdollars hpattern).2 hnewline hshow
        omega
    · have hsame : how ≠ .backslashShownull → used = how := fun hshow ↦ by
        rw [← hused, if_neg hshow]
      have hconsumed := hbound hnewline
      refine iff_of_true ?_ fun _ _ ↦
        ⟨hopen, fun h hshow ↦ absurd (hsame hshow ▸ h) hnewline⟩
      have hstop (hoptional : how ≠ .singleOptional) : st.sub = .inactive := by
        have hused' : used ≠ .singleOptional := by
          rw [← hused]
          split
          · exact QuoteType.noConfusion
          · exact hoptional
        rw [hsub hused', ← hstart]
        exact if_neg hoptional
      rw [hlength, ← hused] at hconsumed
      cases how with
      | dollars => exact absurd rfl hdollars
      | backslashPattern => exact absurd rfl hpattern
      | singleOptional =>
        change st.text.length ≤ _ + 3 * s.length at hconsumed
        change _ < s.length * 4 + 3 + _
        omega
      | backslashShownull =>
        have hlast := hinactive (hstop QuoteType.noConfusion)
        change st.text.length ≤ _ + 7 * s.length at hconsumed
        change _ < s.length * 7 + 1 + _
        omega
      | backslash =>
        have hlast := hinactive (hstop QuoteType.noConfusion)
        change st.text.length ≤ _ + 7 * s.length at hconsumed
        change _ < s.length * 7 + 1 + _
        omega
      | _ =>
        have hlast := hinactive (hstop QuoteType.noConfusion)
        change st.text.length ≤ _ + 4 * s.length at hconsumed
        change _ < s.length * 4 + 1 + _
        omega

end Bsh.Shell
