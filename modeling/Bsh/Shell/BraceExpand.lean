import Bsh.Shell.BraceNumbers

/-!
# The expansion of one brace

`xpandbraces` on a word whose first brace has a documented form gives the words of the manual.  The
test of `hasbraces` accepts every range that the manual has.
-/

namespace Bsh.Shell

open Bsh.Library List

/-! ## Commas -/

variable {a inside text : Bytes} {env : BraceEnv} {wc : ℕ} (level : ℕ)

theorem length_commaParts_opening (rest : Bytes) :
    (commaParts level (inbraceToken :: rest)).length = (commaParts (level + 1) rest).length := by
  rw [length_commaParts_cons fun h ↦ absurd h.2 (by decide), if_pos rfl]

theorem length_commaParts_closing (rest : Bytes) :
    (commaParts level (outbraceToken :: rest)).length = (commaParts (level - 1) rest).length := by
  rw [length_commaParts_cons fun h ↦ absurd h.2 (by decide), if_neg (by decide), if_pos rfl]

theorem length_commaParts_other {level : ℕ} {c : UInt8} (hopening : c ≠ inbraceToken)
    (hclosing : c ≠ outbraceToken) (hcomma : ¬ (level = 0 ∧ c = commaToken)) (rest : Bytes) :
    (commaParts level (c :: rest)).length = (commaParts level rest).length := by
  rw [length_commaParts_cons hcomma, if_neg hopening, if_neg hclosing]

/-- The two ways to count the commas agree. -/
theorem countForms_commaParts (text : Bytes) :
    (countForms level text).1 + 1 = (commaParts level text).length := by
  fun_induction countForms level text with
  | case1 level => rfl
  | case2 level c h =>
    obtain ⟨rfl, rfl⟩ := h
    rfl
  | case3 level c h =>
    rw [length_commaParts_cons h]
    rfl
  | case4 level d rest ih => rw [ih, length_commaParts_opening]
  | case5 level d rest _ ih => rw [ih, length_commaParts_closing]
  | case6 d rest comma dotdot hforms _ _ ih =>
    rw [hforms] at ih
    rw [length_commaParts_comma, ← ih]
  | case7 c d rest hopening hclosing hcomma hdots comma dotdot hforms ih =>
    obtain ⟨rfl, rfl⟩ := hdots
    rw [hforms] at ih
    rw [length_commaParts_other hopening hclosing (fun h ↦ hcomma h.2),
      length_commaParts_other hopening hclosing (fun h ↦ hcomma h.2), ← ih]
  | case8 c d rest hopening hclosing hcomma _ ih =>
    rw [ih, length_commaParts_other hopening hclosing fun h ↦ hcomma h.2]
  | case9 level c d rest hopening hclosing hlevel ih =>
    rw [ih, length_commaParts_other hopening hclosing fun h ↦ hlevel h.1]

theorem countForms_hasComma (inside : Bytes) :
    (countForms 0 inside).1 = 0 ↔ hasComma inside = false := by
  have h := countForms_commaParts 0 inside
  unfold hasComma
  rw [← h, decide_eq_false_iff_not]
  omega

/-! ## Characters -/

/-- A character that is complete does not depend on what follows it. -/
theorem mbConvert_append (charset : Charset) (text : Bytes) (used : ℕ) (st : charset.State)
    {len : ℕ} {st' : charset.State} (more : Bytes)
    (h : mbConvert charset text used st = some (some (len, wc, st'))) :
    mbConvert charset (text ++ more) used st = some (some (len, wc, st')) ∧
      len ≤ used + text.length := by
  fun_induction mbConvert charset text used st with
  | case1 => cases h
  | case2 => cases h
  | case3 => cases h
  | case4 c used st hmeta himeta wc' st1 hchar =>
    cases h
    refine ⟨?_, by simp⟩
    cases more with
    | nil => rw [append_nil, mbConvert, if_neg hmeta, if_neg himeta, hchar]
    | cons d more =>
      rw [cons_append, nil_append, mbConvert, if_neg hmeta, if_neg himeta, hchar]
  | case5 => cases h
  | case6 => cases h
  | case7 d rest used st st1 hresult ih =>
    obtain ⟨happend, hle⟩ := ih h
    refine ⟨?_, ?_⟩
    · rw [cons_append, cons_append, mbConvert, if_pos rfl, hresult]
      exact happend
    · rw [length_cons, length_cons]
      omega
  | case8 d rest used st wc' st1 hchar =>
    cases h
    refine ⟨?_, ?_⟩
    · rw [cons_append, cons_append, mbConvert, if_pos rfl, hchar]
    · rw [length_cons, length_cons]
      omega
  | case9 => cases h
  | case10 => cases h
  | case11 c d rest used st hmeta himeta st1 hresult ih =>
    obtain ⟨happend, hle⟩ := ih h
    refine ⟨?_, ?_⟩
    · rw [cons_append, cons_append, mbConvert, if_neg hmeta, if_neg himeta, hresult]
      exact happend
    · rw [length_cons]
      omega
  | case12 c d rest used st hmeta himeta wc' st1 hchar =>
    cases h
    refine ⟨?_, ?_⟩
    · rw [cons_append, cons_append, mbConvert, if_neg hmeta, if_neg himeta, hchar]
    · rw [length_cons]
      omega

theorem mbMetacharlenconv_append {charset : Charset} {multibyte : Bool} {c : UInt8}
    {st st' : charset.State} {len : ℕ}
    (h : mbMetacharlenconv charset multibyte c text st = some (len, some wc, st')) (more : Bytes) :
    mbMetacharlenconv charset multibyte c (text ++ more) st = some (len, some wc, st') ∧
      len ≤ (c :: text).length := by
  unfold mbMetacharlenconv at h ⊢
  split at h
  · next hsingle =>
    rw [if_pos hsingle]
    split at h
    · next hmeta =>
      rw [if_pos hmeta]
      cases text with
      | nil => cases h
      | cons d text =>
        cases h
        exact ⟨rfl, by simp⟩
    · next hmeta =>
      rw [if_neg hmeta]
      cases h
      exact ⟨rfl, by simp⟩
  · next hsingle =>
    rw [if_neg hsingle]
    split at h
    · cases h
    · next htok =>
      rw [if_neg htok]
      unfold mbMetacharlenconvR at h ⊢
      split at h
      · next hascii =>
        rw [if_pos hascii]
        cases h
        exact ⟨rfl, by simp⟩
      · next hascii =>
        rw [if_neg hascii]
        split at h
        · cases h
        · next len' wc' st1 hconvert =>
          obtain ⟨happend, hle⟩ := mbConvert_append charset (c :: text) 0 st more hconvert
          cases h
          rw [← cons_append, happend]
          exact ⟨rfl, by omega⟩
        · cases h

theorem braceChar_append {rest : Bytes}
    (h : braceChar env text = some (some wc, some rest)) (more : Bytes) :
    braceChar env (text ++ more) = some (some wc, some (rest ++ more)) := by
  cases text with
  | nil => cases h
  | cons c text =>
    rw [cons_append]
    rw [braceChar] at h ⊢
    split at h
    · next htok =>
      rw [if_pos htok]
      obtain ⟨⟨len, wc', st⟩, hconv, hresult⟩ := Option.map_eq_some_iff.mp h
      cases hresult
      obtain ⟨-, hle⟩ := mbMetacharlenconv_append hconv []
      rw [hconv, Option.map_some, ← cons_append, drop_append_of_le_length]
      exact hle.trans (by simp)
    · next htok =>
      rw [if_neg htok]
      obtain ⟨⟨len, wc', st⟩, hconv, hresult⟩ := Option.map_eq_some_iff.mp h
      cases hresult
      obtain ⟨happend, hle⟩ := mbMetacharlenconv_append hconv more
      rw [happend, Option.map_some, ← cons_append, drop_append_of_le_length hle]

theorem afterDots_append {rest : Bytes} (h : afterDots text = some rest) (more : Bytes) :
    afterDots (text ++ more) = some (rest ++ more) := by
  rw [afterDots_eq_some h]
  rfl

/-- `bracechardots` takes every documented range of characters. -/
theorem bracechardots_charForm {c1 c2 : ℕ}
    (h : charForm env inside = some (c1, c2)) (back : Bytes) :
    bracechardots env (inside ++ outbraceToken :: back) = some (some (c1, c2)) := by
  unfold charForm at h
  split at h
  · cases h
  next hopening =>
  split at h
  · next wc1 rest1 hchar1 =>
    split at h
    · cases h
    next text2 hdots =>
    split at h
    · cases h
    next hopening2 =>
    split at h
    · next wc2 hchar2 =>
      cases h
      have hhead (text : Bytes) (hne : text ≠ []) :
          (text ++ outbraceToken :: back).head? = text.head? := by
        cases text with
        | nil => exact absurd rfl hne
        | cons c text => rfl
      have hinside : inside ≠ [] := by
        rintro rfl
        cases hchar1
      have htext2 : text2 ≠ [] := by
        rintro rfl
        cases hchar2
      unfold bracechardots
      rw [hhead inside hinside, if_neg hopening, braceChar_append hchar1]
      dsimp only
      rw [afterDots_append hdots]
      dsimp only
      rw [hhead text2 htext2, if_neg (by simp [hopening2]), braceChar_append hchar2]
      rfl
    · cases h
  · cases h

/-- The braces that the manual takes for a range, `hasbraces` takes for one, too. -/
theorem braceRange_eq_none {back : Bytes}
    (h : takesRange env (inside ++ outbraceToken :: back) = some false) :
    braceRange env inside = none := by
  unfold takesRange at h
  have hchars : charForm env inside = none := by
    cases hchars : charForm env inside with
    | none => rfl
    | some chars =>
      rw [bracechardots_charForm hchars] at h
      cases h
  have hnumbers : numberForm inside = none := by
    cases hnumbers : numberForm inside with
    | none => rfl
    | some f =>
      have hall := braceNumbers_text (numberForm_eq_some hnumbers) back
      obtain ⟨chars, -, hchars⟩ := Option.map_eq_some_iff.mp h
      rw [hall, Bool.or_true] at hchars
      cases hchars
  unfold braceRange
  rw [hchars, hnumbers]
  rfl

/-! ## `xpandbraces` -/

/-- The first brace of a word, with the text behind it, has a documented form that the source reads
as documented. -/
inductive Expands (env : BraceEnv) : Bytes → Prop where
  | commas {inside back : Bytes} (hinside : braces.Balanced inside)
    (hcomma : hasComma inside = true) : Expands env (inside ++ outbraceToken :: back)
  | characters {inside back : Bytes} {c1 c2 : ℕ} (hinside : braces.Balanced inside)
    (hcomma : hasComma inside = false) (hopening : inbraceToken ∉ inside)
    (hchars : charForm env inside = some (c1, c2)) : Expands env (inside ++ outbraceToken :: back)
  | numbers {inside back : Bytes} {f : NumberForm} (hinside : braces.Balanced inside)
    (hcomma : hasComma inside = false)
    (hchars : bracechardots env (inside ++ outbraceToken :: back) = some none)
    (hnumbers : numberForm inside = some f) (hfits : f.Fits) :
    Expands env (inside ++ outbraceToken :: back)

theorem countForms_two_dots {x : Bytes} (hx : ∀ c ∈ x, c ≠ inbraceToken ∧ c ≠ outbraceToken)
    (y : Bytes) : (countForms 0 (x ++ char '.' :: char '.' :: y)).2 ≠ 0 := by
  have hdots : (countForms 0 (char '.' :: char '.' :: y)).2 ≠ 0 := by
    exact Nat.succ_ne_zero _
  induction x with
  | nil => exact hdots
  | cons c x ih =>
    obtain ⟨hopening, hclosing⟩ := hx c mem_cons_self
    have hrest := ih fun d hd ↦ hx d (mem_cons_of_mem c hd)
    rw [cons_append]
    cases htext : x ++ char '.' :: char '.' :: y with
    | nil => simp at htext
    | cons d t =>
      rw [htext] at hrest
      rw [countForms, if_neg hopening, if_neg hclosing, if_pos rfl]
      split
      · exact hrest
      · split
        · exact Nat.succ_ne_zero _
        · exact hrest

theorem outbrace_not_mem (h : braces.Balanced inside)
    (hopening : inbraceToken ∉ inside) : outbraceToken ∉ inside := by
  induction h with
  | nil => exact not_mem_nil
  | plain _ hclosing _ ih =>
    rw [mem_cons, not_or] at hopening ⊢
    exact ⟨Ne.symm hclosing, ih hopening.2⟩
  | group _ _ => exact absurd mem_cons_self hopening

theorem braceChar_suffix {rest : Bytes} {wc : Option ℕ}
    (h : braceChar env text = some (wc, some rest)) : ∃ x, text = x ++ rest := by
  cases text with
  | nil => cases h
  | cons c text =>
    rw [braceChar] at h
    split at h <;>
    · obtain ⟨⟨len, wc', st⟩, -, hresult⟩ := Option.map_eq_some_iff.mp h
      cases hresult
      exact ⟨(c :: text).take len, (List.take_append_drop len (c :: text)).symm⟩

theorem charForm_dots {c1 c2 : ℕ}
    (h : charForm env inside = some (c1, c2)) :
    ∃ x y, inside = x ++ char '.' :: char '.' :: y := by
  unfold charForm at h
  split at h
  · cases h
  split at h
  · next wc1 rest1 hchar1 =>
    split at h
    · cases h
    next text2 hdots =>
    obtain ⟨x, rfl⟩ := braceChar_suffix hchar1
    exact ⟨x, text2, by rw [afterDots_eq_some hdots]⟩
  · cases h

theorem charactersFromTo_eq (c1 c2 : ℕ) : charactersFromTo c1 c2 = charValues c1 c2 := by
  unfold charactersFromTo charValues charsDown
  by_cases hle : c1 ≤ c2
  · rw [if_pos hle, if_neg (not_lt.mpr hle)]
    refine ext_getElem (by simp) fun k hk _ ↦ ?_
    have hk' : k < c2 - c1 + 1 := by simpa using hk
    simp
    omega
  · rw [if_neg hle, if_pos (not_le.mp hle)]

set_option maxRecDepth 4000 in
theorem unbraced_nicechar (env : BraceEnv) (wc : ℕ) : Unbraced (env.nicechar wc) := by
  have htokens : ∀ c, itok c = false → c ≠ inbraceToken ∧ c ≠ outbraceToken ∧ c ≠ commaToken :=
    Bytes.forall_byte (by decide)
  exact fun c hc ↦ htokens c (env.nicechar_plain wc c hc)

theorem unbraced_zeroPadded (width : ℕ) (n : ℤ) : Unbraced (zeroPadded width n) := by
  have hdigits : Unbraced (Decimal.decimal n.natAbs) :=
    fun c hc ↦ unbraced_digit c (idigit_of_mem_decimal hc)
  have hzeros (count : ℕ) : Unbraced (List.replicate count (char '0')) :=
    fun c hc ↦ unbraced_digit c (by rw [eq_of_mem_replicate hc]; rfl)
  have hsign : Unbraced [char '-'] := by
    rintro c hc
    rw [List.mem_singleton.mp hc]
    exact unbraced_dash _ rfl
  unfold zeroPadded
  split
  · exact hsign.append ((hzeros _).append hdigits)
  · exact (hzeros _).append hdigits

theorem documented_values (ha : inbraceToken ∉ a)
    (hinside : braces.Balanced inside) (hcomma : hasComma inside = false) {values : List Bytes}
    (hrange : braceRange env inside = some values) (hplain : ∀ value ∈ values, Unbraced value)
    (back : Bytes) :
    (values.map fun value ↦ a ++ value ++ back).flatMap (documented env) =
        documented env (a ++ inbraceToken :: (inside ++ outbraceToken :: back)) ∧
      ∀ word ∈ values.map fun value ↦ a ++ value ++ back,
        opens word < opens (a ++ inbraceToken :: (inside ++ outbraceToken :: back)) := by
  have hclose : braces.close 0 (inside ++ outbraceToken :: back) = some (inside, back) :=
    braces.close_closed hinside back
  have hfront {value : Bytes} (hvalue : value ∈ values) : inbraceToken ∉ a ++ value := by
    rw [mem_append, not_or]
    exact ⟨ha, (hplain value hvalue).not_mem⟩
  refine ⟨?_, fun word hword ↦ ?_⟩
  · rw [documented_range env ha hclose hcomma hrange, flatMap_map]
    refine flatMap_congr fun value hvalue ↦ ?_
    rw [documented_append env (hfront hvalue), literal_append, (hplain value hvalue).literal_eq]
  · obtain ⟨value, hvalue, rfl⟩ := List.mem_map.mp hword
    have hopens := opens_close hclose
    rw [opens_append, not_mem_iff_opens.mp (hfront hvalue), opens_append, opens_open, hopens]
    omega

theorem documented_parts (ha : inbraceToken ∉ a)
    (hinside : braces.Balanced inside) (hcomma : hasComma inside = true) (back : Bytes) :
    ((commaParts 0 inside).map fun part ↦ a ++ part ++ back).flatMap (documented env) =
        documented env (a ++ inbraceToken :: (inside ++ outbraceToken :: back)) ∧
      ∀ word ∈ (commaParts 0 inside).map fun part ↦ a ++ part ++ back,
        opens word < opens (a ++ inbraceToken :: (inside ++ outbraceToken :: back)) := by
  have hclose : braces.close 0 (inside ++ outbraceToken :: back) = some (inside, back) :=
    braces.close_closed hinside back
  refine ⟨?_, fun word hword ↦ ?_⟩
  · rw [documented_commas env ha hclose hcomma, flatMap_map]
    refine flatMap_congr fun part _ ↦ ?_
    rw [append_assoc, documented_append env ha]
  · obtain ⟨part, hpart, rfl⟩ := List.mem_map.mp hword
    have hopens := opens_close hclose
    have hle := opens_part_le hpart
    rw [opens_append, opens_append, opens_append, opens_open, hopens]
    omega

theorem xpandbraces_documented (ha : inbraceToken ∉ a)
    (h : Expands env text) :
    ∃ words, xpandbraces env (a ++ inbraceToken :: text) = some words ∧
      words.flatMap (documented env) = documented env (a ++ inbraceToken :: text) ∧
        ∀ word ∈ words, opens word < opens (a ++ inbraceToken :: text) := by
  obtain ⟨htake, hdrop⟩ := takeWhile_open ha text
  unfold xpandbraces
  rw [htake, hdrop]
  dsimp only
  cases h with
  | @commas inside back hinside hcomma =>
    have hclose : braces.close 0 (inside ++ outbraceToken :: back) = some (inside, back) :=
      braces.close_closed hinside back
    have hcount : (countForms 0 inside).1 ≠ 0 := by
      rw [Ne, countForms_hasComma, hcomma]
      exact Bool.false_ne_true.symm
    refine ⟨_, ?_, documented_parts ha hinside hcomma back⟩
    rw [hclose]
    dsimp only
    rw [if_neg fun h ↦ hcount h.1]
  | @characters inside back c1 c2 hinside hcomma hopening hchars =>
    have hclose : braces.close 0 (inside ++ outbraceToken :: back) = some (inside, back) :=
      braces.close_closed hinside back
    have hcount := (countForms_hasComma inside).mpr hcomma
    have hdots : (countForms 0 inside).2 ≠ 0 := by
      have hclosing := outbrace_not_mem hinside hopening
      obtain ⟨x, y, hxy⟩ := charForm_dots hchars
      rw [hxy] at hopening hclosing ⊢
      rw [mem_append, not_or] at hopening hclosing
      refine countForms_two_dots (fun c hc ↦ ⟨?_, ?_⟩) y
      · rintro rfl
        exact hopening.1 hc
      · rintro rfl
        exact hclosing.1 hc
    have hrange : braceRange env inside = some ((charValues c1 c2).map env.nicechar) := by
      unfold braceRange
      rw [hchars, ← charactersFromTo_eq]
    have hplain : ∀ value ∈ (charValues c1 c2).map env.nicechar, Unbraced value := by
      rintro value hvalue
      obtain ⟨wc, -, rfl⟩ := List.mem_map.mp hvalue
      exact unbraced_nicechar env wc
    refine ⟨_, ?_, documented_values ha hinside hcomma hrange hplain back⟩
    rw [hclose]
    dsimp only
    rw [if_pos ⟨hcount, hdots⟩, bracechardots_charForm hchars, map_map]
    rfl
  | @numbers inside back f hinside hcomma hchars hnumbers hfits =>
    have hclose : braces.close 0 (inside ++ outbraceToken :: back) = some (inside, back) :=
      braces.close_closed hinside back
    have hcount := (countForms_hasComma inside).mpr hcomma
    have htext := numberForm_eq_some hnumbers
    have hdots : (countForms 0 inside).2 ≠ 0 := by
      cases htext with
      | two h1 h2 =>
        rw [countForms_plain (integer_plain h1), countForms_dots]
        exact Nat.succ_ne_zero _
      | three h1 h2 h3 _ =>
        rw [countForms_plain (integer_plain h1), countForms_dots]
        exact Nat.succ_ne_zero _
    have hform : charForm env inside = none := by
      cases hform : charForm env inside with
      | none => rfl
      | some chars =>
        rw [bracechardots_charForm hform] at hchars
        cases hchars
    have hrange : braceRange env inside = some (f.numbers.map (zeroPadded f.width)) := by
      unfold braceRange
      rw [hform, hnumbers]
      rfl
    have hplain : ∀ value ∈ f.numbers.map (zeroPadded f.width), Unbraced value := by
      rintro value hvalue
      obtain ⟨n, -, rfl⟩ := List.mem_map.mp hvalue
      exact unbraced_zeroPadded f.width n
    refine ⟨_, ?_, documented_values ha hinside hcomma hrange hplain back⟩
    rw [hclose]
    dsimp only
    rw [if_pos ⟨hcount, hdots⟩, hchars]
    rw [numberRange_text htext hfits]

end Bsh.Shell
