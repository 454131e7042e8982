import Bsh.Shell.Brace

/-!
# Brace expansion as documented

The words of a brace expansion by the manual: commas give the alternatives between what stands in
front of the braces and behind them, numbers and characters with two dots between them give the
values of the range, and braces that are none of these forms stay as they are.
-/

namespace Bsh.Shell

open Bsh.Library List

/-! ## Forms -/

/-- The tokens of brace expansion as characters. -/
def bracePlain (c : UInt8) : UInt8 :=
  if c = inbraceToken then char '\x7b'
  else if c = outbraceToken then char '\x7d'
  else if c = commaToken then char ','
  else c

def literal (word : Bytes) : Bytes := word.map bracePlain

/-- The value of decimal digits. -/
def digitsNumber (digits : Bytes) : ℕ :=
  digits.foldl (fun value c ↦ value * 10 + (c.toNat - (char '0').toNat)) 0

/-- An integer at the head of a text, and what follows it. -/
def integerAt (text : Bytes) : Option (ℤ × Bytes) :=
  let digits := if text.head?.any isDash then text.tail else text
  if (digits.takeWhile idigit).isEmpty then none
  else
    let value : ℤ := digitsNumber (digits.takeWhile idigit)
    some (if text.head?.any isDash then -value else value, digits.dropWhile idigit)

/-- The form `n1..n2` or `n1..n2..n3`. -/
structure NumberForm where
  n1 : ℤ
  n2 : ℤ
  n3 : ℤ
  width : ℕ
  deriving DecidableEq

/-- The width of the first number that begins with a zero. -/
def formWidth (text1 rest1 text2 rest2 text3 : Bytes) : ℕ :=
  if leadingZero text1 then (before text1 rest1).length
  else if leadingZero text2 then (before text2 rest2).length
  else if leadingZero text3 then text3.length
  else 0

/-- The numbers between braces; a step of zero is none. -/
def numberForm (inside : Bytes) : Option NumberForm :=
  match integerAt inside with
  | none => none
  | some (n1, rest1) =>
    match afterDots rest1 with
    | none => none
    | some text2 =>
      match integerAt text2 with
      | none => none
      | some (n2, rest2) =>
        if rest2 = [] then some ⟨n1, n2, 1, formWidth inside rest1 text2 rest2 []⟩
        else
          match afterDots rest2 with
          | none => none
          | some text3 =>
            match integerAt text3 with
            | none => none
            | some (n3, rest3) =>
              if rest3 = [] ∧ n3 ≠ 0 then
                some ⟨n1, n2, n3, formWidth inside rest1 text2 rest2 text3⟩
              else none

/-- Every `|n3|`-th number from `n1` to `n2`, backwards if `n3` is negative. -/
def NumberForm.numbers (f : NumberForm) : List ℤ :=
  let numbers :=
    if f.n1 ≤ f.n2 then
      (List.range ((f.n2 - f.n1).toNat / f.n3.natAbs + 1)).map fun (k : ℕ) ↦
        f.n1 + k * f.n3.natAbs
    else
      (List.range ((f.n1 - f.n2).toNat / f.n3.natAbs + 1)).map fun (k : ℕ) ↦
        f.n1 - k * f.n3.natAbs
  if f.n3 < 0 then numbers.reverse else numbers

/-- The form `c1..c2`. -/
def charForm (env : BraceEnv) (inside : Bytes) : Option (ℕ × ℕ) :=
  if inside.head? = some inbraceToken then none
  else
    match braceChar env inside with
    | some (some c1, some rest1) =>
      match afterDots rest1 with
      | none => none
      | some text2 =>
        if text2.head? = some inbraceToken then none
        else
          match braceChar env text2 with
          | some (some c2, some []) => some (c1, c2)
          | _ => none
    | _ => none

/-- The characters from one to another. -/
def charactersFromTo (c1 c2 : ℕ) : List ℕ :=
  if c1 ≤ c2 then (List.range (c2 - c1 + 1)).map (c1 + ·)
  else (List.range (c1 - c2 + 1)).map (c1 - ·)

/-- The values of a range. -/
def braceRange (env : BraceEnv) (inside : Bytes) : Option (List Bytes) :=
  match charForm env inside with
  | some (c1, c2) => some ((charactersFromTo c1 c2).map env.nicechar)
  | none => (numberForm inside).map fun f ↦ f.numbers.map (zeroPadded f.width)

/-- There is a comma directly inside of braces. -/
def hasComma (inside : Bytes) : Bool := 1 < (commaParts 0 inside).length

/-! ## The expansion -/

/-- The expansion of the first brace of a word, given the expansions of words with fewer braces. -/
def documentedStep (env : BraceEnv) (expand : Bytes → List Bytes) (word : Bytes) : List Bytes :=
  let front := literal (word.takeWhile (· ≠ inbraceToken))
  match word.dropWhile (· ≠ inbraceToken) with
  | [] => [front]
  | _ :: text =>
    match braces.close 0 text with
    | none => (expand text).map (front ++ char '\x7b' :: ·)
    | some (inside, back) =>
      if hasComma inside then
        (commaParts 0 inside).flatMap fun part ↦ (expand (part ++ back)).map (front ++ ·)
      else
        match braceRange env inside with
        | some values =>
          values.flatMap fun value ↦ (expand back).map (front ++ value ++ ·)
        | none => (expand (inside ++ char '\x7d' :: back)).map (front ++ char '\x7b' :: ·)

/-- The expansion of a word with at most `n` opening braces. -/
def documentedFrom (env : BraceEnv) : ℕ → Bytes → List Bytes
  | 0 => fun word ↦ [literal word]
  | n + 1 => documentedStep env (documentedFrom env n)

/-- The words that the manual promises. -/
def documented (env : BraceEnv) (word : Bytes) : List Bytes :=
  documentedFrom env (word.count inbraceToken) word

/-! ## Opening braces -/

variable {a inside word : Bytes} {c : UInt8} (env : BraceEnv)

theorem ne_inbrace (ha : inbraceToken ∉ a) :
    ∀ c ∈ a, decide (c ≠ inbraceToken) = true := by
  rintro c hc
  refine decide_eq_true ?_
  rintro rfl
  exact ha hc

theorem takeWhile_open (ha : inbraceToken ∉ a) (text : Bytes) :
    (a ++ inbraceToken :: text).takeWhile (· ≠ inbraceToken) = a ∧
      (a ++ inbraceToken :: text).dropWhile (· ≠ inbraceToken) = inbraceToken :: text := by
  rw [takeWhile_append_of_pos (ne_inbrace ha), dropWhile_append_of_pos (ne_inbrace ha)]
  exact ⟨by simp, by simp⟩

theorem takeWhile_plain (ha : inbraceToken ∉ a) :
    a.takeWhile (· ≠ inbraceToken) = a ∧ a.dropWhile (· ≠ inbraceToken) = [] := by
  have htake : (a ++ []).takeWhile (· ≠ inbraceToken) = a ++ [].takeWhile (· ≠ inbraceToken) :=
    takeWhile_append_of_pos (ne_inbrace ha)
  have hdrop : (a ++ []).dropWhile (· ≠ inbraceToken) = [].dropWhile (· ≠ inbraceToken) :=
    dropWhile_append_of_pos (ne_inbrace ha)
  simpa using And.intro htake hdrop

theorem first_open (word : Bytes) :
    inbraceToken ∉ word ∨ ∃ a text, word = a ++ inbraceToken :: text ∧ inbraceToken ∉ a := by
  by_cases h : inbraceToken ∈ word
  · obtain ⟨a, text, rfl, ha⟩ := eq_append_cons_of_mem h
    exact Or.inr ⟨a, text, rfl, ha⟩
  · exact Or.inl h

/-- The number of opening braces. -/
def opens (word : Bytes) : ℕ := word.count inbraceToken

theorem opens_append (a b : Bytes) : opens (a ++ b) = opens a + opens b := count_append

theorem opens_open (text : Bytes) : opens (inbraceToken :: text) = opens text + 1 :=
  count_cons_self

theorem opens_cons_le (c : UInt8) (text : Bytes) : opens text ≤ opens (c :: text) :=
  count_le_count_cons

theorem opens_plain (hc : c ≠ inbraceToken) (text : Bytes) :
    opens (c :: text) = opens text := count_cons_of_ne hc

theorem opens_part_le {level : ℕ} {part : Bytes} (h : part ∈ commaParts level inside) :
    opens part ≤ opens inside := by
  induction inside generalizing level part with
  | nil =>
    rw [commaParts, mem_singleton] at h
    rw [h]
  | cons c rest ih =>
    rw [commaParts] at h
    split at h
    · rcases List.mem_cons.mp h with rfl | h
      · exact Nat.zero_le _
      · exact (ih h).trans (opens_cons_le c rest)
    · generalize hlevel : (if c = inbraceToken then level + 1
        else if c = outbraceToken then level - 1 else level) = level' at h
      dsimp only at h
      split at h
      · next first parts hparts =>
        rcases List.mem_cons.mp h with rfl | h
        · have hmem : first ∈ commaParts level' rest := by
            rw [hparts]
            exact mem_cons_self
          have hfirst := ih hmem
          unfold opens at hfirst ⊢
          rw [count_cons, count_cons]
          omega
        · have hmem : part ∈ commaParts level' rest := by
            rw [hparts]
            exact mem_cons_of_mem _ h
          exact (ih hmem).trans (opens_cons_le c rest)
      · rw [List.mem_singleton.mp h]
        unfold opens
        rw [count_cons, count_cons]
        exact Nat.add_le_add_right (Nat.zero_le _) _

theorem opens_close {text back : Bytes} (h : braces.close 0 text = some (inside, back)) :
    opens text = opens inside + opens back := by
  obtain ⟨rfl, -⟩ := braces.close_eq_some h
  have hne : braces.closing ≠ inbraceToken := by decide
  rw [opens_append, opens_plain hne]

theorem not_mem_iff_opens : inbraceToken ∉ word ↔ opens word = 0 :=
  List.count_eq_zero.symm

theorem documentedStep_plain (expand : Bytes → List Bytes)
    (h : inbraceToken ∉ word) : documentedStep env expand word = [literal word] := by
  obtain ⟨htake, hdrop⟩ := takeWhile_plain h
  unfold documentedStep
  rw [htake, hdrop]

/-- One step asks only for words with fewer opening braces. -/
theorem documentedStep_congr {expand expand' : Bytes → List Bytes}
    (h : ∀ w, opens w < opens word → expand w = expand' w) :
    documentedStep env expand word = documentedStep env expand' word := by
  rcases first_open word with hplain | ⟨a, text, rfl, ha⟩
  · rw [documentedStep_plain env expand hplain, documentedStep_plain env expand' hplain]
  · obtain ⟨htake, hdrop⟩ := takeWhile_open ha text
    have hword : opens (a ++ inbraceToken :: text) = opens a + (opens text + 1) := by
      rw [opens_append, opens_open]
    unfold documentedStep
    rw [htake, hdrop]
    dsimp only
    cases hclose : braces.close 0 text with
    | none =>
      rw [h text (by omega)]
    | some p =>
      obtain ⟨inside, back⟩ := p
      have hopens := opens_close hclose
      dsimp only
      by_cases hcomma : hasComma inside = true
      · rw [if_pos hcomma, if_pos hcomma]
        refine flatMap_congr fun part hpart ↦ ?_
        have hle := opens_part_le hpart
        rw [h (part ++ back) (by rw [opens_append]; omega)]
      · rw [if_neg hcomma, if_neg hcomma]
        cases braceRange env inside with
        | none =>
          have hne : char '\x7d' ≠ inbraceToken := by decide
          rw [h (inside ++ char '\x7d' :: back) (by rw [opens_append, opens_plain hne]; omega)]
        | some values =>
          rw [h back (by omega)]

/-- A higher bound on the number of opening braces gives the same words. -/
theorem documentedFrom_eq {n m : ℕ} (hn : opens word ≤ n)
    (hm : opens word ≤ m) : documentedFrom env n word = documentedFrom env m word := by
  have hplain (k : ℕ) (h : opens word = 0) : documentedFrom env k word = [literal word] := by
    cases k with
    | zero => rfl
    | succ k => exact documentedStep_plain env _ (not_mem_iff_opens.mpr h)
  induction n generalizing m word with
  | zero => rw [hplain 0 (by omega), hplain m (by omega)]
  | succ n ih =>
    cases m with
    | zero => rw [hplain (n + 1) (by omega), hplain 0 (by omega)]
    | succ m =>
      refine documentedStep_congr env fun w hw ↦ ih (by omega) (by omega) ?_
      intro k h
      cases k with
      | zero => rfl
      | succ k => exact documentedStep_plain env _ (not_mem_iff_opens.mpr h)

theorem documented_eq (word : Bytes) :
    documented env word = documentedStep env (documented env) word := by
  have hbound : documented env word = documentedFrom env (opens word + 1) word :=
    documentedFrom_eq env le_rfl (Nat.le_succ _)
  rw [hbound]
  refine documentedStep_congr env fun w hw ↦ ?_
  exact documentedFrom_eq env hw.le le_rfl

theorem documented_plain (h : inbraceToken ∉ word) :
    documented env word = [literal word] := by
  rw [documented_eq, documentedStep_plain env _ h]

/-! ## The first brace -/

section FirstBrace

variable (env : BraceEnv) {a text inside back : Bytes} (ha : inbraceToken ∉ a)
include ha

/-- An opening brace that is never closed stays. -/
theorem documented_open (hclose : braces.close 0 text = none) :
    documented env (a ++ inbraceToken :: text) =
      (documented env text).map (literal a ++ char '\x7b' :: ·) := by
  obtain ⟨htake, hdrop⟩ := takeWhile_open ha text
  rw [documented_eq, documentedStep, htake, hdrop]
  dsimp only
  rw [hclose]

theorem documented_commas (hclose : braces.close 0 text = some (inside, back))
    (hcomma : hasComma inside = true) :
    documented env (a ++ inbraceToken :: text) =
      (commaParts 0 inside).flatMap fun part ↦
        (documented env (part ++ back)).map (literal a ++ ·) := by
  obtain ⟨htake, hdrop⟩ := takeWhile_open ha text
  rw [documented_eq, documentedStep, htake, hdrop]
  dsimp only
  rw [hclose]
  dsimp only
  rw [if_pos hcomma]

theorem documented_range (hclose : braces.close 0 text = some (inside, back))
    (hcomma : hasComma inside = false) {values : List Bytes}
    (hrange : braceRange env inside = some values) :
    documented env (a ++ inbraceToken :: text) =
      values.flatMap fun value ↦ (documented env back).map (literal a ++ value ++ ·) := by
  obtain ⟨htake, hdrop⟩ := takeWhile_open ha text
  rw [documented_eq, documentedStep, htake, hdrop]
  dsimp only
  rw [hclose]
  dsimp only
  rw [if_neg (by simp [hcomma]), hrange]

/-- Braces that are no form stay. -/
theorem documented_literal (hclose : braces.close 0 text = some (inside, back))
    (hcomma : hasComma inside = false) (hrange : braceRange env inside = none) :
    documented env (a ++ inbraceToken :: text) =
      (documented env (inside ++ char '\x7d' :: back)).map (literal a ++ char '\x7b' :: ·) := by
  obtain ⟨htake, hdrop⟩ := takeWhile_open ha text
  rw [documented_eq, documentedStep, htake, hdrop]
  dsimp only
  rw [hclose]
  dsimp only
  rw [if_neg (by simp [hcomma]), hrange]

end FirstBrace

theorem literal_append (a b : Bytes) : literal (a ++ b) = literal a ++ literal b :=
  map_append

/-- What stands in front of the first brace stays in front of every word. -/
theorem documented_append (ha : inbraceToken ∉ a) (word : Bytes) :
    documented env (a ++ word) = (documented env word).map (literal a ++ ·) := by
  rcases first_open word with hplain | ⟨b, text, rfl, hb⟩
  · have happend : inbraceToken ∉ a ++ word := by simp [ha, hplain]
    rw [documented_plain env happend, documented_plain env hplain, literal_append]
    rfl
  · have happend : inbraceToken ∉ a ++ b := by simp [ha, hb]
    rw [← append_assoc]
    cases hclose : braces.close 0 text with
    | none =>
      rw [documented_open env happend hclose, documented_open env hb hclose, map_map,
        literal_append]
      simp
    | some p =>
      obtain ⟨inside, back⟩ := p
      cases hcomma : hasComma inside with
      | true =>
        rw [documented_commas env happend hclose hcomma, documented_commas env hb hclose hcomma,
          map_flatMap, literal_append]
        simp [Function.comp_def]
      | false =>
        cases hrange : braceRange env inside with
        | none =>
          rw [documented_literal env happend hclose hcomma hrange,
            documented_literal env hb hclose hcomma hrange, map_map, literal_append]
          simp [Function.comp_def]
        | some values =>
          rw [documented_range env happend hclose hcomma hrange,
            documented_range env hb hclose hcomma hrange, map_flatMap, literal_append]
          simp [Function.comp_def]

/-- An opening brace that is never closed may as well be a character. -/
theorem documented_unclosed (x : Bytes) {text : Bytes}
    (hclose : braces.close 0 text = none) :
    documented env (x ++ char '\x7b' :: text) = documented env (x ++ inbraceToken :: text) := by
  induction hn : opens x using Nat.strongRecOn generalizing x with
  | _ n ih =>
  have hcharacter : braces.close 0 (char '\x7b' :: text) = none := by
    rw [braces.close_plain (by decide) (by decide), hclose]
    rfl
  have htoken : braces.close 0 (inbraceToken :: text) = none :=
    braces.close_unclosed .nil hclose
  rcases first_open x with hplain | ⟨a, rest, rfl, ha⟩
  · have hne : inbraceToken ≠ char '\x7b' := by decide
    have happend : inbraceToken ∉ x ++ [char '\x7b'] := by simp [hplain, hne]
    have hsplit : x ++ char '\x7b' :: text = (x ++ [char '\x7b']) ++ text := by simp
    have hliteral : literal [char '\x7b'] = [char '\x7b'] := rfl
    rw [hsplit, documented_append env happend, documented_open env hplain hclose, literal_append,
      hliteral]
    simp
  · rw [opens_append, opens_open] at hn
    rw [append_assoc, append_assoc, cons_append, cons_append]
    cases hrest : braces.close 0 rest with
    | none =>
      rw [documented_open env ha (braces.close_append_of_none hrest hcharacter),
        documented_open env ha (braces.close_append_of_none hrest htoken),
        ih (opens rest) (by omega) rest rfl]
    | some p =>
      obtain ⟨inside, back⟩ := p
      have hopens := opens_close hrest
      have hcharacter' := braces.close_append_of_some hrest (char '\x7b' :: text)
      have htoken' := braces.close_append_of_some hrest (inbraceToken :: text)
      cases hcomma : hasComma inside with
      | true =>
        rw [documented_commas env ha hcharacter' hcomma, documented_commas env ha htoken' hcomma]
        refine flatMap_congr fun part hpart ↦ ?_
        have hle := opens_part_le hpart
        have hpart' := ih _ (by rw [opens_append]; omega) (part ++ back) rfl
        rw [append_assoc, append_assoc] at hpart'
        rw [hpart']
      | false =>
        cases hrange : braceRange env inside with
        | none =>
          have hne : char '\x7d' ≠ inbraceToken := by decide
          have hback := ih (opens (inside ++ char '\x7d' :: back))
            (by rw [opens_append, opens_plain hne]; omega) _ rfl
          rw [append_assoc, append_assoc, cons_append, cons_append] at hback
          rw [documented_literal env ha hcharacter' hcomma hrange,
            documented_literal env ha htoken' hcomma hrange, hback]
        | some values =>
          rw [documented_range env ha hcharacter' hcomma hrange,
            documented_range env ha htoken' hcomma hrange, ih (opens back) (by omega) back rfl]

/-! ## Commas -/

theorem commaParts_ne_nil (level : ℕ) (text : Bytes) : commaParts level text ≠ [] := by
  cases text with
  | nil => exact cons_ne_nil _ _
  | cons c rest =>
    rw [commaParts]
    split
    · exact cons_ne_nil _ _
    · dsimp only
      split <;> exact cons_ne_nil _ _

theorem length_commaParts_cons {level : ℕ} (hc : ¬ (level = 0 ∧ c = commaToken))
    (rest : Bytes) :
    (commaParts level (c :: rest)).length =
      (commaParts (if c = inbraceToken then level + 1
        else if c = outbraceToken then level - 1 else level) rest).length := by
  rw [commaParts, if_neg hc]
  dsimp only
  split
  · next part parts heq =>
    rw [heq]
    rfl
  · next heq => exact absurd heq (commaParts_ne_nil _ _)

theorem length_commaParts_comma (rest : Bytes) :
    (commaParts 0 (commaToken :: rest)).length = (commaParts 0 rest).length + 1 := by
  rfl

theorem length_commaParts_balanced {b : Bytes} (h : braces.Balanced b) (level : ℕ) (rest : Bytes) :
    (commaParts (level + 1) (b ++ rest)).length = (commaParts (level + 1) rest).length := by
  have hopening : braces.opening = inbraceToken := rfl
  have hclosing : braces.closing = outbraceToken := rfl
  induction h generalizing level rest with
  | nil => rfl
  | plain hopen hclose _ ih =>
    rw [hopening] at hopen
    rw [hclosing] at hclose
    rw [cons_append, length_commaParts_cons (by omega), if_neg hopen, if_neg hclose, ih]
  | group _ _ ihinside ih =>
    rw [cons_append, append_assoc, length_commaParts_cons (by omega), hopening,
      if_pos rfl, ihinside, cons_append, length_commaParts_cons (by omega), hclosing,
      if_neg (by decide), if_pos rfl, Nat.add_sub_cancel, ih]

theorem hasComma_comma (rest : Bytes) : hasComma (commaToken :: rest) = true := by
  have hpos := length_pos_of_ne_nil (commaParts_ne_nil 0 rest)
  unfold hasComma
  rw [length_commaParts_comma]
  exact decide_eq_true (by omega)

theorem hasComma_plain (hopening : c ≠ inbraceToken) (hclosing : c ≠ outbraceToken)
    (hcomma : c ≠ commaToken) (rest : Bytes) : hasComma (c :: rest) = hasComma rest := by
  unfold hasComma
  rw [length_commaParts_cons (fun h ↦ hcomma h.2), if_neg hopening, if_neg hclosing]

theorem hasComma_group (h : braces.Balanced inside) (rest : Bytes) :
    hasComma (inbraceToken :: (inside ++ outbraceToken :: rest)) = hasComma rest := by
  unfold hasComma
  rw [length_commaParts_cons (fun h ↦ absurd h.2 (by decide)), if_pos rfl,
    length_commaParts_balanced h, length_commaParts_cons (by omega), if_neg (by decide), if_pos rfl]

end Bsh.Shell
