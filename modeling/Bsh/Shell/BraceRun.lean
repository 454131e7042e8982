import Mathlib.Logic.Relation
import Bsh.Shell.BraceExpand

/-!
# The loop over the words

`prefork` expands the first brace of a word until no brace is left.  Where each word that it takes up
is sound, the loop ends with the words of the manual: every opening brace that `hasbraces` takes for
a range belongs to a documented form, and the scan does not stop in front of one.
-/

namespace Bsh.Shell

open Bsh.Library List

/-! ## Sound words -/

/-- The condition on a word for one turn of the loop, one opening brace after the other. -/
inductive Sound (env : BraceEnv) : Bytes → Prop where
  | plain {a : Bytes} (ha : inbraceToken ∉ a) : Sound env a
  /-- A brace that is taken for a range has a documented form. -/
  | range {a text : Bytes} (ha : inbraceToken ∉ a) (h : takesRange env text = some true)
    (hexpands : Expands env text) : Sound env (a ++ inbraceToken :: text)
  | commas {a inside back : Bytes} (ha : inbraceToken ∉ a)
    (h : takesRange env (inside ++ outbraceToken :: back) = some false)
    (hinside : braces.Balanced inside) (hcomma : hasComma inside = true) :
    Sound env (a ++ inbraceToken :: (inside ++ outbraceToken :: back))
  | stays {a inside back : Bytes} (ha : inbraceToken ∉ a)
    (h : takesRange env (inside ++ outbraceToken :: back) = some false)
    (hinside : braces.Balanced inside) (hcomma : hasComma inside = false)
    (hrest : Sound env (inside ++ char '\x7d' :: back)) :
    Sound env (a ++ inbraceToken :: (inside ++ outbraceToken :: back))
  | last {a b : Bytes} (ha : inbraceToken ∉ a) (h : takesRange env b = some false)
    (hb : braces.Balanced b) (hrest : Sound env b) : Sound env (a ++ inbraceToken :: b)
  | pair {a b text : Bytes} (ha : inbraceToken ∉ a)
    (h : takesRange env (b ++ inbraceToken :: text) = some false) (hb : braces.Balanced b)
    (htext : braces.close 0 text = none) (hmarked : ¬ Unbraced b)
    (hrest : Sound env (b ++ char '\x7b' :: text)) :
    Sound env (a ++ inbraceToken :: (b ++ inbraceToken :: text))
  /-- Where the scan stops between two opening braces that are never closed, nothing is left to
  expand. -/
  | lost {a b text : Bytes} (ha : inbraceToken ∉ a)
    (h : takesRange env (b ++ inbraceToken :: text) = some false)
    (htext : braces.close 0 text = none) (hb : Unbraced b)
    (hlost : documented env text = [literal text]) :
    Sound env (a ++ inbraceToken :: (b ++ inbraceToken :: text))

/-- What the scan leaves of a sound word. -/
structure ScanResult (env : BraceEnv) (word : Bytes) (found : Bool) (m : Bytes) : Prop where
  documented_eq : documented env m = documented env word
  opens_le : opens m ≤ opens word
  idle : found = false → documented env m = [literal m]
  expands : found = true →
    ∃ a text, m = a ++ inbraceToken :: text ∧ inbraceToken ∉ a ∧ Expands env text

set_option maxRecDepth 4000 in
theorem literal_literal (a : Bytes) : literal (literal a) = literal a := by
  have hplain : ∀ c, bracePlain (bracePlain c) = bracePlain c :=
    Bytes.forall_byte (by decide)
  unfold literal
  rw [map_map]
  exact map_congr_left fun c _ ↦ hplain c

set_option maxRecDepth 4000 in
theorem inbrace_not_mem_literal (a : Bytes) : inbraceToken ∉ literal a := by
  have hne : ∀ c, bracePlain c ≠ inbraceToken := Bytes.forall_byte (by decide)
  intro h
  obtain ⟨c, -, hc⟩ := List.mem_map.mp h
  exact hne c hc

variable {env : BraceEnv} {m word : Bytes} {result words : List Bytes}

theorem ScanResult.passed {rest : Bytes} {found : Bool}
    (h : ScanResult env rest found m) (a : Bytes)
    (hword : documented env word = (documented env rest).map (literal a ++ char '\x7b' :: ·))
    (hopens : opens rest ≤ opens word) :
    ScanResult env word found (literal a ++ char '\x7b' :: m) := by
  have hfront : inbraceToken ∉ literal a ++ [char '\x7b'] := by
    rw [mem_append, not_or]
    exact ⟨inbrace_not_mem_literal a, by decide⟩
  have hsplit (t : Bytes) : literal a ++ char '\x7b' :: t = (literal a ++ [char '\x7b']) ++ t := by
    rw [append_assoc]
    rfl
  have hliteral : literal (literal a ++ [char '\x7b']) = literal a ++ [char '\x7b'] := by
    rw [literal_append, literal_literal]
    rfl
  have hdocumented : documented env (literal a ++ char '\x7b' :: m) =
      (documented env m).map (literal a ++ char '\x7b' :: ·) := by
    rw [hsplit, documented_append env hfront, hliteral]
    exact map_congr_left fun t _ ↦ (hsplit t).symm
  refine ⟨?_, ?_, fun hfound ↦ ?_, fun hfound ↦ ?_⟩
  · rw [hdocumented, h.documented_eq, hword]
  · rw [hsplit, opens_append, not_mem_iff_opens.mp hfront, Nat.zero_add]
    exact h.opens_le.trans hopens
  · rw [hdocumented, h.idle hfound, hsplit m, literal_append, hliteral]
    simp
  · obtain ⟨b, text, rfl, hb, hexpands⟩ := h.expands hfound
    refine ⟨(literal a ++ [char '\x7b']) ++ b, text, by simp, ?_, hexpands⟩
    rw [mem_append, not_or]
    exact ⟨hfront, hb⟩

theorem scans_front {passed a text : Bytes} (ha : inbraceToken ∉ a) {found : Bool}
    (h : Scans env (outsideScan (passed ++ literal a) (inbraceToken :: text))
      (found, passed ++ literal a ++ m)) :
    Scans env (outsideScan passed (a ++ inbraceToken :: text)) (found, passed ++ (literal a ++ m)) := by
  rw [scans_append_iff ha, ← append_assoc]
  exact h

theorem ScanResult.found {a text : Bytes} (ha : inbraceToken ∉ a)
    (hexpands : Expands env text) :
    ScanResult env (a ++ inbraceToken :: text) true (literal a ++ inbraceToken :: text) := by
  refine ⟨?_, ?_, fun h ↦ Bool.noConfusion h, fun _ ↦ ?_⟩
  · rw [documented_append env ha, documented_append env (inbrace_not_mem_literal a),
      literal_literal]
  · rw [opens_append, opens_append, not_mem_iff_opens.mp (inbrace_not_mem_literal a)]
    omega
  · exact ⟨literal a, text, rfl, inbrace_not_mem_literal a, hexpands⟩

/-- `hasbraces` on a sound word: it ends within the word, keeps the words of the manual, and stops at
a documented form, if there is one. -/
theorem Sound.scans (h : Sound env word) (passed : Bytes) :
    ∃ found m, Scans env (outsideScan passed word) (found, passed ++ m) ∧
      ScanResult env word found m := by
  have hpassed (p m : Bytes) : p ++ [char '\x7b'] ++ m = p ++ (char '\x7b' :: m) := by
    rw [append_assoc]
    rfl
  have hopens (a text : Bytes) : opens text ≤ opens (a ++ inbraceToken :: text) := by
    rw [opens_append, opens_open]
    omega
  induction h generalizing passed with
  | @plain a ha =>
    refine ⟨false, literal a, scans_plain env passed ha, ?_, ?_, fun _ ↦ ?_, fun h ↦ ?_⟩
    · rw [documented_plain env ha, documented_plain env (inbrace_not_mem_literal a),
        literal_literal]
    · rw [not_mem_iff_opens.mp (inbrace_not_mem_literal a)]
      exact Nat.zero_le _
    · exact documented_plain env (inbrace_not_mem_literal a)
    · cases h
  | @range a text ha h hexpands =>
    exact ⟨true, literal a ++ inbraceToken :: text, scans_front ha (scans_range h _),
      .found ha hexpands⟩
  | @commas a inside back ha h hinside hcomma =>
    exact ⟨true, literal a ++ inbraceToken :: (inside ++ outbraceToken :: back),
      scans_front ha (scans_commas h hinside hcomma _), .found ha (.commas hinside hcomma)⟩
  | @stays a inside back ha h hinside hcomma _ ih =>
    obtain ⟨found, m, hscans, hresult⟩ := ih _
    rw [hpassed] at hscans
    refine ⟨found, _, scans_front ha (scans_literal h hinside hcomma hscans), ?_⟩
    refine hresult.passed a ?_ ?_
    · exact documented_literal env ha (braces.close_closed hinside back) hcomma
        (braceRange_eq_none h)
    · refine le_trans ?_ (hopens a _)
      rw [opens_append, opens_append, opens_plain (by decide), opens_plain (by decide)]
  | @last a b ha h hb _ ih =>
    obtain ⟨found, m, hscans, hresult⟩ := ih _
    rw [hpassed] at hscans
    refine ⟨found, _, scans_front ha (scans_last h hb hscans), ?_⟩
    exact hresult.passed a (documented_open env ha (braces.close_balanced hb 0)) (hopens a b)
  | @pair a b text ha h hb htext hmarked _ ih =>
    obtain ⟨found, m, hscans, hresult⟩ := ih _
    rw [hpassed] at hscans
    refine ⟨found, _, scans_front ha (scans_pair h hb htext hmarked hscans), ?_⟩
    refine hresult.passed a ?_ ?_
    · have hclose : braces.close 0 (b ++ inbraceToken :: text) = none :=
        braces.close_unclosed hb htext
      rw [documented_open env ha hclose, documented_unclosed env b htext]
    · refine le_trans ?_ (hopens a _)
      rw [opens_append, opens_append, opens_plain (by decide), opens_open]
      omega
  | @lost a b text ha h htext hb hlost =>
    have hscans := scans_lost h hb.to_balanced htext hb (passed ++ literal a)
    have hresult : ScanResult env text false text := by
      refine ⟨rfl, le_rfl, fun _ ↦ hlost, fun h ↦ ?_⟩
      cases h
    have hinner := hresult.passed b (documented_open env hb.not_mem htext) (hopens b text)
    rw [hb.literal_eq] at hinner
    refine ⟨false, _, scans_front ha (by simpa using hscans), hinner.passed a ?_ (hopens a _)⟩
    exact documented_open env ha (braces.close_unclosed hb.to_balanced htext)

/-! ## The loop -/

/-- The loop ends with these words. -/
def ExpandsTo (env : BraceEnv) (words result : List Bytes) : Prop :=
  ∃ enough, ∀ turns ≥ enough, expandBraces env turns words = some result

/-- One word of the expansion of another. -/
def StepsTo (env : BraceEnv) (word word' : Bytes) : Prop :=
  ∃ turns m words, hasbraces env turns word = some (true, m) ∧
    xpandbraces env m = some words ∧ word' ∈ words

theorem expandsTo_nil (env : BraceEnv) : ExpandsTo env [] [] := by
  refine ⟨0, fun turns _ ↦ ?_⟩
  cases turns <;> rfl

theorem expandsTo_idle
    (hword : Scans env (outsideScan [] word) (false, m)) (hwords : ExpandsTo env words result) :
    ExpandsTo env (word :: words) (m :: result) := by
  obtain ⟨enough, hword⟩ := hword
  obtain ⟨enough', hwords⟩ := hwords
  refine ⟨enough + enough' + 1, fun turns hturns ↦ ?_⟩
  obtain ⟨turns, rfl⟩ : ∃ n, turns = n + 1 := ⟨turns - 1, by omega⟩
  have hscan : hasbraces env turns word = some (false, m) := hword turns (by omega)
  rw [expandBraces, hscan]
  rw [hwords turns (by omega)]
  rfl

theorem expandsTo_expand {expansion : List Bytes}
    (hword : Scans env (outsideScan [] word) (true, m))
    (hexpansion : xpandbraces env m = some expansion)
    (hwords : ExpandsTo env (expansion ++ words) result) :
    ExpandsTo env (word :: words) result := by
  obtain ⟨enough, hword⟩ := hword
  obtain ⟨enough', hwords⟩ := hwords
  refine ⟨enough + enough' + 1, fun turns hturns ↦ ?_⟩
  obtain ⟨turns, rfl⟩ : ∃ n, turns = n + 1 := ⟨turns - 1, by omega⟩
  have hscan : hasbraces env turns word = some (true, m) := hword turns (by omega)
  rw [expandBraces, hscan]
  dsimp only
  rw [hexpansion]
  exact hwords turns (by omega)

theorem ExpandsTo.unique {result' : List Bytes}
    (h : ExpandsTo env words result) (h' : ExpandsTo env words result') : result = result' := by
  obtain ⟨enough, h⟩ := h
  obtain ⟨enough', h'⟩ := h'
  have hr := h (enough + enough') (by omega)
  rw [h' (enough + enough') (by omega)] at hr
  exact (Option.some.inj hr).symm

/-- A word in front of others whose words are the documented ones. -/
def ExpandsFirst (env : BraceEnv) (word : Bytes) : Prop :=
  ∃ result, result.map literal = documented env word ∧
    ∀ words result', ExpandsTo env words result' → ExpandsTo env (word :: words) (result ++ result')

theorem expandsTo_words
    (h : ∀ word ∈ words, ExpandsFirst env word) :
    ∃ result, result.map literal = words.flatMap (documented env) ∧
      ∀ words' result', ExpandsTo env words' result' →
        ExpandsTo env (words ++ words') (result ++ result') := by
  induction words with
  | nil => exact ⟨[], rfl, fun words' result' h ↦ h⟩
  | cons word words ih =>
    obtain ⟨result, hresult, hfirst⟩ := h word mem_cons_self
    obtain ⟨results, hresults, hrest⟩ := ih fun w hw ↦ h w (mem_cons_of_mem word hw)
    refine ⟨result ++ results, ?_, fun words' result' h' ↦ ?_⟩
    · rw [map_append, hresult, hresults, flatMap_cons]
    · rw [append_assoc]
      exact hfirst _ _ (hrest words' result' h')

open Relation in
theorem expandsFirst_of_sound
    (h : ∀ w, ReflTransGen (StepsTo env) word w → Sound env w) : ExpandsFirst env word := by
  induction hn : opens word using Nat.strongRecOn generalizing word with
  | _ n ih =>
  obtain ⟨found, m, hscans, hresult⟩ := (h word .refl).scans []
  cases found with
  | false =>
    refine ⟨[m], ?_, fun words result' h' ↦ expandsTo_idle hscans h'⟩
    rw [← hresult.documented_eq, hresult.idle rfl]
    rfl
  | true =>
    obtain ⟨a, text, rfl, ha, hexpands⟩ := hresult.expands rfl
    obtain ⟨words, hwords, hdocumented, hopens⟩ := xpandbraces_documented ha hexpands
    have hall : ∀ w ∈ words, ExpandsFirst env w := by
      rintro w hw
      obtain ⟨enough, hscans⟩ := hscans
      have hstep : StepsTo env word w := ⟨enough, _, words, hscans enough le_rfl, hwords, hw⟩
      refine ih (opens w) ?_ (fun w' hw' ↦ h w' (.head hstep hw')) rfl
      rw [← hn]
      exact (hopens w hw).trans_le hresult.opens_le
    obtain ⟨result, hmap, hfirst⟩ := expandsTo_words hall
    refine ⟨result, ?_, fun words' result' h' ↦ ?_⟩
    · rw [hmap, hdocumented, hresult.documented_eq]
    · exact expandsTo_expand hscans hwords (hfirst words' result' h')

open Relation in
/-- The loop ends with the words of the manual, if every word on its way is sound. -/
theorem expandBraces_documented (env : BraceEnv) (word : Bytes)
    (h : ∀ w, ReflTransGen (StepsTo env) word w → Sound env w) :
    ∃ result, ExpandsTo env [word] result ∧ result.map literal = documented env word := by
  obtain ⟨result, hresult, hfirst⟩ := expandsFirst_of_sound h
  refine ⟨result, ?_, hresult⟩
  have hword := hfirst [] [] (expandsTo_nil env)
  rwa [append_nil] at hword

/-! ## Two words -/

/-- Single bytes as characters, with the notation of `wcs_nicechar` for control characters. -/
def BraceEnv.portable : BraceEnv where
  charset := .portable
  multibyte := false
  nicechar wc :=
    if 0x20 ≤ wc ∧ wc < 0x7F then [UInt8.ofNat wc]
    else [char '^', UInt8.ofNat (wc % 0x20 + 0x40)]
  nicechar_plain wc c hc := by
    have hall : ∀ n < 0x7F, itok (UInt8.ofNat n) = false := by decide +kernel
    split at hc
    · next hwc =>
      rw [List.mem_singleton.mp hc]
      exact hall wc hwc.2
    · rcases List.mem_pair.mp hc with rfl | rfl
      · rfl
      · exact hall _ (by omega)

theorem scans_of_hasbraces {turns : ℕ} {r : Bool × Bytes}
    (h : hasbraces env turns word = some r) : Scans env (outsideScan [] word) r := by
  have hmono (n : ℕ) (s : BraceScan) (hs : hasbracesFrom env n s = some r) : Scans env s r := by
    induction n generalizing s with
    | zero => cases hs
    | succ n ih =>
      rw [hasbracesFrom] at hs
      split at hs
      · cases hs
      · next found mem hturn =>
        cases hs
        exact scans_done hturn
      · next s' hturn => exact (scans_next_iff hturn).mpr (ih s' hs)
  exact hmono turns _ h

theorem StepsTo.mem {w : Bytes} (h : StepsTo env word w)
    (hscans : Scans env (outsideScan [] word) (true, m)) (hwords : xpandbraces env m = some words) :
    w ∈ words := by
  obtain ⟨turns, m', words', hscan, hwords', hw⟩ := h
  obtain ⟨-, rfl⟩ := Prod.mk.inj ((scans_of_hasbraces hscan).unique hscans)
  rw [hwords] at hwords'
  cases hwords'
  exact hw

theorem not_stepsTo_plain {w : Bytes} (hword : inbraceToken ∉ word) :
    ¬ StepsTo env word w := by
  rintro ⟨turns, m, words, hscan, -, -⟩
  have hfalse := (scans_of_hasbraces hscan).unique (scans_plain env [] hword)
  cases hfalse

/-- The word `a{9..10}`, with tokens for the braces. -/
def wordNineToTen : Bytes :=
  [char 'a', inbraceToken, char '9', char '.', char '.', char '1', char '0', outbraceToken]

open Relation in
theorem expandBraces_documented_nineToTen :
    ∃ result, ExpandsTo .portable [wordNineToTen] result ∧
      result.map literal = documented .portable wordNineToTen := by
  refine expandBraces_documented .portable wordNineToTen fun w hw ↦ ?_
  have hunbraced : Unbraced [char '9', char '.', char '.', char '1', char '0'] := by
    unfold Unbraced
    decide
  have hfits : NumberForm.Fits ⟨9, 10, 1, 0⟩ := by
    refine ⟨rfl, rfl, by decide, fun _ h ↦ absurd h (by decide), rfl⟩
  have hchars : bracechardots .portable
      ([char '9', char '.', char '.', char '1', char '0'] ++ outbraceToken :: []) = some none := by
    decide
  have hexpands : Expands .portable
      [char '9', char '.', char '.', char '1', char '0', outbraceToken] :=
    .numbers hunbraced.to_balanced rfl hchars rfl hfits
  have hrange : takesRange .portable [char '9', char '.', char '.', char '1', char '0', outbraceToken] =
      some true := by decide
  have hfront : inbraceToken ∉ [char 'a'] := by decide
  have hscans : Scans .portable (outsideScan [] wordNineToTen) (true, wordNineToTen) :=
    scans_front hfront (scans_range hrange _)
  have hwords : xpandbraces .portable wordNineToTen =
      some [[char 'a', char '9'], [char 'a', char '1', char '0']] := by decide
  rcases ReflTransGen.cases_head hw with rfl | ⟨w', hstep, hrest⟩
  · exact .range hfront hrange hexpands
  · have hmem := hstep.mem hscans hwords
    have hplain : inbraceToken ∉ w' := by
      simp only [mem_cons, not_mem_nil, or_false] at hmem
      rcases hmem with rfl | rfl <;> decide
    rcases ReflTransGen.cases_head hrest with rfl | ⟨w'', hstep', -⟩
    · exact .plain hplain
    · exact absurd hstep' (not_stepsTo_plain hplain)

/-- The word `{1..}`, with tokens for the braces. -/
def wordMissingNumber : Bytes := [inbraceToken, char '1', char '.', char '.', outbraceToken]

/-- The test of `hasbraces` asks for digits at one end of the braces only; `xpandbraces` finds no
second number and leaves the braces out. -/
theorem expandBraces_missingNumber :
    ¬ ∃ result, ExpandsTo .portable [wordMissingNumber] result ∧
      result.map literal = documented .portable wordMissingNumber := by
  rintro ⟨result, hresult, hdocumented⟩
  have hrange : takesRange .portable [char '1', char '.', char '.', outbraceToken] = some true := by
    decide
  have hwords : xpandbraces .portable wordMissingNumber =
      some [[char '1', char '.', char '.']] := by decide
  have hplain : inbraceToken ∉ [char '1', char '.', char '.'] := by decide
  have hexpands : ExpandsTo .portable [wordMissingNumber] [[char '1', char '.', char '.']] :=
    expandsTo_expand (scans_range hrange []) hwords
      (expandsTo_idle (scans_plain _ [] hplain) (expandsTo_nil _))
  rw [hresult.unique hexpands] at hdocumented
  revert hdocumented
  decide

end Bsh.Shell
