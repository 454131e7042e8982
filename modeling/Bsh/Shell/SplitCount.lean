import Bsh.Shell.SpaceSplit

/-!
# The array of `spacesplit`

A string is looked at as the list of its characters, of which only three things matter: whether each
is a blank of `IFS`, a separator, a backslash.  The loop of `wordcount` is then the plain reader of
fields, that of `spacesplit` a reader that also passes over what a backslash quotes, and the count
of the one bounds the elements of the other.
-/

namespace Bsh.Shell

open Bsh.Library Bytes Fields List

/-- What splitting asks of a character. -/
structure CharClass where
  white : Bool
  sep : Bool
  backslash : Bool

namespace SplitEnv

variable {env : SplitEnv}

/-- The class of the character `wc` at the head of a string. -/
def classOf (env : SplitEnv) (s : Bytes) (wc : Option ℕ) : CharClass :=
  ⟨env.iwsep (headUnit s).1, env.wcIsep wc, headIs '\\' s⟩

/-- The classes of the characters of a string. -/
inductive Classed (env : SplitEnv) : Bytes → List CharClass → Prop
  | nil : Classed env [] []
  | cons {c : UInt8} {s : Bytes} {len : ℕ} {wc : Option ℕ} {l : List CharClass}
    (h : HeadChar env (c :: s) len wc) (hrest : Classed env ((c :: s).drop len) l) :
    Classed env (c :: s) (env.classOf (c :: s) wc :: l)

theorem exists_classed (env : SplitEnv) {s : Bytes} (h : MetaText s) : ∃ l, Classed env s l := by
  induction hn : s.length using Nat.strong_induction_on generalizing s with
  | _ n ih =>
    cases s with
    | nil => exact ⟨[], .nil⟩
    | cons c s =>
      obtain ⟨len, wc, hchar⟩ := exists_headChar env h
      have hlt : ((c :: s).drop len).length < n := by
        have hpos := hchar.pos
        rw [length_drop, hn]
        rw [length_cons] at hn
        omega
      obtain ⟨l, hl⟩ := ih _ hlt hchar.behind rfl
      exact ⟨_, .cons hchar hl⟩

theorem Classed.unique {s : Bytes} {l m : List CharClass} (hl : Classed env s l)
    (hm : Classed env s m) : l = m := by
  induction hl generalizing m with
  | nil =>
    cases hm
    rfl
  | cons h _ ih =>
    cases hm with
    | cons h' hrest' =>
      have hsame := h.conv.symm.trans h'.conv
      cases hsame
      rw [ih hrest']

theorem Classed.length_le {s : Bytes} {l : List CharClass} (h : Classed env s l) :
    l.length ≤ s.length := by
  induction h with
  | nil => exact le_rfl
  | @cons c s len wc l h _ ih =>
    have hpos := h.pos
    rw [length_drop] at ih
    rw [length_cons, length_cons] at *
    omega

/-- A place with fewer characters left is a later one. -/
theorem Classed.length_lt {s t : Bytes} {l m : List CharClass} (hs : Classed env s l)
    (ht : Classed env t m) (hsuffix : t <:+ s) (hlt : m.length < l.length) :
    t.length < s.length := by
  apply lt_of_le_of_ne hsuffix.length_le
  intro hsame
  have heq := hsuffix.eq_of_length hsame
  subst heq
  rw [hs.unique ht] at hlt
  exact absurd hlt (lt_irrefl _)

theorem HeadChar.drop_unit {s : Bytes} {len : ℕ} {wc : Option ℕ} (h : HeadChar env s len wc)
    (hlow : (headUnit s).1 < 0x80) :
    wc = some (headUnit s).1.toNat ∧ s.drop len = (headUnit s).2 := by
  cases hmulti : env.multibyte with
  | false => exact h.single hmulti
  | true =>
    cases wc with
    | none => exact absurd (h.invalid hmulti rfl) (UInt8.not_le.mpr hlow)
    | some w =>
      obtain ⟨hw, -, hdrop⟩ | ⟨-, hhigh, -⟩ := h.valid hmulti w rfl
      · exact ⟨by rw [hw], hdrop⟩
      · exact absurd hhigh (UInt8.not_le.mpr hlow)

theorem HeadChar.backslash {s : Bytes} {len : ℕ} {wc : Option ℕ}
    (h : HeadChar env (char '\\' :: s) len wc) :
    (char '\\' :: s).drop len = s ∧ env.wcIsep wc = env.isep (char '\\') := by
  have hunit : headUnit (char '\\' :: s) = (char '\\', s) := headUnit_byte (by decide) s
  have hascii : char '\\' < 0x80 := by decide
  obtain ⟨hwc, hdrop⟩ := h.drop_unit (by rw [hunit]; exact hascii)
  rw [hunit] at hwc hdrop
  refine ⟨hdrop, ?_⟩
  have hlow : decide ((char '\\').toNat < 0x80) = true := by decide
  rw [hwc, wcIsep, hlow, Bool.or_true, if_pos rfl, UInt8.ofNat_toNat]

/-! ## Blanks -/

theorem skipwsepFrom_suffix (turns : ℕ) (s : Bytes) : env.skipwsepFrom turns s <:+ s := by
  induction turns generalizing s with
  | zero => cases s <;> exact suffix_rfl
  | succ turns ih =>
    cases s with
    | nil => exact suffix_rfl
    | cons c s =>
      rw [skipwsepFrom]
      split
      · have hunit : (headUnit (c :: s)).2 <:+ c :: s := by
          cases s with
          | nil => exact nil_suffix
          | cons d s =>
            rw [headUnit]
            split
            · exact (suffix_cons d s).trans (suffix_cons c (d :: s))
            · exact suffix_cons c (d :: s)
        exact (ih _).trans hunit
      · exact suffix_rfl

theorem skipwsep_suffix (s : Bytes) : env.skipwsep s <:+ s := skipwsepFrom_suffix _ s

theorem Classed.skipwsepFrom {s : Bytes} {l : List CharClass} (h : Classed env s l) {turns : ℕ}
    (hturns : s.length ≤ turns) :
    Classed env (env.skipwsepFrom turns s) (skip CharClass.white l) := by
  induction h generalizing turns with
  | nil => cases turns <;> exact .nil
  | @cons c s len wc l h hrest ih =>
    cases turns with
    | zero => cases hturns
    | succ turns =>
      rw [SplitEnv.skipwsepFrom]
      cases hwhite : env.iwsep _ with
      | true =>
        have hdrop := (h.drop_unit (iwsep_low hwhite)).2
        have hlt := headUnit_length c s
        have hskip : skip CharClass.white (env.classOf (c :: s) wc :: l) =
            skip CharClass.white l := dropWhile_cons_of_pos hwhite
        rw [if_pos rfl, hskip, ← hdrop]
        rw [← hdrop] at hlt
        exact ih (by omega)
      | false =>
        have hskip : skip CharClass.white (env.classOf (c :: s) wc :: l) =
            env.classOf (c :: s) wc :: l :=
          dropWhile_cons_of_neg (by
            change ¬ env.iwsep (headUnit (c :: s)).1 = true
            rw [hwhite]
            exact Bool.false_ne_true)
        rw [if_neg Bool.false_ne_true, hskip]
        exact .cons h hrest

theorem Classed.skipwsep {s : Bytes} {l : List CharClass} (h : Classed env s l) :
    Classed env (env.skipwsep s) (skip CharClass.white l) := h.skipwsepFrom le_rfl

theorem Classed.skipwsep_moves {s : Bytes} {l : List CharClass} (h : Classed env s l) :
    decide (s.length ≠ (env.skipwsep s).length) = l.head?.any CharClass.white := by
  rw [Bool.eq_iff_iff, decide_eq_true_iff]
  cases h with
  | nil => simp [SplitEnv.skipwsep, SplitEnv.skipwsepFrom]
  | @cons c s len wc l h hrest =>
    rw [SplitEnv.skipwsep, length_cons, SplitEnv.skipwsepFrom]
    split
    · next hwhite =>
      have hle := (@skipwsepFrom_suffix env s.length (headUnit (c :: s)).2).length_le
      have hlt := headUnit_length c s
      rw [length_cons] at hlt
      exact iff_of_true (by omega) hwhite
    · next hwhite => exact iff_of_false (by simp) hwhite

/-! ## The end of a field -/

theorem Classed.fieldStart {s : Bytes} {l : List CharClass} (h : Classed env s l) :
    ∃ ie, env.itypeEnd s = some ie ∧ decide (ie.length ≠ s.length) = l.head?.any CharClass.sep ∧
      (if ie.length ≠ s.length then env.skipwsep ie else s) <:+ s ∧
      Classed env (if ie.length ≠ s.length then env.skipwsep ie else s)
        (start CharClass.white CharClass.sep l) := by
  cases h with
  | nil =>
    exact ⟨[], rfl, rfl, suffix_rfl, .nil⟩
  | @cons c s len wc l h hrest =>
    have hpos := h.pos
    have hle := h.le
    rw [itypeEnd_eq h, List.head?_cons, Option.any_some, start]
    refine ⟨_, rfl, ?_⟩
    cases hsep : env.wcIsep wc with
    | true =>
      have hne : ((c :: s).drop len).length ≠ (c :: s).length := by
        rw [length_drop]
        omega
      have hclass : (env.classOf (c :: s) wc).sep = true := hsep
      rw [if_pos rfl, if_pos hne, if_pos hclass]
      exact ⟨(decide_eq_true hne).trans hsep.symm,
        (skipwsep_suffix _).trans (drop_suffix len _), hrest.skipwsep⟩
    | false =>
      have hclass : ¬ (env.classOf (c :: s) wc).sep = true := by
        change ¬ env.wcIsep wc = true
        rw [hsep]
        exact Bool.false_ne_true
      rw [if_neg Bool.false_ne_true, if_neg (not_not.mpr rfl), if_neg hclass]
      exact ⟨(decide_eq_false (not_not.mpr rfl)).trans hsep.symm, suffix_rfl, .cons h hrest⟩

/-- `findsep` without quoting goes to the next separator. -/
theorem Classed.findsep_plain {s : Bytes} {l : List CharClass} (h : Classed env s l) {turns : ℕ}
    (hturns : s.length ≤ turns) :
    ∃ word t, env.findsepFrom turns false s = some (word, t) ∧ t <:+ s ∧
      Classed env t (l.dropWhile (!·.sep)) := by
  induction h generalizing turns with
  | nil =>
    refine ⟨[], [], ?_, suffix_rfl, .nil⟩
    cases turns <;> rfl
  | @cons c s len wc l h hrest ih =>
    cases turns with
    | zero => cases hturns
    | succ turns =>
      rw [findsepFrom, Bool.false_and, if_neg Bool.false_ne_true, h.conv]
      dsimp only
      cases hsep : env.wcIsep wc with
      | true =>
        have hstop : (env.classOf (c :: s) wc :: l).dropWhile (!·.sep) =
            env.classOf (c :: s) wc :: l :=
          dropWhile_cons_of_neg (by simp [classOf, hsep])
        rw [if_pos rfl, hstop]
        exact ⟨[], c :: s, rfl, suffix_rfl, .cons h hrest⟩
      | false =>
        have hgo : (env.classOf (c :: s) wc :: l).dropWhile (!·.sep) = l.dropWhile (!·.sep) :=
          dropWhile_cons_of_pos (by simp [classOf, hsep])
        have hshort : ((c :: s).drop len).length ≤ turns := by
          have hpos := h.pos
          rw [length_drop]
          omega
        obtain ⟨word, t, hfind, hsuffix, hclassed⟩ := ih hshort
        rw [if_neg Bool.false_ne_true, hfind, hgo]
        exact ⟨_, t, rfl, hsuffix.trans (drop_suffix len _), hclassed⟩

/-- Where `findsep` with quoting ends; `nul` tells whether the end of the string counts as a
separator. -/
def quotedBehind (nul : Bool) : List CharClass → List CharClass
  | [] => []
  | [c] => if c.backslash && nul then [] else if c.sep then [c] else []
  | c :: d :: l =>
    if c.backslash then
      if d.backslash || d.sep then quotedBehind nul l
      else if c.sep then c :: d :: l
      else quotedBehind nul (d :: l)
    else if c.sep then c :: d :: l
    else quotedBehind nul (d :: l)

/-- Where `spacesplit` with `quote` ends a field. -/
def quotedStop (nul : Bool) (l : List CharClass) : List CharClass :=
  quotedBehind nul <|
    match l with
    | [] => []
    | c :: l => if c.sep || c.backslash then skip CharClass.white l else c :: l

theorem quotedBehind_spec (nul : Bool) (l : List CharClass) :
    quotedBehind nul l <:+ l ∧ AtSeparator CharClass.sep (quotedBehind nul l) := by
  have hhere {c : CharClass} {l : List CharClass} (hsep : c.sep = true) :
      c :: l <:+ c :: l ∧ AtSeparator CharClass.sep (c :: l) :=
    ⟨suffix_rfl, fun d hd ↦ by
      cases hd
      exact hsep⟩
  have hend (l : List CharClass) : [] <:+ l ∧ AtSeparator CharClass.sep [] :=
    ⟨nil_suffix, fun d hd ↦ by cases hd⟩
  fun_induction quotedBehind nul l with
  | case1 => exact hend []
  | case2 c _ => exact hend [c]
  | case3 c _ hsep => exact hhere hsep
  | case4 c _ _ => exact hend [c]
  | case5 c d l _ _ ih =>
    exact ⟨ih.1.trans ((suffix_cons d l).trans (suffix_cons c _)), ih.2⟩
  | case6 c d l _ _ hsep => exact hhere hsep
  | case7 c d l _ _ _ ih => exact ⟨ih.1.trans (suffix_cons c _), ih.2⟩
  | case8 c d l _ hsep => exact hhere hsep
  | case9 c d l _ _ ih => exact ⟨ih.1.trans (suffix_cons c _), ih.2⟩

theorem reader_quotedStop (nul : Bool) :
    Reader CharClass.white CharClass.sep (quotedStop nul) where
  suffix l := by
    apply (quotedBehind_spec nul _).1.trans
    cases l with
    | nil => exact suffix_rfl
    | cons c l =>
      rw [start]
      dsimp only
      by_cases hsep : c.sep = true
      · rw [if_pos hsep, hsep, Bool.true_or, if_pos rfl]
      · split
        · exact (skip_suffix l).trans (suffix_cons c l)
        · exact suffix_rfl
  atSeparator l := (quotedBehind_spec nul _).2

theorem quotedBehind_plain {nul : Bool} {c : CharClass} (hc : c.backslash = false)
    (l : List CharClass) :
    quotedBehind nul (c :: l) = if c.sep then c :: l else quotedBehind nul l := by
  cases l with
  | nil =>
    have hnot : ¬ (c.backslash && nul) = true := by simp [hc]
    exact if_neg hnot
  | cons d l => rw [quotedBehind, hc, if_neg Bool.false_ne_true]

/-- `findsep` with quoting passes over what the backslashes quote. -/
theorem Classed.findsep_quoted {s : Bytes} {l : List CharClass} (h : Classed env s l) {turns : ℕ}
    (hturns : s.length ≤ turns) :
    ∃ word t, env.findsepFrom turns true s = some (word, t) ∧ t <:+ s ∧
      Classed env t (quotedBehind (env.wcIsep (some 0)) l) := by
  induction turns generalizing s l with
  | zero =>
    obtain rfl := List.length_eq_zero_iff.mp (Nat.le_zero.mp hturns)
    cases h
    exact ⟨[], [], rfl, suffix_rfl, .nil⟩
  | succ turns ih =>
    cases h with
    | nil => exact ⟨[], [], rfl, suffix_rfl, .nil⟩
    | @cons c s len wc l h hrest =>
      have hall : Classed env (c :: s) (env.classOf (c :: s) wc :: l) := .cons h hrest
      -- The reading goes on behind a piece of the string.
      have hgo {t : Bytes} {m : List CharClass} (ht : Classed env t m) (hsuffix : t <:+ s)
          (piece : Bytes) :
          ∃ word t', ((env.findsepFrom turns true t).map fun r ↦ (piece ++ r.1, r.2)) =
            some (word, t') ∧ t' <:+ c :: s ∧
            Classed env t' (quotedBehind (env.wcIsep (some 0)) m) := by
        have hshort : t.length ≤ turns :=
          hsuffix.length_le.trans (Nat.le_of_succ_le_succ hturns)
        obtain ⟨word, t', hfind, hsuffix', hclassed⟩ := ih ht hshort
        exact ⟨_, t', by rw [hfind]; rfl, (hsuffix'.trans hsuffix).trans (suffix_cons c s),
          hclassed⟩
      by_cases hback : c = char '\\'
      · subst hback
        obtain ⟨hdrop, hisep⟩ := h.backslash
        rw [hdrop] at hrest
        have hclass : (env.classOf (char '\\' :: s) wc).backslash = true := rfl
        have hsepClass : (env.classOf (char '\\' :: s) wc).sep = env.isep (char '\\') := hisep
        rw [findsepFrom, Bool.true_and, if_pos (decide_eq_true rfl)]
        cases hrest with
        | nil =>
          have hconv : env.charConv [] = some (1, some 0) := rfl
          rw [if_neg (by decide), hconv, quotedBehind, hclass, Bool.true_and, hsepClass]
          dsimp only
          split
          · exact ⟨[0], [], rfl, nil_suffix, .nil⟩
          · split
            · exact ⟨[], _, rfl, suffix_rfl, hall⟩
            · exact hgo .nil suffix_rfl [char '\\']
        | @cons d s len' wc' l h' hrest' =>
          rw [quotedBehind, if_pos hclass, hsepClass]
          by_cases hsecond : headIs '\\' (d :: s) = true
          · obtain rfl : d = char '\\' := by simpa [headIs] using hsecond
            rw [h'.backslash.1] at hrest'
            exact hgo hrest' (suffix_cons _ s) [char '\\']
          · have hclass' : (env.classOf (d :: s) wc').backslash = false :=
              Bool.eq_false_iff.mpr hsecond
            have hsepClass' : (env.classOf (d :: s) wc').sep = env.wcIsep wc' := rfl
            rw [if_neg hsecond, h'.conv, hclass', Bool.false_or, hsepClass']
            dsimp only
            split
            · exact hgo hrest' (drop_suffix len' _) _
            · split
              · exact ⟨[], _, rfl, suffix_rfl, hall⟩
              · exact hgo (.cons h' hrest') suffix_rfl [char '\\']
      · have hclass : (env.classOf (c :: s) wc).backslash = false := by
          simp [classOf, headIs, hback]
        have hsepClass : (env.classOf (c :: s) wc).sep = env.wcIsep wc := rfl
        have hsuffix : (c :: s).drop len <:+ s := by
          obtain ⟨k, rfl⟩ : ∃ k, len = k + 1 := ⟨len - 1, by
            have hpos := h.pos
            omega⟩
          exact drop_suffix k s
        rw [findsepFrom, Bool.true_and, if_neg (by simpa using hback), h.conv,
          quotedBehind_plain hclass, hsepClass]
        dsimp only
        split
        · exact ⟨[], c :: s, rfl, suffix_rfl, hall⟩
        · exact hgo hrest hsuffix _

/-! ## The loops -/

/-- Where `spacesplit` ends a field. -/
def fieldStop (env : SplitEnv) (quote : Bool) : List CharClass → List CharClass :=
  if quote then quotedStop (env.wcIsep (some 0)) else plainStop CharClass.white CharClass.sep

theorem reader_fieldStop (quote : Bool) :
    Reader CharClass.white CharClass.sep (env.fieldStop quote) := by
  cases quote with
  | false => exact reader_plainStop
  | true => exact reader_quotedStop _

/-- What is left behind a field, and that it is less than before. -/
theorem Classed.behind {s t : Bytes} {k : CharClass} {l : List CharClass} {quote : Bool}
    (h : Classed env s (k :: l)) (ht : Classed env t (env.fieldStop quote (k :: l)))
    (hsuffix : t <:+ s) :
    Classed env (env.skipwsep t) (skip CharClass.white (env.fieldStop quote (k :: l))) ∧
      (env.skipwsep t).length < s.length ∧
      decide (t.length ≠ (env.skipwsep t).length) =
        (env.fieldStop quote (k :: l)).head?.any CharClass.white :=
  ⟨ht.skipwsep, h.length_lt ht.skipwsep ((skipwsep_suffix t).trans hsuffix)
    ((reader_fieldStop quote).skip_length_lt k l), ht.skipwsep_moves⟩

theorem Classed.wordcountLoop {mul : ℤ} (hmul : mul ≤ 0) {turns : ℕ} {s : Bytes}
    {l : List CharClass} (h : Classed env s l) (hturns : s.length ≤ turns) (blanks : Bool) :
    env.wordcountLoop mul turns s blanks = some (fieldCount CharClass.white
      (env.fieldStop false) (if mul < 0 then 1 else 0) turns l blanks) := by
  have hnil (turns : ℕ) (blanks : Bool) : env.wordcountLoop mul turns [] blanks =
      some (fieldCount CharClass.white (env.fieldStop false) (if mul < 0 then 1 else 0) turns []
        blanks) := by
    have hboth : (if mul < 0 ∧ blanks = true then 1 else 0) =
        if blanks = true then if mul < 0 then 1 else 0 else 0 := by
      cases blanks <;> simp
    cases turns <;> rw [SplitEnv.wordcountLoop, fieldCount, hboth]
  induction turns generalizing s l blanks with
  | zero =>
    obtain rfl := List.length_eq_zero_iff.mp (Nat.le_zero.mp hturns)
    cases h
    exact hnil 0 blanks
  | succ turns ih =>
    cases h with
    | nil => exact hnil _ blanks
    | @cons c s len wc l h hrest =>
      have hall : Classed env (c :: s) (env.classOf (c :: s) wc :: l) := .cons h hrest
      obtain ⟨ie, hie, -, hfirst, hstart⟩ := hall.fieldStart
      obtain ⟨word, t, hfind, hsuffix, ht⟩ := hstart.findsep_plain le_rfl
      obtain ⟨hnext, hless, hblanks⟩ :=
        @Classed.behind _ _ _ _ _ false hall ht (hsuffix.trans hfirst)
      have hcount := ih hnext (by omega) (decide (t.length ≠ (env.skipwsep t).length))
      rw [SplitEnv.wordcountLoop, hie]
      dsimp only
      rw [if_pos hmul, findsepNull, hfind]
      dsimp only
      rw [if_pos hmul, hcount, hblanks, fieldCount]
      rfl

theorem Classed.spacesplitLoop {allownull quote : Bool} {turns : ℕ} {s : Bytes}
    {l : List CharClass} (h : Classed env s l) (hturns : s.length ≤ turns) (blanks : Bool) :
    ∃ elements, env.spacesplitLoop allownull quote turns s blanks = some elements ∧
      elements.length = fieldCount CharClass.white (env.fieldStop quote)
        (if allownull then 0 else 1) turns l blanks := by
  have hnil (turns : ℕ) (blanks : Bool) :
      ∃ elements, env.spacesplitLoop allownull quote turns [] blanks = some elements ∧
        elements.length = fieldCount CharClass.white (env.fieldStop quote)
          (if allownull then 0 else 1) turns [] blanks := by
    refine ⟨if !allownull && blanks then [[]] else [], ?_, ?_⟩
    · cases turns <;> rfl
    · rw [fieldCount_nil]
      cases allownull <;> cases blanks <;> rfl
  induction turns generalizing s l blanks with
  | zero =>
    obtain rfl := List.length_eq_zero_iff.mp (Nat.le_zero.mp hturns)
    cases h
    exact hnil 0 blanks
  | succ turns ih =>
    cases h with
    | nil => exact hnil _ blanks
    | @cons c s len wc l h hrest =>
      have hall : Classed env (c :: s) (env.classOf (c :: s) wc :: l) := .cons h hrest
      obtain ⟨iend, hiend, hmoves, hfirst, hstart⟩ := hall.fieldStart
      obtain ⟨word, t, hfind, hsuffix, ht⟩ : ∃ word t, env.findsepNull quote
          (if iend.length ≠ (c :: s).length then env.skipwsep iend
            else if quote && c = char '\\' then env.skipwsep s else c :: s) = some (word, t) ∧
          t <:+ c :: s ∧ Classed env t (env.fieldStop quote _) := by
        cases quote with
        | false =>
          obtain ⟨word, t, hfind, hsuffix, ht⟩ := hstart.findsep_plain le_rfl
          exact ⟨word, t, hfind, hsuffix.trans hfirst, ht⟩
        | true =>
          have hread {st : Bytes} {m : List CharClass} (hst : Classed env st m)
              (hsuffix : st <:+ c :: s) (hm : env.fieldStop true (env.classOf (c :: s) wc :: l) =
                quotedBehind (env.wcIsep (some 0)) m) :
              ∃ word t, env.findsepNull true st = some (word, t) ∧ t <:+ c :: s ∧
                Classed env t (env.fieldStop true (env.classOf (c :: s) wc :: l)) := by
            obtain ⟨word, t, hfind, hsuffix', ht⟩ := hst.findsep_quoted le_rfl
            rw [← hm] at ht
            exact ⟨word, t, hfind, hsuffix'.trans hsuffix, ht⟩
          have hstop (m : List CharClass) (hm : (if (env.classOf (c :: s) wc).sep ||
                (env.classOf (c :: s) wc).backslash then skip CharClass.white l
              else env.classOf (c :: s) wc :: l) = m) :
              env.fieldStop true (env.classOf (c :: s) wc :: l) =
                quotedBehind (env.wcIsep (some 0)) m := by
            rw [← hm]
            rfl
          rw [start] at hstart
          by_cases hsep : (env.classOf (c :: s) wc).sep = true
          · have hmove : iend.length ≠ (c :: s).length := by
              rw [List.head?_cons, Option.any_some, hsep] at hmoves
              exact of_decide_eq_true hmoves
            rw [if_pos hmove] at hstart hfirst ⊢
            exact hread hstart hfirst (hstop _ (by rw [hsep, Bool.true_or, if_pos rfl]))
          · have hstay : ¬ iend.length ≠ (c :: s).length := by
              rw [List.head?_cons, Option.any_some, Bool.eq_false_iff.mpr hsep] at hmoves
              exact of_decide_eq_false hmoves
            rw [if_neg hstay, Bool.true_and]
            by_cases hback : c = char '\\'
            · subst hback
              rw [h.backslash.1] at hrest
              refine hread hrest.skipwsep ((skipwsep_suffix s).trans (suffix_cons _ s))
                (hstop _ ?_)
              have hclass : (env.classOf (char '\\' :: s) wc).backslash = true := rfl
              rw [hclass, Bool.or_true, if_pos rfl]
            · rw [if_neg (by simpa using hback)]
              refine hread hall suffix_rfl (hstop _ ?_)
              have hclass : (env.classOf (c :: s) wc).backslash = false := by
                simp [classOf, headIs, hback]
              rw [hclass, Bool.or_false, if_neg hsep]
      obtain ⟨hnext, hless, hblanks⟩ := hall.behind ht hsuffix
      obtain ⟨elements, helements, hlength⟩ :=
        ih hnext (by omega) _
      rw [SplitEnv.spacesplitLoop, hiend]
      dsimp only
      rw [hfind]
      dsimp only
      rw [helements]
      refine ⟨_, rfl, ?_⟩
      rw [length_cons, hlength, hblanks, fieldCount]

/-! ## The array -/

/-- `spacesplit` stores no more elements than it counted, and without quoting as many. -/
theorem spacesplit_count (env : SplitEnv) {s : Bytes} (h : MetaText s) (allownull quote : Bool) :
    ∃ elements n, env.spacesplit s allownull quote = some elements ∧
      env.wordcountNull s (-(if allownull then 0 else 1)) = some n ∧
      elements.length ≤ n ∧ (quote = false → elements.length = n) := by
  obtain ⟨l, hl⟩ := exists_classed env h
  have hfirst := hl.skipwsep
  obtain ⟨ie, hie, -⟩ := hfirst.fieldStart
  obtain ⟨behind, hbehind, hlength⟩ := @Classed.spacesplitLoop _ allownull quote _ _ _
    hfirst le_rfl _
  have hmul : -(if allownull then 0 else 1 : ℤ) ≤ 0 := by
    cases allownull <;> decide
  have hextra : (if -(if allownull then 0 else 1 : ℤ) < 0 then 1 else 0) =
      if allownull then 0 else 1 := by
    cases allownull <;> rfl
  have hcount := hfirst.wordcountLoop hmul le_rfl (decide (s.length ≠ (env.skipwsep s).length))
  rw [hextra] at hcount
  -- Both functions have the same rule for what stands in front of the first field.
  obtain ⟨front, hfront⟩ : ∃ front : List Bytes, front =
      if env.skipwsep s ≠ [] ∧ ie.length ≠ (env.skipwsep s).length then
        [if allownull then [] else nulstring]
      else if !allownull && s.length ≠ (env.skipwsep s).length then [[]]
      else [] := ⟨_, rfl⟩
  have hfrontLength : (if (env.skipwsep s ≠ [] ∧ ie.length ≠ (env.skipwsep s).length) ∨
      (-(if allownull then 0 else 1 : ℤ) < 0 ∧ s.length ≠ (env.skipwsep s).length) then 1
      else 0) = front.length := by
    rw [hfront]
    by_cases hsep : env.skipwsep s ≠ [] ∧ ie.length ≠ (env.skipwsep s).length
    · rw [if_pos (.inl hsep), if_pos hsep]
      rfl
    · by_cases hblank : s.length ≠ (env.skipwsep s).length
      · cases allownull <;> simp [hsep, hblank]
      · cases allownull <;> simp [hsep, hblank]
  have hle : behind.length ≤ fieldCount CharClass.white (env.fieldStop false)
      (if allownull then 0 else 1) (env.skipwsep s).length (skip CharClass.white l)
      (decide (s.length ≠ (env.skipwsep s).length)) := by
    rw [hlength]
    refine (reader_fieldStop quote).fieldCount_le ?_ (skipped_skip l) suffix_rfl
      hfirst.length_le hfirst.length_le fun _ hblanks _ ↦ hblanks
    cases allownull <;> decide
  refine ⟨front ++ behind, front.length + fieldCount CharClass.white (env.fieldStop false)
    (if allownull then 0 else 1) (env.skipwsep s).length (skip CharClass.white l)
    (decide (s.length ≠ (env.skipwsep s).length)), ?_, ?_, ?_, ?_⟩
  · rw [spacesplit, hie]
    dsimp only
    rw [hbehind, ← hfront]
    rfl
  · rw [wordcountNull, if_pos hmul, hie]
    dsimp only
    rw [hcount, hfrontLength]
    rfl
  · rw [length_append]
    exact Nat.add_le_add_left hle _
  · intro hquote
    subst hquote
    rw [length_append, hlength]

theorem twoBytes_ascii : ∀ c < 0x80,
    (TextEnv.twoBytes.charset.mbrtowc c TextEnv.twoBytes.charset.initial).1 = .char c.toNat :=
  fun c hc ↦ by
    have hlow : c.toNat < 0x80 := UInt8.lt_iff_toNat_lt.mp hc
    change (readTwoBytes c none).1 = _
    grind [readTwoBytes]

/-- The default separators, with characters of one or two bytes. -/
def twoBytes : SplitEnv where
  toTextEnv := TextEnv.twoBytes
  ifs := none
  emulateSh := false
  ifs_text := SplitEnv.unset_text
  ascii_initial := twoBytes_ascii

theorem spacesplit_count_example :
    twoBytes.spacesplit (ascii " a b\\ c ") false true =
        some [[], ascii "a", ascii "b c", []] ∧
      twoBytes.wordcountNull (ascii " a b\\ c ") (-1) = some 5 ∧
      ∃ elements n, twoBytes.spacesplit (ascii " a b\\ c ") false true = some elements ∧
        twoBytes.wordcountNull (ascii " a b\\ c ") (-(if false then 0 else 1)) = some n ∧
        elements.length ≤ n ∧ (true = false → elements.length = n) := by
  refine ⟨?_, ?_, spacesplit_count twoBytes ?_ false true⟩
  · decide
  · decide
  · exact metaText_metafied (ascii " a b\\ c ")

end SplitEnv

end Bsh.Shell
