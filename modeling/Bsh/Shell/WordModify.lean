import Bsh.Shell.Casemod

/-!
# Modifiers on the words of a string

`findword` of `utils.c` and the part of `modify` in `subst.c` that applies a modifier to every word,
with `:w` or `:W`.  Every turn puts together what there is so far, the text in front of the word and
the word with its modification in a new buffer.

All modifiers but `l` and `u` are applied to a copy of the word.  Those two are applied to the string
from the word on.
-/

namespace Bsh.Shell

open Bsh.Library Bytes List

namespace SplitEnv

variable (env : SplitEnv)

/-- The loop of `findword` over separators.  The first argument bounds the turns. -/
def skipSeparators : ℕ → Bytes → Option Bytes
  | _, [] => some []
  | 0, _ :: _ => none
  | turns + 1, c :: s =>
    match env.charConv (c :: s) with
    | none => none
    | some (len, wc) =>
      if env.wcIsep wc then skipSeparators turns ((c :: s).drop len) else some (c :: s)

/-- The loop of `findword` with a separator: where the word starts, and where `*s` is left. -/
def findwordSep (sep : Bytes) : ℕ → Bytes → Option (Bytes × Bytes)
  | 0, _ => none
  | turns + 1, r =>
    match env.findsep r sep with
    | none => none
    | some (found, s) =>
      if found = 0 then findwordSep sep turns (s.drop sep.length) else some (r, s)

/-- `findword`; at the end of the string there is no word. -/
def findword (sep : Option Bytes) (s : Bytes) : Option (Option (Bytes × Bytes)) :=
  if s = [] then some none
  else
    match sep with
    | some sep => (env.findwordSep sep (s.length + 1) s).map some
    | none =>
      match env.skipSeparators s.length s with
      | none => none
      | some t => (env.findsepNull false t).map fun found ↦ some (t, found.2)

end SplitEnv

/-- A word of a string, what is in front of it and what is behind it. -/
structure WordAt where
  gap : Bytes
  word : Bytes
  rest : Bytes

/-- The words of a string, as `findword` delimits them. -/
def SplitEnv.findwords (env : SplitEnv) (sep : Option Bytes) : ℕ → Bytes → Option (List WordAt)
  | 0, _ => none
  | turns + 1, s =>
    match env.findword sep s with
    | none => none
    | some none => some []
    | some (some (tt, e)) =>
      (findwords env sep turns e).map
        (⟨s.take (s.length - tt.length), tt.take (tt.length - e.length), e⟩ :: ·)

/-! ## `modify` -/

/-- The modifiers `a`, `h`, `r`, `e`, `t`, `s` or `gs`, and `Q`, for which the code is the same on words
and on the whole string. -/
inductive Edit where
  | chabspath
  | remtpath
  | remtext
  | rembutext
  | remlpaths
  | subst
  | unquote

/-- The modifiers. -/
inductive Modifier where
  | edit (e : Edit)
  | casemod (how : CaseMod)
  | quote

/-- What the modifiers make of a string.  `quotestring` is that with `QT_BACKSLASH`. -/
structure ModifyEnv extends CaseEnv where
  edit : Edit → Bytes → Bytes
  quotestring : Bytes → Bytes
  quotestring_nil : quotestring [] = []

namespace ModifyEnv

variable (env : ModifyEnv)

/-- `quotestring` with `QT_BACKSLASH_SHOWNULL`. -/
def quoteShownull (s : Bytes) : Bytes := if s = [] then ascii "''" else env.quotestring s

/-- `modify` on the whole string. -/
def modifyWhole (m : Modifier) (s : Bytes) : Option Bytes :=
  match m with
  | .edit e => some (env.edit e s)
  | .casemod how => env.casemodify how s
  | .quote => some (env.quotestring s)

/-- What `modify` puts in the place of a word, from the word on and from its end on. -/
def modifyCopy (m : Modifier) (tt e : Bytes) : Option Bytes :=
  let word := tt.take (tt.length - e.length)
  match m with
  | .edit edit => some (env.edit edit word)
  | .casemod how => env.casemodify how tt
  | .quote => some (env.quoteShownull word)

/-- The loop over the words: the buffers with their sizes.  A buffer that is too small is written past
its end. -/
def modifyWords (m : Modifier) (sep : Option Bytes) :
    ℕ → Bytes → ℕ → Bytes → Option (List (ℕ × Bytes))
  | 0, _, _, _ => none
  | turns + 1, t, al, all =>
    match env.findword sep t with
    | none => none
    | some none => some []
    | some (some (tt, e)) =>
      match env.modifyCopy m tt e with
      | none => none
      | some copy =>
        let front := t.take (t.length - tt.length)
        let nl := al + front.length + copy.length
        let tmp := all ++ front ++ copy
        if nl + 1 < tmp.length + 1 then none
        else (modifyWords m sep turns e nl tmp).map ((nl + 1, tmp) :: ·)

/-- `*str` behind the loop. -/
def lastText (all : Bytes) (buffers : List (ℕ × Bytes)) : Bytes :=
  (buffers.getLast?.map Prod.snd).getD all

/-- `modify` with `:w` or `:W`. -/
def modifyWall (m : Modifier) (sep : Option Bytes) (s : Bytes) : Option (List (ℕ × Bytes)) :=
  env.modifyWords m sep (s.length + 1) s 0 []

/-- The string with every word replaced by the result of the modifier on it. -/
def eachWord (m : Modifier) : List WordAt → Option Bytes
  | [] => some []
  | w :: ws =>
    match env.modifyWhole m w.word, eachWord m ws with
    | some word, some back => some (w.gap ++ word ++ back)
    | _, _ => none

end ModifyEnv

/-! ## Words -/

/-- What `findword` finds. -/
structure FoundWord (env : SplitEnv) (sep : Option Bytes) (s : Bytes) (w : WordAt) : Prop where
  found : env.findword sep s = some (some (w.word ++ w.rest, w.rest))
  split : s = w.gap ++ (w.word ++ w.rest)
  shorter : w.rest.length < s.length
  whole : WholeWord env w.rest w.word
  text : MetaText w.rest

section Words

variable {env : SplitEnv}

variable {s : Bytes} {sep : Option Bytes} {turns : ℕ}

theorem exists_head (env : SplitEnv) {c : UInt8} (h : MetaText (c :: s)) :
    ∃ ch t wc, c :: s = ch ++ t ∧ ch ≠ [] ∧ MetaText ch ∧ MetaText t ∧
      env.charConv (ch ++ t) = some (ch.length, wc) ∧ env.nextChar (ch ++ t) = some t := by
  obtain ⟨len, wc, hhead⟩ := SplitEnv.exists_headChar env h
  have hlen : ((c :: s).take len).length = len := by
    rw [length_take]
    exact Nat.min_eq_left hhead.le
  have hsplit : c :: s = (c :: s).take len ++ (c :: s).drop len :=
    (List.take_append_drop len _).symm
  refine ⟨(c :: s).take len, (c :: s).drop len, wc, hsplit, ?_, charConv_take h hhead.conv,
    hhead.behind, ?_, ?_⟩
  · intro hnil
    rw [hnil] at hlen
    exact absurd hlen.symm hhead.pos.ne'
  · rw [← hsplit, hlen]
    exact hhead.conv
  · rw [← hsplit]
    have hcharLen : env.charLen (c :: s) = some len := by
      obtain ⟨r, hr, heq⟩ := Option.map_eq_some_iff.mp hhead.conv
      exact Option.map_eq_some_iff.mpr ⟨r, hr, congrArg Prod.fst heq⟩
    unfold TextEnv.nextChar
    rw [hcharLen]
    exact if_neg (not_lt.mpr hhead.le)

theorem skipSeparators_spec (h : MetaText s) (hturns : s.length ≤ turns) :
    ∃ gap t, env.skipSeparators turns s = some t ∧ s = gap ++ t ∧ MetaText t ∧
      ∀ len wc, t ≠ [] → env.charConv t = some (len, wc) → env.wcIsep wc = false := by
  induction turns generalizing s with
  | zero =>
    obtain rfl := List.length_eq_zero_iff.mp (Nat.le_zero.mp hturns)
    exact ⟨[], [], rfl, rfl, .nil, fun _ _ h ↦ absurd rfl h⟩
  | succ turns ih =>
    cases s with
    | nil => exact ⟨[], [], rfl, rfl, .nil, fun _ _ h ↦ absurd rfl h⟩
    | cons c s =>
      obtain ⟨ch, t, wc, hsplit, hne, -, ht, hconv, -⟩ := exists_head env h
      have hpos := List.length_pos_iff.mpr hne
      have hlength := congrArg List.length hsplit
      rw [length_append] at hlength
      have hstep : env.skipSeparators (turns + 1) (c :: s) =
          if env.wcIsep wc then env.skipSeparators turns t else some (c :: s) := by
        rw [SplitEnv.skipSeparators, hsplit, hconv]
        dsimp only
        rw [drop_left]
      rw [hstep]
      cases hsep : env.wcIsep wc with
      | true =>
        obtain ⟨gap, u, hskip, rfl, hu, hhead⟩ := ih ht (by omega)
        refine ⟨ch ++ gap, u, hskip, ?_, hu, hhead⟩
        rw [hsplit, append_assoc]
      | false =>
        refine ⟨[], c :: s, rfl, rfl, h, fun len wc' _ hconv' ↦ ?_⟩
        rw [hsplit, hconv] at hconv'
        obtain ⟨-, rfl⟩ := Prod.mk.inj (Option.some.inj hconv')
        exact hsep

theorem findsepNull_spec (h : MetaText s) (hturns : s.length ≤ turns) :
    ∃ word rest, env.findsepFrom turns false s = some (word, rest) ∧ s = word ++ rest ∧
      WholeWord env rest word ∧ MetaText rest ∧
      (s ≠ [] → (∀ len wc, env.charConv s = some (len, wc) → env.wcIsep wc = false) →
        word ≠ []) := by
  induction turns generalizing s with
  | zero =>
    obtain rfl := List.length_eq_zero_iff.mp (Nat.le_zero.mp hturns)
    exact ⟨[], [], rfl, rfl, .nil, .nil, fun h ↦ absurd rfl h⟩
  | succ turns ih =>
    cases s with
    | nil => exact ⟨[], [], rfl, rfl, .nil, .nil, fun h ↦ absurd rfl h⟩
    | cons c s =>
      obtain ⟨ch, t, wc, hsplit, hne, hch, ht, hconv, -⟩ := exists_head env h
      have hpos := List.length_pos_iff.mpr hne
      have hlength := congrArg List.length hsplit
      rw [length_append] at hlength
      have hstep : env.findsepFrom (turns + 1) false (c :: s) =
          if env.wcIsep wc then some ([], c :: s)
          else (env.findsepFrom turns false t).map fun r ↦ (ch ++ r.1, r.2) := by
        rw [SplitEnv.findsepFrom, Bool.false_and, if_neg Bool.false_ne_true, hsplit, hconv]
        dsimp only
        rw [drop_left, take_left]
      rw [hstep]
      cases hsep : env.wcIsep wc with
      | true =>
        refine ⟨[], c :: s, rfl, rfl, .nil, h, fun _ hhead ↦ ?_⟩
        rw [hhead ch.length wc (by rw [hsplit]; exact hconv)] at hsep
        cases hsep
      | false =>
        obtain ⟨word, rest, hfind, rfl, hword, hrest, -⟩ := ih ht (by omega)
        refine ⟨ch ++ word, rest, ?_, ?_, .cons hne hch hconv hword, hrest, fun _ _ hnil ↦ ?_⟩
        · rw [hfind]
          rfl
        · rw [hsplit, append_assoc]
        · exact hne (List.append_eq_nil_iff.mp hnil).1

theorem findsepFrom_whole (sep : Bytes) (i : ℕ) (h : MetaText s)
    (hturns : s.length ≤ turns) :
    ∃ c word rest, env.toTextEnv.findsepFrom sep turns i s = some (c, rest) ∧ s = word ++ rest ∧
      WholeWord env rest word ∧ MetaText rest ∧
      (c = 0 → i = 0 ∧ word = [] ∧ sep <+: rest) ∧ (c ≠ 0 → i = 0 → s ≠ [] → word ≠ []) := by
  induction turns generalizing i s with
  | zero =>
    obtain rfl := List.length_eq_zero_iff.mp (Nat.le_zero.mp hturns)
    exact ⟨-1, [], [], rfl, rfl, .nil, .nil, fun h ↦ absurd h (by decide),
      fun _ _ h ↦ absurd rfl h⟩
  | succ turns ih =>
    cases s with
    | nil =>
      exact ⟨-1, [], [], rfl, rfl, .nil, .nil, fun h ↦ absurd h (by decide),
        fun _ _ h ↦ absurd rfl h⟩
    | cons c s =>
      by_cases hhere : sep <+: c :: s
      · refine ⟨if 0 < i then 1 else 0, [], c :: s, ?_, rfl, .nil, h, fun hzero ↦ ?_, ?_⟩
        · rw [TextEnv.findsepFrom, if_pos hhere]
        · refine ⟨Nat.eq_zero_of_not_pos fun hpos ↦ ?_, rfl, hhere⟩
          rw [if_pos hpos] at hzero
          cases hzero
        · rintro hne rfl -
          exact absurd (if_neg (lt_irrefl 0)) hne
      · obtain ⟨ch, t, wc, hsplit, hne, hch, ht, hconv, hnext⟩ := exists_head env h
        have hpos := List.length_pos_iff.mpr hne
        have hlength := congrArg List.length hsplit
        rw [length_append] at hlength
        obtain ⟨found, word, rest, hfind, rfl, hword, hrest, hzero, -⟩ := ih (i + 1) ht (by omega)
        have hstep : env.toTextEnv.findsepFrom sep (turns + 1) i (c :: s) =
            some (found, rest) := by
          rw [TextEnv.findsepFrom, if_neg hhere, hsplit, hnext]
          exact hfind
        refine ⟨found, ch ++ word, rest, hstep, ?_, .cons hne hch hconv hword, hrest,
          fun h ↦ absurd (hzero h).1 (Nat.succ_ne_zero i), fun _ _ _ hnil ↦ ?_⟩
        · rw [hsplit, append_assoc]
        · exact hne (List.append_eq_nil_iff.mp hnil).1

theorem findwordSep_spec {sep : Bytes} (hsep : MetaText sep)
    (h : MetaText s) (hturns : s.length < turns) :
    ∃ gap word rest, env.findwordSep sep turns s = some (word ++ rest, rest) ∧
      s = gap ++ (word ++ rest) ∧ WholeWord env rest word ∧ MetaText rest ∧
      (s ≠ [] → rest.length < s.length) := by
  induction turns generalizing s with
  | zero => exact absurd hturns (Nat.not_lt_zero _)
  | succ turns ih =>
    by_cases hempty : sep = []
    · subst hempty
      cases s with
      | nil => exact ⟨[], [], [], rfl, rfl, .nil, .nil, fun h ↦ absurd rfl h⟩
      | cons c s =>
        obtain ⟨ch, t, wc, hsplit, hne, hch, ht, hconv, hnext⟩ := exists_head env h
        have hpos := List.length_pos_iff.mpr hne
        have hlength := congrArg List.length hsplit
        rw [length_append] at hlength
        have hfind : env.findsep (c :: s) [] = some (1, t) := by
          rw [TextEnv.findsep, if_pos rfl, if_neg (cons_ne_nil c s), hsplit, hnext,
            Option.map_some]
        have hword : WholeWord env t (ch ++ []) := .cons hne hch hconv .nil
        rw [append_nil] at hword
        refine ⟨[], ch, t, ?_, hsplit, hword, ht, fun _ ↦ by omega⟩
        rw [SplitEnv.findwordSep, hfind]
        dsimp only
        rw [if_neg one_ne_zero, hsplit]
    · have hfindsep : env.findsep s sep = env.toTextEnv.findsepFrom sep s.length 0 s :=
        if_neg hempty
      obtain ⟨found, word, rest, hfind, hsplit, hword, hrest, hzero, hnonzero⟩ :=
        findsepFrom_whole sep 0 h (Nat.le_refl _)
      have hstep : env.findwordSep sep (turns + 1) s =
          if found = 0 then env.findwordSep sep turns (rest.drop sep.length)
          else some (s, rest) := by
        rw [SplitEnv.findwordSep, hfindsep, hfind]
      rw [hstep]
      by_cases hfound : found = 0
      · obtain ⟨-, rfl, behind, rfl⟩ := hzero hfound
        rw [nil_append] at hsplit
        subst hsplit
        have hpos := List.length_pos_iff.mpr hempty
        rw [if_pos hfound, drop_left]
        rw [length_append] at hturns ⊢
        obtain ⟨gap, word, rest, hfind', rfl, hword', hrest', -⟩ :=
          ih (hsep.of_append h) (by omega)
        refine ⟨sep ++ gap, word, rest, hfind', (append_assoc _ _ _).symm, hword', hrest',
          fun _ ↦ ?_⟩
        rw [length_append, length_append]
        omega
      · rw [if_neg hfound]
        refine ⟨[], word, rest, by rw [hsplit], hsplit, hword, hrest, fun hs ↦ ?_⟩
        have hpos := List.length_pos_iff.mpr (hnonzero hfound rfl hs)
        rw [hsplit, length_append]
        omega

/-- Every string that is not empty has a word, which may be empty. -/
theorem exists_foundWord (hsep : ∀ t, sep = some t → MetaText t)
    (h : MetaText s) (hs : s ≠ []) : ∃ w, FoundWord env sep s w := by
  cases sep with
  | some sep =>
    obtain ⟨gap, word, rest, hfind, hsplit, hword, hrest, hlt⟩ :=
      findwordSep_spec (hsep sep rfl) h (Nat.lt_succ_self s.length)
    refine ⟨⟨gap, word, rest⟩, ?_, hsplit, hlt hs, hword, hrest⟩
    rw [SplitEnv.findword, if_neg hs]
    exact Option.map_eq_some_iff.mpr ⟨_, hfind, rfl⟩
  | none =>
    obtain ⟨gap, t, hskip, hsplit, ht, hhead⟩ := skipSeparators_spec h (Nat.le_refl _)
    obtain ⟨word, rest, hfind, rfl, hword, hrest, hne⟩ := findsepNull_spec ht (Nat.le_refl _)
    refine ⟨⟨gap, word, rest⟩, ?_, hsplit, ?_, hword, hrest⟩
    · rw [SplitEnv.findword, if_neg hs]
      rw [hskip]
      exact Option.map_eq_some_iff.mpr ⟨_, hfind, rfl⟩
    · by_cases hnil : word ++ rest = []
      · have hrestNil := (List.append_eq_nil_iff.mp hnil).2
        rw [hrestNil]
        exact List.length_pos_iff.mpr hs
      · have hpos := List.length_pos_iff.mpr (hne hnil fun len wc ↦ hhead len wc hnil)
        rw [hsplit, length_append, length_append]
        dsimp only
        omega

variable (env) in
/-- The words of a string, one behind the other. -/
inductive Words (sep : Option Bytes) : Bytes → List WordAt → Prop
  | nil : Words sep [] []
  | cons {s : Bytes} {w : WordAt} {ws : List WordAt} (hw : FoundWord env sep s w)
      (h : Words sep w.rest ws) : Words sep s (w :: ws)

theorem exists_words (hsep : ∀ t, sep = some t → MetaText t)
    (h : MetaText s) : ∃ ws, Words env sep s ws := by
  induction hn : s.length using Nat.strongRecOn generalizing s with
  | _ n ih =>
    subst hn
    by_cases hs : s = []
    · subst hs
      exact ⟨[], .nil⟩
    · obtain ⟨w, hw⟩ := exists_foundWord hsep h hs
      obtain ⟨ws, hws⟩ := ih _ hw.shorter hw.text rfl
      exact ⟨w :: ws, .cons hw hws⟩

/-- The pieces that the pointers of a turn cut. -/
theorem FoundWord.pieces {w : WordAt}
    (h : FoundWord env sep s w) :
    s.take (s.length - (w.word ++ w.rest).length) = w.gap ∧
      (w.word ++ w.rest).take ((w.word ++ w.rest).length - w.rest.length) = w.word := by
  constructor
  · have hlength : s.length - (w.word ++ w.rest).length = w.gap.length := by
      have hsplit := congrArg List.length h.split
      rw [length_append] at hsplit
      omega
    rw [hlength, h.split]
    exact take_left
  · rw [length_append, Nat.add_sub_cancel]
    exact take_left

theorem Words.findwords {ws : List WordAt}
    (h : Words env sep s ws) (hturns : s.length < turns) :
    env.findwords sep turns s = some ws := by
  induction h generalizing turns with
  | nil =>
    obtain ⟨turns, rfl⟩ := Nat.exists_eq_succ_of_ne_zero (Nat.ne_of_gt hturns)
    rfl
  | @cons s w ws hw _ ih =>
    obtain ⟨turns, rfl⟩ : ∃ t, turns = t + 1 := ⟨turns - 1, by omega⟩
    have hlt := hw.shorter
    obtain ⟨hgap, hword⟩ := hw.pieces
    rw [SplitEnv.findwords, hw.found]
    dsimp only
    rw [hgap, hword, ih (by omega)]
    rfl

end Words

/-! ## The results -/

namespace ModifyEnv

/-- Where a word is modified as it would be alone: `l` and `u` want nothing behind the word, unless the
result ends in it or right behind it, and `q` wants it not to be empty. -/
def Fits (env : ModifyEnv) (m : Modifier) (w : WordAt) : Prop :=
  match m with
  | .edit _ => True
  | .casemod _ =>
    w.rest = [] ∨ env.multibyte = false ∧ (hasNul w.word = true ∨ StartsNul w.rest)
  | .quote => w.word ≠ []

variable {env : ModifyEnv} {m : Modifier} {sep : Option Bytes}

variable {s : Bytes} {texts : List (Bytes × Bytes)} {ws : List WordAt}

/-- What stands in the place of a word starts with what should stand there. -/
theorem modifyCopy_spec {w : WordAt} (h : FoundWord env.toSplitEnv sep s w) :
    ∃ a b, env.modifyWhole m w.word = some a ∧
      env.modifyCopy m (w.word ++ w.rest) w.rest = some b ∧ a <+: b ∧ (a = b ↔ env.Fits m w) := by
  have hword := h.pieces.2
  cases m with
  | edit e =>
    refine ⟨_, _, rfl, rfl, ?_, ?_⟩
    · rw [hword]
    · rw [hword]
      exact iff_of_true rfl trivial
  | casemod how => exact CaseEnv.casemodify_rest env.toCaseEnv how h.whole h.text
  | quote =>
    refine ⟨_, _, rfl, rfl, ?_, ?_⟩
    · rw [hword]
      unfold quoteShownull
      split
      · next hnil =>
        rw [hnil, env.quotestring_nil]
        exact nil_prefix
      · exact prefix_refl _
    · rw [hword]
      unfold quoteShownull Fits
      split
      · next hnil =>
        rw [hnil, env.quotestring_nil]
        exact iff_of_false (by decide) (fun h ↦ h rfl)
      · next hne => exact iff_of_true rfl hne

/-- What the words are replaced by. -/
inductive Replaced (env : ModifyEnv) (m : Modifier) : List WordAt → List (Bytes × Bytes) → Prop
  | nil : Replaced env m [] []
  | cons {w : WordAt} {ws : List WordAt} {a b : Bytes} {texts : List (Bytes × Bytes)}
      (ha : env.modifyWhole m w.word = some a)
      (hb : env.modifyCopy m (w.word ++ w.rest) w.rest = some b) (hfront : a <+: b)
      (hfits : a = b ↔ env.Fits m w) (h : Replaced env m ws texts) :
      Replaced env m (w :: ws) ((w.gap ++ a, w.gap ++ b) :: texts)

theorem exists_replaced (h : Words env.toSplitEnv sep s ws) :
    ∃ texts, Replaced env m ws texts := by
  induction h with
  | nil => exact ⟨[], .nil⟩
  | cons hw _ ih =>
    obtain ⟨texts, htexts⟩ := ih
    obtain ⟨a, b, ha, hb, hfront, hfits⟩ := modifyCopy_spec hw
    exact ⟨_, .cons ha hb hfront hfits htexts⟩

theorem Replaced.eachWord
    (h : Replaced env m ws texts) : env.eachWord m ws = some (texts.flatMap Prod.fst) := by
  induction h with
  | nil => rfl
  | cons ha _ _ _ _ ih =>
    rw [ModifyEnv.eachWord, ha, ih]
    rfl

/-- The texts agree as a whole exactly if every word fits. -/
theorem Replaced.flatMap_eq_iff
    (h : Replaced env m ws texts) :
    (texts.flatMap Prod.fst).length ≤ (texts.flatMap Prod.snd).length ∧
      (texts.flatMap Prod.snd = texts.flatMap Prod.fst ↔ ∀ w ∈ ws, env.Fits m w) := by
  induction h with
  | nil => exact ⟨Nat.le_refl _, iff_of_true rfl fun w h ↦ absurd h not_mem_nil⟩
  | @cons w ws a b texts _ _ hfront hfits _ ih =>
    obtain ⟨hle, hiff⟩ := ih
    have hlength := hfront.length_le
    rw [flatMap_cons, flatMap_cons]
    constructor
    · simp only [length_append]
      omega
    · rw [forall_mem_cons, ← hfits, ← hiff]
      constructor
      · intro heq
        have hsum := congrArg List.length heq
        simp only [length_append] at hsum
        have hsame : a = b := hfront.eq_of_length (by omega)
        subst hsame
        exact ⟨rfl, append_cancel_left heq⟩
      · rintro ⟨rfl, heq⟩
        rw [heq]

theorem modifyWords_eq (h : Words env.toSplitEnv sep s ws) (htexts : Replaced env m ws texts) {turns : ℕ}
    (hturns : s.length < turns) (all : Bytes) :
    ∃ buffers, env.modifyWords m sep turns s all.length all = some buffers ∧
      lastText all buffers = all ++ texts.flatMap Prod.snd ∧
      ∀ b ∈ buffers, b.1 = b.2.length + 1 := by
  induction h generalizing texts turns all with
  | nil =>
    obtain ⟨turns, rfl⟩ := Nat.exists_eq_succ_of_ne_zero (Nat.ne_of_gt hturns)
    cases htexts
    exact ⟨[], rfl, (append_nil all).symm, fun b h ↦ absurd h not_mem_nil⟩
  | @cons s w ws hw hws ih =>
    obtain ⟨turns, rfl⟩ : ∃ t, turns = t + 1 := ⟨turns - 1, by omega⟩
    cases htexts with
    | @cons _ _ a b texts ha hb _ _ hrest =>
    have hlt := hw.shorter
    have hsize : all.length + w.gap.length + b.length = (all ++ w.gap ++ b).length := by
      rw [length_append, length_append]
    have hroom : w.rest.length < turns := by omega
    obtain ⟨buffers, hbuffers, hlast, hfull⟩ := ih hrest hroom (all ++ w.gap ++ b)
    refine ⟨((all ++ w.gap ++ b).length + 1, all ++ w.gap ++ b) :: buffers, ?_, ?_, ?_⟩
    · rw [ModifyEnv.modifyWords, hw.found]
      dsimp only
      rw [hb, hw.pieces.1]
      dsimp only
      rw [hsize, if_neg (lt_irrefl _), hbuffers]
      rfl
    · rw [flatMap_cons, ← append_assoc, ← append_assoc, ← hlast]
      cases buffers with
      | nil => rfl
      | cons c buffers =>
        rfl
    · intro c hc
      rcases List.mem_cons.mp hc with rfl | hc
      · rfl
      · exact hfull c hc

/-- The modifier is applied to every word and changes nothing else, and the buffers are exactly large
enough. -/
def WordWise (env : ModifyEnv) (m : Modifier) (sep : Option Bytes) (s : Bytes) : Prop :=
  ∃ ws text buffers, env.findwords sep (s.length + 1) s = some ws ∧
    env.eachWord m ws = some text ∧ env.modifyWall m sep s = some buffers ∧
    lastText [] buffers = text ∧ ∀ b ∈ buffers, b.1 = b.2.length + 1

/-- The condition on the words of a string. -/
def AllFit (env : ModifyEnv) (m : Modifier) (sep : Option Bytes) (s : Bytes) : Prop :=
  ∀ w ∈ (env.findwords sep (s.length + 1) s).getD [], env.Fits m w

/-- The C locale with the option `MULTIBYTE` and the default separators. -/
def plain : ModifyEnv where
  toTextEnv := { TextEnv.portable with multibyte := true }
  ifs := none
  emulateSh := false
  ifs_text := SplitEnv.unset_text
  ascii_initial := Charset.portable_ascii
  towcase
    | .lower, wc => if 65 ≤ wc ∧ wc ≤ 90 then some (wc + 32) else none
    | .upper, wc => if 97 ≤ wc ∧ wc ≤ 122 then some (wc - 32) else none
  tocase
    | .lower, c => if 65 ≤ c ∧ c ≤ 90 then some (c + 32) else none
    | .upper, c => if 97 ≤ c ∧ c ≤ 122 then some (c - 32) else none
  tocase_zero how := by cases how <;> rfl
  wcrtomb wc := some [UInt8.ofNat wc]
  wcrtomb_ne_nil _ h := nomatch h
  edit _ s := s
  quotestring s := s
  quotestring_nil := rfl

end ModifyEnv

end Bsh.Shell
