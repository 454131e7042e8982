import Bsh.Shell.BraceExpand
import Bsh.Shell.SpaceSplit

/-!
# Changing the case of a string

`casemodify` of `hist.c` for `CASMOD_LOWER` and `CASMOD_UPPER`.  With the option `MULTIBYTE` the
characters are converted one by one.  Without it a byte that is not changed is written as it is, so
that the result ends at the first NUL of the string.

A word that ends where a character of the string ends is changed to the same text whether or not
the rest of the string is there.
-/

namespace Bsh.Shell

open Bsh.Library Bytes List

/-- `CASMOD_LOWER` and `CASMOD_UPPER`. -/
inductive CaseMod where
  | lower
  | upper
  deriving DecidableEq

/-- The tables of the locale: `towlower` of what is `iswupper`, `towupper` of what is `iswlower`, the
same for bytes, and `wcrtomb` with a result above 0. -/
structure CaseEnv extends SplitEnv where
  towcase : CaseMod → ℕ → Option ℕ
  tocase : CaseMod → UInt8 → Option UInt8
  wcrtomb : ℕ → Option Bytes
  tocase_zero : ∀ how, tocase how 0 = none
  wcrtomb_ne_nil : ∀ wc, wcrtomb wc ≠ some []

namespace CaseEnv

variable (env : CaseEnv) (how : CaseMod)

/-- What is written for a character; the one before is that of the string. -/
def wideCase (bytes : Bytes) (wc : Option ℕ) : Bytes :=
  match (wc.bind (env.towcase how)).bind env.wcrtomb with
  | some mbstr => metafied mbstr
  | none => bytes

/-- The loop with `MULTIBYTE`.  The first argument bounds the turns. -/
def casemodWide : ℕ → Bytes → Option Bytes
  | _, [] => some []
  | 0, _ :: _ => none
  | turns + 1, c :: s =>
    match env.charConv (c :: s) with
    | none => none
    | some (len, wc) =>
      (casemodWide turns ((c :: s).drop len)).map (env.wideCase how ((c :: s).take len) wc ++ ·)

/-- What is written for a byte: only one that is changed is metafied. -/
def byteCase (c : UInt8) : Bytes :=
  match env.tocase how c with
  | some c' => metafied [c']
  | none => [c]

/-- The loop without `MULTIBYTE`. -/
def casemodByte : Bytes → Option Bytes
  | [] => some []
  | [c] => if c = metaByte then none else some (env.byteCase how c)
  | c :: d :: s =>
    if c = metaByte then (casemodByte s).map (env.byteCase how (d ^^^ 32) ++ ·)
    else (casemodByte (d :: s)).map (env.byteCase how c ++ ·)

/-- `casemodify`: the string that the result is. -/
def casemodify (s : Bytes) : Option Bytes :=
  (if env.multibyte then env.casemodWide how s.length s else env.casemodByte how s).map cString

end CaseEnv

/-! ## Whole characters -/

variable {c : UInt8} {env : SplitEnv} {len wc : ℕ} {s : Bytes}

theorem mbConvert_take {charset : Charset} (h : MetaText s) {used m : ℕ}
    {st st' : charset.State} (hread : mbConvert charset s used st = some (some (m, wc, st'))) :
    ∃ k, m = used + k ∧ MetaText (s.take k) := by
  induction h generalizing used st with
  | nil => cases hread
  | @byte c s hc _ ih =>
    cases s with
    | nil =>
      rw [mbConvert, if_neg hc.2.1] at hread
      split at hread
      · cases hread
      · split at hread
        · cases hread
          exact ⟨1, rfl, .byte hc .nil⟩
        · cases hread
    | cons d s =>
      rw [mbConvert, if_neg hc.2.1] at hread
      split at hread
      · cases hread
      · split at hread
        · cases hread
        · obtain ⟨k, rfl, htake⟩ := ih hread
          exact ⟨k + 1, by omega, .byte hc htake⟩
        · cases hread
          exact ⟨1, rfl, .byte hc .nil⟩
  | @pair d s hd _ ih =>
    rw [mbConvert, if_pos rfl] at hread
    split at hread
    · cases hread
    · obtain ⟨k, rfl, htake⟩ := ih hread
      exact ⟨k + 2, by omega, .pair hd htake⟩
    · cases hread
      exact ⟨2, rfl, .pair hd .nil⟩

theorem charConv_take (h : MetaText (c :: s))
    {wc : Option ℕ} (hconv : env.charConv (c :: s) = some (len, wc)) :
    MetaText ((c :: s).take len) := by
  have hunit : MetaText ((c :: s).take (byteLength c)) := by
    cases h with
    | byte hc _ =>
      rw [byteLength, if_neg hc.2.1]
      exact .byte hc .nil
    | pair hd _ => exact .pair hd .nil
  have hplain (hc : c ≠ metaByte) : MetaText ((c :: s).take 1) := by
    rwa [byteLength, if_neg hc] at hunit
  obtain ⟨⟨len', wc', st⟩, hread, heq⟩ := Option.map_eq_some_iff.mp hconv
  obtain rfl : len' = len := congrArg Prod.fst heq
  unfold mbMetacharlenconv at hread
  split at hread
  · split at hread
    · next hmeta =>
      obtain ⟨d, hd, hsome⟩ := Option.map_eq_some_iff.mp hread
      obtain rfl : 2 = len' := congrArg Prod.fst hsome
      rwa [byteLength, if_pos hmeta] at hunit
    · next hmeta =>
      cases hread
      exact hplain hmeta
  · split at hread
    · next htoken =>
      cases hread
      apply hplain
      rintro rfl
      cases htoken
    · unfold mbMetacharlenconvR at hread
      split at hread
      · next hlow =>
        cases hread
        apply hplain
        rintro rfl
        exact absurd hlow (by decide)
      · split at hread
        · cases hread
        · next hconvert =>
          cases hread
          obtain ⟨k, hk, htake⟩ := mbConvert_take h hconvert
          rw [Nat.zero_add] at hk
          rwa [hk]
        · split at hread
          · cases hread
            exact .nil
          · cases hread
            exact hunit

theorem mbConvert_pos (charset : Charset) (text : Bytes) (used : ℕ) (st : charset.State) {st' : charset.State}
    (h : mbConvert charset text used st = some (some (len, wc, st'))) : used < len := by
  fun_induction mbConvert charset text used st with
  | case1 => cases h
  | case2 => cases h
  | case3 => cases h
  | case4 =>
    cases h
    omega
  | case5 => cases h
  | case6 => cases h
  | case7 d rest used st st₁ hresult ih =>
    have hlt := ih h
    omega
  | case8 =>
    cases h
    omega
  | case9 => cases h
  | case10 => cases h
  | case11 c d rest used st hmeta himeta st₁ hresult ih =>
    have hlt := ih h
    omega
  | case12 =>
    cases h
    omega

/-- A character that ends inside of a text is read from the text alone. -/
theorem mbConvert_front {charset : Charset} {text : Bytes} (htext : MetaText text) (more : Bytes)
    {used : ℕ} {st st' : charset.State}
    (h : mbConvert charset (text ++ more) used st = some (some (len, wc, st')))
    (hlen : len ≤ used + text.length) :
    mbConvert charset text used st = some (some (len, wc, st')) := by
  induction htext generalizing used st with
  | nil =>
    have hpos := mbConvert_pos charset _ used st h
    rw [length_nil] at hlen
    omega
  | @byte c s hc _ ih =>
    cases s with
    | nil =>
      cases more with
      | nil => exact h
      | cons d more =>
        rw [cons_append, nil_append, mbConvert, if_neg hc.2.1] at h
        rw [mbConvert, if_neg hc.2.1]
        split at h
        · cases h
        · next hmeta =>
          rw [if_neg hmeta]
          split at h
          · cases h
          · have hpos := mbConvert_pos charset _ _ _ h
            rw [length_singleton] at hlen
            omega
          · next hread =>
            rw [hread]
            exact h
    | cons d s =>
      rw [cons_append, cons_append, mbConvert, if_neg hc.2.1] at h
      rw [mbConvert, if_neg hc.2.1]
      split at h
      · cases h
      · next hmeta =>
        rw [if_neg hmeta]
        split at h
        · cases h
        · apply ih h
          rw [length_cons] at hlen
          omega
        · exact h
  | @pair d s hd _ ih =>
    rw [cons_append, cons_append, mbConvert, if_pos rfl] at h
    rw [mbConvert, if_pos rfl]
    split at h
    · cases h
    · apply ih h
      rw [length_cons, length_cons] at hlen
      omega
    · exact h

theorem charConv_prefix {more : Bytes} (h : MetaText (c :: s)) {wc : Option ℕ} (hconv : env.charConv (c :: s ++ more) = some (len, wc))
    (hlen : len ≤ (c :: s).length) : env.charConv (c :: s) = some (len, wc) := by
  obtain ⟨⟨len', wc', st⟩, hread, heq⟩ := Option.map_eq_some_iff.mp hconv
  obtain ⟨rfl, rfl⟩ := Prod.mk.inj heq
  suffices hsame : ∃ st', mbMetacharlenconv env.charset env.multibyte c s env.charset.initial =
      some (len', wc', st') by
    obtain ⟨st', hsame⟩ := hsame
    exact Option.map_eq_some_iff.mpr ⟨_, hsame, rfl⟩
  unfold mbMetacharlenconv at hread ⊢
  split at hread
  · next hsingle =>
    rw [if_pos hsingle]
    split at hread
    · next hmeta =>
      subst hmeta
      cases h with
      | byte hc _ => exact absurd rfl hc.2.1
      | pair _ _ => exact ⟨_, hread⟩
    · next hmeta =>
      rw [if_neg hmeta]
      exact ⟨_, hread⟩
  · next hsingle =>
    rw [if_neg hsingle]
    split at hread
    · next htoken =>
      rw [if_pos htoken]
      exact ⟨_, hread⟩
    · next htoken =>
      rw [if_neg htoken]
      unfold mbMetacharlenconvR at hread ⊢
      split at hread
      · next hlow =>
        rw [if_pos hlow]
        exact ⟨_, hread⟩
      · next hlow =>
        rw [if_neg hlow]
        split at hread
        · cases hread
        · next hconvert =>
          cases hread
          rw [mbConvert_front h more hconvert (by omega)]
          exact ⟨_, rfl⟩
        · next hconvert =>
          cases hread
          obtain hnone | ⟨k, wc, st', hsome, -⟩ := mbConvert_metaText h 0 env.charset.initial
          · rw [hnone]
            exact ⟨_, rfl⟩
          · have happend := (mbConvert_append env.charset (c :: s) 0 _ more hsome).1
            cases hconvert.symm.trans happend

/-! ## Words in front of a rest -/

/-- The word ends where a character of the string ends. -/
inductive WholeWord (env : SplitEnv) (rest : Bytes) : Bytes → Prop
  | nil : WholeWord env rest []
  | cons {ch w : Bytes} {wc : Option ℕ} (hne : ch ≠ []) (htext : MetaText ch)
      (hconv : env.charConv (ch ++ (w ++ rest)) = some (ch.length, wc)) (h : WholeWord env rest w) :
      WholeWord env rest (ch ++ w)

theorem WholeWord.metaText {rest w : Bytes} (h : WholeWord env rest w) : MetaText w := by
  induction h with
  | nil => exact .nil
  | cons _ htext _ _ ih => exact htext.append ih

namespace CaseEnv

variable {env : CaseEnv} {how : CaseMod}

theorem wideCase_ne_nil {ch : Bytes} (hch : ch ≠ []) (wc : Option ℕ) :
    env.wideCase how ch wc ≠ [] := by
  unfold wideCase
  split
  · next mbstr h =>
    obtain ⟨wc', -, hwc⟩ := Option.bind_eq_some_iff.mp h
    intro hnil
    have hlength := length_metafied mbstr
    rw [hnil, length_nil] at hlength
    obtain rfl : mbstr = [] := List.length_eq_zero_iff.mp (by omega)
    exact env.wcrtomb_ne_nil wc' hwc
  · exact hch

theorem zero_not_mem_wideCase {ch : Bytes} (hch : MetaText ch) (wc : Option ℕ) :
    0 ∉ env.wideCase how ch wc := by
  unfold wideCase
  split
  · exact zero_not_mem_metafied _
  · exact hch.zero_not_mem

theorem casemodWide_fuel {turns turns' : ℕ} {s out : Bytes}
    (h : env.casemodWide how turns s = some out) (hle : turns ≤ turns') :
    env.casemodWide how turns' s = some out := by
  induction turns generalizing turns' s out with
  | zero =>
    cases s with
    | nil =>
      rw [casemodWide] at h ⊢
      exact h
    | cons c s => cases h
  | succ turns ih =>
    obtain ⟨turns', rfl⟩ : ∃ t, turns' = t + 1 := ⟨turns' - 1, by omega⟩
    cases s with
    | nil => exact h
    | cons c s =>
      rw [casemodWide] at h ⊢
      split at h
      · cases h
      · obtain ⟨out', hout, rfl⟩ := Option.map_eq_some_iff.mp h
        rw [ih hout (by omega)]
        rfl

theorem casemodWide_cons {turns : ℕ} {ch s out : Bytes} {wc : Option ℕ} (hne : ch ≠ [])
    (hconv : env.charConv (ch ++ s) = some (ch.length, wc))
    (hrest : env.casemodWide how turns s = some out) :
    env.casemodWide how (turns + 1) (ch ++ s) = some (env.wideCase how ch wc ++ out) := by
  obtain ⟨c, ch', rfl⟩ := exists_cons_of_ne_nil hne
  rw [cons_append, casemodWide, ← cons_append, hconv]
  dsimp only
  rw [take_left, drop_left, hrest]
  rfl

variable (env how) in
theorem exists_casemodWide {s : Bytes} (h : MetaText s) :
    ∃ out, env.casemodWide how s.length s = some out ∧ 0 ∉ out ∧ (s ≠ [] → out ≠ []) := by
  induction hn : s.length using Nat.strongRecOn generalizing s with
  | _ n ih =>
    subst hn
    cases s with
    | nil => exact ⟨[], rfl, not_mem_nil, fun h ↦ absurd rfl h⟩
    | cons c s =>
      obtain ⟨len, wc, hhead⟩ := SplitEnv.exists_headChar env.toSplitEnv h
      have htake := charConv_take h hhead.conv
      have hlen : ((c :: s).take len).length = len := by
        rw [length_take]
        exact Nat.min_eq_left hhead.le
      have hne : (c :: s).take len ≠ [] := by
        intro hnil
        rw [hnil] at hlen
        exact absurd hlen.symm hhead.pos.ne'
      have hdrop : ((c :: s).drop len).length < (c :: s).length := by
        have hpos := hhead.pos
        rw [length_drop, length_cons]
        omega
      obtain ⟨out, hout, hzero, -⟩ := ih _ hdrop hhead.behind rfl
      have hconv : env.charConv ((c :: s).take len ++ (c :: s).drop len) =
          some (((c :: s).take len).length, wc) := by
        rw [List.take_append_drop, hlen]
        exact hhead.conv
      have hrest : env.casemodWide how s.length ((c :: s).drop len) = some out :=
        casemodWide_fuel hout (Nat.le_of_lt_succ hdrop)
      have hloop := casemodWide_cons hne hconv hrest
      rw [List.take_append_drop] at hloop
      refine ⟨_, hloop, ?_, fun _ hnil ↦ ?_⟩
      · rw [mem_append, not_or]
        exact ⟨zero_not_mem_wideCase htake wc, hzero⟩
      · exact wideCase_ne_nil hne wc (List.append_eq_nil_iff.mp hnil).1

/-- A word is changed to the same text in front of the rest. -/
theorem casemodWide_whole {rest w : Bytes} (h : WholeWord env.toSplitEnv rest w) {turns : ℕ}
    {back : Bytes} (hback : env.casemodWide how turns rest = some back) :
    ∃ out, env.casemodWide how w.length w = some out ∧
      env.casemodWide how (w.length + turns) (w ++ rest) = some (out ++ back) := by
  induction h with
  | nil => exact ⟨[], rfl, by rwa [length_nil, Nat.zero_add]⟩
  | @cons ch w wc hne htext hconv hw ih =>
    obtain ⟨out, hout, hwhole⟩ := ih
    have hpos := List.length_pos_iff.mpr hne
    have hlength : (ch ++ w).length = ch.length + w.length := length_append
    have halone : env.charConv (ch ++ w) = some (ch.length, wc) := by
      have hall := htext.append hw.metaText
      obtain ⟨c, ch', rfl⟩ := exists_cons_of_ne_nil hne
      rw [← append_assoc] at hconv
      have hle : (c :: ch').length ≤ (c :: (ch' ++ w)).length := by
        rw [← cons_append, hlength]
        exact Nat.le_add_right _ _
      exact charConv_prefix hall hconv hle
    refine ⟨env.wideCase how ch wc ++ out, ?_, ?_⟩
    · exact casemodWide_fuel (casemodWide_cons hne halone hout) (by omega)
    · rw [append_assoc, append_assoc]
      exact casemodWide_fuel (casemodWide_cons hne hconv hwhole) (by omega)

/-! ## Without `MULTIBYTE` -/

theorem casemodByte_byte {c : UInt8} (hc : c ≠ metaByte) (s : Bytes) :
    env.casemodByte how (c :: s) = (env.casemodByte how s).map (env.byteCase how c ++ ·) := by
  cases s with
  | nil =>
    have hone : env.casemodByte how [c] = some (env.byteCase how c) := if_neg hc
    rw [hone]
    exact congrArg some (append_nil _).symm
  | cons d s => rw [casemodByte, if_neg hc]

theorem casemodByte_pair (d : UInt8) (s : Bytes) :
    env.casemodByte how (metaByte :: d :: s) =
      (env.casemodByte how s).map (env.byteCase how (d ^^^ 32) ++ ·) := by
  rw [casemodByte, if_pos rfl]

variable (env how) in
theorem casemodByte_append {w rest back : Bytes} (hw : MetaText w)
    (hback : env.casemodByte how rest = some back) :
    ∃ out, env.casemodByte how w = some out ∧ env.casemodByte how (w ++ rest) = some (out ++ back) := by
  induction hw with
  | nil => exact ⟨[], rfl, hback⟩
  | @byte c s hc _ ih =>
    obtain ⟨out, hout, hwhole⟩ := ih
    refine ⟨env.byteCase how c ++ out, ?_, ?_⟩
    · rw [casemodByte_byte hc.2.1, hout]
      rfl
    · rw [cons_append, casemodByte_byte hc.2.1, hwhole, Option.map_some, append_assoc]
  | @pair d s _ _ ih =>
    obtain ⟨out, hout, hwhole⟩ := ih
    refine ⟨env.byteCase how (d ^^^ 32) ++ out, ?_, ?_⟩
    · rw [casemodByte_pair, hout]
      rfl
    · rw [cons_append, cons_append, casemodByte_pair, hwhole, Option.map_some,
        append_assoc]

theorem zero_mem_byteCase (c : UInt8) : 0 ∈ env.byteCase how c ↔ c = 0 := by
  unfold byteCase
  cases hcase : env.tocase how c with
  | some c' =>
    refine iff_of_false (zero_not_mem_metafied [c']) ?_
    rintro rfl
    rw [env.tocase_zero] at hcase
    cases hcase
  | none =>
    rw [mem_singleton]
    exact eq_comm

theorem byteCase_zero : env.byteCase how 0 = [0] := by
  unfold byteCase
  rw [env.tocase_zero]

end CaseEnv

/-- There is a NUL in the string. -/
def hasNul : Bytes → Bool
  | [] => false
  | [_] => false
  | c :: d :: s => if c = metaByte then d = 32 || hasNul s else hasNul (d :: s)

/-- The string starts with a NUL. -/
def StartsNul (s : Bytes) : Prop := [metaByte, 32] <+: s

instance (s : Bytes) : Decidable (StartsNul s) :=
  inferInstanceAs (Decidable ([metaByte, 32] <+: s))

theorem hasNul_byte (hc : c ≠ metaByte) (s : Bytes) : hasNul (c :: s) = hasNul s := by
  cases s with
  | nil => rfl
  | cons d s => rw [hasNul, if_neg hc]

theorem flip_eq_zero {d : UInt8} : d ^^^ 32 = 0 ↔ d = 32 := UInt8.xor_eq_zero_iff

/-- Cutting at the first zero takes only the first text if it has one or the second starts so. -/
theorem cString_append_eq {a b : Bytes} :
    cString (a ++ b) = cString a ↔ b = [] ∨ 0 ∈ a ∨ b.head? = some 0 := by
  induction a with
  | nil =>
    cases b with
    | nil => simp
    | cons c b =>
      by_cases hc : c = 0
      · simp [cString, hc]
      · simp [cString, hc]
  | cons c a ih =>
    by_cases hc : c = 0
    · simp [cString, hc]
    · have hstep (l : Bytes) : cString (c :: l) = c :: cString l := by
        unfold cString
        rw [takeWhile_cons, if_pos (decide_eq_true hc)]
      rw [cons_append, hstep, hstep, List.cons.injEq, ih]
      simp [Ne.symm hc]

theorem cString_prefix (a b : Bytes) : cString a <+: cString (a ++ b) := by
  induction a with
  | nil => exact nil_prefix
  | cons c a ih =>
    unfold cString at ih ⊢
    rw [cons_append, takeWhile_cons, takeWhile_cons]
    split
    · exact List.cons_prefix_cons.mpr ⟨rfl, ih⟩
    · exact prefix_refl _

namespace CaseEnv

variable {env : CaseEnv} {how : CaseMod}

theorem zero_mem_casemodByte {w out : Bytes} (hw : MetaText w)
    (hout : env.casemodByte how w = some out) : 0 ∈ out ↔ hasNul w = true := by
  induction hw generalizing out with
  | nil =>
    cases hout
    exact iff_of_false not_mem_nil Bool.false_ne_true
  | @byte c s hc _ ih =>
    rw [casemodByte_byte hc.2.1] at hout
    obtain ⟨out', hout', rfl⟩ := Option.map_eq_some_iff.mp hout
    rw [mem_append, zero_mem_byteCase, ih hout', hasNul_byte hc.2.1]
    exact or_iff_right hc.1
  | @pair d s _ _ ih =>
    obtain ⟨out', hout', rfl⟩ := Option.map_eq_some_iff.mp hout
    rw [mem_append, zero_mem_byteCase, ih hout', hasNul, if_pos rfl, Bool.or_eq_true,
      decide_eq_true_eq, flip_eq_zero]

theorem head_casemodByte {s out : Bytes} (hs : MetaText s)
    (hout : env.casemodByte how s = some out) :
    (out = [] ↔ s = []) ∧ (out.head? = some 0 ↔ StartsNul s) := by
  have hne (c : UInt8) : env.byteCase how c ≠ [] := by
    unfold byteCase
    split
    · intro hnil
      have hlength := congrArg List.length hnil
      rw [length_metafied, length_singleton, length_nil] at hlength
      omega
    · exact cons_ne_nil _ _
  have hzero (c : UInt8) (back : Bytes) :
      (env.byteCase how c ++ back).head? = some 0 ↔ c = 0 := by
    obtain ⟨b, more, hb⟩ := exists_cons_of_ne_nil (hne c)
    constructor
    · intro h
      rw [hb, cons_append, List.head?_cons, Option.some.injEq] at h
      rw [← zero_mem_byteCase, hb, h]
      exact mem_cons_self
    · rintro rfl
      rw [byteCase_zero]
      rfl
  cases hs with
  | nil =>
    cases hout
    exact ⟨Iff.rfl, iff_of_false (fun h ↦ nomatch h) (fun h ↦ nomatch List.prefix_nil.mp h)⟩
  | @byte c s hc _ =>
    rw [casemodByte_byte hc.2.1] at hout
    obtain ⟨out', hout', rfl⟩ := Option.map_eq_some_iff.mp hout
    refine ⟨iff_of_false (fun h ↦ hne c (List.append_eq_nil_iff.mp h).1) (cons_ne_nil _ _),
      (hzero c out').trans (iff_of_false hc.1 ?_)⟩
    intro h
    exact hc.2.1 (List.cons_prefix_cons.mp h).1.symm
  | @pair d s _ _ =>
    obtain ⟨out', hout', rfl⟩ := Option.map_eq_some_iff.mp hout
    refine ⟨iff_of_false (fun h ↦ hne _ (List.append_eq_nil_iff.mp h).1) (cons_ne_nil _ _),
      (hzero _ out').trans (flip_eq_zero.trans ?_)⟩
    unfold StartsNul
    rw [cons_prefix_cons, cons_prefix_cons]
    constructor
    · rintro rfl
      exact ⟨rfl, rfl, nil_prefix⟩
    · exact fun h ↦ h.2.1.symm

variable (env how) in
/-- What `casemodify` makes of a word, and of the word with the rest of the string. -/
theorem casemodify_rest {rest w : Bytes} (hw : WholeWord env.toSplitEnv rest w)
    (hrest : MetaText rest) : ∃ a b, env.casemodify how w = some a ∧
      env.casemodify how (w ++ rest) = some b ∧ a <+: b ∧
      (a = b ↔ rest = [] ∨ env.multibyte = false ∧ (hasNul w = true ∨ StartsNul rest)) := by
  cases hmulti : env.multibyte with
  | true =>
    obtain ⟨back, hback, hback₀, hbackNe⟩ := exists_casemodWide env how hrest
    obtain ⟨out₀, hout₀, hzero, -⟩ := exists_casemodWide env how hw.metaText
    obtain ⟨out, hout, hwhole⟩ := casemodWide_whole hw hback
    obtain rfl : out₀ = out := Option.some.inj (hout₀.symm.trans hout)
    have ha : env.casemodify how w = some out₀ := by
      unfold casemodify
      rw [if_pos hmulti, hout₀, Option.map_some,
        cString_eq_self fun b hb ↦ ne_of_mem_of_not_mem hb hzero]
    have hb : env.casemodify how (w ++ rest) = some (out₀ ++ back) := by
      unfold casemodify
      rw [if_pos hmulti, length_append, hwhole, Option.map_some, cString_eq_self]
      intro b hb
      rcases List.mem_append.mp hb with hb | hb
      · exact ne_of_mem_of_not_mem hb hzero
      · exact ne_of_mem_of_not_mem hb hback₀
    refine ⟨out₀, out₀ ++ back, ha, hb, prefix_append _ _, ?_⟩
    rw [self_eq_append_right]
    constructor
    · exact fun h ↦ Or.inl (by_contra fun hne ↦ hbackNe hne h)
    · rintro (rfl | ⟨h, -⟩)
      · cases hback
        rfl
      · cases h
  | false =>
    have hnone : env.casemodByte how [] = some [] := rfl
    obtain ⟨back, hback, -⟩ := casemodByte_append env how hrest hnone
    obtain ⟨out, hout, hwhole⟩ := casemodByte_append env how hw.metaText hback
    have hfalse : ¬ env.multibyte = true := by
      rw [hmulti]
      exact Bool.false_ne_true
    refine ⟨cString out, cString (out ++ back), ?_, ?_, cString_prefix out back, ?_⟩
    · unfold casemodify
      rw [if_neg hfalse, hout]
      rfl
    · unfold casemodify
      rw [if_neg hfalse, hwhole]
      rfl
    · obtain ⟨hnil, hhead⟩ := head_casemodByte hrest hback
      rw [eq_comm, cString_append_eq, hnil, zero_mem_casemodByte hw.metaText hout, hhead]
      simp

end CaseEnv

end Bsh.Shell
