import Bsh.Shell.Casemod
import Bsh.Shell.Padding

/-!
# What padding writes

The buffer of `dopadding` has room for the string, for the strings that are used once, and for each of
the repeated strings as often as there is width.  Where all characters have the width 1, the string
is put into its fields.
-/

namespace Bsh.Shell

open Bsh.Library Bytes Widths List

/-! ## Room -/

theorem length_take_add_drop (c : ℕ) (l : List PadChar) :
    (charsText (takeWidth PadChar.width c l)).length +
      (charsText (dropWidth PadChar.width c l)).length = (charsText l).length := by
  rw [← length_append, ← charsText_append, Widths.take_append_drop]

theorem length_takeWidth_le (c : ℕ) (l : List PadChar) :
    (charsText (takeWidth PadChar.width c l)).length ≤ (charsText l).length := by
  have h := length_take_add_drop c l
  omega

theorem length_dropWidth_le (c : ℕ) (l : List PadChar) :
    (charsText (dropWidth PadChar.width c l)).length ≤ (charsText l).length := by
  have h := length_take_add_drop c l
  omega

theorem length_replicate (n : ℕ) (l : List PadChar) :
    (charsText (List.replicate n l).flatten).length = n * (charsText l).length := by
  rw [PadEnv.charsText_replicate]
  simp

/-- A string is used at most once for every width that is wanted. -/
theorem uses_le {f k w n : ℕ} (hw : w ≠ 0) (hk : k ≤ f) (piece : ℕ)
    (hpiece : piece ≤ if k % w = 0 then 0 else n) : piece + k / w * n ≤ n * f := by
  have hpos : 0 < w := Nat.pos_of_ne_zero hw
  have hsplit := Nat.div_add_mod k w
  have hle : k / w ≤ w * (k / w) := Nat.le_mul_of_pos_left _ hpos
  by_cases hm : k % w = 0
  · rw [if_pos hm] at hpiece
    calc piece + k / w * n = k / w * n := by omega
      _ ≤ f * n := Nat.mul_le_mul_right n (by omega)
      _ = n * f := Nat.mul_comm f n
  · rw [if_neg hm] at hpiece
    calc piece + k / w * n ≤ n + k / w * n := Nat.add_le_add_right hpiece _
      _ = (k / w + 1) * n := by rw [Nat.succ_mul, Nat.add_comm]
      _ ≤ f * n := Nat.mul_le_mul_right n (by omega)
      _ = n * f := Nat.mul_comm f n

namespace PadEnv

variable {one : Option Chars} {mul : Chars}

theorem length_leftChars_le (both : Bool) (f : ℕ) :
    (charsText (leftChars both f one mul)).length ≤
      (charsText (oneChars one)).length + (charsText mul.chars).length * f := by
  unfold leftChars
  split
  case isTrue =>
    have h := length_dropWidth_le (oneWidth one - f) (oneChars one)
    omega
  case isFalse =>
    rw [charsText_append, length_append]
    split
    case isTrue => simp
    case isFalse hw =>
      have htake := length_takeWidth_le mul.width mul.chars
      rw [charsText_append, length_append, length_replicate]
      set k := f - oneWidth one
      have hpiece : (charsText (if k % mul.width = 0 then []
          else if both then dropWidth PadChar.width (mul.width - k % mul.width) mul.chars
          else takeWidth PadChar.width (k % mul.width)
            (dropWidth PadChar.width (mul.width - k % mul.width) mul.chars))).length ≤
          if k % mul.width = 0 then 0 else (charsText mul.chars).length := by
        have hdrop := length_dropWidth_le (mul.width - k % mul.width) mul.chars
        split
        · exact Nat.le_refl _
        · cases both with
          | true => exact hdrop
          | false => exact le_trans (length_takeWidth_le _ _) hdrop
      have huses := uses_le (k := k) hw (Nat.sub_le f (oneWidth one)) _ hpiece
      have hrepeat := Nat.mul_le_mul_left (k / mul.width) htake
      omega

theorem length_rightChars_le (f : ℕ) :
    (charsText (rightChars f one mul)).length ≤
      (charsText (oneChars one)).length + (charsText mul.chars).length * f := by
  unfold rightChars
  split
  case isTrue =>
    have h := length_takeWidth_le f (oneChars one)
    omega
  case isFalse =>
    rw [charsText_append, length_append]
    split
    case isTrue => simp
    case isFalse hw =>
      rw [charsText_append, length_append, length_replicate]
      set k := f - oneWidth one
      have hpiece : (charsText (takeWidth PadChar.width (k % mul.width) mul.chars)).length ≤
          if k % mul.width = 0 then 0 else (charsText mul.chars).length := by
        split
        case isTrue hm =>
          rw [hm, takeWidth_zero]
          exact Nat.le_refl _
        case isFalse => exact length_takeWidth_le _ _
      have huses := uses_le (k := k) hw (Nat.sub_le f (oneWidth one)) _ hpiece
      omega

end PadEnv

namespace CharStrings

variable {prenum postnum : ℕ} {s : CharStrings}

theorem bufferLength_eq :
    PadEnv.bufferLength prenum postnum s.strings =
      (charsText s.str.chars).length + (charsText s.premul.chars).length * prenum +
        (charsText s.postmul.chars).length * postnum +
        (charsText (PadEnv.oneChars s.preone)).length +
        (charsText (PadEnv.oneChars s.postone)).length := by
  cases hpre : s.preone <;> cases hpost : s.postone <;>
    simp [PadEnv.bufferLength, strings, Chars.wide, PadEnv.oneChars, hpre, hpost]

theorem mul_sub_le (n a b : ℕ) : n * (a - b) ≤ n * a := Nat.mul_le_mul_left n (Nat.sub_le a b)

/-- Everything that is written has room in the buffer. -/
theorem length_writtenChars_le :
    (charsText (s.writtenChars prenum postnum)).length ≤
      PadEnv.bufferLength prenum postnum s.strings := by
  have hleft (both : Bool) (b : ℕ) :
      (charsText (PadEnv.leftChars both (prenum - b) s.preone s.premul)).length ≤
        (charsText (PadEnv.oneChars s.preone)).length +
          (charsText s.premul.chars).length * prenum :=
    le_trans (PadEnv.length_leftChars_le both _) (Nat.add_le_add_left (mul_sub_le _ _ _) _)
  have hright (b : ℕ) :
      (charsText (PadEnv.rightChars (postnum - b) s.postone s.postmul)).length ≤
        (charsText (PadEnv.oneChars s.postone)).length +
          (charsText s.postmul.chars).length * postnum :=
    le_trans (PadEnv.length_rightChars_le _) (Nat.add_le_add_left (mul_sub_le _ _ _) _)
  have hfirst : (charsText (s.firstChars prenum).1).length +
      (charsText (s.firstChars prenum).2).length ≤
        (charsText s.str.chars).length + (charsText (PadEnv.oneChars s.preone)).length +
          (charsText s.premul.chars).length * prenum := by
    unfold firstChars
    dsimp only
    split
    · have hskip := length_dropWidth_le (s.str.width / 2 - prenum) s.str.chars
      have hcut := length_take_add_drop prenum
        (dropWidth PadChar.width (s.str.width / 2 - prenum) s.str.chars)
      dsimp only
      omega
    · have hcut := length_take_add_drop (s.str.width / 2) s.str.chars
      have hfill := hleft true (s.str.width / 2)
      dsimp only
      rw [charsText_append, length_append]
      omega
  have hother (rest : List PadChar) : (charsText (s.otherChars postnum rest)).length ≤
      (charsText rest).length + (charsText (PadEnv.oneChars s.postone)).length +
        (charsText s.postmul.chars).length * postnum := by
    unfold otherChars
    dsimp only
    split
    · have hcut := length_takeWidth_le postnum rest
      omega
    · have hfill := hright (s.str.width - s.str.width / 2)
      rw [charsText_append, length_append]
      omega
  rw [bufferLength_eq]
  unfold writtenChars
  split
  · split
    · have hrest := hother (s.firstChars prenum).2
      rw [charsText_append, length_append]
      omega
    · split
      · have hskip := length_dropWidth_le (s.str.width - prenum) s.str.chars
        have hcut := length_takeWidth_le prenum
          (dropWidth PadChar.width (s.str.width - prenum) s.str.chars)
        omega
      · have hfill := hleft false s.str.width
        rw [charsText_append, length_append]
        omega
  · split
    · split
      · have hcut := length_takeWidth_le postnum s.str.chars
        omega
      · have hfill := hright s.str.width
        rw [charsText_append, length_append]
        omega
    · exact Nat.zero_le _

end CharStrings

/-! ## Characters of the width 1 -/

/-- All characters have the width 1, and the string counts as wide as they are. -/
def Chars.One (t : Chars) : Prop := (∀ ch ∈ t.chars, ch.width = 1) ∧ t.width = t.chars.length

namespace PadEnv

variable {one : Option Chars} {mul : Chars}

theorem oneWidth_one (hone : ∀ t, one = some t → t.One) :
    oneWidth one = (oneChars one).length := by
  cases one with
  | none => rfl
  | some t => exact (hone t rfl).2

theorem oneChars_one (hone : ∀ t, one = some t → t.One) : ∀ ch ∈ oneChars one, ch.width = 1 := by
  cases one with
  | none => exact fun ch h ↦ absurd h not_mem_nil
  | some t => exact (hone t rfl).1

theorem width_eq_zero (hmul : mul.One) : mul.width = 0 ↔ mul.chars = [] := by
  rw [hmul.2, length_eq_zero_iff]

theorem leftChars_one (hone : ∀ t, one = some t → t.One) (hmul : mul.One) (both : Bool) (f : ℕ) :
    leftChars both f one mul = Padding.before f (oneChars one) mul.chars := by
  unfold leftChars
  rw [oneWidth_one hone]
  split
  case isTrue hf =>
    rw [dropWidth_one (oneChars_one hone), Padding.before_once hf]
    rfl
  case isFalse hf =>
    obtain ⟨k, rfl⟩ := Nat.exists_eq_add_of_le (not_le.mp hf).le
    rw [Nat.add_sub_cancel_left]
    dsimp only
    by_cases hw : mul.width = 0
    · rw [if_pos hw, (width_eq_zero hmul).mp hw, Padding.before_nothing]
      rfl
    · have hagain : mul.chars ≠ [] := mt (width_eq_zero hmul).mpr hw
      rw [if_neg hw, Padding.before_again hagain, takeWidth_one hmul.1, dropWidth_one hmul.1,
        hmul.2, take_length, append_assoc]
      unfold List.rtake
      split
      case isTrue hm => rw [hm, Nat.sub_zero, drop_length]
      case isFalse hm =>
        cases both with
        | true => rfl
        | false =>
          have hdrop : ∀ ch ∈ mul.chars.drop (mul.chars.length - k % mul.chars.length),
              ch.width = 1 := fun ch h ↦ hmul.1 ch (mem_of_mem_drop h)
          rw [if_neg Bool.false_ne_true, takeWidth_one hdrop, take_of_length_le]
          rw [length_drop]
          omega

theorem rightChars_one (hone : ∀ t, one = some t → t.One) (hmul : mul.One) (f : ℕ) :
    rightChars f one mul = Padding.after f (oneChars one) mul.chars := by
  unfold rightChars
  rw [oneWidth_one hone]
  split
  case isTrue hf => rw [takeWidth_one (oneChars_one hone), Padding.after_once hf]
  case isFalse hf =>
    obtain ⟨k, rfl⟩ := Nat.exists_eq_add_of_le (not_le.mp hf).le
    rw [Nat.add_sub_cancel_left]
    by_cases hw : mul.width = 0
    · rw [if_pos hw, (width_eq_zero hmul).mp hw, Padding.after_nothing, append_nil]
    · have hagain : mul.chars ≠ [] := mt (width_eq_zero hmul).mpr hw
      rw [if_neg hw, Padding.after_again hagain, takeWidth_one hmul.1, hmul.2]

end PadEnv

namespace CharStrings

variable (prenum postnum : ℕ) (s : CharStrings)

/-- All characters that matter have the width 1. -/
structure AllOne : Prop where
  str : s.str.One
  preone : prenum ≠ 0 → ∀ t, s.preone = some t → t.One
  premul : prenum ≠ 0 → s.premul.One
  postone : postnum ≠ 0 → ∀ t, s.postone = some t → t.One
  postmul : postnum ≠ 0 → s.postmul.One

/-- How many characters of the string are padded on the left. -/
def leftCount : ℕ :=
  if prenum = 0 then 0
  else if postnum = 0 then s.str.chars.length
  else s.str.chars.length / 2

/-- The documented result: one part of the string is at the right end of the left field, the other at
the left end of the right field. -/
def documented : List PadChar :=
  Padding.fieldRight prenum (PadEnv.oneChars s.preone) s.premul.chars
      (s.str.chars.take (s.leftCount prenum postnum)) ++
    Padding.fieldLeft postnum (PadEnv.oneChars s.postone) s.postmul.chars
      (s.str.chars.drop (s.leftCount prenum postnum))

/-- There is enough to fill both fields. -/
def Enough : Prop :=
  Padding.FieldEnough prenum (PadEnv.oneChars s.preone) s.premul.chars
      (s.str.chars.take (s.leftCount prenum postnum)) ∧
    Padding.FieldEnough postnum (PadEnv.oneChars s.postone) s.postmul.chars
      (s.str.chars.drop (s.leftCount prenum postnum))

variable {prenum postnum s}

theorem length_documented_eq_iff :
    (s.documented prenum postnum).length = prenum + postnum ↔ s.Enough prenum postnum := by
  unfold documented Enough
  rw [← Padding.length_fieldRight_eq_iff, ← Padding.length_fieldLeft_eq_iff, length_append]
  have hright := Padding.length_fieldRight_le prenum (PadEnv.oneChars s.preone) s.premul.chars
    (s.str.chars.take (s.leftCount prenum postnum))
  have hleft := Padding.length_fieldLeft_le postnum (PadEnv.oneChars s.postone) s.postmul.chars
    (s.str.chars.drop (s.leftCount prenum postnum))
  omega

theorem firstChars_one (h : s.AllOne prenum postnum) (hpre : prenum ≠ 0) :
    s.firstChars prenum =
      (Padding.fieldRight prenum (PadEnv.oneChars s.preone) s.premul.chars
        (s.str.chars.take (s.str.chars.length / 2)), s.str.chars.drop (s.str.chars.length / 2)) := by
  have htake : (s.str.chars.take (s.str.chars.length / 2)).length = s.str.chars.length / 2 := by
    rw [length_take]
    omega
  unfold firstChars Padding.fieldRight
  rw [htake, h.str.2]
  dsimp only
  split
  case isTrue hf =>
    have hdrop : ∀ ch ∈ s.str.chars.drop (s.str.chars.length / 2 - prenum), ch.width = 1 :=
      fun ch hch ↦ h.str.1 ch (mem_of_mem_drop hch)
    have hback : s.str.chars.length / 2 - prenum + prenum = s.str.chars.length / 2 := by omega
    rw [dropWidth_one h.str.1, takeWidth_one hdrop, dropWidth_one hdrop, drop_drop, hback]
    unfold List.rtake
    rw [htake, drop_take]
    congr 2
    omega
  case isFalse hf =>
    rw [PadEnv.leftChars_one (h.preone hpre) (h.premul hpre), takeWidth_one h.str.1,
      dropWidth_one h.str.1]

theorem otherChars_one (h : s.AllOne prenum postnum) (hpost : postnum ≠ 0) :
    s.otherChars postnum (s.str.chars.drop (s.str.chars.length / 2)) =
      Padding.fieldLeft postnum (PadEnv.oneChars s.postone) s.postmul.chars
        (s.str.chars.drop (s.str.chars.length / 2)) := by
  have hdrop : ∀ ch ∈ s.str.chars.drop (s.str.chars.length / 2), ch.width = 1 :=
    fun ch hch ↦ h.str.1 ch (mem_of_mem_drop hch)
  unfold otherChars Padding.fieldLeft
  rw [length_drop, h.str.2]
  dsimp only
  split
  case isTrue => rw [takeWidth_one hdrop]
  case isFalse => rw [PadEnv.rightChars_one (h.postone hpost) (h.postmul hpost)]

/-- Where all characters have the width 1, the string is put into its fields. -/
theorem writtenChars_one (h : s.AllOne prenum postnum) :
    s.writtenChars prenum postnum = s.documented prenum postnum := by
  unfold writtenChars documented leftCount
  by_cases hpre : prenum = 0
  · rw [if_neg (not_not.mpr hpre), if_pos hpre, take_zero, drop_zero]
    subst hpre
    rw [Padding.fieldRight_zero, nil_append]
    by_cases hpost : postnum = 0
    · subst hpost
      rw [if_neg (not_not.mpr rfl), Padding.fieldLeft_zero]
    · unfold Padding.fieldLeft
      rw [if_pos hpost, h.str.2]
      split
      case isTrue => rw [takeWidth_one h.str.1]
      case isFalse => rw [PadEnv.rightChars_one (h.postone hpost) (h.postmul hpost)]
  · rw [if_pos hpre, if_neg hpre]
    by_cases hpost : postnum = 0
    · rw [if_neg (not_not.mpr hpost), if_pos hpost, take_length, drop_length]
      subst hpost
      rw [Padding.fieldLeft_zero, append_nil]
      unfold Padding.fieldRight
      rw [h.str.2]
      split
      case isTrue hf =>
        have hdrop : ∀ ch ∈ s.str.chars.drop (s.str.chars.length - prenum), ch.width = 1 :=
          fun ch hch ↦ h.str.1 ch (mem_of_mem_drop hch)
        rw [dropWidth_one h.str.1, takeWidth_one hdrop, take_of_length_le]
        · rfl
        · rw [length_drop]
          omega
      case isFalse => rw [PadEnv.leftChars_one (h.preone hpre) (h.premul hpre)]
    · rw [if_pos hpost, if_neg hpost, firstChars_one h hpre]
      rw [otherChars_one h hpost]

end CharStrings

end Bsh.Shell

/-!
# The result of padding

`dopadding` returns its argument where the two widths together are that of the string, without
regard to how they divide it, and it computes the size of its buffer without a check.  A character
that is cut through leaves less width than the loops behind it look for.
-/

namespace Bsh.Shell

open Bsh.Library Bytes Widths List

namespace PadEnv

variable {env : PadEnv} {multiWidth : ℕ}

/-! ## The strings are read -/

theorem scanWide_metaText {charset : Charset} {t : Bytes} (h : MetaText t) (used : ℕ)
    (st : charset.State) : ∃ r, scanWide charset t used st = some r ∧
      ∀ n wc, r = .complete n wc → ∃ k, n = used + k ∧ 0 < k ∧ MetaText (t.drop k) := by
  induction h generalizing used st with
  | nil => exact ⟨.cut, rfl, fun n wc h ↦ nomatch h⟩
  | @byte c t hc h ih =>
    cases t with
    | nil =>
      rw [scanWide, if_neg hc.2.1]
      split
      · exact ⟨_, rfl, fun n wc h ↦ nomatch h⟩
      · exact ⟨_, rfl, fun n wc h ↦ nomatch h⟩
      · refine ⟨_, rfl, fun n wc hread ↦ ?_⟩
        cases hread
        exact ⟨1, rfl, Nat.one_pos, .nil⟩
    | cons d t =>
      rw [scanWide, if_neg hc.2.1]
      split
      · exact ⟨_, rfl, fun n wc h ↦ nomatch h⟩
      · next st₁ _ =>
        obtain ⟨r, hr, hmore⟩ := ih (used + 1) st₁
        refine ⟨r, hr, fun n wc hread ↦ ?_⟩
        obtain ⟨k, rfl, -, hk⟩ := hmore n wc hread
        exact ⟨k + 1, by omega, Nat.succ_pos k, hk⟩
      · refine ⟨_, rfl, fun n wc hread ↦ ?_⟩
        cases hread
        exact ⟨1, rfl, Nat.one_pos, h⟩
  | @pair d t hd h ih =>
    rw [scanWide, if_pos rfl]
    split
    · exact ⟨_, rfl, fun n wc h ↦ nomatch h⟩
    · next st₁ _ =>
      obtain ⟨r, hr, hmore⟩ := ih (used + 2) st₁
      refine ⟨r, hr, fun n wc hread ↦ ?_⟩
      obtain ⟨k, rfl, -, hk⟩ := hmore n wc hread
      exact ⟨k + 2, by omega, Nat.succ_pos _, hk⟩
    · refine ⟨_, rfl, fun n wc hread ↦ ?_⟩
      cases hread
      exact ⟨2, rfl, Nat.two_pos, h⟩

theorem exists_metastrlen2From {turns : ℕ} {t : Bytes} (h : MetaText t) (hturns : t.length ≤ turns) :
    ∃ r, env.metastrlen2From multiWidth turns t = some r := by
  induction turns generalizing t with
  | zero =>
    obtain rfl := List.length_eq_zero_iff.mp (Nat.le_zero.mp hturns)
    exact ⟨_, rfl⟩
  | succ turns ih =>
    cases t with
    | nil => exact ⟨_, rfl⟩
    | cons c t =>
      have hnext {used : ℕ} (hpos : 0 < used) (hdrop : MetaText ((c :: t).drop used)) (num : ℕ) :
          ∃ r, (env.metastrlen2From multiWidth turns ((c :: t).drop used)).map
            (fun r ↦ (num + r.1, r.2)) = some r := by
        have hlength : ((c :: t).drop used).length ≤ turns := by
          rw [length_drop]
          omega
        obtain ⟨r, hr⟩ := ih hdrop hlength
        rw [hr]
        exact ⟨_, rfl⟩
      have hunit : 0 < byteLength c ∧ MetaText ((c :: t).drop (byteLength c)) := by
        cases h with
        | byte hc h =>
          rw [byteLength, if_neg hc.2.1]
          exact ⟨Nat.one_pos, h⟩
        | pair _ h => exact ⟨Nat.two_pos, h⟩
      rw [metastrlen2From]
      cases hascii : TextEnv.asciiLen c t with
      | some used =>
        have hused : used = byteLength c := by
          unfold TextEnv.asciiLen at hascii
          unfold byteLength
          split at hascii
          · next hmeta =>
            rw [if_pos hmeta]
            split at hascii
            · exact (Option.some.inj hascii).symm
            · cases hascii
          · next hmeta =>
            rw [if_neg hmeta]
            split at hascii
            · exact (Option.some.inj hascii).symm
            · cases hascii
        subst hused
        exact hnext hunit.1 hunit.2 1
      | none =>
        obtain ⟨r, hr, hmore⟩ := scanWide_metaText h 0 env.charset.initial
        rw [hr]
        cases r with
        | cut => exact ⟨_, rfl⟩
        | invalid => exact hnext hunit.1 hunit.2 1
        | complete used wc =>
          obtain ⟨k, hk, hpos, hdrop⟩ := hmore used wc rfl
          obtain rfl : used = k := hk.trans (Nat.zero_add k)
          exact hnext hpos hdrop _

theorem exists_ztrlen {t : Bytes} (h : MetaText t) : ∃ n, ztrlen (t ++ [0]) = some n := by
  induction h with
  | nil => exact ⟨0, rfl⟩
  | @byte c t hc _ ih =>
    obtain ⟨n, hn⟩ := ih
    obtain ⟨d, rest, hsplit⟩ : ∃ d rest, t ++ [0] = d :: rest :=
      exists_cons_of_ne_nil fun h ↦ nomatch (List.append_eq_nil_iff.mp h).2
    rw [cons_append, hsplit, ztrlen, if_neg hc.1, if_neg hc.2.1, ← hsplit, hn]
    exact ⟨_, rfl⟩
  | @pair d t hd _ ih =>
    obtain ⟨n, hn⟩ := ih
    rw [cons_append, cons_append, ztrlen, if_neg (by decide), if_pos rfl, hn]
    exact ⟨_, rfl⟩

variable (env multiWidth) in
theorem exists_chars {t : Bytes} (h : MetaText t) : ∃ c : Chars,
    env.measure multiWidth t = some c.wide ∧ env.Whole multiWidth c.chars ∧
      charsText c.chars = t := by
  obtain ⟨l, hl, rfl⟩ := exists_whole env multiWidth h
  obtain ⟨n, hn⟩ : ∃ n, env.metastrlen2 multiWidth (charsText l) = some n := by
    unfold metastrlen2
    split
    · exact exists_ztrlen h
    · obtain ⟨r, hr⟩ : ∃ r, env.metastrlen2From multiWidth _ (charsText l) =
        some r := exists_metastrlen2From h (Nat.le_refl _)
      rw [hr]
      exact ⟨_, rfl⟩
  refine ⟨⟨l, n⟩, ?_, hl, rfl⟩
  unfold measure
  rw [hn]
  rfl

variable (env multiWidth) in
theorem exists_oneChars {one : Option Bytes} (h : ∀ t, one = some t → MetaText t) :
    ∃ c : Option Chars, env.measureOne multiWidth one = some (c.map Chars.wide) ∧
      ∀ t, c = some t → env.Whole multiWidth t.chars := by
  cases one with
  | none => exact ⟨none, rfl, fun t h ↦ nomatch h⟩
  | some t =>
    obtain ⟨c, hc, hwhole, -⟩ := exists_chars env multiWidth (h t rfl)
    refine ⟨some c, ?_, fun t ht ↦ ?_⟩
    · rw [measureOne, hc]
      rfl
    · cases ht
      exact hwhole

theorem exists_defaultPadding (env : PadEnv) :
    ∃ dflt, env.defaultPadding = some dflt ∧ MetaText dflt := by
  have hfirst {ifs : Bytes} (h : MetaText ifs) (hne : ifs ≠ []) :
      ∃ dflt, (env.charConv ifs).map (fun r ↦ ifs.take r.1) = some dflt ∧ MetaText dflt := by
    obtain ⟨c, t, rfl⟩ := exists_cons_of_ne_nil hne
    obtain ⟨len, wc, hhead⟩ := SplitEnv.exists_headChar env.toSplitEnv h
    rw [hhead.conv]
    exact ⟨_, rfl, charConv_take h hhead.conv⟩
  unfold defaultPadding
  split
  · exact ⟨[], rfl, .nil⟩
  · next ifs hne hifs => exact hfirst (env.ifs_text ifs hifs) hne
  · have hdefault : MetaText defaultIfs :=
      .byte (by decide) (.byte (by decide) (.byte (by decide) (.pair (by decide) .nil)))
    exact hfirst hdefault (by decide)

/-- The strings of `dopadding` as their characters. -/
def charStrings (env : PadEnv) (a : PadArgs) : Option CharStrings :=
  let chars (t : Wide) : Chars := ⟨env.padChars a.multiWidth t.text, t.width⟩
  (env.strings a).map fun s ↦
    { str := chars s.str, preone := s.preone.map chars, postone := s.postone.map chars,
      premul := chars s.premul, postmul := chars s.postmul }

end PadEnv

/-- The arguments are strings inside of the shell. -/
structure PadArgs.Text (a : PadArgs) : Prop where
  str : MetaText a.str
  preone : ∀ t, a.preone = some t → MetaText t
  postone : ∀ t, a.postone = some t → MetaText t
  premul : ∀ t, a.premul = some t → MetaText t
  postmul : ∀ t, a.postmul = some t → MetaText t

namespace PadEnv

variable {env : PadEnv}

theorem metaText_orDefault {dflt t : Bytes} (hdflt : MetaText dflt) (ht : MetaText t) :
    MetaText (orDefault dflt t) := by
  unfold orDefault
  split
  · exact hdflt
  · exact ht

variable (env) in
theorem exists_strings {a : PadArgs} (ha : a.Text) : ∃ s : CharStrings,
    env.strings a = some s.strings ∧ env.charStrings a = some s ∧ s.Whole env a.multiWidth ∧
      charsText s.str.chars = a.str := by
  obtain ⟨dflt, hdefault, htext⟩ := exists_defaultPadding env
  have hone {one : Option Bytes} (h : ∀ t, one = some t → MetaText t) (t : Bytes)
      (ht : one.map (orDefault dflt) = some t) : MetaText t := by
    obtain ⟨u, hu, rfl⟩ := Option.map_eq_some_iff.mp ht
    exact metaText_orDefault htext (h u hu)
  have hmul {mul : Option Bytes} (h : ∀ t, mul = some t → MetaText t) :
      MetaText (orDefault dflt (mul.getD [])) := by
    cases mul with
    | none => exact metaText_orDefault htext .nil
    | some t => exact metaText_orDefault htext (h t rfl)
  obtain ⟨str, hstr, hwstr, hstrText⟩ := exists_chars env a.multiWidth ha.str
  obtain ⟨preone, hpreone, hwpreone⟩ := exists_oneChars env a.multiWidth (hone ha.preone)
  obtain ⟨postone, hpostone, hwpostone⟩ := exists_oneChars env a.multiWidth (hone ha.postone)
  obtain ⟨premul, hpremul, hwpremul, -⟩ := exists_chars env a.multiWidth (hmul ha.premul)
  obtain ⟨postmul, hpostmul, hwpostmul, -⟩ := exists_chars env a.multiWidth (hmul ha.postmul)
  have hstrings : env.strings a =
      some (CharStrings.mk str preone postone premul postmul).strings := by
    unfold strings
    rw [hdefault, Option.bind_some, hstr, Option.bind_some, hpreone, Option.bind_some, hpostone,
      Option.bind_some, hpremul, Option.bind_some, hpostmul]
    rfl
  have hback {c : Chars} (hc : env.Whole a.multiWidth c.chars) :
      (⟨env.padChars a.multiWidth c.wide.text, c.wide.width⟩ : Chars) = c := by
    change (⟨env.padChars a.multiWidth (charsText c.chars), c.width⟩ : Chars) = c
    rw [hc.padChars]
  refine ⟨⟨str, preone, postone, premul, postmul⟩, hstrings, ?_,
    ⟨hwstr, hwpreone, hwpostone, hwpremul, hwpostmul⟩, hstrText⟩
  have hbackOne {c : Option Chars} (hc : ∀ t, c = some t → env.Whole a.multiWidth t.chars) :
      (c.map Chars.wide).map (fun t ↦ (⟨env.padChars a.multiWidth t.text, t.width⟩ : Chars)) =
        c := by
    cases c with
    | none => rfl
    | some c => exact congrArg some (hback (hc c rfl))
  unfold charStrings
  rw [hstrings]
  dsimp only [Option.map_some, CharStrings.strings]
  rw [hback hwstr, hback hwpremul, hback hwpostmul, hbackOne hwpreone, hbackOne hwpostone]

end PadEnv

/-! ## The result -/

/-- The text that a result is. -/
def PadResult.text (str : Bytes) : PadResult → Bytes
  | .same => str
  | .copied _ text => text

/-- What is written has room in the buffer, with the NUL behind. -/
def PadResult.HasRoom : PadResult → Prop
  | .same => True
  | .copied size text => (text.length : ℤ) + 1 ≤ size

namespace CharStrings

variable (prenum postnum : ℕ) (s : CharStrings)

/-- Where the string has the width of both fields together, moving it by some characters gives the
string again. -/
def Shifted : Prop :=
  (prenum < s.leftCount prenum postnum →
    charsText (s.str.chars.drop (s.leftCount prenum postnum - prenum) ++
      Padding.after (s.leftCount prenum postnum - prenum) (PadEnv.oneChars s.postone)
        s.postmul.chars) = charsText s.str.chars) ∧
  (s.leftCount prenum postnum < prenum →
    charsText (Padding.before (prenum - s.leftCount prenum postnum) (PadEnv.oneChars s.preone)
        s.premul.chars ++
      s.str.chars.take (s.str.chars.length - (prenum - s.leftCount prenum postnum))) =
        charsText s.str.chars)

variable {prenum postnum s}

theorem leftCount_le : s.leftCount prenum postnum ≤ s.str.chars.length := by
  unfold leftCount
  split
  · exact Nat.zero_le _
  · split
    · exact Nat.le_refl _
    · omega

/-- Where the string has the width of both fields together. -/
theorem documented_eq_iff (hsum : prenum + postnum = s.str.chars.length) :
    charsText (s.documented prenum postnum) = charsText s.str.chars ↔
      s.Shifted prenum postnum := by
  have hle : s.leftCount prenum postnum ≤ s.str.chars.length := leftCount_le
  unfold documented Shifted Padding.fieldRight Padding.fieldLeft
  generalize s.leftCount prenum postnum = h at hle ⊢
  have htake : (s.str.chars.take h).length = h := by
    rw [length_take]
    omega
  rw [htake, length_drop]
  rcases Nat.lt_trichotomy prenum h with hlt | rfl | hlt
  · have hmissing : postnum - (s.str.chars.length - h) = h - prenum := by omega
    have hpart : (s.str.chars.take h).rtake prenum ++ s.str.chars.drop h =
        s.str.chars.drop (h - prenum) := by
      have hdrop : (s.str.chars.take h ++ s.str.chars.drop h).drop (h - prenum) = _ :=
        drop_append
      have hnone : h - prenum - h = 0 := by omega
      rw [List.take_append_drop, htake, hnone, drop_zero] at hdrop
      rw [hdrop]
      unfold List.rtake
      rw [htake]
    rw [if_pos hlt.le, if_neg (by omega), hmissing, ← append_assoc, hpart]
    exact ⟨fun heq ↦ ⟨fun _ ↦ heq, fun hgt ↦ absurd hgt (by omega)⟩, fun hall ↦ hall.1 hlt⟩
  · have hpost : postnum = s.str.chars.length - prenum := by omega
    have hall : (s.str.chars.take prenum).rtake prenum ++
        (s.str.chars.drop prenum).take postnum = s.str.chars := by
      have hright : (s.str.chars.drop prenum).take postnum = s.str.chars.drop prenum := by
        apply take_of_length_le
        rw [length_drop, hpost]
      rw [List.rtake, htake, Nat.sub_self, drop_zero, hright, List.take_append_drop]
    rw [if_pos (Nat.le_refl _), if_pos (by omega), hall]
    exact iff_of_true rfl
      ⟨fun hlt ↦ absurd hlt (lt_irrefl _), fun hlt ↦ absurd hlt (lt_irrefl _)⟩
  · have hpart : s.str.chars.take h ++ (s.str.chars.drop h).take postnum =
        s.str.chars.take (s.str.chars.length - (prenum - h)) := by
      have hlength : s.str.chars.length - (prenum - h) = h + postnum := by omega
      rw [hlength, take_add]
    rw [if_neg (by omega), if_pos (by omega), append_assoc, hpart]
    exact ⟨fun heq ↦ ⟨fun hgt ↦ absurd hgt (by omega), fun _ ↦ heq⟩, fun hall ↦ hall.2 hlt⟩

end CharStrings

namespace PadEnv

variable (env : PadEnv) (a : PadArgs)

/-- What is claimed of `dopadding`: it writes into its buffer, it gives no result where the size of the
buffer is no `int`, and where all characters have the width 1 the result is the documented one and
fills both fields. -/
structure Correct (s : CharStrings) : Prop where
  room : ∃ r, env.dopadding a = some r ∧ r.HasRoom
  refused : ∀ size text, env.dopadding a = some (.copied size text) →
    intCount (bufferLength a.prenum a.postnum s.strings + 1)
  documented : s.AllOne a.prenum a.postnum →
    (env.dopadding a).map (·.text a.str) = some (charsText (s.documented a.prenum a.postnum)) ∧
      (s.documented a.prenum a.postnum).length = a.prenum + a.postnum

/-- The buffer can be counted, every string is as wide as the loops over it look for, there is enough
to fill the fields, and a string of the width of both fields needs no move. -/
structure Fits (s : CharStrings) : Prop where
  counted : a.prenum + a.postnum ≠ s.str.width →
    intCount (bufferLength a.prenum a.postnum s.strings + 1)
  met : a.prenum + a.postnum ≠ s.str.width → Met PadChar.width (s.demands a.prenum a.postnum)
  enough : s.AllOne a.prenum a.postnum → s.Enough a.prenum a.postnum
  shifted : s.AllOne a.prenum a.postnum → a.prenum + a.postnum = s.str.width →
    s.Shifted a.prenum a.postnum

def PadsCorrectly : Prop := ∃ s, env.charStrings a = some s ∧ Correct env a s

def PadsFitting : Prop := ∃ s, env.charStrings a = some s ∧ Fits a s

variable {env a}

theorem correct_iff {s : CharStrings} (hstrings : env.strings a = some s.strings)
    (hs : s.Whole env a.multiWidth) (htext : charsText s.str.chars = a.str) :
    Correct env a s ↔ Fits a s := by
  by_cases hsum : a.prenum + a.postnum = s.str.width
  · have hsame : env.dopadding a = some .same := by
      unfold dopadding
      rw [hstrings]
      exact if_pos hsum
    constructor
    · intro h
      refine ⟨fun hne ↦ absurd hsum hne, fun hne ↦ absurd hsum hne, fun hone ↦ ?_, fun hone _ ↦ ?_⟩
      · exact CharStrings.length_documented_eq_iff.mp (h.documented hone).2
      · have hdocumented := (h.documented hone).1
        rw [hsame, Option.map_some, Option.some.injEq] at hdocumented
        rw [← CharStrings.documented_eq_iff (hsum.trans hone.str.2), ← hdocumented]
        exact htext.symm
    · intro h
      refine ⟨⟨.same, hsame, trivial⟩, fun size text heq ↦ ?_, fun hone ↦ ⟨?_, ?_⟩⟩
      · cases hsame.symm.trans heq
      · rw [hsame, Option.map_some,
          (CharStrings.documented_eq_iff (hsum.trans hone.str.2)).mpr (h.shifted hone hsum), htext]
        rfl
      · exact CharStrings.length_documented_eq_iff.mpr (h.enough hone)
  · have hrun : env.dopadding a = served PadChar.width (s.demands a.prenum a.postnum)
        (.copied (wrapped 32 (bufferLength a.prenum a.postnum s.strings + 1))
          (charsText (s.writtenChars a.prenum a.postnum))) := by
      have hwritten : env.written a.multiWidth a.prenum a.postnum s.strings = _ :=
        CharStrings.written_eq hs
      unfold dopadding
      rw [hstrings, Option.bind_some]
      change (if a.prenum + a.postnum = s.str.width then _ else _) = _
      rw [if_neg hsum, hwritten, served_map]
    constructor
    · intro h
      obtain ⟨r, hr, -⟩ := h.room
      obtain ⟨hmet, rfl⟩ := met_of_served (hrun.symm.trans hr)
      refine ⟨fun _ ↦ h.refused _ _ hr, fun _ ↦ hmet, fun hone ↦ ?_, fun _ heq ↦ absurd heq hsum⟩
      exact CharStrings.length_documented_eq_iff.mp (h.documented hone).2
    · intro h
      rw [served_of_met (h.met hsum)] at hrun
      refine ⟨⟨_, hrun, ?_⟩, fun _ _ _ ↦ h.counted hsum, fun hone ↦ ⟨?_, ?_⟩⟩
      · have hsize := (wrapped_int_eq_iff _).mpr (h.counted hsum)
        have hle : (charsText (s.writtenChars a.prenum a.postnum)).length ≤
          bufferLength a.prenum a.postnum s.strings := CharStrings.length_writtenChars_le
        rw [Nat.cast_succ] at hsize
        unfold PadResult.HasRoom
        omega
      · rw [hrun, Option.map_some, ← CharStrings.writtenChars_one hone]
        rfl
      · exact CharStrings.length_documented_eq_iff.mpr (h.enough hone)

/-- For all strings and widths: `dopadding` does what is claimed exactly under the condition. -/
theorem padsCorrectly_iff (env : PadEnv) (a : PadArgs) (ha : a.Text) :
    PadsCorrectly env a ↔ PadsFitting env a := by
  obtain ⟨s, hstrings, hchars, hs, htext⟩ := exists_strings env ha
  have hiff : Correct env a s ↔ Fits a s := correct_iff hstrings hs htext
  unfold PadsCorrectly PadsFitting
  rw [hchars]
  constructor
  · intro h
    obtain ⟨s', hs', hcorrect⟩ := h
    cases hs'
    exact ⟨s, rfl, hiff.mp hcorrect⟩
  · intro h
    obtain ⟨s', hs', hfits⟩ := h
    cases hs'
    exact ⟨s, rfl, hiff.mpr hfits⟩

/-- The C locale with the option `MULTIBYTE` and the default separators. -/
def plain : PadEnv where
  toTextEnv := { TextEnv.portable with multibyte := true }
  ifs := none
  emulateSh := false
  ifs_text := SplitEnv.unset_text
  ascii_initial := Charset.portable_ascii
  wcwidth _ := 1

/-- `${(l:5::-:)ab}`. -/
def dashes : PadArgs := ⟨ascii "ab", 5, 0, none, none, some (ascii "-"), none, 0⟩

def asciiChars (text : String) : Chars :=
  ⟨(ascii text).map fun c ↦ ⟨[c], 1⟩, (ascii text).length⟩

theorem dashes_padsCorrectly : PadsCorrectly plain dashes := by
  have htext : dashes.Text := by
    refine ⟨metaText_metafied (ascii "ab"), (fun _ h ↦ nomatch h), (fun _ h ↦ nomatch h), fun t h ↦ ?_,
      (fun _ h ↦ nomatch h)⟩
    cases h
    exact metaText_metafied (ascii "-")
  apply (padsCorrectly_iff plain dashes htext).mpr
  refine ⟨⟨asciiChars "ab", none, none, asciiChars "-", asciiChars " "⟩, rfl, fun _ ↦ by decide,
    fun _ ↦ by decide, fun _ ↦ ⟨fun _ ↦ Or.inr (by decide), fun h ↦ absurd h (Nat.not_lt_zero _)⟩,
    fun _ h ↦ ?_⟩
  exact absurd h (by decide)

/-- `${(l:2::r:4:)abcdef}`. -/
def halves : PadArgs := ⟨ascii "abcdef", 2, 4, none, none, none, none, 0⟩

/-- The string is returned although its halves do not have the widths of the fields. -/
theorem halves_not_padsCorrectly :
    ¬ ∀ (env : PadEnv) (a : PadArgs), a.Text → PadsCorrectly env a := by
  intro h
  have htext : halves.Text := ⟨metaText_metafied (ascii "abcdef"), (fun _ h ↦ nomatch h),
    (fun _ h ↦ nomatch h), (fun _ h ↦ nomatch h), (fun _ h ↦ nomatch h)⟩
  obtain ⟨s, hs, hcorrect⟩ := h plain halves htext
  have hchars : plain.charStrings halves =
      some ⟨asciiChars "abcdef", none, none, asciiChars " ", asciiChars " "⟩ := rfl
  cases hchars.symm.trans hs
  have hblank : (asciiChars " ").One := ⟨by decide, rfl⟩
  have hone : CharStrings.AllOne 2 4
      ⟨asciiChars "abcdef", none, none, asciiChars " ", asciiChars " "⟩ :=
    ⟨⟨by decide, rfl⟩, (fun _ _ h ↦ nomatch h), fun _ ↦ hblank, (fun _ _ h ↦ nomatch h),
      fun _ ↦ hblank⟩
  have hresult := (hcorrect.documented hone).1
  exact absurd hresult (by decide)

end PadEnv

end Bsh.Shell
