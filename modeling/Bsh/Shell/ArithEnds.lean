import Bsh.Shell.ArithStack

/-!
# Every evaluation ends

A token that is not the end of the input takes a character of it, and both the loop and the
recursion of `mathparse` read a token.  So twice the length of the text bounds their turns, and with
the stack of `Bsh.Shell.ArithStack` this is what every evaluation leaves.
-/

namespace Bsh.Shell.Arith

open Bsh.Library List

variable {S F V : Type}

/-! ## Numbers -/

theorem zstrtolDigits_le (base : ℕ) (underscore : Bool) (s : Bytes) (value : Zlong)
    (trunc : Bool) : (zstrtolDigits base underscore s value trunc).2.2.length ≤ s.length := by
  induction s generalizing value trunc with
  | nil => exact le_rfl
  | cons c s ih =>
    unfold zstrtolDigits
    split
    · exact (ih value trunc).trans (Nat.le_succ _)
    · split
      · exact le_rfl
      · dsimp only
        split
        · exact (ih _ _).trans (Nat.le_succ _)
        · exact (ih _ _).trans (Nat.le_succ _)

theorem zstrtolDigits_cons {base : ℕ} (underscore : Bool) {c : UInt8} {digit : ℕ}
    (hc : digitOf base c = some digit) (s : Bytes) (value : Zlong) (trunc : Bool) :
    (zstrtolDigits base underscore (c :: s) value trunc).2.2.length ≤ s.length := by
  unfold zstrtolDigits
  split
  · exact zstrtolDigits_le base underscore s value trunc
  · simp only [hc]
    split
    · exact zstrtolDigits_le base underscore s _ _
    · exact zstrtolDigits_le base underscore s _ _

theorem announcedBase_le (s : Bytes) : (announcedBase s).2.length ≤ s.length := by
  have htail (s : Bytes) : s.tail.length ≤ s.length := by
    rw [length_tail]
    exact Nat.sub_le _ _
  unfold announcedBase
  split
  · split
    · exact (htail _).trans (htail _)
    · split
      · exact (htail _).trans (htail _)
      · exact htail _
  · exact le_rfl

theorem zstrtolUnderscore_le {s : Bytes} {base : ℕ} {underscore : Bool} {value : Zlong}
    {rest : Bytes} (h : zstrtolUnderscore s base underscore = some (value, rest)) :
    rest.length ≤ s.length := by
  unfold zstrtolUnderscore at h
  dsimp only at h
  have hblank : (s.dropWhile inblank).length ≤ s.length :=
    (dropWhile_suffix inblank).length_le
  generalize s.dropWhile inblank = t at h hblank
  have hsign : (if (t.head?.any isDash || headIs '+' t) = true then t.tail else t).length ≤
      t.length := by
    split
    · rw [length_tail]
      exact Nat.sub_le _ _
    · exact le_rfl
  generalize (if (t.head?.any isDash || headIs '+' t) = true then t.tail else t) = u at h hsign
  have hbase : (if base = 0 then announcedBase u else (base, u)).2.length ≤ u.length := by
    split
    · exact announcedBase_le u
    · exact le_rfl
  generalize (if base = 0 then announcedBase u else (base, u)) = b at h hbase
  split at h
  · cases h
  · obtain ⟨-, rfl⟩ := Prod.mk.inj (Option.some.inj h)
    calc
      _ ≤ b.2.length := zstrtolDigits_le b.1 underscore b.2 0 false
      _ ≤ u.length := hbase
      _ ≤ t.length := hsign
      _ ≤ s.length := hblank

set_option maxRecDepth 4000 in
theorem digit_plain : ∀ c, idigit c = true →
    inblank c = false ∧ isDash c = false ∧ c ≠ char '+' :=
  Bytes.forall_byte (by decide)

theorem zstrtolUnderscore_digit {c : UInt8} (hc : idigit c = true) (s : Bytes) {base : ℕ}
    (hbase : base = 0 ∨ base = 10) (underscore : Bool) :
    ∃ value rest, zstrtolUnderscore (c :: s) base underscore = some (value, rest) ∧
      rest.length ≤ s.length := by
  obtain ⟨hblank, hdash, hplus⟩ := digit_plain c hc
  have hdrop : (c :: s).dropWhile inblank = c :: s := by
    rw [dropWhile_cons, if_neg (by rw [hblank]; exact Bool.false_ne_true)]
  have hsign : ((c :: s).head?.any isDash || headIs '+' (c :: s)) = false := by
    simp [headIs, hdash, hplus]
  have hten (value : Zlong) (trunc : Bool) :
      (zstrtolDigits 10 underscore (c :: s) value trunc).2.2.length ≤ s.length :=
    zstrtolDigits_cons underscore (digitOf_digit c hc).1 s value trunc
  have htail (t : Bytes) : t.tail.length ≤ t.length := by
    rw [length_tail]
    exact Nat.sub_le _ _
  obtain ⟨b, t, hb, hlow, hhigh, hrest⟩ : ∃ b t,
      (if base = 0 then announcedBase (c :: s) else (base, c :: s)) = (b, t) ∧ 2 ≤ b ∧ b ≤ 36 ∧
        (zstrtolDigits b underscore t 0 false).2.2.length ≤ s.length := by
    have hshort {t : Bytes} (b : ℕ) (ht : t.length ≤ s.length) :
        (zstrtolDigits b underscore t 0 false).2.2.length ≤ s.length :=
      (zstrtolDigits_le b underscore t 0 false).trans ht
    obtain rfl | rfl := hbase
    · rw [if_pos rfl]
      unfold announcedBase
      split
      · split
        · exact ⟨16, s.tail, rfl, by decide, by decide, hshort 16 (htail s)⟩
        · split
          · exact ⟨2, s.tail, rfl, by decide, by decide, hshort 2 (htail s)⟩
          · exact ⟨8, s, rfl, by decide, by decide, hshort 8 le_rfl⟩
      · exact ⟨10, c :: s, rfl, by decide, by decide, hten 0 false⟩
    · exact ⟨10, c :: s, rfl, by decide, by decide, hten 0 false⟩
  unfold zstrtolUnderscore
  dsimp only
  rw [hdrop, hsign, if_neg Bool.false_ne_true, hb, if_neg (by omega)]
  exact ⟨_, _, rfl, hrest⟩

theorem readInBase_le (s : Bytes) (base : ℤ) (underscore : Bool) :
    (readInBase s base underscore).2.1.length ≤ s.length := by
  unfold readInBase
  split
  · next value ptr h =>
    split at h
    · cases h
    · exact zstrtolUnderscore_le h
  · exact le_rfl

theorem readInBase_digit {c : UInt8} (hc : idigit c = true) (s : Bytes) {base : ℤ}
    (hbase : base = 0 ∨ base = 10) (underscore : Bool) :
    (readInBase (c :: s) base underscore).2.1.length ≤ s.length := by
  obtain ⟨value, rest, hread, hrest⟩ :=
    @zstrtolUnderscore_digit _ hc s base.toNat (by omega) underscore
  unfold readInBase
  rw [if_neg (by omega), hread]
  exact hrest

/-! ## Tokens -/

theorem skipDigits_le (s : Bytes) : (skipDigits s).length ≤ s.length :=
  (dropWhile_suffix _).length_le

theorem tail_le (s : Bytes) : s.tail.length ≤ s.length := by
  rw [length_tail]
  exact Nat.sub_le _ _

theorem floatEnd_le (s : Bytes) : (floatEnd s).length ≤ s.length := by
  unfold floatEnd
  dsimp only
  have hpoint : (if headIs '.' s = true then skipDigits s.tail else s).length ≤ s.length := by
    split
    · exact (skipDigits_le _).trans (tail_le s)
    · exact le_rfl
  generalize (if headIs '.' s = true then skipDigits s.tail else s) = t at hpoint
  split
  · refine (skipDigits_le _).trans ?_
    split
    · exact ((tail_le _).trans (tail_le t)).trans hpoint
    · exact (tail_le t).trans hpoint
  · exact hpoint

variable (host : Host S F V)

/-- A constant takes a character where it begins with one of a constant. -/
structure Constant (s : Bytes) (lexeme : Lexeme S F) : Prop where
  le : lexeme.ptr.length ≤ s.length
  lt : startsConstant s = true → lexeme.tok ≠ .eoi → lexeme.ptr.length < s.length

theorem lexFloat_constant {s nptr : Bytes} (hnptr : nptr.length ≤ s.length) :
    Constant s (lexFloat host s nptr) := by
  have hend := (floatEnd_le nptr).trans hnptr
  have htext : ((s.take (s.length - (floatEnd nptr).length)).filter (· ≠ char '_') ++
      floatEnd nptr).length ≤ s.length := by
    calc
      _ ≤ (s.take (s.length - (floatEnd nptr).length)).length + (floatEnd nptr).length := by
        rw [length_append]
        exact Nat.add_le_add_right (length_filter_le _ _) _
      _ = s.length := by
        rw [length_take, min_eq_left (Nat.sub_le _ _), Nat.sub_add_cancel hend]
  unfold lexFloat
  dsimp only
  generalize (s.take _).filter (· ≠ char '_') ++
    floatEnd nptr = text at htext
  split
  · exact ⟨htext, fun _ h ↦ absurd rfl h⟩
  · next hread =>
    have hrest : (text.drop (host.strtod text).2).length ≤ text.length := by
      rw [length_drop]
      exact Nat.sub_le _ _
    have hne : (text.drop (host.strtod text).2).length ≠ text.length :=
      fun h ↦ hread (by simp [h])
    exact ⟨hrest.trans htext, fun _ _ ↦ (lt_of_le_of_ne hrest hne).trans_le htext⟩

/-- Where a constant begins, there is a digit or a point before one. -/
theorem startsConstant_cases {s : Bytes} (h : startsConstant s = true) :
    (∃ c t, s = c :: t ∧ idigit c = true) ∨ headIs '.' s = true := by
  unfold startsConstant at h
  rw [Bool.or_eq_true, Bool.and_eq_true] at h
  obtain hdigit | ⟨hpoint, -⟩ := h
  · cases s with
    | nil => cases hdigit
    | cons c t => exact .inl ⟨c, t, rfl, hdigit⟩
  · exact .inr hpoint

theorem lexDecimal_constant (s : Bytes) : Constant s (lexDecimal host s) := by
  have hskip : (skipDigits (if s.head?.any isDash then s.tail else s)).length ≤ s.length := by
    refine (skipDigits_le _).trans ?_
    split
    · exact tail_le s
    · exact le_rfl
  -- A point makes it a double.
  have hpoint (h : headIs '.' s = true) :
      headIs '.' (skipDigits (if s.head?.any isDash then s.tail else s)) = true := by
    cases s with
    | nil => cases h
    | cons c t =>
      have hc : c = char '.' := by simpa [headIs] using h
      subst hc
      rfl
  unfold lexDecimal
  dsimp only
  generalize skipDigits _ = nptr at hskip hpoint
  split
  · exact lexFloat_constant host hskip
  · next hplain =>
    have hread := readInBase_le s 10 true
    have hdigit (hs : startsConstant s = true) : (readInBase s 10 true).2.1.length < s.length := by
      obtain ⟨c, t, rfl, hc⟩ | h := startsConstant_cases hs
      · exact Nat.lt_succ_of_le (readInBase_digit hc t (.inr rfl) true)
      · exact absurd (by rw [hpoint h]; rfl) hplain
    split
    · have hbase := readInBase_le (readInBase s 10 true).2.1.tail
        (toCInt (readInBase s 10 true).1) true
      have htail := tail_le (readInBase s 10 true).2.1
      exact ⟨(hbase.trans htail).trans hread,
        fun hs _ ↦ (hbase.trans htail).trans_lt (hdigit hs)⟩
    · exact ⟨hread, fun hs _ ↦ hdigit hs⟩

theorem announced_constant (s : Bytes) (lastbase : ℤ)
    (hpoint : headIs '.' s = false) : Constant s (announced host s lastbase) := by
  refine ⟨readInBase_le s 0 true, fun hs _ ↦ ?_⟩
  obtain ⟨c, t, rfl, hc⟩ | h := startsConstant_cases hs
  · exact Nat.lt_succ_of_le (readInBase_digit hc t (.inl rfl) true)
  · rw [hpoint] at h
    cases h

theorem lexconstant_constant (s : Bytes) : Constant s (lexconstant host s) := by
  have hzero (h : headIs '0' (if s.head?.any isDash then s.tail else s) = true) :
      headIs '.' s = false := by
    cases hpoint : headIs '.' s with
    | false => rfl
    | true =>
      cases s with
      | nil => cases hpoint
      | cons c t =>
        have hc : c = char '.' := by simpa [headIs] using hpoint
        subst hc
        have hplain : headIs '0' (char '.' :: t) = false := rfl
        exact absurd (hplain.symm.trans h) Bool.false_ne_true
  unfold lexconstant
  dsimp only
  generalize (if s.head?.any isDash then s.tail else s) = nptr at hzero
  split
  · next h =>
    split
    · exact announced_constant host s 16 (hzero h)
    · split
      · exact announced_constant host s 2 (hzero h)
      · split
        · exact announced_constant host s 8 (hzero h)
        · exact lexDecimal_constant host s
  · exact lexDecimal_constant host s

theorem skipBrackets_le (opening closing : UInt8) (s : Bytes) (depth : ℕ) :
    (skipBrackets opening closing s depth).length ≤ s.length := by
  induction s, depth using skipBrackets.induct opening closing with
  | case1 depth => exact le_rfl
  | case2 c => exact le_rfl
  | case3 c depth h =>
    rw [skipBrackets, if_neg h]
    exact Nat.zero_le _
  | case4 c d s => exact le_rfl
  | case5 d s depth h depth' ih =>
    rw [skipBrackets, if_neg h]
    exact (ih.trans (Nat.le_succ _)).trans (Nat.le_succ _)
  | case6 c d s depth h depth' hc ih =>
    rw [skipBrackets, if_neg h]
    rw [if_neg hc]
    exact ih.trans (Nat.le_succ _)

theorem lexIdentifier_le (cct : Bool) (s : Bytes) (count : ℕ) :
    (lexIdentifier host cct s count).ptr.length ≤ s.length - count := by
  have hdrop : (s.drop count).length ≤ s.length - count := List.length_drop.le
  have hskip (opening closing : UInt8) :
      (skipBrackets opening closing (s.drop count).tail 1).length ≤ s.length - count :=
    ((skipBrackets_le opening closing _ 1).trans (tail_le _)).trans hdrop
  unfold lexIdentifier
  dsimp only
  split
  · exact hdrop
  · split
    · exact hdrop
    · split
      · exact hskip _ _
      · split
        · exact hskip _ _
        · exact hdrop

theorem lexCharacter_le (s : Bytes) : (lexCharacter host s).ptr.length ≤ s.length := by
  unfold lexCharacter
  split
  · exact Nat.zero_le _
  · split
    · exact le_rfl
    · rw [length_drop]
      exact (Nat.sub_le _ _).trans (tail_le s)

theorem lexBracketBase_le (s : Bytes) :
    (lexBracketBase s : Lexeme S F).ptr.length ≤ s.length := by
  have hbase := readInBase_le s 10 false
  unfold lexBracketBase
  dsimp only
  split
  · exact ((readInBase_le _ _ _).trans (tail_le _)).trans hbase
  · exact hbase

/-- Where an output format ends, or the error in it. -/
def Skips (length : ℕ) : Except (Lexeme S F) ((Format → Format) × Bytes) → Prop
  | .error lexeme => lexeme.ptr.length ≤ length
  | .ok (_, rest) => rest.length ≤ length

theorem lexOutputFormat_skips (s : Bytes) :
    Skips s.length (lexOutputFormat s : Except (Lexeme S F) _) := by
  unfold lexOutputFormat
  have hsign : (if headIs '#' s = true then ((-1 : Zlong), s.tail) else (1, s)).2.length ≤
      s.length := by
    split
    · exact tail_le s
    · exact le_rfl
  generalize (if headIs '#' s = true then ((-1 : Zlong), s.tail) else (1, s)) = sign at hsign
  obtain ⟨n, t⟩ := sign
  dsimp only at hsign ⊢
  split
  · exact hsign
  · have hradix : (if t.head?.any idigit = true then
        (some (toCInt (n * (readInBase t 10 false).1)), (readInBase t 10 false).2.1)
        else (none, t)).2.length ≤ t.length := by
      split
      · exact readInBase_le t 10 false
      · exact le_rfl
    generalize (if t.head?.any idigit = true then
      (some (toCInt _), (readInBase t 10 false).2.1)
      else (none, t)) = read at hradix
    obtain ⟨radix, u⟩ := read
    have hunderscore : (if headIs '_' u = true then
        if u.tail.head?.any idigit = true then
          (some (toCInt (readInBase u.tail 10 false).1), (readInBase u.tail 10 false).2.1)
        else (some 3, u.tail)
        else (none, u)).2.length ≤ u.length := by
      split
      · split
        · exact (readInBase_le _ 10 false).trans (tail_le u)
        · exact tail_le u
      · exact le_rfl
    generalize (if headIs '_' u = true then
      if u.tail.head?.any idigit = true then
        (some (toCInt _), (readInBase u.tail 10 false).2.1)
      else (some 3, u.tail)
      else (none, u)) = read at hunderscore
    obtain ⟨underscore, v⟩ := read
    have hv : v.length ≤ s.length := (hunderscore.trans hradix).trans hsign
    split
    · exact hv
    · split
      · split
        · exact hv
        · exact (tail_le v).trans hv
      · exact (tail_le v).trans hv

/-- What the lexer leaves of a text with `length + 1` characters. -/
def Takes (length : ℕ) : Lexeme S F ⊕ (Format → Format) × Bytes → Prop
  | .inl lexeme =>
    lexeme.ptr.length ≤ length + 1 ∧ (lexeme.tok ≠ .eoi → lexeme.ptr.length ≤ length)
  | .inr (_, rest) => rest.length ≤ length

theorem takes_of_le {length : ℕ} {lexeme : Lexeme S F} (h : lexeme.ptr.length ≤ length) :
    Takes length (.inl lexeme) := ⟨h.trans (Nat.le_succ _), fun _ ↦ h⟩

theorem takes_ite {length : ℕ} {condition : Prop} [Decidable condition]
    {a b : Lexeme S F ⊕ (Format → Format) × Bytes} (ha : condition → Takes length a)
    (hb : ¬ condition → Takes length b) : Takes length (if condition then a else b) := by
  split
  · next h => exact ha h
  · next h => exact hb h

/-- The operators that begin with a character: one character follows, or two, or none. -/
theorem takes_operator (tok : MathToken) (s : Bytes) :
    Takes s.length (.inl (operator tok s : Lexeme S F)) := takes_of_le le_rfl

theorem takes_operator_tail (tok : MathToken) (s : Bytes) :
    Takes s.length (.inl (operator tok s.tail : Lexeme S F)) := takes_of_le (tail_le s)

theorem takes_pair (condition : Bool) (tok tok' : MathToken) (s : Bytes) :
    Takes s.length (.inl (if condition then operator tok s.tail else operator tok' s :
      Lexeme S F)) := by
  cases condition with
  | true => exact takes_operator_tail tok s
  | false => exact takes_operator tok' s

theorem takes_triple (condition : Bool) (tok tok' : MathToken) (s : Bytes) :
    Takes s.length (.inl (if condition then operator tok s.tail.tail else operator tok' s.tail :
      Lexeme S F)) := by
  cases condition with
  | true => exact takes_of_le ((tail_le _).trans (tail_le s))
  | false => exact takes_operator_tail tok' s

theorem takes_constant {c : UInt8} {s : Bytes} (h : startsConstant (c :: s) = true) :
    Takes s.length (.inl (lexconstant host (c :: s))) := by
  have hconstant := lexconstant_constant host (c :: s)
  exact ⟨hconstant.le, fun htok ↦ Nat.le_of_lt_succ (hconstant.lt h htok)⟩

theorem negated_ptr (lexeme : Lexeme S F) : (negated host lexeme).ptr = lexeme.ptr := by
  unfold negated
  split
  · rfl
  · rfl

theorem lexStep_takes (unary : Bool) (c : UInt8) (s : Bytes) :
    Takes s.length (lexStep host unary c s) := by
  have hdouble (first : Bool) (tok tok' tok₁ tok₂ : MathToken) (condition condition' : Bool) :
      Takes s.length (if first then
        .inl (if condition then operator tok s.tail.tail else operator tok' s.tail : Lexeme S F)
        else .inl (if condition' then operator tok₁ s.tail else operator tok₂ s)) :=
    takes_ite (fun _ ↦ takes_triple _ _ _ s) fun _ ↦ takes_pair _ _ _ s
  apply takes_ite
  · exact fun _ ↦ takes_ite (fun _ ↦ takes_operator_tail _ s) fun _ ↦
      takes_ite (fun _ ↦ takes_operator_tail _ s) fun _ ↦ takes_operator _ s
  intro _
  apply takes_ite
  · intro _
    apply takes_ite (fun _ ↦ takes_operator_tail _ s)
    intro _
    apply takes_ite (fun _ ↦ takes_operator_tail _ s)
    intro _
    apply takes_ite
    · refine fun _ ↦ takes_ite (fun _ ↦ takes_of_le ?_) fun _ ↦ takes_operator _ s
      rw [negated_ptr]
      exact (lexconstant_constant host s).le
    · exact fun _ ↦ takes_operator _ s
  intro _
  refine takes_ite (fun _ ↦ takes_operator _ s) fun _ ↦ ?_
  refine takes_ite (fun _ ↦ takes_operator _ s) fun _ ↦ ?_
  refine takes_ite (fun _ ↦ takes_pair _ _ _ s) fun _ ↦ ?_
  refine takes_ite (fun _ ↦ takes_operator _ s) fun _ ↦ ?_
  refine takes_ite (fun _ ↦ hdouble _ _ _ _ _ _ _) fun _ ↦ ?_
  refine takes_ite (fun _ ↦ hdouble _ _ _ _ _ _ _) fun _ ↦ ?_
  refine takes_ite (fun _ ↦ hdouble _ _ _ _ _ _ _) fun _ ↦ ?_
  refine takes_ite (fun _ ↦ hdouble _ _ _ _ _ _ _) fun _ ↦ ?_
  refine takes_ite (fun _ ↦ takes_pair _ _ _ s) fun _ ↦ ?_
  refine takes_ite (fun _ ↦ takes_pair _ _ _ s) fun _ ↦ ?_
  refine takes_ite (fun _ ↦ hdouble _ _ _ _ _ _ _) fun _ ↦ ?_
  refine takes_ite (fun _ ↦ hdouble _ _ _ _ _ _ _) fun _ ↦ ?_
  refine takes_ite (fun _ ↦ takes_pair _ _ _ s) fun _ ↦ ?_
  refine takes_ite (fun _ ↦ takes_of_le le_rfl) fun _ ↦ ?_
  refine takes_ite (fun _ ↦ ?_) fun _ ↦ ?_
  · exact takes_ite (fun _ ↦ takes_of_le le_rfl) fun _ ↦ takes_operator _ s
  refine takes_ite (fun _ ↦ takes_operator _ s) fun _ ↦ ?_
  refine takes_ite (fun _ ↦ takes_operator _ s) fun _ ↦ ?_
  refine takes_ite (fun _ ↦ ?_) fun _ ↦ ?_
  · apply takes_ite (fun _ ↦ takes_of_le (lexBracketBase_le s))
    intro _
    apply takes_ite
    · intro _
      have hskips := lexOutputFormat_skips (S := S) (F := F) s.tail
      split
      · next h =>
        rw [h] at hskips
        exact takes_of_le (hskips.trans (tail_le s))
      · next h =>
        rw [h] at hskips
        exact hskips.trans (tail_le s)
    · exact fun _ ↦ takes_of_le le_rfl
  refine takes_ite (fun _ ↦ le_rfl) fun _ ↦ ?_
  refine takes_ite (fun h ↦ takes_constant host h) fun _ ↦ ?_
  refine takes_ite (fun _ ↦ ?_) fun _ ↦ ?_
  · apply takes_ite (fun _ ↦ takes_of_le (lexCharacter_le host s))
    intro _
    apply takes_ite (fun _ ↦ takes_of_le le_rfl)
    exact fun _ ↦ takes_of_le ((lexIdentifier_le host true s _).trans (Nat.sub_le _ _))
  apply takes_ite
  · exact fun _ ↦ ⟨le_rfl, fun htok ↦ absurd rfl htok⟩
  · intro hcount
    have hname := lexIdentifier_le host false (c :: s) (host.itypeEnd (c :: s))
    rw [length_cons] at hname
    exact takes_of_le (by omega)

theorem zzlex_takes (unary : Bool) (s : Bytes) :
    (zzlex host unary s).ptr.length ≤ s.length ∧
      ((zzlex host unary s).tok ≠ .eoi → (zzlex host unary s).ptr.length < s.length) := by
  have hfrom (fuel : ℕ) (format : Format → Format) (s : Bytes) :
      (lexFrom host unary fuel format s).ptr.length ≤ s.length ∧
        ((lexFrom host unary fuel format s).tok ≠ .eoi →
          (lexFrom host unary fuel format s).ptr.length < s.length) := by
    induction fuel generalizing format s with
    | zero => exact ⟨le_rfl, fun h ↦ absurd rfl h⟩
    | succ fuel ih =>
      cases s with
      | nil => exact ⟨le_rfl, fun h ↦ absurd rfl h⟩
      | cons c s =>
        have htakes := lexStep_takes host unary c s
        rw [lexFrom]
        cases hstep : lexStep host unary c s with
        | inl lexeme =>
          rw [hstep] at htakes
          exact ⟨htakes.1, fun htok ↦ Nat.lt_succ_of_le (htakes.2 htok)⟩
        | inr skipped =>
          rw [hstep] at htakes
          obtain ⟨hle, hlt⟩ := ih _ skipped.2
          have hrest : skipped.2.length ≤ s.length := htakes
          exact ⟨(hle.trans hrest).trans (Nat.le_succ _),
            fun htok ↦ Nat.lt_succ_of_le ((hlt htok).le.trans hrest)⟩
  exact hfrom (s.length + 1) id s

/-! ## What the operations leave alone, wherever they end -/

theorem pop_frame {noget : Bool} {s r : ArithState S F V} {v : Option (Mnumber F)}
    {mv : MathValue F V} (h : pop host noget s = .ok (v, mv, r)) : Frame s r := by
  cases hvalues : s.stack.values with
  | nil =>
    rw [pop, hvalues] at h
    cases h
  | cons top rest =>
    have hpos : 0 < s.depth := by
      rw [ArithState.depth, hvalues]
      exact Nat.succ_pos _
    obtain ⟨v', mv', r', hpop, hframe, -⟩ := pop_spec host noget hpos
    rw [hpop] at h
    cases h
    exact hframe

theorem retrieveTop_frame {s r : ArithState S F V} {mv : MathValue F V}
    (h : retrieveTop host s = .ok (mv, r)) : Frame s r := by
  cases hvalues : s.stack.values with
  | nil =>
    rw [retrieveTop, hvalues] at h
    cases h
  | cons top rest =>
    have hpos : 0 < s.depth := by
      rw [ArithState.depth, hvalues]
      exact Nat.succ_pos _
    obtain ⟨mv', r', htop, hframe, -⟩ := retrieveTop_spec host hpos
    rw [htop] at h
    cases h
    exact hframe

theorem pop_error {noget : Bool} {s : ArithState S F V} {stop : ArithStop}
    (h : pop host noget s = .error stop) : stop = .underflow := by
  unfold pop at h
  split at h
  · cases h
    rfl
  · cases h

theorem retrieveTop_error {s : ArithState S F V} {stop : ArithStop}
    (h : retrieveTop host s = .error stop) : stop = .underflow := by
  unfold retrieveTop at h
  split at h
  · cases h
    rfl
  · cases h

/-- An operation changes neither the reader nor the level of `noeval`, and it ends. -/
def Keeps (s : ArithState S F V) : Except ArithStop (ArithState S F V) → Prop
  | .error stop => stop = .underflow
  | .ok r => Frame s r

theorem unarySwitch_keeps (what : MathToken) (mv : MathValue F V) (a : Mnumber F)
    (s : ArithState S F V) : Keeps s (unarySwitch host what mv a s) := by
  have hset (number v : Mnumber F) : Frame s (replaceTop number (setmathvar host mv v s).2) :=
    .withStack (setmathvar_spec host mv v s).1 _
  cases what with
  | quest =>
    rw [unarySwitch]
    split
    · next h => exact pop_error host h
    · next hpop₁ =>
      split
      · next h => exact pop_error host h
      · next hpop₂ =>
        split
        · next h => exact pop_error host h
        · next hpop₃ =>
          have hframe := ((pop_frame host hpop₁).trans (pop_frame host hpop₂)).trans
            (pop_frame host hpop₃)
          split
          · exact hframe
          · exact hframe.trans (.withStack (push_spec none none _).1 _)
  | postplus | postminus | preplus | preminus => exact hset _ _
  | not | comp | uplus | uminus => exact .withStack (.refl s) _
  | colon => exact .withStack (frame_zerr s _) _
  | _ => exact frame_zerr s _

theorem unaryOp_keeps (what : MathToken) (s : ArithState S F V) :
    Keeps s (unaryOp host what s) := by
  unfold unaryOp
  split
  · next h => exact retrieveTop_error host h
  · next mv t htop =>
    have hframe := retrieveTop_frame host htop
    split
    · exact hframe
    · have hkeeps := unarySwitch_keeps host what mv (mv.val.getD zeroMnumber) t
      cases hswitch : unarySwitch host what mv _ t with
      | error stop =>
        rw [hswitch] at hkeeps
        exact hkeeps
      | ok r =>
        rw [hswitch] at hkeeps
        exact hframe.trans hkeeps

theorem binaryOp_keeps (what : MathToken) (s : ArithState S F V) :
    Keeps s (binaryOp host what s) := by
  unfold binaryOp
  split
  · next h => exact pop_error host h
  · next hpop₁ =>
    split
    · next h => exact pop_error host h
    · next a mvp t hpop₂ =>
      have hframe := (pop_frame host hpop₁).trans (pop_frame host hpop₂)
      split
      · exact hframe
      · split
        · exact hframe.trans (frame_zerr t _)
        · next c _ =>
          split
          · exact hframe.trans ((setmathvar_spec host mvp c t).1.trans (push_spec _ _ _).1)
          · exact hframe.trans (push_spec _ _ t).1

theorem op_keeps (what : MathToken) (s : ArithState S F V) : Keeps s (op host what s) := by
  unfold op
  split
  · exact .refl s
  · split
    · exact frame_zerr s _
    · split
      · exact unaryOp_keeps host what s
      · exact unaryOp_keeps host what s
      · exact binaryOp_keeps host what s

/-- The test of a short-circuiting operator changes the level of `noeval`. -/
theorem bop_keeps (tk : MathToken) (s : ArithState S F V) :
    match bop host tk s with
    | .error stop => stop = .underflow
    | .ok r => r.ptr = s.ptr := by
  unfold bop
  cases htop : retrieveTop host s with
  | error stop => exact retrieveTop_error host htop
  | ok popped =>
    have hptr : popped.2.ptr = s.ptr := (retrieveTop_frame host htop).ptr
    cases tk <;> exact hptr

/-! ## The turns of the parser -/

/-- The text that is left, and the end, of a run with some fuel. -/
structure Ends (n enough fuel : ℕ) (outcome : Except ArithStop (ArithState S F V)) : Prop where
  ends : enough ≤ fuel → outcome ≠ .error .fuel
  le : ∀ r, outcome = .ok r → r.ptr.length ≤ n

/-- A run of `mathparse` takes a token. -/
def ParseEnds (fuel : ℕ) : Prop :=
  ∀ pc s, pc ≤ host.topPrec →
    Ends s.ptr.length (2 * s.ptr.length + 2) fuel (mathparse host fuel pc s) ∧
      ∀ r, mathparse host fuel pc s = .ok r → r.errflag = none → r.mtok ≠ .eoi →
        r.ptr.length < s.ptr.length

def LoopEnds (fuel : ℕ) : Prop :=
  ∀ pc s, pc ≤ host.topPrec →
    Ends s.ptr.length (2 * s.ptr.length + 3) fuel (mathloop host fuel pc s)

variable {host}

theorem ends_ok {n enough fuel : ℕ} {r : ArithState S F V} (h : r.ptr.length ≤ n) :
    Ends n enough fuel (.ok r) where
  ends _ h := by cases h
  le r' hr := by
    cases hr
    exact h

theorem ends_error {n enough fuel : ℕ} {stop : ArithStop} (h : stop = .underflow) :
    Ends n enough fuel (.error stop : Except ArithStop (ArithState S F V)) where
  ends _ hstop := by
    subst h
    cases hstop
  le _ h := by cases h

theorem ends_stop {n enough fuel : ℕ} {stop : ArithStop} (h : enough ≤ fuel → stop ≠ .fuel) :
    Ends n enough fuel (.error stop : Except ArithStop (ArithState S F V)) where
  ends hfuel hstop := h hfuel (Except.error.inj hstop)
  le _ h := by cases h

theorem prec_eoi {pc : ℕ} (hpc : pc ≤ host.topPrec) : pc < host.prec .eoi := by
  have hlt : host.topPrec < host.prec .eoi := by
    unfold Host.topPrec Host.prec
    cases host.cPrecedences <;> decide
  exact hpc.trans_lt hlt

theorem ends_next {fuel pc n : ℕ} {r : ArithState S F V} (hloop : LoopEnds host fuel)
    (hpc : pc ≤ host.topPrec) (hle : r.ptr.length ≤ n)
    (hlt : r.errflag = none → r.mtok ≠ .eoi → r.ptr.length < n) :
    Ends n (2 * n + 3) (fuel + 1) (mathloop host fuel pc r) := by
  have hrun := hloop pc r hpc
  refine ⟨fun hfuel ↦ ?_, fun r' hr ↦ (hrun.le r' hr).trans hle⟩
  by_cases hstop : pc < host.prec r.mtok ∨ r.errflag.isSome = true
  · obtain ⟨fuel, rfl⟩ : ∃ k, fuel = k + 1 := ⟨fuel - 1, by omega⟩
    rw [mathloop_stop hstop]
    intro h
    cases h
  · have hnone : r.errflag = none := by simpa using (not_or.mp hstop).2
    have hshort := hlt hnone fun heoi ↦ (not_or.mp hstop).1 (heoi ▸ prec_eoi hpc)
    exact hrun.ends (by omega)

theorem checkunary_reads (s : ArithState S F V) :
    (checkunary s).ptr = s.ptr ∧ (checkunary s).mtok = s.mtok := by
  unfold checkunary
  dsimp only
  split
  · split
    · exact ⟨rfl, rfl⟩
    · exact ⟨rfl, rfl⟩
  · split
    · exact ⟨rfl, rfl⟩
    · exact ⟨rfl, rfl⟩

theorem nextToken_takes (s : ArithState S F V) :
    (nextToken host s).ptr.length ≤ s.ptr.length ∧
      ((nextToken host s).mtok ≠ .eoi → (nextToken host s).ptr.length < s.ptr.length) := by
  obtain ⟨hptr, hmtok⟩ := checkunary_reads (lex host s)
  obtain ⟨hle, hlt⟩ := zzlex_takes host s.unary s.ptr
  rw [nextToken, hptr, hmtok]
  exact ⟨hle, hlt⟩

theorem parseEnds_succ {fuel : ℕ} (hloop : LoopEnds host fuel) : ParseEnds host (fuel + 1) := by
  intro pc s hpc
  rw [mathparse]
  by_cases herr : s.errflag.isSome = true
  · rw [if_pos herr]
    refine ⟨ends_ok le_rfl, fun r hr hnone ↦ ?_⟩
    cases hr
    rw [hnone] at herr
    cases herr
  · rw [if_neg herr]
    obtain ⟨hle, hlt⟩ := @nextToken_takes _ _ _ host s
    by_cases hempty : pc = host.topPrec ∧ (lex host s).mtok = .eoi
    · rw [if_pos hempty]
      refine ⟨ends_ok (zzlex_takes host s.unary s.ptr).1, fun r hr _ htok ↦ ?_⟩
      cases hr
      exact absurd hempty.2 htok
    · rw [if_neg hempty]
      change Ends _ _ _ (mathloop host fuel pc (nextToken host s)) ∧
        ∀ r, mathloop host fuel pc (nextToken host s) = .ok r → _
      by_cases heoi : (nextToken host s).mtok = .eoi
      · have hstop : pc < host.prec (nextToken host s).mtok ∨
            (nextToken host s).errflag.isSome = true := .inl (heoi ▸ prec_eoi hpc)
        cases fuel with
        | zero =>
          refine ⟨⟨fun hfuel ↦ by omega, fun r hr ↦ ?_⟩, fun r hr ↦ ?_⟩
          · cases hr
          · cases hr
        | succ fuel =>
          rw [mathloop_stop hstop]
          refine ⟨ends_ok hle, fun r hr _ htok ↦ ?_⟩
          cases hr
          exact absurd heoi htok
      · have hshort := hlt heoi
        have hrun := hloop pc (nextToken host s) hpc
        refine ⟨⟨fun hfuel ↦ hrun.ends (by omega), fun r hr ↦ (hrun.le r hr).trans hle⟩, ?_⟩
        exact fun r hr _ _ ↦ (hrun.le r hr).trans_lt hshort

section Loop

variable {fuel pc : ℕ} {s : ArithState S F V} (hpc : pc ≤ host.topPrec)
  (h : ¬ (pc < host.prec s.mtok ∨ s.errflag.isSome = true))
include hpc h

theorem loopEnds_operand (hloop : LoopEnds host fuel)
    (htok : s.mtok = .num ∨ s.mtok = .id ∨ s.mtok = .cid ∨ s.mtok = .func) :
    Ends s.ptr.length (2 * s.ptr.length + 3) (fuel + 1) (mathloop host (fuel + 1) pc s) := by
  have hptr : (pushOperand host s).ptr = s.ptr := (pushOperand_spec host s).1.ptr
  obtain ⟨hle, hlt⟩ := @nextToken_takes _ _ _ host _
  rw [hptr] at hle hlt
  rw [mathloop_operand h htok]
  exact ends_next hloop hpc hle fun _ ↦ hlt

theorem loopEnds_inpar (hparse : ParseEnds host fuel) (hloop : LoopEnds host fuel)
    (htok : s.mtok = .inpar) :
    Ends s.ptr.length (2 * s.ptr.length + 3) (fuel + 1) (mathloop host (fuel + 1) pc s) := by
  obtain ⟨hinner, -⟩ := hparse host.topPrec s le_rfl
  rw [mathloop_inpar h htok]
  cases hout : mathparse host fuel host.topPrec s with
  | error stop =>
    rw [hout] at hinner
    exact ends_stop fun hfuel hstop ↦ hinner.ends (by omega) (hstop ▸ rfl)
  | ok r =>
    rw [hout] at hinner
    have hr := hinner.le r rfl
    dsimp only
    split
    · obtain ⟨hle, hlt⟩ := @nextToken_takes _ _ _ host r
      exact ends_next hloop hpc (hle.trans hr) fun _ htok' ↦ (hlt htok').trans_le hr
    · exact ends_ok hr

omit h in
theorem ends_reduce (hloop : LoopEnds host fuel) (what : MathToken) {n : ℕ}
    {r : ArithState S F V} (hle : r.ptr.length ≤ n)
    (hlt : r.errflag = none → r.mtok ≠ .eoi → r.ptr.length < n) :
    Ends n (2 * n + 3) (fuel + 1)
      (match op host what r with
        | .error stop => .error stop
        | .ok s => mathloop host fuel pc s) := by
  have hkeeps := op_keeps host what r
  cases hop : op host what r with
  | error stop =>
    rw [hop] at hkeeps
    exact ends_error hkeeps
  | ok t =>
    rw [hop] at hkeeps
    apply ends_next hloop hpc
    · exact hkeeps.ptr ▸ hle
    · intro hnone hmtok
      rw [hkeeps.ptr]
      exact hlt (hkeeps.errflag_none hnone) (hkeeps.mtok ▸ hmtok)

theorem loopEnds_operator (hparse : ParseEnds host fuel) (hloop : LoopEnds host fuel)
    (htok : isOperator s.mtok = true) :
    Ends s.ptr.length (2 * s.ptr.length + 3) (fuel + 1) (mathloop host (fuel + 1) pc s) := by
  rw [mathloop_operator h htok]
  have hbop : match (if s.mtok.type.assoc = .bool then bop host s.mtok s else .ok s) with
      | .error stop => stop = .underflow
      | .ok r => r.ptr = s.ptr := by
    by_cases hbool : s.mtok.type.assoc = .bool
    · rw [if_pos hbool]
      exact bop_keeps host s.mtok s
    · rw [if_neg hbool]
  cases hleft : (if s.mtok.type.assoc = .bool then bop host s.mtok s else .ok s) with
  | error stop =>
    rw [hleft] at hbop
    exact ends_error hbop
  | ok s' =>
    rw [hleft] at hbop
    have hptr : s'.ptr = s.ptr := hbop
    obtain ⟨hinner, hshort⟩ := hparse (host.level s.mtok) s' (level_operator host htok).2.le
    rw [hptr] at hinner hshort
    dsimp only
    cases hout : mathparse host fuel (host.level s.mtok) s' with
    | error stop =>
      rw [hout] at hinner
      exact ends_stop fun hfuel hstop ↦ hinner.ends (by omega) (hstop ▸ rfl)
    | ok r =>
      rw [hout] at hinner
      exact ends_reduce hpc hloop s.mtok (hinner.le r rfl)
        (hshort r hout)

theorem loopEnds_quest (hparse : ParseEnds host fuel) (hloop : LoopEnds host fuel)
    (htok : s.mtok = .quest) :
    Ends s.ptr.length (2 * s.ptr.length + 3) (fuel + 1) (mathloop host (fuel + 1) pc s) := by
  obtain ⟨-, hcolonHigh, -, hquestHigh⟩ := level_quest host
  rw [mathloop_quest h htok]
  cases htop : retrieveTop host s with
  | error stop => exact ends_error (retrieveTop_error host htop)
  | ok popped =>
    have hptr : popped.2.ptr = s.ptr := (retrieveTop_frame host htop).ptr
    dsimp only
    generalize (popped.1.val.getD zeroMnumber).truth host.numerics = q
    obtain ⟨hfirst, -⟩ := hparse _ _ hcolonHigh.le
    have hptr' : (suspend (!q) popped.2).ptr = s.ptr := hptr
    rw [hptr'] at hfirst
    cases hout : mathparse host fuel _ _ with
    | error stop =>
      rw [hout] at hfirst
      exact ends_stop fun hfuel hstop ↦ hfirst.ends (by omega) (hstop ▸ rfl)
    | ok r =>
      rw [hout] at hfirst
      have hr : r.ptr.length ≤ s.ptr.length := hfirst.le r rfl
      dsimp only
      split
      · obtain ⟨hsecond, hshort⟩ :=
          hparse (host.prec .quest) _ hquestHigh.le
        have hptr'' : (suspend q (resume (!q) r)).ptr = r.ptr := rfl
        rw [hptr''] at hsecond hshort
        cases hout' : mathparse host fuel (host.prec .quest) _ with
        | error stop =>
          rw [hout'] at hsecond
          exact ends_stop fun hfuel hstop ↦ hsecond.ends (by omega) (hstop ▸ rfl)
        | ok r' =>
          rw [hout'] at hsecond
          exact ends_reduce hpc hloop .quest ((hsecond.le r' rfl).trans hr)
            fun hnone hmtok ↦ (hshort r' hout' hnone hmtok).trans_le hr
      · exact ends_ok hr

end Loop

/-- With fuel for twice the text, every run ends. -/
theorem run_ends (fuel : ℕ) : ParseEnds host fuel ∧ LoopEnds host fuel := by
  induction fuel with
  | zero =>
    constructor
    · intro pc s _
      refine ⟨⟨fun hfuel ↦ by omega, fun r hr ↦ ?_⟩, fun r hr ↦ ?_⟩
      · cases hr
      · cases hr
    · intro pc s _
      refine ⟨fun hfuel ↦ by omega, fun r hr ↦ ?_⟩
      cases hr
  | succ fuel ih =>
    obtain ⟨hparse, hloop⟩ := ih
    refine ⟨parseEnds_succ hloop, fun pc s hpc ↦ ?_⟩
    by_cases h : pc < host.prec s.mtok ∨ s.errflag.isSome = true
    · rw [mathloop_stop h]
      exact ends_ok le_rfl
    · obtain ⟨hclose, heoi⟩ := not_closing host hpc (not_lt.mp (not_or.mp h).1)
      cases htok : s.mtok with
      | num => exact loopEnds_operand hpc h hloop (.inl htok)
      | id => exact loopEnds_operand hpc h hloop (.inr (.inl htok))
      | cid => exact loopEnds_operand hpc h hloop (.inr (.inr (.inl htok)))
      | func => exact loopEnds_operand hpc h hloop (.inr (.inr (.inr htok)))
      | inpar => exact loopEnds_inpar hpc h hparse hloop htok
      | quest => exact loopEnds_quest hpc h hparse hloop htok
      | outpar => exact absurd htok hclose
      | eoi => exact absurd htok heoi
      | _ => exact loopEnds_operator hpc h hparse hloop (by rw [htok]; rfl)

/-! ## Every evaluation -/

/-- What `mathevall` sets before it calls `mathparse`; the other static variables are as they
were. -/
def ArithState.entering (s : ArithState S F V) (input : Bytes) : ArithState S F V :=
  { s with
    ptr := input, stack := .empty, unary := true,
    world := { s.world with format := { s.world.format with lastbase := -1 } } }

/-- The level at which `mathevall` parses. -/
def Host.entryPrec (host : Host S F V) (top : Bool) : ℕ :=
  if top then host.topPrec else host.argPrec

theorem entryPrec_bounds (host : Host S F V) (top : Bool) :
    2 ≤ host.entryPrec top ∧ host.entryPrec top ≤ host.topPrec := by
  unfold Host.entryPrec Host.argPrec Host.topPrec Host.prec
  cases top <;> cases host.cPrecedences <;> decide

/-- Every evaluation ends, reads nothing below the stack, finds the operands of each reduction,
leaves one value, or none for an empty input, and restores the level of `noeval`.  The stack has
room by its type. -/
theorem mathparse_stack (host : Host S F V) (input : Bytes) (s : ArithState S F V) (top : Bool)
    (spare : ℕ) :
    ∃ r, mathparse host (2 * input.length + 2 + spare) (host.entryPrec top) (s.entering input) =
        .ok r ∧
      r.noeval = s.noeval ∧
      LogSafe (parseLog host (2 * input.length + 2 + spare) (host.entryPrec top)
        (s.entering input)) ∧
      (r.errflag = none →
        r.depth =
          if host.entryPrec top = host.topPrec ∧ (lex host (s.entering input)).mtok = .eoi then 0
          else 1) := by
  obtain ⟨hlow, hhigh⟩ := entryPrec_bounds host top
  obtain ⟨hends, -⟩ :=
    (@run_ends _ _ _ host _).1 _
      (s.entering input) hhigh
  have hsafe := (run_safe host (2 * input.length + 2 + spare)).1 _
    (s.entering input) 0 hlow hhigh fun _ ↦ rfl
  obtain ⟨r, hr⟩ : ∃ r, mathparse host (2 * input.length + 2 + spare) (host.entryPrec top)
      (s.entering input) = .ok r := by
    cases hout : mathparse host _ _
        (s.entering input) with
    | ok r => exact ⟨r, rfl⟩
    | error stop =>
      cases stop with
      | fuel => exact absurd hout (hends.ends (Nat.le_add_right _ _))
      | underflow => exact absurd hout hsafe.inBounds
  refine ⟨r, hr, hsafe.noeval r hr, hsafe.log, fun hnone ↦ ?_⟩
  by_cases hempty : host.entryPrec top = host.topPrec ∧ (lex host (s.entering input)).mtok = .eoi
  · rw [if_pos hempty]
    obtain ⟨fuel, hfuel⟩ : ∃ k, 2 * input.length + 2 + spare = k + 1 :=
      ⟨2 * input.length + 1 + spare, by omega⟩
    rw [hfuel, mathparse] at hr
    split at hr
    · next herr =>
      cases hr
      rw [hnone] at herr
      cases herr
    · rw [if_pos hempty] at hr
      cases hr
      rfl
  · rw [if_neg hempty]
    obtain ⟨hlevel, hprec⟩ | ⟨htop, heoi, -⟩ := hsafe.level r hr hnone
    · -- The token behind the value is no operand.
      have hkind : r.mtok.type.kind ≠ .none := fun hkind ↦ by
        have hle := prec_operand host hkind
        omega
      rw [hlevel.depth, if_neg hkind]
    · exact absurd ⟨htop, heoi⟩ hempty

end Bsh.Shell.Arith
