import Bsh.Shell.QuoteStyles
import Bsh.Shell.SepSplit

/-!
# Passages

What quoting copies as it is: text between backquotes, in substitutions and in arithmetic.  A walk
over the bytes of a string keeps track of the passage that it is in, and finds whether an arithmetic
passage is open at the end, and by how much quotes make the string longer when the history character
is a newline.
-/

namespace Bsh.Shell

open Bsh.Library List

/-- A metafied string with tokens. -/
inductive TokenText : Bytes → Prop
  | nil : TokenText []
  | byte {c : UInt8} {s : Bytes} (hc : imeta c = false ∨ itok c = true) (h : TokenText s) :
    TokenText (c :: s)
  | pair {c : UInt8} {s : Bytes} (hc : imeta c = true) (h : TokenText s) :
    TokenText (metaByte :: (c ^^^ 32) :: s)

/-! ## The walk -/

inductive Passage where
  | outside
  | tick (c : UInt8)
  | subst (beg close : UInt8) (level : ℕ)
  | math (inmath : ℕ)
  deriving DecidableEq

/-- One byte, in front of another one. -/
def Passage.step (c : UInt8) (next : Option UInt8) : Passage → Passage
  | .outside =>
    if c = tickToken ∨ c = qtickToken then .tick c
    else
      match if c = stringToken ∨ c = qstringToken then next.bind closingToken else none with
      | some close => .subst c close 0
      | none => if c = inparmathToken then .math 1 else .outside
  | .tick d => if c = d then .outside else .tick d
  | .subst beg close level =>
    if c = close ∧ level = 0 then .outside
    else
      .subst beg close
        (if c = beg then level + 1 else if c = close then level - 1 else level)
  | .math inmath =>
    if c = outparmathToken then if inmath = 1 then .outside else .math (inmath - 1)
    else .math (if c = inparmathToken then inmath + 1 else inmath)

/-- Whether an arithmetic passage is open at the end. -/
def mathOpen : Passage → Bytes → Bool
  | .math _, [] => true
  | _, [] => false
  | p, c :: s => mathOpen (p.step c s.head?) s

/-- What a byte outside of passages gets when the history character is a newline. -/
def byteGrowth (how : QuoteType) (c : UInt8) (next : Option UInt8) : ℕ :=
  if c = char '\n' then 4
  else if how = .double ∧ (c = char '`' ∨ c = char '"' ∨ c = char '\\' ∨
      c = char '$' ∧ next ≠ some (char '\'')) then 1
  else 0

/-- What quotes add to a string when the history character is a newline: four bytes for a newline,
one for another character that is quoted, and a backquote that is not closed is closed. -/
def growth (how : QuoteType) : Passage → Bytes → ℕ
  | .tick _, [] => 1
  | _, [] => 0
  | p, c :: s =>
    (if p = .outside ∧ p.step c s.head? = .outside then byteGrowth how c s.head? else 0) +
      growth how (p.step c s.head?) s

/-! ## Strings with tokens -/

set_option maxRecDepth 4000 in
theorem tokenText_byte : ∀ c : UInt8, imeta c = false ∨ itok c = true →
    c ≠ 0 ∧ c ≠ metaByte ∧ c ≠ markerByte :=
  Bytes.forall_byte (by decide)

theorem TokenText.behind {x y : Bytes} {d : UInt8} (hd : itok d = true)
    (h : TokenText (x ++ d :: y)) : TokenText y := by
  generalize hs : x ++ d :: y = s at h
  induction h generalizing x with
  | nil => exact absurd hs (append_ne_nil_of_right_ne_nil x (cons_ne_nil d y))
  | byte _ h ih =>
    cases x with
    | nil =>
      obtain ⟨_, rfl⟩ := List.cons.inj hs
      exact h
    | cons a x => exact ih (List.cons.inj hs).2
  | @pair c s hc h ih =>
    cases x with
    | nil =>
      obtain ⟨rfl, _⟩ := List.cons.inj hs
      exact absurd hd (by decide)
    | cons a x =>
      obtain ⟨_, hs⟩ := List.cons.inj hs
      cases x with
      | nil =>
        obtain ⟨rfl, _⟩ := List.cons.inj hs
        exact absurd hd (Bool.eq_false_iff.mp (not_itok_flip c hc))
      | cons b x => exact ih (List.cons.inj hs).2

/-! ## The end of a passage -/

theorem mathOpen_cons (p : Passage) (c : UInt8) (s : Bytes) :
    mathOpen p (c :: s) = mathOpen (p.step c s.head?) s := by
  cases p <;> rfl

variable (how : QuoteType)

theorem growth_cons (p : Passage) (c : UInt8) (s : Bytes) :
    growth how p (c :: s) =
      (if p = .outside ∧ p.step c s.head? = .outside then byteGrowth how c s.head? else 0) +
        growth how (p.step c s.head?) s := by
  cases p <;> rfl

/-- Within a passage nothing is added. -/
theorem growth_inside {p : Passage} (hp : p ≠ .outside) (c : UInt8) (s : Bytes) :
    growth how p (c :: s) = growth how (p.step c s.head?) s := by
  rw [growth_cons, if_neg fun h ↦ hp h.1, Nat.zero_add]

theorem tick_end (d : UInt8) (s : Bytes) :
    let n := (s.takeWhile (· ≠ d)).length
    mathOpen (.tick d) s = mathOpen .outside (s.drop (n + 1)) ∧
      growth how (.tick d) s =
        (if n < s.length then 0 else 1) + growth how .outside (s.drop (n + 1)) ∧
      n ≤ s.length ∧ (n < s.length → s[n]? = some d) := by
  induction s with
  | nil => exact ⟨rfl, rfl, Nat.le_refl 0, fun h ↦ absurd h (Nat.lt_irrefl 0)⟩
  | cons c s ih =>
    have hne : Passage.tick d ≠ .outside := Passage.noConfusion
    dsimp only
    rw [mathOpen_cons, growth_inside how hne, Passage.step]
    by_cases hc : c = d
    · subst hc
      have hnil : (c :: s).takeWhile (· ≠ c) = [] := by
        rw [takeWhile_cons, if_neg (by simp)]
      rw [hnil, if_pos rfl]
      have hless : ([] : Bytes).length < (c :: s).length := Nat.succ_pos s.length
      refine ⟨rfl, ?_, Nat.zero_le _, fun _ ↦ rfl⟩
      rw [if_pos hless, Nat.zero_add]
      rfl
    · obtain ⟨hopen, hgrow, hle, hlast⟩ := ih
      have hcons : (c :: s).takeWhile (· ≠ d) = c :: s.takeWhile (· ≠ d) := by
        rw [takeWhile_cons, if_pos (by simpa using hc)]
      rw [hcons, if_neg hc, length_cons, length_cons, hopen, hgrow, drop_succ_cons]
      refine ⟨rfl, ?_, Nat.succ_le_succ hle, fun h ↦ ?_⟩
      · by_cases hless : (s.takeWhile (· ≠ d)).length < s.length
        · rw [if_pos hless, if_pos (Nat.succ_lt_succ hless)]
        · rw [if_neg hless, if_neg fun h ↦ hless (Nat.lt_of_succ_lt_succ h)]
      · exact hlast (Nat.lt_of_succ_lt_succ h)

theorem subst_end (beg close : UInt8) (level : ℕ) (s : Bytes) :
    let n := substLength beg close level s
    mathOpen (.subst beg close level) s = mathOpen .outside (s.drop n) ∧
      growth how (.subst beg close level) s = growth how .outside (s.drop n) ∧
      n ≤ s.length ∧ (s.drop n = [] ∨ 0 < n ∧ s[n - 1]? = some close) := by
  induction s generalizing level with
  | nil => exact ⟨rfl, rfl, Nat.le_refl 0, .inl rfl⟩
  | cons c s ih =>
    have hne : Passage.subst beg close level ≠ .outside := Passage.noConfusion
    dsimp only
    rw [mathOpen_cons, growth_inside how hne, Passage.step, substLength]
    by_cases hclose : c = close ∧ level = 0
    · rw [if_pos hclose, if_pos hclose]
      exact ⟨rfl, rfl, Nat.le_add_left 1 s.length, .inr ⟨Nat.one_pos, congrArg some hclose.1⟩⟩
    · rw [if_neg hclose, if_neg hclose]
      obtain ⟨hopen, hgrow, hle, hlast⟩ :=
        ih _
      rw [hopen, hgrow, Nat.add_comm 1, drop_succ_cons]
      refine ⟨rfl, rfl, Nat.succ_le_succ hle, hlast.imp_right fun ⟨hpos, hlast⟩ ↦ ?_⟩
      refine ⟨Nat.succ_pos _, ?_⟩
      rw [Nat.add_sub_cancel, ← hlast]
      obtain ⟨k, hk⟩ := Nat.exists_eq_add_of_lt hpos
      rw [hk, Nat.zero_add, Nat.add_sub_cancel, List.getElem?_cons_succ]

theorem math_end {inmath : ℕ} (hpos : 0 < inmath) (s : Bytes) :
    match mathLength inmath s with
    | none => mathOpen (.math inmath) s = true
    | some n =>
      mathOpen (.math inmath) s = mathOpen .outside (s.drop n) ∧
        growth how (.math inmath) s = growth how .outside (s.drop n) ∧
        0 < n ∧ n ≤ s.length ∧ s[n - 1]? = some outparmathToken := by
  induction s generalizing inmath with
  | nil => rfl
  | cons c s ih =>
    have hne : Passage.math inmath ≠ .outside := Passage.noConfusion
    have hlater (level : ℕ) (hlevel : 0 < level) :
        match (mathLength level s).map (1 + ·) with
        | none => mathOpen (.math level) s = true
        | some n =>
          mathOpen (.math level) s = mathOpen .outside ((c :: s).drop n) ∧
            growth how (.math level) s = growth how .outside ((c :: s).drop n) ∧
            0 < n ∧ n ≤ (c :: s).length ∧ (c :: s)[n - 1]? = some outparmathToken := by
      have hrest := ih hlevel
      cases hlength : mathLength level s with
      | none =>
        rw [hlength] at hrest
        exact hrest
      | some n =>
        rw [hlength] at hrest
        obtain ⟨hopen, hgrow, hn, hle, hlast⟩ := hrest
        obtain ⟨k, rfl⟩ : ∃ k, n = k + 1 := ⟨n - 1, by omega⟩
        rw [Option.map_some]
        dsimp only
        rw [Nat.add_comm 1, drop_succ_cons, Nat.add_sub_cancel, List.getElem?_cons_succ]
        exact ⟨hopen, hgrow, Nat.succ_pos _, Nat.succ_le_succ hle, hlast⟩
    rw [mathOpen_cons, growth_inside how hne, Passage.step, mathLength]
    by_cases hclose : c = outparmathToken
    · rw [if_pos hclose, if_pos hclose]
      by_cases hone : inmath = 1
      · rw [if_pos hone, if_pos hone]
        exact ⟨rfl, rfl, Nat.one_pos, Nat.le_add_left 1 s.length, congrArg some hclose⟩
      · rw [if_neg hone, if_neg hone]
        exact hlater (inmath - 1) (by omega)
    · rw [if_neg hclose, if_neg hclose]
      exact hlater _ (by split <;> omega)

end Bsh.Shell
