import Bsh.Library.Saturation
import Bsh.Shell.BraceNumbers
import Bsh.Shell.ModeSpec

/-!
# Numeric ranges of patterns

The pattern `<a-b>` matches a number.  `patcomppiece` compiles it to one of four nodes, and
`patmatch` matches such a node by reading all digits into an accumulator, which stops at the size of
the type, and then giving the digits back one by one until what follows the node matches.  What
follows is a parameter here: the rests of the string that it accepts.
-/

namespace Bsh.Shell

open Bsh.Library List

/-! ## Compilation -/

/-- `P_NUMRNG`, `P_NUMFROM`, `P_NUMTO` and `P_NUMANY` with their operands. -/
inductive NumNode where
  | range (first last : Zlong)
  | above (first : Zlong)
  | below (last : Zlong)
  | any
deriving DecidableEq

/-- A number of the node, if there is one. -/
def rangeNumber (patparse : Bytes) : Option (Option Zlong × Bytes) :=
  if patparse.head?.any idigit then
    (zstrtol patparse 10).map fun r ↦ (some r.1, r.2)
  else some (none, patparse)

/-- The case `Inang` of `patcomppiece`, behind the token: the node and what follows it. -/
def patcompInang (patparse : Bytes) : Option (NumNode × Bytes) :=
  match rangeNumber patparse with
  | none => none
  | some (first, patparse) =>
    match rangeNumber patparse.tail with
    | none => none
    | some (last, patparse) =>
      if patparse.head? = some outangToken then
        some (match first, last with
          | some first, some last => .range first last
          | none, some last => .below last
          | some first, none => .above first
          | none, none => .any, patparse.tail)
      else none

/-! ## Matching -/

/-- What follows the node: the rests it accepts, the first byte of its string when it begins with
`P_EXACTLY`, and `patglobflags & 0xff`.  Without errors an exact string is matched as it is, so it
accepts no digit when it does not begin with one. -/
structure Continuation where
  accepts : Bytes → Bool
  exactFirst : Option UInt8
  errors : ℕ
  not_digit_of_accepts : ∀ c, exactFirst = some c → idigit c = false → errors = 0 →
    ∀ s, accepts s = true → s.head?.any idigit = false

/-- Nothing but the full number can match when what follows begins with a character that is no
digit. -/
def Continuation.onlyFull (next : Continuation) : Bool :=
  next.exactFirst.any (fun c ↦ !idigit c) && decide (next.errors = 0)

/-- `ZRANGE_MAX`. -/
def zrangeMax : ℕ := 2 ^ 63 - 1

/-- One digit more; there is no result for a number that is out of range. -/
def addDigit (comp digit : ℕ) : Option ℕ :=
  if zrangeMax / 10 < comp then none
  else if zrangeMax - comp * 10 < digit then none
  else some (comp * 10 + digit)

/-- `*patinput - '0'`. -/
def digitOfByte (c : UInt8) : ℕ := c.toNat - (char '0').toNat

/-- The loop over the digits: `comp`, and how far `compend` and `patinput` come.  `above` is
`op == P_NUMFROM`. -/
def scanNumber (above : Bool) : Bytes → ℕ → ℕ × ℕ × ℕ
  | [], comp => (comp, 0, 0)
  | c :: s, comp =>
    if idigit c then
      let sum := addDigit comp (digitOfByte c)
      let comp := sum.getD comp
      if (sum.isNone || comp.testBit 62) && above then (comp, 1, 1 + (s.takeWhile idigit).length)
      else
        let (comp, compend, patinput) := scanNumber above s comp
        (comp, compend + 1, patinput + 1)
    else (comp, 0, 0)

/-- The loop that gives the digits back.  The first argument is how far `patinput` is behind
`start`, where the string `s` begins; `tried` is `no != 0`. -/
def giveBack (first : ℤ) (last : Option ℤ) (next : Continuation) (s : Bytes) (compend : ℕ) :
    ℕ → ℕ → Bool → Bool
  | 0, _, _ => false
  | patinput + 1, comp, tried =>
    if (comp : ℤ) < first ∧ patinput + 1 ≤ compend then false
    else if last.all (fun last ↦ decide ((comp : ℤ) ≤ last)) && next.accepts (s.drop (patinput + 1))
    then true
    else if !tried && next.onlyFull then false
    else giveBack first last next s compend patinput
      (if patinput < compend then comp / 10 else comp) true

/-- The cases of `patmatch` for the four nodes. -/
def patmatchNumber (node : NumNode) (next : Continuation) (s : Bytes) : Bool :=
  let ranged (above : Bool) (first : ℤ) (last : Option ℤ) :=
    let (comp, compend, patinput) := scanNumber above s 0
    giveBack first last next s compend patinput comp false
  match node with
  | .range first last => ranged false first.toInt (some last.toInt)
  | .above first => ranged true first.toInt none
  | .below last => ranged false 0 (some last.toInt)
  | .any => giveBack 0 none next s 0 (s.takeWhile idigit).length 0 false

end Bsh.Shell

/-!
# Which numbers a numeric range matches

A node should match a run of digits up to any point where the digits have a value in the range and
what follows accepts the rest.  It does so while all digits fit into the accumulator.  When a digit
has been refused, giving digits back divides an accumulator that is behind, and the node sees other
numbers than those that are there.
-/

namespace Bsh.Shell

open Bsh.Library Accumulator List

/-- The digits at the head of a string. -/
def digitRun (s : Bytes) : List ℕ := (s.takeWhile idigit).map digitOfByte

/-- The value of the first digits. -/
def prefixNumber (s : Bytes) (k : ℕ) : ℕ := value 10 ((digitRun s).take k)

theorem digitRun_lt (s : Bytes) : ∀ d ∈ digitRun s, d < 10 := by
  intro d hd
  obtain ⟨c, hc, rfl⟩ := List.mem_map.mp hd
  have hdigit := mem_takeWhile_imp hc
  exact (digitOf_digit c hdigit).2

theorem digitRun_length (s : Bytes) : (digitRun s).length = (s.takeWhile idigit).length :=
  length_map _

theorem digitRun_cons {c : UInt8} (hc : idigit c = true) (s : Bytes) :
    digitRun (c :: s) = digitOfByte c :: digitRun s := by
  rw [digitRun, takeWhile_cons_of_pos hc, map_cons]
  rfl

theorem digitRun_of_not {c : UInt8} (hc : ¬ idigit c = true) (s : Bytes) :
    digitRun (c :: s) = [] := by
  rw [digitRun, takeWhile_cons_of_neg hc, map_nil]

/-! ## The accumulator -/

theorem addDigit_eq_none_iff (comp digit : ℕ) :
    addDigit comp digit = none ↔ zrangeMax < 10 * comp + digit := by
  unfold addDigit
  split
  · simp
    omega
  · split
    · simp
      omega
    · simp
      omega

theorem addDigit_getD (comp digit : ℕ) :
    (addDigit comp digit).getD comp = add 10 zrangeMax comp digit := by
  have hnone := addDigit_eq_none_iff comp digit
  rw [add]
  cases hsum : addDigit comp digit with
  | none =>
    rw [if_neg (not_le.mpr (hnone.mp hsum))]
    rfl
  | some sum =>
    have hfits : 10 * comp + digit ≤ zrangeMax :=
      not_lt.mp fun h ↦ by rw [hnone.mpr h] at hsum; cases hsum
    rw [if_pos hfits]
    unfold addDigit at hsum
    split at hsum
    · cases hsum
    · split at hsum
      · cases hsum
      · rw [← Option.some.inj hsum, Nat.mul_comm]
        rfl

theorem scanNumber_below (s : Bytes) (comp : ℕ) :
    scanNumber false s comp =
      ((digitRun s).foldl (add 10 zrangeMax) comp, (digitRun s).length, (digitRun s).length) := by
  induction s generalizing comp with
  | nil => rfl
  | cons c s ih =>
    rw [scanNumber]
    by_cases hc : idigit c = true
    · rw [if_pos hc]
      dsimp only
      rw [addDigit_getD, Bool.and_false, ih, digitRun_cons hc]
      rfl
    · rw [if_neg hc, digitRun_of_not hc]
      rfl

/-- Where the accumulator for `P_NUMFROM` stops, with the values `v` of the prefixes of `m` digits:
behind all digits, where it is full, or behind a digit that is refused. -/
inductive AboveStop (v : ℕ → ℕ) (m : ℕ) : ℕ → ℕ → Prop where
  | all : v m < 2 ^ 62 → AboveStop v m (v m) m
  | full {j : ℕ} : j < m → v j < 2 ^ 62 → 2 ^ 62 ≤ v (j + 1) → v (j + 1) < 2 ^ 63 →
      AboveStop v m (v (j + 1)) (j + 1)
  | refused {j : ℕ} : j < m → v j < 2 ^ 62 → 2 ^ 63 ≤ v (j + 1) → AboveStop v m (v j) (j + 1)

theorem AboveStop.behind {v w : ℕ → ℕ} (hw : ∀ k, w (k + 1) = v k) {m comp compend : ℕ}
    (h : AboveStop v m comp compend) : AboveStop w (m + 1) comp (compend + 1) := by
  cases h with
  | all hm =>
    rw [← hw] at hm ⊢
    exact .all hm
  | full hj hbelow habove hfits =>
    rw [← hw] at hbelow habove hfits ⊢
    exact .full (Nat.succ_lt_succ hj) hbelow habove hfits
  | refused hj hbelow hover =>
    rw [← hw] at hbelow hover ⊢
    exact .refused (Nat.succ_lt_succ hj) hbelow hover

theorem testBit_full {x : ℕ} (hx : x < 2 ^ 63) : x.testBit 62 = decide (2 ^ 62 ≤ x) := by
  rw [Nat.testBit_eq_decide_div_mod_eq]
  apply decide_eq_decide.mpr
  omega

theorem scanNumber_above (s : Bytes) {comp : ℕ} (hcomp : comp < 2 ^ 62) :
    ∃ comp' compend, scanNumber true s comp = (comp', compend, (digitRun s).length) ∧
      AboveStop (fun k ↦ valueFrom 10 comp ((digitRun s).take k)) (digitRun s).length
        comp' compend := by
  induction s generalizing comp with
  | nil => exact ⟨comp, 0, rfl, .all hcomp⟩
  | cons c s ih =>
    rw [scanNumber]
    by_cases hc : idigit c = true
    · have hmax : zrangeMax = 2 ^ 63 - 1 := rfl
      have hnone := addDigit_eq_none_iff comp (digitOfByte c)
      have hlength : (digitRun (c :: s)).length = (digitRun s).length + 1 := by
        rw [digitRun_cons hc, length_cons]
      have hfirst : valueFrom 10 comp ((digitRun (c :: s)).take (0 + 1)) =
          10 * comp + digitOfByte c := by
        rw [digitRun_cons hc]
        rfl
      rw [if_pos hc]
      dsimp only
      rw [addDigit_getD]
      cases hsum : addDigit comp (digitOfByte c) with
      | none =>
        have hover := hnone.mp hsum
        have hkept : add 10 zrangeMax comp (digitOfByte c) = comp := if_neg (not_le.mpr hover)
        rw [hkept]
        refine ⟨comp, 1, ?_, ?_⟩
        · rw [hlength, digitRun_length]
          exact congrArg (fun n ↦ (_, 1, n)) (Nat.add_comm 1 _)
        · have hstop := @AboveStop.refused
            (fun k ↦ valueFrom 10 comp ((digitRun (c :: s)).take k)) (digitRun (c :: s)).length 0
          exact hstop (by omega) hcomp (by omega)
      | some sum =>
        have hfits : 10 * comp + digitOfByte c ≤ zrangeMax :=
          not_lt.mp fun h ↦ by rw [hnone.mpr h] at hsum; cases hsum
        have htaken : add 10 zrangeMax comp (digitOfByte c) = 10 * comp + digitOfByte c :=
          if_pos hfits
        rw [htaken, testBit_full (by omega)]
        by_cases hfull : 2 ^ 62 ≤ 10 * comp + digitOfByte c
        · refine ⟨10 * comp + digitOfByte c, 1, ?_, ?_⟩
          · rw [decide_eq_true hfull, hlength, digitRun_length]
            exact congrArg (fun n ↦ (_, 1, n)) (Nat.add_comm 1 _)
          · have hstop := @AboveStop.full
              (fun k ↦ valueFrom 10 comp ((digitRun (c :: s)).take k)) (digitRun (c :: s)).length 0
            rw [hfirst] at hstop
            exact hstop (by omega) hcomp hfull (by omega)
        · obtain ⟨comp', compend, hscan, hstop⟩ := ih (not_le.mp hfull)
          refine ⟨comp', compend + 1, ?_, ?_⟩
          · rw [decide_eq_false hfull, hscan, hlength]
            rfl
          · rw [hlength]
            apply hstop.behind
            intro k
            rw [digitRun_cons hc]
            rfl
    · rw [if_neg hc, digitRun_of_not hc]
      exact ⟨comp, 0, rfl, .all hcomp⟩

/-! ## Giving the digits back -/

/-- The number that the accumulator stands for after so many digits. -/
def shownAt (comp compend k : ℕ) : ℕ := comp / 10 ^ (compend - k)

/-- What the loop accepts after so many digits. -/
def TakesAt (first : ℤ) (last : Option ℤ) (comp compend k : ℕ) : Prop :=
  (k ≤ compend → first ≤ shownAt comp compend k) ∧ ∀ b ∈ last, (shownAt comp compend k : ℤ) ≤ b

theorem shownAt_mono (comp compend : ℕ) {j k : ℕ} (h : j ≤ k) :
    shownAt comp compend j ≤ shownAt comp compend k := by
  apply Nat.div_le_div_left
  · exact Nat.pow_le_pow_right (by decide) (by omega)
  · exact Nat.pow_pos (by decide)

theorem shownAt_back (comp compend k : ℕ) :
    (if k < compend then shownAt comp compend (k + 1) / 10 else shownAt comp compend (k + 1)) =
      shownAt comp compend k := by
  unfold shownAt
  split
  · have hpow : compend - k = compend - (k + 1) + 1 := by omega
    rw [hpow, pow_succ, Nat.div_div_eq_div_mul]
  · have hsame : compend - k = compend - (k + 1) := by omega
    rw [hsame]

variable (first : ℤ) (last : Option ℤ) (next : Continuation) (s : Bytes) (comp compend : ℕ)

theorem giveBack_iff (patinput : ℕ) {tried : Bool}
    (hexit : tried = false → next.onlyFull = true → ∀ k < patinput, next.accepts (s.drop k) = false) :
    giveBack first last next s compend patinput (shownAt comp compend patinput) tried = true ↔
      ∃ k, 1 ≤ k ∧ k ≤ patinput ∧ TakesAt first last comp compend k ∧
        next.accepts (s.drop k) = true := by
  induction patinput generalizing tried with
  | zero =>
    constructor
    · intro h
      cases h
    · omega
  | succ patinput ih =>
    rw [giveBack]
    have hlast : last.all (fun b ↦ decide ((shownAt comp compend (patinput + 1) : ℤ) ≤ b)) = true ↔
        ∀ b ∈ last, (shownAt comp compend (patinput + 1) : ℤ) ≤ b := by
      simp [Option.all_eq_true]
    by_cases hsmall : (shownAt comp compend (patinput + 1) : ℤ) < first ∧ patinput + 1 ≤ compend
    · -- Already too small: no shorter prefix is larger.
      rw [if_pos hsmall]
      constructor
      · intro h
        cases h
      · rintro ⟨k, -, hk, htakes, -⟩
        have hmono := shownAt_mono comp compend hk
        have hle := htakes.1 (hk.trans hsmall.2)
        omega
    · rw [if_neg hsmall]
      have hlow : patinput + 1 ≤ compend → first ≤ shownAt comp compend (patinput + 1) :=
        fun hend ↦ not_lt.mp fun hlt ↦ hsmall ⟨hlt, hend⟩
      by_cases hhere : last.all
          (fun b ↦ decide ((shownAt comp compend (patinput + 1) : ℤ) ≤ b)) = true ∧
          next.accepts (s.drop (patinput + 1)) = true
      · rw [if_pos (by rw [hhere.1, hhere.2]; rfl)]
        exact ⟨fun _ ↦ ⟨patinput + 1, by omega, le_rfl, ⟨hlow, hlast.mp hhere.1⟩, hhere.2⟩,
          fun _ ↦ rfl⟩
      · rw [if_neg fun h ↦ hhere (Bool.and_eq_true _ _ |>.mp h)]
        have hnot : ¬ (TakesAt first last comp compend (patinput + 1) ∧
            next.accepts (s.drop (patinput + 1)) = true) :=
          fun h ↦ hhere ⟨hlast.mpr h.1.2, h.2⟩
        have hshorter : (∃ k, 1 ≤ k ∧ k ≤ patinput + 1 ∧ TakesAt first last comp compend k ∧
            next.accepts (s.drop k) = true) ↔
            ∃ k, 1 ≤ k ∧ k ≤ patinput ∧ TakesAt first last comp compend k ∧
              next.accepts (s.drop k) = true := by
          constructor
          · rintro ⟨k, hk, hk', htakes, haccepts⟩
            refine ⟨k, hk, ?_, htakes, haccepts⟩
            obtain heq | hlt := Nat.eq_or_lt_of_le hk'
            · exact absurd ⟨heq ▸ htakes, heq ▸ haccepts⟩ hnot
            · omega
          · rintro ⟨k, hk, hk', h⟩
            exact ⟨k, hk, by omega, h⟩
        rw [hshorter]
        by_cases hgivesUp : (!tried && next.onlyFull) = true
        · rw [if_pos hgivesUp]
          have hboth := Bool.and_eq_true _ _ |>.mp hgivesUp
          constructor
          · intro h
            cases h
          · rintro ⟨k, -, hk, -, haccepts⟩
            rw [hexit (by simpa using hboth.1) hboth.2 k (by omega)] at haccepts
            cases haccepts
        · rw [if_neg hgivesUp, shownAt_back]
          exact ih nofun

end Bsh.Shell

/-!
# Numeric ranges against their numbers

The range `<a-b>` is to match a run of digits up to any point where the number lies between `a` and
`b`, however long the run is.  The condition under which it does so is exact for each of the four
nodes.  A run below `2 ^ 63` is always read right.  Behind that, `<a->` fails where the number
passes from below `2 ^ 62` to beyond `2 ^ 63` with one digit, and `<-b>` always fails.
-/

namespace Bsh.Shell

open Bsh.Library Accumulator List

/-! ## What follows -/

/-- What follows accepts one rest only. -/
def Continuation.only (rest : Bytes) : Continuation where
  accepts s := decide (s = rest)
  exactFirst := none
  errors := 0
  not_digit_of_accepts := fun _ h ↦ nomatch h

variable {a b comp compend j k : ℕ} (s : Bytes)

theorem digitRun_length_le : (digitRun s).length ≤ s.length := by
  rw [digitRun_length]
  exact ( takeWhile_prefix idigit).length_le

/-- Two ways to choose prefixes agree for whatever follows when they choose the same prefixes. -/
theorem forall_next_iff (P Q : ℕ → Prop) :
    (∀ next : Continuation,
      (∃ k, 1 ≤ k ∧ k ≤ (digitRun s).length ∧ P k ∧ next.accepts (s.drop k) = true) ↔
        ∃ k, 1 ≤ k ∧ k ≤ (digitRun s).length ∧ Q k ∧ next.accepts (s.drop k) = true) ↔
      ∀ k, 1 ≤ k → k ≤ (digitRun s).length → (P k ↔ Q k) := by
  have hlength := digitRun_length_le s
  have hsame {j k : ℕ} (hj : j ≤ (digitRun s).length) (hk : k ≤ (digitRun s).length)
      (h : (Continuation.only (s.drop k)).accepts (s.drop j) = true) : j = k := by
    have hdrop : s.drop j = s.drop k := of_decide_eq_true h
    have hrests := congrArg List.length hdrop
    rw [length_drop, length_drop] at hrests
    omega
  have hself (k : ℕ) : (Continuation.only (s.drop k)).accepts (s.drop k) = true :=
    decide_eq_true rfl
  constructor
  · intro h k hlow hhigh
    constructor
    · intro hP
      obtain ⟨j, -, hj, hQ, haccepts⟩ := (h (.only (s.drop k))).mp ⟨k, hlow, hhigh, hP, hself k⟩
      exact hsame hj hhigh haccepts ▸ hQ
    · intro hQ
      obtain ⟨j, -, hj, hP, haccepts⟩ := (h (.only (s.drop k))).mpr ⟨k, hlow, hhigh, hQ, hself k⟩
      exact hsame hj hhigh haccepts ▸ hP
  · intro h next
    apply exists_congr
    intro k
    constructor
    · rintro ⟨hlow, hhigh, hP, haccepts⟩
      exact ⟨hlow, hhigh, (h k hlow hhigh).mp hP, haccepts⟩
    · rintro ⟨hlow, hhigh, hQ, haccepts⟩
      exact ⟨hlow, hhigh, (h k hlow hhigh).mpr hQ, haccepts⟩

theorem digit_behind (hk : k < (digitRun s).length) :
    (s.drop k).head?.any idigit = true := by
  rw [digitRun_length] at hk
  induction s generalizing k with
  | nil => cases hk
  | cons c s ih =>
    by_cases hc : idigit c = true
    · cases k with
      | zero => exact hc
      | succ k =>
        rw [takeWhile_cons_of_pos hc, length_cons] at hk
        exact ih (Nat.lt_of_succ_lt_succ hk)
    · rw [takeWhile_cons_of_neg hc] at hk
      cases hk

theorem giveBack_run {first : ℤ} {last : Option ℤ} {s : Bytes}
    (hend : compend ≤ (digitRun s).length) (next : Continuation) :
    giveBack first last next s compend (digitRun s).length comp false = true ↔
      ∃ k, 1 ≤ k ∧ k ≤ (digitRun s).length ∧ TakesAt first last comp compend k ∧
        next.accepts (s.drop k) = true := by
  have hall : shownAt comp compend (digitRun s).length = comp := by
    rw [shownAt, Nat.sub_eq_zero_of_le hend, pow_zero, Nat.div_one]
  have h := @giveBack_iff first last next s comp compend (digitRun s).length false
  rw [hall] at h
  apply h
  -- A character that is no digit cannot follow before the end of the run.
  intro _ honly k hk
  obtain ⟨hexact, herrors⟩ := Bool.and_eq_true _ _ |>.mp honly
  cases hc : next.exactFirst with
  | none =>
    rw [hc] at hexact
    cases hexact
  | some c =>
    rw [hc] at hexact
    have hdigit : idigit c = false := (Bool.not_eq_true' _).mp hexact
    apply Bool.eq_false_iff.mpr
    intro haccepts
    have hnone := next.not_digit_of_accepts c hc hdigit (of_decide_eq_true herrors) _ haccepts
    rw [digit_behind s hk] at hnone
    cases hnone

/-! ## The values of the prefixes -/

theorem prefixNumber_mono (h : j ≤ k) :
    prefixNumber s j ≤ prefixNumber s k := value_take_le (by decide) _ h

theorem prefixNumber_zero : prefixNumber s 0 = 0 := rfl

theorem prefixNumber_ten (hjk : j < k) (hk : k ≤ (digitRun s).length) :
    10 * prefixNumber s j ≤ prefixNumber s k := by
  have hj : j < (digitRun s).length := hjk.trans_le hk
  calc
    10 * prefixNumber s j ≤ prefixNumber s (j + 1) := by
      unfold prefixNumber
      rw [take_succ_eq_append_getElem hj, value_concat]
      exact Nat.le_add_right _ _
    _ ≤ prefixNumber s k := prefixNumber_mono s hjk

theorem shownAt_prefix (hj : j ≤ (digitRun s).length) (hk : k ≤ j)
    (e : ℕ) : shownAt (prefixNumber s j) (j + e) (k + e) = prefixNumber s k := by
  have hlength : ((digitRun s).take j).length = j := length_take_of_le hj
  have hdigits : ∀ d ∈ (digitRun s).take j, d < 10 :=
    fun d hd ↦ digitRun_lt s d (mem_of_mem_take hd)
  have hdiv := value_take_div hdigits (hk.trans hlength.ge)
  rw [hlength, take_take, Nat.min_eq_left hk] at hdiv
  rw [shownAt, Nat.add_sub_add_right]
  exact hdiv

theorem shownAt_whole (hj : j ≤ (digitRun s).length) (hk : k ≤ j) :
    shownAt (prefixNumber s j) j k = prefixNumber s k := shownAt_prefix s hj hk 0

theorem exists_first_large {n m : ℕ} (hn : 0 < n) (hm : n ≤ prefixNumber s m) :
    ∃ k, k < m ∧ prefixNumber s k < n ∧ n ≤ prefixNumber s (k + 1) := by
  have hex : ∃ k, n ≤ prefixNumber s k := ⟨m, hm⟩
  have hpos : Nat.find hex ≠ 0 := by
    intro hzero
    have hspec := Nat.find_spec hex
    rw [hzero, prefixNumber_zero] at hspec
    omega
  obtain ⟨k, hk⟩ := Nat.exists_eq_succ_of_ne_zero hpos
  refine ⟨k, ?_, ?_, ?_⟩
  · exact (Nat.lt_of_succ_le hk.ge).trans_le (Nat.find_min' hex hm)
  · exact not_le.mp (Nat.find_min hex (hk ▸ Nat.lt_succ_self k))
  · rw [← Nat.succ_eq_add_one, ← hk]
    exact Nat.find_spec hex

/-! ## The four nodes -/

/-- The node matches a run at the prefixes whose numbers are as given, whatever follows. -/
def NumNode.MatchesAt (node : NumNode) (s : Bytes) (contains : ℕ → Prop) : Prop :=
  ∀ next : Continuation, patmatchNumber node next s = true ↔
    ∃ k, 1 ≤ k ∧ k ≤ (digitRun s).length ∧ contains (prefixNumber s k) ∧
      next.accepts (s.drop k) = true

variable {s : Bytes}

theorem matchesAt_of_takes {node : NumNode} {first : ℤ} {last : Option ℤ}
    (hend : compend ≤ (digitRun s).length)
    (hnode : ∀ next, patmatchNumber node next s =
      giveBack first last next s compend (digitRun s).length comp false) (contains : ℕ → Prop) :
    node.MatchesAt s contains ↔ ∀ k, 1 ≤ k → k ≤ (digitRun s).length →
      (TakesAt first last comp compend k ↔ contains (prefixNumber s k)) := by
  rw [← forall_next_iff s]
  apply forall_congr'
  intro next
  rw [hnode next, giveBack_run hend next]

theorem any_matchesAt : NumNode.any.MatchesAt s fun _ ↦ True := by
  have hnode (next : Continuation) : patmatchNumber .any next s =
      giveBack 0 none next s 0 (digitRun s).length 0 false := by
    rw [digitRun_length]
    rfl
  rw [matchesAt_of_takes (Nat.zero_le _) hnode]
  intro k hk _
  apply iff_of_true _ trivial
  exact ⟨fun h ↦ absurd h (by omega), nofun⟩

/-- The number passes both sizes with one digit. -/
def Leaps (s : Bytes) : Prop :=
  ∃ k < (digitRun s).length, prefixNumber s k < 2 ^ 62 ∧ 2 ^ 63 ≤ prefixNumber s (k + 1)

theorem takesAt_above {a : ℤ} :
    TakesAt a none comp compend k ↔ (k ≤ compend → a ≤ shownAt comp compend k) :=
  and_iff_left nofun

theorem above_matchesAt_iff (ha : a < 2 ^ 63) {first : Zlong} (hfirst : first.toInt = a) :
    (NumNode.above first).MatchesAt s (a ≤ ·) ↔ a = 0 ∨ ¬ Leaps s := by
  obtain ⟨comp, compend, hscan, hstop⟩ := @scanNumber_above s 0 (by decide)
  have hstop : AboveStop (prefixNumber s) (digitRun s).length comp compend := hstop
  have hend : compend ≤ (digitRun s).length := by
    cases hstop with
    | all _ => exact le_rfl
    | full hj _ _ _ => exact hj
    | refused hj _ _ => exact hj
  have hnode (next : Continuation) : patmatchNumber (.above first) next s =
      giveBack a none next s compend (digitRun s).length comp false := by
    rw [← hfirst]
    simp only [patmatchNumber, hscan]
  rw [matchesAt_of_takes hend hnode]
  simp only [takesAt_above]
  cases hstop with
  | all hall =>
    apply iff_of_true
    · intro k _ hk
      rw [shownAt_whole s le_rfl hk]
      constructor
      · exact fun h ↦ Int.ofNat_le.mp (h hk)
      · exact fun h _ ↦ Int.ofNat_le.mpr h
    · right
      rintro ⟨k, hk, -, hover⟩
      have hmono := prefixNumber_mono s (Nat.succ_le_of_lt hk)
      rw [Nat.succ_eq_add_one] at hmono
      omega
  | @full j hj hbelow habove hfits =>
    apply iff_of_true
    · intro k _ hk
      by_cases hkj : k ≤ j + 1
      · rw [shownAt_whole s hj hkj]
        constructor
        · exact fun h ↦ Int.ofNat_le.mp (h hkj)
        · exact fun h _ ↦ Int.ofNat_le.mpr h
      · -- One digit more is beyond every bound.
        have hten := prefixNumber_ten s (not_le.mp hkj) hk
        apply iff_of_true
        · exact fun h ↦ absurd h hkj
        · omega
    · right
      rintro ⟨k, hk, hlow, hover⟩
      obtain hkj | rfl | hjk := lt_trichotomy k j
      · have hmono := prefixNumber_mono s (Nat.succ_le_of_lt hkj)
        rw [Nat.succ_eq_add_one] at hmono
        omega
      · omega
      · have hmono := prefixNumber_mono s (Nat.succ_le_of_lt hjk)
        rw [Nat.succ_eq_add_one] at hmono
        omega
  | @refused j hj hbelow hover =>
    have hleaps : Leaps s := ⟨j, hj, hbelow, hover⟩
    have htakes {k : ℕ} (hlow : 1 ≤ k) (hk : k ≤ j + 1) :
        (k ≤ j + 1 → (a : ℤ) ≤ shownAt (prefixNumber s j) (j + 1) k) ↔
          a ≤ prefixNumber s (k - 1) := by
      have hshown := shownAt_prefix s hj.le (by omega : k - 1 ≤ j) 1
      rw [Nat.sub_add_cancel hlow] at hshown
      rw [hshown]
      constructor
      · exact fun h ↦ Int.ofNat_le.mp (h hk)
      · exact fun h _ ↦ Int.ofNat_le.mpr h
    constructor
    · intro h
      left
      by_contra hzero
      -- The shortest prefix that is large enough is taken for the one before it.
      obtain ⟨k, hk, hsmall, hlarge⟩ :=
        exists_first_large s (Nat.pos_of_ne_zero hzero) (ha.le.trans hover)
      have htaken := (h (k + 1) (by omega) (by omega)).mpr hlarge
      have hbefore := (htakes (by omega) (by omega)).mp htaken
      rw [Nat.add_sub_cancel] at hbefore
      omega
    · rintro (rfl | hnot)
      · intro k hlow _
        apply iff_of_true
        · exact fun _ ↦ Int.natCast_nonneg _
        · exact Nat.zero_le _
      · exact absurd hleaps hnot

theorem takesAt_within {a b : ℤ} (hk : k ≤ compend) :
    TakesAt a (some b) comp compend k ↔
      a ≤ shownAt comp compend k ∧ (shownAt comp compend k : ℤ) ≤ b := by
  constructor
  · exact fun h ↦ ⟨h.1 hk, h.2 b rfl⟩
  · rintro ⟨hlow, hhigh⟩
    refine ⟨fun _ ↦ hlow, ?_⟩
    intro b' hb'
    rw [← Option.some.inj hb']
    exact hhigh

/-- What the accumulator of the nodes with an end holds. -/
def gathered (s : Bytes) : ℕ := gather 10 zrangeMax (digitRun s)

theorem gathered_eq (h : prefixNumber s (digitRun s).length < 2 ^ 63) :
    gathered s = prefixNumber s (digitRun s).length := by
  unfold prefixNumber at h ⊢
  rw [take_length] at h ⊢
  exact gather_eq_value (by decide) (Nat.le_pred_of_lt h)

/-- A run that is too long for the type, and its accumulator behind it. -/
theorem shownAt_behind (h : 2 ^ 63 ≤ prefixNumber s (digitRun s).length)
    (hk : k < (digitRun s).length) :
    shownAt (gathered s) (digitRun s).length (k + 1) ≤ prefixNumber s k := by
  unfold prefixNumber at h
  rw [take_length] at h
  have hover : zrangeMax < value 10 (digitRun s) := by
    have hmax : zrangeMax = 2 ^ 63 - 1 := rfl
    omega
  have hle := gather_div_le (by decide) (digitRun_lt s) hover
    (i := (digitRun s).length - (k + 1)) (by omega)
  have hplace : (digitRun s).length - 1 - ((digitRun s).length - (k + 1)) = k := by omega
  rwa [hplace] at hle

theorem over_value (h : 2 ^ 63 ≤ prefixNumber s (digitRun s).length) :
    zrangeMax < value 10 (digitRun s) := by
  have hmax : zrangeMax = 2 ^ 63 - 1 := rfl
  unfold prefixNumber at h
  rw [take_length] at h
  omega

/-- Within the run the number is in the range. -/
def MeetsRange (s : Bytes) (a b : ℕ) : Prop :=
  ∃ k ≤ (digitRun s).length, a ≤ prefixNumber s k ∧ prefixNumber s k ≤ b

/-- Behind the size of the type the accumulator reaches a number of a prefix one digit late. -/
theorem exists_wrong (hb : b < 2 ^ 63)
    (hover : 2 ^ 63 ≤ prefixNumber s (digitRun s).length) (h : MeetsRange s a b) :
    ∃ k, 1 ≤ k ∧ k ≤ (digitRun s).length ∧
      ¬ (TakesAt a (some b) (gathered s) (digitRun s).length k ↔
        a ≤ prefixNumber s k ∧ prefixNumber s k ≤ b) := by
  obtain ⟨j, hj, hlow, hhigh⟩ := h
  cases a with
  | zero =>
    -- The first number beyond the end is not noticed.
    obtain ⟨k, hk, hbelow, habove⟩ := exists_first_large s (Nat.succ_pos b)
      ((Nat.succ_le_of_lt hb).trans hover)
    have hshown := shownAt_behind hover hk
    have hk : k + 1 ≤ (digitRun s).length := hk
    refine ⟨k + 1, by omega, hk, ?_⟩
    rw [takesAt_within hk]
    omega
  | succ a =>
    -- The first number behind the start is not reached.
    obtain ⟨k, hk, hbelow, habove⟩ := exists_first_large s (Nat.succ_pos a) hlow
    have hmono := prefixNumber_mono s (Nat.succ_le_of_lt hk)
    rw [Nat.succ_eq_add_one] at hmono
    have hshown := shownAt_behind hover (hk.trans_le hj)
    refine ⟨k + 1, by omega, by omega, ?_⟩
    rw [takesAt_within (by omega)]
    omega

theorem gathered_within (hover : 2 ^ 63 ≤ prefixNumber s (digitRun s).length)
    (hmeets : ¬ MeetsRange s a b) (hk : k ≤ (digitRun s).length)
    (hshown : a ≤ shownAt (gathered s) (digitRun s).length k ∧
      shownAt (gathered s) (digitRun s).length k ≤ b) :
    k = (digitRun s).length ∧ LeavesOut 10 zrangeMax (digitRun s) (gathered s) := by
  obtain ⟨j, hj, hvalue⟩ | ⟨hend, hleaves⟩ := gather_div_cases (by decide) (by decide)
    (digitRun_lt s) (over_value hover) _
  · exfalso
    apply hmeets
    have hsame : shownAt (gathered s) (digitRun s).length k = prefixNumber s j := hvalue
    rw [hsame] at hshown
    exact ⟨j, hj, hshown⟩
  · exact ⟨by omega, hleaves⟩

theorem within_iff (hb : b < 2 ^ 63) :
    (∀ k, 1 ≤ k → k ≤ (digitRun s).length →
      (TakesAt a (some b) (gathered s) (digitRun s).length k ↔
        a ≤ prefixNumber s k ∧ prefixNumber s k ≤ b)) ↔
      prefixNumber s (digitRun s).length < 2 ^ 63 ∨
        ¬ MeetsRange s a b ∧
          ∀ x, LeavesOut 10 zrangeMax (digitRun s) x → ¬ (a ≤ x ∧ x ≤ b) := by
  by_cases hfits : prefixNumber s (digitRun s).length < 2 ^ 63
  · rw [or_iff_left_of_imp fun _ ↦ hfits]
    apply iff_of_true _ hfits
    intro k _ hk
    rw [takesAt_within hk, gathered_eq hfits, shownAt_whole s le_rfl hk, Nat.cast_le, Nat.cast_le]
  · have hover := not_lt.mp hfits
    rw [or_iff_right hfits]
    have hlast : shownAt (gathered s) (digitRun s).length (digitRun s).length = gathered s := by
      rw [shownAt, Nat.sub_self, pow_zero, Nat.div_one]
    constructor
    · intro h
      have hmeets : ¬ MeetsRange s a b := by
        intro hmeets
        obtain ⟨k, hlow, hhigh, hwrong⟩ := exists_wrong hb hover hmeets
        exact hwrong (h k hlow hhigh)
      refine ⟨hmeets, ?_⟩
      intro x hleaves hx
      have hgather : gathered s = x := hleaves.gather_eq (by decide) (by decide)
      have hpos : 1 ≤ (digitRun s).length := by
        apply Nat.pos_of_ne_zero
        intro hzero
        rw [hzero, prefixNumber_zero] at hover
        omega
      have htaken : TakesAt a (some b) (gathered s) (digitRun s).length (digitRun s).length := by
        rw [takesAt_within le_rfl, hlast, hgather, Nat.cast_le, Nat.cast_le]
        exact hx
      exact hmeets ⟨_, le_rfl, (h _ hpos le_rfl).mp htaken⟩
    · rintro ⟨hmeets, hleaves⟩ k _ hk
      apply iff_of_false
      · intro htakes
        rw [takesAt_within hk, Nat.cast_le, Nat.cast_le] at htakes
        obtain ⟨rfl, hout⟩ := gathered_within hover hmeets hk htakes
        rw [hlast] at htakes
        exact hleaves _ hout htakes
      · exact fun hin ↦ hmeets ⟨k, hk, hin⟩

theorem range_matchesAt_iff (hb : b < 2 ^ 63) {first last : Zlong}
    (hfirst : first.toInt = a) (hlast : last.toInt = b) :
    (NumNode.range first last).MatchesAt s (fun x ↦ a ≤ x ∧ x ≤ b) ↔
      prefixNumber s (digitRun s).length < 2 ^ 63 ∨
        ¬ MeetsRange s a b ∧
          ∀ x, LeavesOut 10 zrangeMax (digitRun s) x → ¬ (a ≤ x ∧ x ≤ b) := by
  have hnode (next : Continuation) : patmatchNumber (.range first last) next s =
      giveBack a (some b) next s (digitRun s).length (digitRun s).length (gathered s) false := by
    rw [← hfirst, ← hlast]
    simp only [patmatchNumber, scanNumber_below]
    rfl
  rw [matchesAt_of_takes le_rfl hnode, within_iff hb]

theorem below_matchesAt_iff (hb : b < 2 ^ 63) {last : Zlong} (hlast : last.toInt = b) :
    (NumNode.below last).MatchesAt s (· ≤ b) ↔
      prefixNumber s (digitRun s).length < 2 ^ 63 := by
  have hnode (next : Continuation) : patmatchNumber (.below last) next s =
      giveBack (0 : ℕ) (some b) next s (digitRun s).length (digitRun s).length (gathered s)
        false := by
    rw [← hlast]
    simp only [patmatchNumber, scanNumber_below]
    rfl
  have hmeets : MeetsRange s 0 b := ⟨0, Nat.zero_le _, Nat.zero_le _, Nat.zero_le _⟩
  have hwithin := within_iff (s := s) (a := 0) hb
  rw [or_iff_left fun h ↦ h.1 hmeets] at hwithin
  rw [matchesAt_of_takes le_rfl hnode, ← hwithin]
  simp only [Nat.zero_le, true_and]

/-! ## The text of a range -/

/-- A number of at most 63 bits. -/
def SmallNumber (digits : Bytes) : Prop :=
  digits ≠ [] ∧ (∀ c ∈ digits, idigit c = true) ∧ digitsNumber digits < 2 ^ 63

/-- `<a-b>` behind its first character, where each number may be missing. -/
structure NumText where
  first : Option Bytes
  last : Option Bytes
  dash : UInt8
  first_small : ∀ digits ∈ first, SmallNumber digits
  last_small : ∀ digits ∈ last, SmallNumber digits
  isDash_dash : isDash dash = true

namespace NumText

variable (p : NumText)

def text : Bytes := p.first.getD [] ++ p.dash :: (p.last.getD [] ++ [outangToken])

/-- The numbers of the range. -/
def Contains (x : ℕ) : Prop :=
  (∀ digits ∈ p.first, digitsNumber digits ≤ x) ∧ ∀ digits ∈ p.last, x ≤ digitsNumber digits

/-- The range matches a string in front of whatever follows it when some number at the head of the
string is in the range, and what follows accepts the rest. -/
def MatchesRange (s : Bytes) : Prop :=
  ∀ behind, ∃ node, patcompInang (p.text ++ behind) = some (node, behind) ∧
    node.MatchesAt s p.Contains

/-- The condition for that: with a first number only, the number does not pass both sizes with one
digit; with a last number, it fits into the type, or no number that the node can see is in the
range. -/
def Keeps (s : Bytes) : Prop :=
  match p.first, p.last with
  | none, none => True
  | some first, none => digitsNumber first = 0 ∨ ¬ Leaps s
  | none, some _ => prefixNumber s (digitRun s).length < 2 ^ 63
  | some first, some last => prefixNumber s (digitRun s).length < 2 ^ 63 ∨
      ¬ MeetsRange s (digitsNumber first) (digitsNumber last) ∧
        ∀ x, LeavesOut 10 zrangeMax (digitRun s) x →
          ¬ (digitsNumber first ≤ x ∧ x ≤ digitsNumber last)

/-! ### Compilation -/

theorem fitsZlong_of_lt {n : ℕ} (h : n < 2 ^ 63) : fitsZlong (n : ℤ) = true := by
  unfold fitsZlong
  rw [Bool.and_eq_true, decide_eq_true_eq, decide_eq_true_eq]
  omega

theorem rangeNumber_append {number : Option Bytes} (h : ∀ digits ∈ number, SmallNumber digits)
    {rest : Bytes} (hrest : rest.head?.any idigit = false) :
    rangeNumber (number.getD [] ++ rest) =
      some (number.map fun digits ↦ BitVec.ofInt 64 (digitsNumber digits), rest) := by
  unfold rangeNumber
  cases number with
  | none =>
    rw [Option.getD_none, nil_append, if_neg (ne_true_of_eq_false hrest)]
    rfl
  | some digits =>
    obtain ⟨hne, hdigits, hsmall⟩ := h digits rfl
    obtain ⟨c, more, hcons, hc⟩ := idigit_head hne hdigits
    have hhead : (digits ++ rest).head?.any idigit = true := by
      rw [hcons]
      exact hc
    rw [Option.getD_some, if_pos hhead,
      zstrtol_integer (.plain hne hdigits) (fitsZlong_of_lt hsmall) hrest]
    rfl

/-- The node for two numbers, each of which may be missing. -/
def node : NumNode :=
  match p.first, p.last with
  | none, none => .any
  | some first, none => .above (BitVec.ofInt 64 (digitsNumber first))
  | none, some last => .below (BitVec.ofInt 64 (digitsNumber last))
  | some first, some last =>
    .range (BitVec.ofInt 64 (digitsNumber first)) (BitVec.ofInt 64 (digitsNumber last))

theorem patcompInang_text (behind : Bytes) :
    patcompInang (p.text ++ behind) = some (p.node, behind) := by
  have hsplit : p.text ++ behind =
      p.first.getD [] ++ (p.dash :: (p.last.getD [] ++ outangToken :: behind)) := by
    unfold text
    simp only [append_assoc, cons_append, nil_append]
  have hdash : (p.dash :: (p.last.getD [] ++ outangToken :: behind)).head?.any idigit = false :=
    (not_digit_of_dash p.dash p.isDash_dash).1
  have hclose : (outangToken :: behind).head?.any idigit = false := by
    have h : idigit outangToken = false := by decide
    exact h
  unfold patcompInang
  rw [hsplit, rangeNumber_append p.first_small hdash]
  dsimp only
  rw [tail_cons, rangeNumber_append p.last_small hclose]
  dsimp only
  rw [if_pos List.head?_cons, node, tail_cons]
  cases p.first with
  | none =>
    cases p.last with
    | none => rfl
    | some _ => rfl
  | some _ =>
    cases p.last with
    | none => rfl
    | some _ => rfl

/-! ### The condition -/

/-- Numeric ranges match the numbers of the range under exactly this condition. -/
theorem matchesRange_iff (s : Bytes) : p.MatchesRange s ↔ p.Keeps s := by
  have hnode : p.MatchesRange s ↔ p.node.MatchesAt s p.Contains := by
    constructor
    · intro h
      obtain ⟨node, hcompiled, hmatches⟩ := h []
      rw [p.patcompInang_text] at hcompiled
      obtain ⟨rfl, -⟩ := Prod.mk.inj (Option.some.inj hcompiled)
      exact hmatches
    · exact fun h behind ↦ ⟨p.node, p.patcompInang_text behind, h⟩
  have hnumber {n : ℕ} (h : n < 2 ^ 63) : (BitVec.ofInt 64 (n : ℤ)).toInt = n :=
    toInt_of_fits (fitsZlong_of_lt h)
  rw [hnode]
  obtain ⟨first, last, dash, hfirst, hlast, hdash⟩ := p
  cases first with
  | none =>
    cases last with
    | none =>
      apply iff_of_true _ trivial
      have hcontains : Contains ⟨none, none, dash, hfirst, hlast, hdash⟩ = fun _ ↦ True := by
        funext x
        exact eq_true ⟨nofun, nofun⟩
      rw [hcontains]
      exact any_matchesAt
    | some last =>
      have hsmall := (hlast last rfl).2.2
      have hcontains : Contains ⟨none, some last, dash, hfirst, hlast, hdash⟩ =
          fun x ↦ x ≤ digitsNumber last := by
        funext x
        simp [Contains]
      rw [hcontains]
      exact below_matchesAt_iff hsmall (hnumber hsmall)
  | some first =>
    have hsmall := (hfirst first rfl).2.2
    cases last with
    | none =>
      have hcontains : Contains ⟨some first, none, dash, hfirst, hlast, hdash⟩ =
          fun x ↦ digitsNumber first ≤ x := by
        funext x
        simp [Contains]
      rw [hcontains]
      exact above_matchesAt_iff hsmall (hnumber hsmall)
    | some last =>
      have hsmall' := (hlast last rfl).2.2
      have hcontains : Contains ⟨some first, some last, dash, hfirst, hlast, hdash⟩ =
          fun x ↦ digitsNumber first ≤ x ∧ x ≤ digitsNumber last := by
        funext x
        simp [Contains]
      rw [hcontains]
      exact range_matchesAt_iff hsmall' (hnumber hsmall) (hnumber hsmall')

/-- `<2000000000000000000->`. -/
def fromLarge : NumText where
  first := some (char '2' :: List.replicate 18 (char '0'))
  last := none
  dash := char '-'
  first_small := by
    intro digits h
    rw [← Option.some.inj h]
    exact ⟨by decide, by decide, by decide⟩
  last_small := nofun
  isDash_dash := by decide

/-- The number `10 ^ 19` is not found to be larger than `2 * 10 ^ 18`. -/
theorem not_matchesRange : ¬ ∀ (p : NumText) (s : Bytes), p.MatchesRange s := by
  intro h
  let s : Bytes := char '1' :: List.replicate 19 (char '0')
  obtain ⟨node, hcompiled, hmatches⟩ := h fromLarge s []
  obtain ⟨rfl, -⟩ := Prod.mk.inj (Option.some.inj hcompiled)
  have hshould : patmatchNumber fromLarge.node (.only []) s = true := by
    apply (hmatches (.only [])).mpr
    refine ⟨20, by decide, by decide, ⟨?_, nofun⟩, by decide⟩
    intro digits hdigits
    rw [← Option.some.inj hdigits]
    decide
  cases hshould

end NumText

end Bsh.Shell
