import Mathlib.Data.Int.Log
import Mathlib.Data.Rat.Floor
import Mathlib.Data.Nat.Digits.Lemmas
import Mathlib.Tactic.Linarith
import Mathlib.Tactic.FieldSimp
import Mathlib.Tactic.NormNum

/-!
# Binary64 numbers as rationals

A finite binary64 number is represented by its exact rational value.  `round` is the conversion of
an exact rational to the nearest binary64 number, ties to even, with overflow to infinity; it is
what a conforming reader makes of a decimal literal.  Natural numbers below `2 ^ 53` are unchanged.

`roundEven` is also the rounding of `printf`'s `%.6f`.
-/

namespace Bsh.Library

/-- A number of a language whose numbers are binary64, `NaN` excepted. -/
inductive Number where
  | finite (value : ℚ)
  | infinite (negative : Bool)
  deriving DecidableEq, Repr

namespace Binary64

/-- The nearest integer, ties to even. -/
def roundEven (q : ℚ) : ℤ :=
  if q - ⌊q⌋ < 1 / 2 then ⌊q⌋
  else if 1 / 2 < q - ⌊q⌋ then ⌊q⌋ + 1
  else if ⌊q⌋ % 2 = 0 then ⌊q⌋ else ⌊q⌋ + 1

/-- The exponent of the last place of the binary64 numbers of the magnitude of `q`. -/
def lastPlace (q : ℚ) : ℤ := max (Int.log 2 |q| - 52) (-1074)

/-- The nearest binary64 number. -/
def round (q : ℚ) : Number :=
  let place : ℚ := 2 ^ lastPlace q
  let significand := roundEven (q / place)
  if (2 : ℚ) ^ (1024 : ℤ) ≤ |significand * place| then .infinite (q < 0)
  else .finite (significand * place)

@[simp]
theorem roundEven_intCast (n : ℤ) : roundEven n = n := by
  simp [roundEven]

theorem abs_roundEven_sub_le (q : ℚ) : |(roundEven q : ℚ) - q| ≤ 1 / 2 := by
  have hfloor : (⌊q⌋ : ℚ) ≤ q := Int.floor_le q
  have hlt : q < ⌊q⌋ + 1 := Int.lt_floor_add_one q
  rw [abs_le]
  unfold roundEven
  split
  · next h => constructor <;> linarith
  · next h =>
    split
    · next h' => push_cast; constructor <;> linarith
    · next h' =>
      split
      · constructor <;> linarith
      · push_cast; constructor <;> linarith

theorem roundEven_nonneg {q : ℚ} (hq : 0 ≤ q) : 0 ≤ roundEven q := by
  have hclose := abs_le.mp (abs_roundEven_sub_le q)
  have hlow : (-1 : ℚ) < roundEven q := by linarith [hclose.1]
  have hint : (-1 : ℤ) < roundEven q := by exact_mod_cast hlow
  omega

theorem roundEven_neg (q : ℚ) : roundEven (-q) = -roundEven q := by
  by_cases hint : Int.fract q = 0
  · rw [Int.fract_eq_iff] at hint
    obtain ⟨-, -, n, hn⟩ := hint
    rw [sub_zero] at hn
    rw [hn, ← Int.cast_neg, roundEven_intCast, roundEven_intCast]
  · have hlow : (⌊q⌋ : ℚ) < q := by
      refine lt_of_le_of_ne (Int.floor_le q) fun heq ↦ hint ?_
      rw [← heq, Int.fract_intCast]
    have hhigh : q < ⌊q⌋ + 1 := Int.lt_floor_add_one q
    have hfloor : ⌊-q⌋ = -⌊q⌋ - 1 := by
      rw [Int.floor_eq_iff]
      push_cast
      constructor <;> linarith
    unfold roundEven
    rw [hfloor]
    push_cast
    split_ifs <;> first | omega | linarith

theorem roundEven_div (n : ℤ) {d : ℕ} (hd : 0 < d) :
    roundEven ((n : ℚ) / d) =
      if 2 * (n % d) < d then n / d
      else if d < 2 * (n % d) then n / d + 1
      else if n / d % 2 = 0 then n / d else n / d + 1 := by
  have hpos : (0 : ℚ) < d := Nat.cast_pos.mpr hd
  have hfloor : ⌊(n : ℚ) / d⌋ = n / d := Rat.floor_intCast_div_natCast n d
  have hrest : (n : ℚ) / d - (n / d : ℤ) = (n % d : ℤ) / d := by
    rw [sub_eq_iff_eq_add, div_add' _ _ _ hpos.ne']
    congr 1
    exact_mod_cast (Int.emod_add_ediv_mul n d).symm
  have hless : ((n % d : ℤ) : ℚ) / d < 1 / 2 ↔ 2 * (n % d) < d := by
    rw [div_lt_div_iff₀ hpos two_pos, mul_comm]
    norm_cast
    rw [one_mul]
  have hmore : (1 / 2 : ℚ) < ((n % d : ℤ) : ℚ) / d ↔ (d : ℤ) < 2 * (n % d) := by
    rw [div_lt_div_iff₀ two_pos hpos, mul_comm ((n % d : ℤ) : ℚ)]
    norm_cast
    rw [one_mul]
  unfold roundEven
  rw [hfloor, hrest, if_congr hless rfl (if_congr hmore rfl rfl)]

end Binary64

end Bsh.Library
