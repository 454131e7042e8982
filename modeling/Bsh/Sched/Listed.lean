import Bsh.Library.Decimal
import Bsh.Sched.Events
import Mathlib.Data.List.TakeWhile

/-!
# Listed times

`sched` lists the time of an event as a BrightDate with six decimals, and reads such a date as the
time of a new event.  A millionth of a day is `54 / 625` of a second.  Reading a date drops what is
left of a second, so that the listed time of an event comes back where it was rounded away from the
start of the epoch, and is a second off where it was rounded towards it.
-/

namespace Bsh.Sched

open Bsh.Library Bsh.Library.Binary64 Bsh.Library.Decimal Bsh.Shell List

/-- BrightDate counts days since an epoch, and `strtod` reads a number and leaves what is behind
it. -/
structure Brightdate where
  epoch : ℤ
  strtod : Bytes → ℚ × Bytes
  strtod_decimal (negative : Bool) (whole : ℕ) {frac : ℕ} (hfrac : frac < 10 ^ 6) :
    strtod ((if negative then [char '-'] else []) ++ decimal whole ++ [char '.'] ++
      padded 6 frac) = ((if negative then (-1 : ℚ) else 1) * (whole + frac / 10 ^ 6), [])

/-- `(time_t)`, which drops what is behind the point. -/
def timeOf (q : ℚ) : ℤ := if 0 ≤ q then ⌊q⌋ else ⌈q⌉

namespace Brightdate

variable (b : Brightdate)

/-- `bsh_unix_to_brightdate`. -/
def ofUnix (u : ℚ) : ℚ := (u - b.epoch) / 86400

/-- `bsh_brightdate_to_unix`. -/
def toUnix (bd : ℚ) : ℚ := bd * 86400 + b.epoch

/-- An absolute date of `bin_sched`. -/
def time (s : Bytes) : Option ℤ :=
  let (bd, rest) := b.strtod s
  if rest ≠ [] then none else some (timeOf (b.toUnix bd))

/-- `tbuf`, which has room for the date of every `time_t`. -/
def listedTime (t : ℤ) : Bytes := fixed6 (b.ofUnix t)

def host (other : SchedHost) : SchedHost := { other with brightdate := b.time }

end Brightdate

/-! ## The text of a date -/

variable (b : Brightdate) (q : ℚ) (t : ℤ)

theorem fixed6_eq :
    fixed6 q = (if decide (q < 0) then [char '-'] else []) ++
      decimal ((roundEven (|q| * 10 ^ 6)).toNat / 10 ^ 6) ++ [char '.'] ++
      padded 6 ((roundEven (|q| * 10 ^ 6)).toNat % 10 ^ 6) := by
  unfold fixed6 fixed6Codes decimal padded codeBytes
  by_cases hq : q < 0
  · simp [hq, char]
  · simp [hq, char]

set_option maxRecDepth 4000 in
/-- A listed date is not a relative time, and not a time of day. -/
theorem fixed6_date :
    headIs '+' (fixed6 q) = false ∧ char '.' ∈ fixed6 q ∧ char ':' ∉ fixed6 q := by
  have hplus : ∀ c, idigit c = true → c ≠ char '+' ∧ c ≠ char ':' :=
    Bytes.forall_byte (by decide)
  have hwhole {n : ℕ} : ∀ c ∈ decimal n, c ≠ char '+' ∧ c ≠ char ':' :=
    fun c hc ↦ hplus c (idigit_of_mem_decimal hc)
  have hfrac {n : ℕ} : ∀ c ∈ padded 6 n, c ≠ char '+' ∧ c ≠ char ':' :=
    fun c hc ↦ hplus c (idigit_of_mem_padded hc)
  have hall : ∀ c ∈ fixed6 q, c ≠ char '+' ∧ c ≠ char ':' := by
    intro c hc
    rw [fixed6_eq, mem_append, mem_append, mem_append] at hc
    rcases hc with ((hc | hc) | hc) | hc
    · split at hc
      · rw [List.mem_singleton.mp hc]
        decide
      · exact absurd hc not_mem_nil
    · exact hwhole c hc
    · rw [List.mem_singleton.mp hc]
      decide
    · exact hfrac c hc
  have hpoint : char '.' ∈ fixed6 q := by
    rw [fixed6_eq]
    simp
  refine ⟨?_, hpoint, fun hcolon ↦ (hall _ hcolon).2 rfl⟩
  rw [Bool.eq_false_iff]
  intro hhead
  exact (hall _ (mem_of_mem_head? (of_decide_eq_true hhead))).1 rfl

/-- `strtod` gives the number that a listed date shows. -/
theorem Brightdate.strtod_fixed6 :
    b.strtod (fixed6 q) = (fixed6Value q, []) := by
  set scaled := (roundEven (|q| * 10 ^ 6)).toNat with hscaled
  have hcast : (scaled : ℚ) = roundEven (|q| * 10 ^ 6) := by
    have hnonneg : 0 ≤ roundEven (|q| * 10 ^ 6) := roundEven_nonneg (by positivity)
    exact_mod_cast Int.toNat_of_nonneg hnonneg
  have hsplit : ((scaled / 10 ^ 6 : ℕ) : ℚ) + (scaled % 10 ^ 6 : ℕ) / 10 ^ 6 =
      scaled / 10 ^ 6 := by
    have h := Nat.div_add_mod scaled (10 ^ 6)
    have h' : (10 : ℚ) ^ 6 * (scaled / 10 ^ 6 : ℕ) + (scaled % 10 ^ 6 : ℕ) = scaled := by
      exact_mod_cast h
    rw [← h']
    ring
  rw [fixed6_eq, b.strtod_decimal _ _ (Nat.mod_lt _ (by norm_num)), ← hscaled, hsplit, hcast,
    fixed6Value]
  by_cases hq : q < 0
  · have hneg : q * 10 ^ 6 = -(|q| * 10 ^ 6) := by
      rw [abs_of_neg hq]
      ring
    rw [if_pos (decide_eq_true hq), hneg, roundEven_neg]
    push_cast
    ring
  · rw [if_neg (by simpa using hq), abs_of_nonneg (not_lt.mp hq), one_mul]

/-! ## Reading a listed date -/

/-- Millionths of a day between the epoch and a time, rounded. -/
def ticks (b : Brightdate) (t : ℤ) : ℤ := roundEven ((625 * (t - b.epoch) : ℤ) / (54 : ℕ))

theorem Brightdate.toUnix_listed :
    b.toUnix (fixed6Value (b.ofUnix t)) =
      t + ((54 * ticks b t - 625 * (t - b.epoch) : ℤ) : ℚ) / 625 := by
  have hscale : b.ofUnix t * 10 ^ 6 = (625 * (t - b.epoch) : ℤ) / (54 : ℕ) := by
    unfold Brightdate.ofUnix
    push_cast
    ring
  unfold Brightdate.toUnix fixed6Value
  rw [hscale, ← ticks]
  push_cast
  ring

theorem schedTime_listed (other : SchedHost) (now later t : ℤ) :
    schedTime (b.host other) now later (b.listedTime t) =
      some (timeOf (t + ((54 * ticks b t - 625 * (t - b.epoch) : ℤ) : ℚ) / 625)) := by
  obtain ⟨hplus, hpoint, hcolon⟩ := fixed6_date (b.ofUnix t)
  have hread : b.time (b.listedTime t) = some (timeOf (b.toUnix (fixed6Value (b.ofUnix t)))) := by
    simp [Brightdate.time, Brightdate.listedTime, b.strtod_fixed6]
  rw [← b.toUnix_listed, ← hread]
  unfold schedTime
  rw [if_neg (by simp [Brightdate.listedTime, hplus])]
  exact if_pos ⟨hpoint, hcolon⟩

/-- `--` keeps a date before the epoch from being read as an option. -/
theorem addedTime_listed (other : SchedHost) (now later t : ℤ) (c : Bytes)
    (cmd : List Bytes) :
    addedTime (b.host other) (.sched now later (Bytes.ascii "--" :: b.listedTime t :: c :: cmd)) =
      schedTime (b.host other) now later (b.listedTime t) := by
  rfl

/-- Dropping what is behind the point undoes a shift away from zero only. -/
theorem timeOf_shifted {e : ℚ} (he : |e| < 1) :
    timeOf (t + e) = t ↔ t = 0 ∨ 0 < t ∧ 0 ≤ e ∨ t < 0 ∧ e ≤ 0 := by
  obtain ⟨hlow, hhigh⟩ := abs_lt.mp he
  unfold timeOf
  rcases lt_trichotomy t 0 with ht | ht | ht
  · have hcast : (t : ℚ) ≤ -1 := by exact_mod_cast Int.le_sub_one_of_lt ht
    rw [if_neg (by linarith), Int.ceil_eq_iff]
    constructor
    · rintro ⟨-, hle⟩
      exact .inr (.inr ⟨ht, by linarith⟩)
    · rintro (h | h | h)
      · omega
      · omega
      · constructor <;> linarith [h.2]
  · subst ht
    simp only [Int.cast_zero, zero_add, true_or, iff_true]
    split
    · next h =>
      rw [Int.floor_eq_iff]
      push_cast
      constructor <;> linarith
    · next h =>
      rw [Int.ceil_eq_iff]
      push_cast
      constructor <;> linarith
  · have hcast : (1 : ℚ) ≤ t := by exact_mod_cast ht
    rw [if_pos (by linarith), Int.floor_eq_iff]
    constructor
    · rintro ⟨hle, -⟩
      exact .inr (.inl ⟨ht, by linarith⟩)
    · rintro (h | h | h)
      · omega
      · constructor <;> linarith [h.2]
      · omega

/-! ## Which times come back -/

/-- The rounded date is not before the time. -/
def RoundedUp (w : ℤ) : Prop := w = 0 ∨ 27 < w ∧ w ≤ 54 ∨ 81 ≤ w

/-- The rounded date is not behind the time. -/
def RoundedDown (w : ℤ) : Prop := w ≤ 27 ∨ 54 ≤ w ∧ w < 81

/-- Two millionths of a day are 108 parts of a time, and the half of them decides a tie. -/
theorem ticks_shift :
    (0 ≤ 54 * ticks b t - 625 * (t - b.epoch) ↔ RoundedUp (625 * (t - b.epoch) % 108)) ∧
    (54 * ticks b t - 625 * (t - b.epoch) ≤ 0 ↔ RoundedDown (625 * (t - b.epoch) % 108)) ∧
    |54 * ticks b t - 625 * (t - b.epoch)| ≤ 27 := by
  unfold ticks RoundedUp RoundedDown
  generalize 625 * (t - b.epoch) = n
  rw [roundEven_div n (by norm_num : 0 < 54)]
  split
  · grind
  · split
    · grind
    · split <;> grind

/-- The event that is scheduled with a listed date has the time of the listed event. -/
def Relisted (b : Brightdate) (other : SchedHost) (now later : ℤ) (cmd : List Bytes) (t : ℤ) :
    Prop :=
  addedTime (b.host other) (.sched now later (Bytes.ascii "--" :: b.listedTime t :: cmd)) = some t

theorem relisted_iff (b : Brightdate) (other : SchedHost) (now later : ℤ) (c : Bytes)
    (cmd : List Bytes) (t : ℤ) :
    Relisted b other now later (c :: cmd) t ↔
      t = 0 ∨ 0 < t ∧ RoundedUp (625 * (t - b.epoch) % 108) ∨
        t < 0 ∧ RoundedDown (625 * (t - b.epoch) % 108) := by
  obtain ⟨hup, hdown, hsmall⟩ := ticks_shift b t
  set e : ℤ := 54 * ticks b t - 625 * (t - b.epoch) with he
  have hclose : |(e : ℚ) / 625| < 1 := by
    have hcast : |(e : ℚ)| ≤ 27 := by exact_mod_cast hsmall
    rw [abs_div, abs_of_pos (by norm_num : (0 : ℚ) < 625), div_lt_one (by norm_num)]
    linarith
  have hnonneg : 0 ≤ (e : ℚ) / 625 ↔ 0 ≤ e := by
    rw [le_div_iff₀ (by norm_num), zero_mul]
    exact Int.cast_nonneg_iff
  have hnonpos : (e : ℚ) / 625 ≤ 0 ↔ e ≤ 0 := by
    rw [div_le_iff₀ (by norm_num), zero_mul]
    exact Int.cast_nonpos
  unfold Relisted
  rw [addedTime_listed, schedTime_listed, ← he, Option.some_inj, timeOf_shifted t hclose, hnonneg,
    hnonpos, hup, hdown]

/-- `strtod` of a sign, digits, and digits behind a point. -/
def plainDecimal (s : Bytes) : ℚ × Bytes :=
  let body := if headIs '-' s then s.tail else s
  let rest := body.dropWhile idigit
  let frac := if headIs '.' rest then rest.tail.takeWhile idigit else []
  ((if headIs '-' s then (-1 : ℚ) else 1) *
      (digitsFrom 0 (body.takeWhile idigit) + digitsFrom 0 frac / 10 ^ frac.length),
    if headIs '.' rest then rest.tail.dropWhile idigit else rest)

theorem plainDecimal_decimal (negative : Bool) (whole : ℕ) {frac : ℕ} (hfrac : frac < 10 ^ 6) :
    plainDecimal ((if negative then [char '-'] else []) ++ decimal whole ++ [char '.'] ++
      padded 6 frac) = ((if negative then (-1 : ℚ) else 1) * (whole + frac / 10 ^ 6), []) := by
  set text := decimal whole ++ char '.' :: padded 6 frac with htext
  have hdigit : ∀ c ∈ decimal whole, idigit c = true := fun c ↦ idigit_of_mem_decimal
  have hpoint : idigit (char '.') = false := by decide
  set s := (if negative then [char '-'] else []) ++ text with hs
  have hsign : headIs '-' s = negative := by
    cases negative with
    | false =>
      rw [headIs, decide_eq_false_iff_not, hs, htext]
      intro hdash
      have hmem := mem_of_mem_head? hdash
      simp only [Bool.false_eq_true, if_false, nil_append, mem_append,
        mem_cons] at hmem
      rcases hmem with h | h | h
      · exact absurd (hdigit _ h) (by decide)
      · exact absurd h (by decide)
      · exact absurd (idigit_of_mem_padded h) (by decide)
    | true => rfl
  have htail : (if negative then s.tail else s) = text := by
    cases negative with
    | false => rfl
    | true => rfl
  have hwhole : text.takeWhile idigit = decimal whole := by
    rw [htext, takeWhile_append_of_pos hdigit]
    simp [hpoint]
  have hrest : text.dropWhile idigit = char '.' :: padded 6 frac := by
    rw [htext, dropWhile_append_of_pos hdigit]
    simp [hpoint]
  have hfrac' : (padded 6 frac).takeWhile idigit = padded 6 frac :=
    List.takeWhile_eq_self_iff.mpr fun c ↦ idigit_of_mem_padded
  have hend : (padded 6 frac).dropWhile idigit = [] :=
    List.dropWhile_eq_nil_iff.mpr fun c ↦ idigit_of_mem_padded
  have hlength : (padded 6 frac).length = 6 := by
    rw [padded, codeBytes, length_map, paddedCodes_length]
  have hhead : headIs '.' (char '.' :: padded 6 frac) = true := by
    simp [headIs]
  rw [append_assoc, append_assoc, singleton_append, ← htext, ← hs, plainDecimal,
    hsign, htail]
  simp only [hwhole, hrest, hhead, if_true, tail_cons, hfrac', hend, hlength,
    digitsFrom_decimal, digitsFrom_padded, Nat.mod_eq_of_lt hfrac]

/-- BrightDate with its epoch, noon of the first of January 2000. -/
def j2000 : Brightdate := ⟨946728000, plainDecimal, plainDecimal_decimal⟩

/-- Two seconds behind the epoch are listed as `0.000023`, which is less than two seconds. -/
theorem j2000_not_relisted :
    ¬ ∀ (b : Brightdate) (other : SchedHost) (now later : ℤ) (cmd : List Bytes) (t : ℤ),
      Relisted b other now later (Bytes.ascii "ls" :: cmd) t := by
  intro h
  have hread := h j2000 ⟨fun _ ↦ none, fun _ ↦ none, id⟩ 0 0 [] 946728002
  rw [Relisted, addedTime_listed, schedTime_listed, Option.some_inj] at hread
  have hticks : ticks j2000 946728002 = 23 := by
    rw [ticks, roundEven_div _ (by norm_num)]
    decide
  rw [hticks, timeOf_shifted] at hread
  · norm_num [j2000] at hread
  · norm_num [j2000, abs_lt]

end Bsh.Sched
