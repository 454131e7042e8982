import Mathlib.Data.List.Basic
import Mathlib.Data.List.Infix
import Mathlib.Data.Nat.Basic
import Mathlib.Tactic.Ring
import Mathlib.Tactic.Linarith

/-!
# Reading digits into an accumulator that wraps

A reader of numbers multiplies its accumulator by the base and adds the next digit, modulo a size
`N`.  It takes a smaller result for an overflow and keeps what it had.  What is too large for a
limit when all digits are read loses its last digit.  This module says for which digits the reader
notices that they are too many, and stops at the longest prefix below the limit.
-/

namespace Bsh.Library

open List

namespace Accumulator

/-! ## Values of digits -/

/-- The value of digits behind a value. -/
def valueFrom (b : ℕ) : ℕ → List ℕ → ℕ
  | v, [] => v
  | v, d :: ds => valueFrom b (b * v + d) ds

/-- The value of digits, the most significant first. -/
abbrev value (b : ℕ) (ds : List ℕ) : ℕ := valueFrom b 0 ds

variable {b N L : ℕ}

theorem valueFrom_append (v : ℕ) (front back : List ℕ) :
    valueFrom b v (front ++ back) = valueFrom b (valueFrom b v front) back := by
  induction front generalizing v with
  | nil => rfl
  | cons d front ih => exact ih _

theorem le_valueFrom (hb : 1 ≤ b) (v : ℕ) (ds : List ℕ) : v ≤ valueFrom b v ds := by
  induction ds generalizing v with
  | nil => exact le_rfl
  | cons d ds ih =>
    calc
      v ≤ b * v := Nat.le_mul_of_pos_left v hb
      _ ≤ b * v + d := Nat.le_add_right _ _
      _ ≤ valueFrom b v (d :: ds) := ih _

theorem value_take_le (hb : 1 ≤ b) (ds : List ℕ) {j k : ℕ} (h : j ≤ k) :
    value b (ds.take j) ≤ value b (ds.take k) := by
  obtain ⟨behind, hsplit⟩ := take_prefix_take_left h
  rw [← hsplit]
  calc
    value b (ds.take j) ≤ valueFrom b (value b (ds.take j)) behind := le_valueFrom hb _ _
    _ = value b (ds.take j ++ behind) := (valueFrom_append 0 _ _).symm

/-- The longest prefix whose value is within the limit has the value `x`. -/
def LongestWithin (b L : ℕ) (ds : List ℕ) (x : ℕ) : Prop :=
  ∃ k ≤ ds.length, value b (ds.take k) = x ∧ x ≤ L ∧
    ∀ j, k < j → j ≤ ds.length → L < value b (ds.take j)

variable {c x : ℕ} {front : List ℕ} (ds : List ℕ)

theorem longestWithin_all {ds : List ℕ} (h : value b ds ≤ L) :
    LongestWithin b L ds x ↔ x = value b ds := by
  constructor
  · rintro ⟨k, hk, hx, -, hlonger⟩
    obtain hlt | rfl := Nat.lt_or_eq_of_le hk
    · have hall := hlonger ds.length hlt le_rfl
      rw [take_length] at hall
      exact absurd h (not_le.mpr hall)
    · rw [← hx, take_length]
  · rintro rfl
    exact ⟨ds.length, le_rfl, by rw [take_length], h, fun j hj hj' ↦ absurd hj (not_lt.mpr hj')⟩

theorem longestWithin_split (hb : 1 ≤ b) {back : List ℕ} {e : ℕ} (h : value b front ≤ L)
    (hnext : L < value b (front ++ [e])) :
    LongestWithin b L (front ++ e :: back) x ↔ x = value b front := by
  have hfront : (front ++ e :: back).take front.length = front := take_left
  have hsucc : (front ++ e :: back).take (front.length + 1) = front ++ [e] := by
    rw [take_append, take_of_length_le (Nat.le_succ _), Nat.add_sub_cancel_left]
    rfl
  have hlength : front.length < (front ++ e :: back).length := by
    rw [length_append, length_cons]
    omega
  constructor
  · rintro ⟨k, hk, hx, hle, hlonger⟩
    obtain hlt | rfl | hgt := lt_trichotomy k front.length
    · have hfits := hlonger front.length hlt hlength.le
      rw [hfront] at hfits
      exact absurd h (not_le.mpr hfits)
    · rw [← hx, hfront]
    · have hmono := value_take_le hb (front ++ e :: back) (Nat.succ_le_of_lt hgt)
      rw [Nat.succ_eq_add_one, hsucc, hx] at hmono
      omega
  · rintro rfl
    refine ⟨front.length, hlength.le, by rw [hfront], h, fun j hj _ ↦ ?_⟩
    have hmono := value_take_le hb (front ++ e :: back) (Nat.succ_le_of_lt hj)
    rw [Nat.succ_eq_add_one, hsucc] at hmono
    exact hnext.trans_le hmono

/-! ## The reader -/

/-- The loop over the digits: the accumulator, and whether an overflow has been noticed. -/
def read (b N : ℕ) : List ℕ → ℕ → Bool → ℕ × Bool
  | [], acc, trunc => (acc, trunc)
  | d :: ds, acc, trunc =>
    if trunc ∨ (b * acc + d) % N < acc then read b N ds acc true
    else read b N ds ((b * acc + d) % N) false

/-- The number that is returned, and whether it was truncated. -/
def finish (b L : ℕ) (r : ℕ × Bool) : ℕ × Bool :=
  if !r.2 && L < r.1 then (r.1 / b, true) else r

theorem finish_le (r : ℕ × Bool) : (finish b L r).1 ≤ r.1 := by
  unfold finish
  split
  · exact Nat.div_le_self _ _
  · exact le_rfl

theorem read_trunc (c : ℕ) : read b N ds c true = (c, true) := by
  induction ds generalizing c with
  | nil => rfl
  | cons d ds ih =>
    exact ih c

theorem read_cons_of_lt {d : ℕ} (h : (b * c + d) % N < c) (ds : List ℕ) :
    read b N (d :: ds) c false = (c, true) := by
  rw [read, if_pos (.inr h), read_trunc]

theorem read_cons_of_le {d : ℕ} (h : c ≤ (b * c + d) % N) (ds : List ℕ) :
    read b N (d :: ds) c false = read b N ds ((b * c + d) % N) false := by
  rw [read, if_neg]
  rintro (h' | h')
  · cases h'
  · exact absurd h (not_le.mpr h')

theorem le_read (c : ℕ) : c ≤ (read b N ds c false).1 := by
  induction ds generalizing c with
  | nil => exact le_rfl
  | cons d ds ih =>
    by_cases h : (b * c + d) % N < c
    · rw [read_cons_of_lt h]
    · rw [read_cons_of_le (not_lt.mp h)]
      exact (not_lt.mp h).trans (ih _)

theorem read_lt (hc : c < N) : (read b N ds c false).1 < N := by
  induction ds generalizing c with
  | nil => exact hc
  | cons d ds ih =>
    by_cases h : (b * c + d) % N < c
    · rwa [read_cons_of_lt h]
    · rw [read_cons_of_le (not_lt.mp h)]
      exact ih (Nat.mod_lt _ (Nat.zero_lt_of_lt hc))

theorem read_append (hb : 1 ≤ b) (back : List ℕ) {v : ℕ}
    (h : valueFrom b v front < N) :
    read b N (front ++ back) v false = read b N back (valueFrom b v front) false := by
  induction front generalizing v with
  | nil => rfl
  | cons d front ih =>
    have hnext : b * v + d < N := (le_valueFrom hb _ front).trans_lt h
    have hmod : (b * v + d) % N = b * v + d := Nat.mod_eq_of_lt hnext
    have hle : v ≤ (b * v + d) % N := by
      rw [hmod]
      exact (Nat.le_mul_of_pos_left v hb).trans (Nat.le_add_right _ _)
    rw [cons_append, read_cons_of_le hle, hmod]
    exact ih h

/-- Every digit makes the accumulator larger or leaves it, and it stays below a bound. -/
def AscendsBelow (b N bound : ℕ) : ℕ → List ℕ → Prop
  | _, [] => True
  | c, d :: ds => c ≤ (b * c + d) % N ∧ (b * c + d) % N < bound ∧
      AscendsBelow b N bound ((b * c + d) % N) ds

theorem ascendsBelow_iff {bound : ℕ} (hc : c < bound) (ds : List ℕ) :
    AscendsBelow b N bound c ds ↔
      (read b N ds c false).2 = false ∧ (read b N ds c false).1 < bound := by
  induction ds generalizing c with
  | nil => exact iff_of_true trivial ⟨rfl, hc⟩
  | cons d ds ih =>
    by_cases h : (b * c + d) % N < c
    · rw [read_cons_of_lt h]
      exact iff_of_false (fun hasc ↦ absurd hasc.1 (not_le.mpr h)) (fun hread ↦ nomatch hread.1)
    · have hle := not_lt.mp h
      rw [read_cons_of_le hle]
      by_cases hnext : (b * c + d) % N < bound
      · rw [← ih hnext]
        exact ⟨fun hasc ↦ hasc.2.2, fun hasc ↦ ⟨hle, hnext, hasc⟩⟩
      · refine iff_of_false (fun hasc ↦ hnext hasc.2.1) (fun hread ↦ ?_)
        exact hnext ((le_read ds _).trans_lt hread.2)

/-- An overflow is noticed exactly where the value of a prefix, modulo the size, is smaller than
the one before. -/
theorem read_snd_iff (v : ℕ) :
    (read b N ds (v % N) false).2 = true ↔
      ∃ k < ds.length, valueFrom b v (ds.take (k + 1)) % N < valueFrom b v (ds.take k) % N := by
  induction ds generalizing v with
  | nil =>
    refine iff_of_false (fun h ↦ nomatch h) ?_
    rintro ⟨k, hk, -⟩
    exact absurd hk (Nat.not_lt_zero k)
  | cons d ds ih =>
    have hstep : (b * (v % N) + d) % N = (b * v + d) % N := by
      rw [Nat.add_mod, Nat.mul_mod, Nat.mod_mod, ← Nat.mul_mod, ← Nat.add_mod]
    by_cases h : (b * v + d) % N < v % N
    · rw [read_cons_of_lt (by rwa [hstep])]
      exact iff_of_true rfl ⟨0, Nat.succ_pos _, h⟩
    · rw [read_cons_of_le (by rw [hstep]; exact not_lt.mp h), hstep, ih]
      constructor
      · rintro ⟨k, hk, hfalls⟩
        exact ⟨k + 1, Nat.succ_lt_succ hk, hfalls⟩
      · rintro ⟨k, hk, hfalls⟩
        cases k with
        | zero => exact absurd hfalls h
        | succ k => exact ⟨k, Nat.lt_of_succ_lt_succ hk, hfalls⟩

/-- The digits repeat a digit that leaves the accumulator as it is, and then there is a smaller
one. -/
def FallsBehind (e : ℕ) : List ℕ → Prop
  | [] => False
  | d :: ds => d < e ∨ d = e ∧ FallsBehind e ds

/-- Where a digit leaves the accumulator as it is, a smaller one is noticed and a larger one is
not. -/
theorem read_eq_iff_fallsBehind {u e : ℕ} (he : e ≤ u) (hfix : (b * u + e) % N = u)
    (ds : List ℕ) (hds : ∀ d ∈ ds, u + d < N + e) :
    read b N ds u false = (u, true) ↔ FallsBehind e ds := by
  induction ds with
  | nil =>
    refine iff_of_false (fun h ↦ ?_) (fun h ↦ h)
    cases h
  | cons d ds ih =>
    have hdiv := Nat.div_add_mod (b * u + e) N
    have hd := hds d mem_cons_self
    have hmod : (b * u + d) % N = u + d - e := by
      have hsum : b * u + d = u + d - e + N * ((b * u + e) / N) := by omega
      rw [hsum, Nat.add_mul_mod_self_left, Nat.mod_eq_of_lt (by omega)]
    obtain hlt | rfl | hgt := lt_trichotomy d e
    · rw [read_cons_of_lt (by omega)]
      exact iff_of_true rfl (.inl hlt)
    · rw [read_cons_of_le (by omega), hmod, Nat.add_sub_cancel,
        ih fun d hd ↦ hds d (mem_cons_of_mem _ hd)]
      exact ⟨fun h ↦ .inr ⟨rfl, h⟩, fun h ↦ h.elim (absurd · (lt_irrefl _)) (·.2)⟩
    · rw [read_cons_of_le (by omega), hmod]
      refine iff_of_false (fun h ↦ ?_) (fun h ↦ ?_)
      · have hle := le_read (b := b) (N := N) ds (u + d - e)
        rw [h] at hle
        omega
      · obtain h | ⟨h, -⟩ := h <;> omega

/-! ## What is noticed -/

/-- A base, a size and a limit: a value below the size is within the limit without its last
digit. -/
structure Fits (b N L : ℕ) : Prop where
  two_le : 2 ≤ b
  square_le : b * b ≤ N
  room : L + b ≤ N
  reach : N ≤ b * (L + 1)

/-- The reader returns the value of the longest prefix within the limit, and says so exactly if it
is not the value of all digits. -/
def ReadsRight (b N L : ℕ) (ds : List ℕ) : Prop :=
  LongestWithin b L ds (finish b L (read b N ds 0 false)).1 ∧
    ((finish b L (read b N ds 0 false)).2 = true ↔ L < value b ds)

/-- Behind the value `u`, the digits from `e` on are too many and the reader stops at the longest
prefix: `e` makes the accumulator smaller, or leaves it as it is until there is a smaller digit; or
`u` is beyond the limit and the accumulator grows until the last digit, by less than a digit's
worth. -/
def StopsAt (b N L u e : ℕ) (back : List ℕ) : Prop :=
  (b * u + e) % N < u ∧ u ≤ L ∨
  u ≤ L ∧ (b * u + e) % N = u ∧ FallsBehind e back ∨
  L < u ∧ AscendsBelow b N ((u / b + 1) * b) u (e :: back)

/-- The digits for which the reader is right. -/
def Noticed (b N L : ℕ) (ds : List ℕ) : Prop :=
  value b ds < N ∨
    ∃ front e back, ds = front ++ e :: back ∧ value b front < N ∧ N ≤ b * value b front + e ∧
      StopsAt b N L (value b front) e back

theorem value_concat (front : List ℕ) (e : ℕ) :
    value b (front ++ [e]) = b * value b front + e := valueFrom_append 0 front [e]

/-- Values from the size on have a first prefix that reaches it. -/
theorem exists_overflow {ds : List ℕ} (hN : 0 < N) (h : N ≤ value b ds) :
    ∃ front e back, ds = front ++ e :: back ∧ value b front < N ∧ N ≤ b * value b front + e := by
  induction ds using List.reverseRecOn with
  | nil => exact absurd h (not_le.mpr hN)
  | append_singleton ds d ih =>
    by_cases hfront : N ≤ value b ds
    · obtain ⟨front, e, back, rfl, hlt, hle⟩ := ih hfront
      exact ⟨front, e, back ++ [d], by simp, hlt, hle⟩
    · rw [value_concat] at h
      exact ⟨ds, d, [], rfl, not_le.mp hfront, h⟩

/-- A value that is below the size and beyond the limit fits without its last digit. -/
theorem longestWithin_last (h : Fits b N L) (hfront : value b front < N)
    (hds : ∀ d ∈ front, d < b) (hgt : L < value b front) (back : List ℕ) :
    LongestWithin b L (front ++ back) x ↔ x = value b front / b := by
  have hb : 1 ≤ b := h.two_le.trans' (by decide)
  induction front using List.reverseRecOn with
  | nil => exact absurd hgt (Nat.not_lt_zero L)
  | append_singleton front e _ =>
    have he := hds e (by simp)
    have hle : value b front ≤ L := by
      have hreach := h.reach
      rw [value_concat] at hfront
      by_contra hlarge
      have hmul : b * (L + 1) ≤ b * value b front := Nat.mul_le_mul_left b (not_le.mp hlarge)
      omega
    rw [append_assoc, singleton_append, longestWithin_split hb hle hgt, value_concat,
      Nat.mul_add_div (by omega), Nat.div_eq_of_lt he, Nat.add_zero]

theorem readsRight_of_lt (h : Fits b N L) {ds : List ℕ} (hds : ∀ d ∈ ds, d < b)
    (hvalue : value b ds < N) : ReadsRight b N L ds := by
  have hb : 1 ≤ b := h.two_le.trans' (by decide)
  have hread : read b N ds 0 false = (value b ds, false) := by
    have happend := read_append hb [] hvalue
    rwa [append_nil] at happend
  rw [ReadsRight, hread]
  by_cases hle : value b ds ≤ L
  · have hfinish : finish b L (value b ds, false) = (value b ds, false) :=
      if_neg (by simpa using hle)
    rw [hfinish]
    exact ⟨(longestWithin_all hle).mpr rfl, by simpa using hle⟩
  · have hfinish : finish b L (value b ds, false) = (value b ds / b, true) :=
      if_pos (by simpa using hle)
    rw [hfinish]
    have hlongest := (longestWithin_last h hvalue hds (not_le.mp hle) []).mpr rfl
    rw [append_nil] at hlongest
    exact ⟨hlongest, iff_of_true rfl (not_le.mp hle)⟩

section Overflow

variable {front back : List ℕ} {e : ℕ}

/-- The first digit that is too much decreases the accumulator. -/
theorem readsRight_of_falls (h : Fits b N L) (hfront : value b front < N)
    (hover : N ≤ b * value b front + e) (hlong : L < value b (front ++ e :: back))
    (hfalls : (b * value b front + e) % N < value b front) :
    ReadsRight b N L (front ++ e :: back) ↔ value b front ≤ L := by
  have hb : 1 ≤ b := h.two_le.trans' (by decide)
  have hroom := h.room
  have hread : read b N (front ++ e :: back) 0 false = (value b front, true) := by
    rw [read_append hb _ hfront]
    exact read_cons_of_lt hfalls back
  have hfinish : finish b L (value b front, true) = (value b front, true) := rfl
  rw [ReadsRight, hread, hfinish]
  constructor
  · rintro ⟨⟨k, -, -, hle, -⟩, -⟩
    exact hle
  · intro hle
    have hnext : L < value b (front ++ [e]) := by
      rw [value_concat]
      omega
    exact ⟨(longestWithin_split hb hle hnext).mpr rfl, iff_of_true rfl hlong⟩

theorem readsRight_of_within (h : Fits b N L) (hfront : value b front < N)
    (hover : N ≤ b * value b front + e) (hlong : L < value b (front ++ e :: back))
    (hds : ∀ d ∈ e :: back, d < b) (hrises : value b front ≤ (b * value b front + e) % N)
    (hle : value b front ≤ L) :
    ReadsRight b N L (front ++ e :: back) ↔
      (b * value b front + e) % N = value b front ∧ FallsBehind e back := by
  have hb : 1 ≤ b := h.two_le.trans' (by decide)
  have hroom := h.room
  have he := hds e mem_cons_self
  have hnext : L < value b (front ++ [e]) := by
    rw [value_concat]
    omega
  have hread : read b N (front ++ e :: back) 0 false =
      read b N back ((b * value b front + e) % N) false := by
    rw [read_append hb _ hfront]
    exact read_cons_of_le hrises back
  rw [ReadsRight, hread, longestWithin_split hb hle hnext, iff_true_right hlong]
  generalize value b front = u at *
  -- Behind a value whose product is below the size, the rest is less than a digit.
  have hlarge : N ≤ b * u := by
    by_contra hsmall
    have hmod : (b * u + e) % N = b * u + e - N := by
      rw [Nat.mod_eq_sub_mod hover, Nat.mod_eq_of_lt (by omega)]
    have hdigit : u + 1 ≤ b := by omega
    have hproduct : b * (u + 1) ≤ b * b := Nat.mul_le_mul_left b hdigit
    have hsquare := h.square_le
    rw [Nat.mul_succ] at hproduct
    omega
  have hbase : b ≤ u := Nat.le_of_mul_le_mul_left (h.square_le.trans hlarge) hb
  have hback : ∀ d ∈ back, u + d < N + e := by
    intro d hd
    have hlt := hds d (mem_cons_of_mem e hd)
    omega
  have hrest := le_read (b := b) (N := N) back ((b * u + e) % N)
  have hsize := read_lt (b := b) back (Nat.mod_lt (b * u + e) (Nat.zero_lt_of_lt hfront))
  constructor
  · rintro ⟨hvalue, htrunc⟩
    obtain ⟨c, t, hr⟩ : ∃ c t, read b N back ((b * u + e) % N) false = (c, t) := ⟨_, _, rfl⟩
    rw [hr] at hvalue htrunc hrest hsize
    cases t with
    | true =>
      have hc : c = u := hvalue
      have hfix : (b * u + e) % N = u := le_antisymm (hrest.trans hc.le) hrises
      rw [hfix, hc] at hr
      exact ⟨hfix, (read_eq_iff_fallsBehind (by omega) hfix back hback).mp hr⟩
    | false =>
      by_cases hc : L < c
      · have hfinish : finish b L (c, false) = (c / b, true) := if_pos (by simpa using hc)
        rw [hfinish] at hvalue
        have hdiv : c / b < u := Nat.div_lt_of_lt_mul (hsize.trans_le hlarge)
        exact absurd hvalue hdiv.ne
      · have hfinish : finish b L (c, false) = (c, false) := if_neg (by simpa using hc)
        rw [hfinish] at htrunc
        cases htrunc
  · rintro ⟨hfix, hfalls⟩
    rw [hfix, (read_eq_iff_fallsBehind (by omega) hfix back hback).mpr hfalls]
    exact ⟨rfl, rfl⟩

theorem readsRight_of_beyond (h : Fits b N L) (hfront : value b front < N)
    (hlong : L < value b (front ++ e :: back)) (hds : ∀ d ∈ front, d < b)
    (hgt : L < value b front) :
    ReadsRight b N L (front ++ e :: back) ↔
      AscendsBelow b N ((value b front / b + 1) * b) (value b front) (e :: back) := by
  have hb : 1 ≤ b := h.two_le.trans' (by decide)
  have hread : read b N (front ++ e :: back) 0 false = read b N (e :: back) (value b front) false :=
    read_append hb (e :: back) hfront
  have hbound : value b front < (value b front / b + 1) * b := by
    rw [Nat.succ_mul]
    exact Nat.lt_div_mul_add hb
  rw [ReadsRight, hread, ascendsBelow_iff hbound, iff_true_right hlong]
  have hrest : value b front ≤ (read b N (e :: back) (value b front) false).1 := le_read _ _
  -- The longest prefix within the limit ends in front of the last digit of `front`.
  have hlongest (x : ℕ) : LongestWithin b L (front ++ e :: back) x ↔ x = value b front / b :=
    longestWithin_last h hfront hds hgt (e :: back)
  rw [hlongest]
  generalize value b front = u at *
  obtain ⟨c, t, hr⟩ : ∃ c t, read b N (e :: back) u false = (c, t) := ⟨_, _, rfl⟩
  rw [hr] at hrest ⊢
  cases t with
  | true =>
    refine iff_of_false ?_ (fun hasc ↦ nomatch hasc.1)
    rintro ⟨hvalue, -⟩
    have hc : c = u / b := hvalue
    have hdiv : u / b < u := Nat.div_lt_self (by omega) h.two_le
    omega
  | false =>
    have hfinish : finish b L (c, false) = (c / b, true) :=
      if_pos (by simpa using hgt.trans_le hrest)
    rw [hfinish]
    have hmono : u / b ≤ c / b := Nat.div_le_div_right hrest
    have hbelow : c < (u / b + 1) * b ↔ c / b ≤ u / b := by
      rw [← Nat.div_lt_iff_lt_mul hb, Nat.lt_succ_iff]
    constructor
    · rintro ⟨hvalue, -⟩
      exact ⟨rfl, hbelow.mpr hvalue.le⟩
    · rintro ⟨-, hlt⟩
      exact ⟨le_antisymm (hbelow.mp hlt) hmono, rfl⟩

theorem readsRight_split (h : Fits b N L) (hds : ∀ d ∈ front ++ e :: back, d < b)
    (hfront : value b front < N) (hover : N ≤ b * value b front + e) :
    ReadsRight b N L (front ++ e :: back) ↔ StopsAt b N L (value b front) e back := by
  have hb : 1 ≤ b := h.two_le.trans' (by decide)
  have hroom := h.room
  have hlong : L < value b (front ++ e :: back) := by
    calc
      L < b * value b front + e := by omega
      _ ≤ valueFrom b (b * value b front + e) back := le_valueFrom hb _ back
      _ = value b (front ++ e :: back) := (valueFrom_append 0 front (e :: back)).symm
  by_cases hfalls : (b * value b front + e) % N < value b front
  · rw [readsRight_of_falls h hfront hover hlong hfalls]
    constructor
    · exact fun hle ↦ .inl ⟨hfalls, hle⟩
    · rintro (⟨-, hle⟩ | ⟨hle, -⟩ | ⟨-, hasc⟩)
      · exact hle
      · exact hle
      · exact absurd hasc.1 (not_le.mpr hfalls)
  · have hrises := not_lt.mp hfalls
    by_cases hle : value b front ≤ L
    · rw [readsRight_of_within h hfront hover hlong
        (fun d hd ↦ hds d (mem_append_right front hd)) hrises hle]
      constructor
      · exact fun hstop ↦ .inr (.inl ⟨hle, hstop⟩)
      · rintro (⟨hlt, -⟩ | ⟨-, hstop⟩ | ⟨hgt, -⟩)
        · exact absurd hlt hfalls
        · exact hstop
        · exact absurd hgt (not_lt.mpr hle)
    · rw [readsRight_of_beyond h hfront hlong (fun d hd ↦ hds d (mem_append_left _ hd))
        (not_le.mp hle)]
      constructor
      · exact fun hasc ↦ .inr (.inr ⟨not_le.mp hle, hasc⟩)
      · rintro (⟨hlt, -⟩ | ⟨hin, -⟩ | ⟨-, hasc⟩)
        · exact absurd hlt hfalls
        · exact absurd hin hle
        · exact hasc

end Overflow

theorem readsRight_iff_noticed (h : Fits b N L) {ds : List ℕ} (hds : ∀ d ∈ ds, d < b) :
    ReadsRight b N L ds ↔ Noticed b N L ds := by
  by_cases hvalue : value b ds < N
  · exact iff_of_true (readsRight_of_lt h hds hvalue) (.inl hvalue)
  · have hN : 0 < N := (Nat.mul_pos (by have := h.two_le; omega)
      (by have := h.two_le; omega)).trans_le h.square_le
    constructor
    · intro hright
      obtain ⟨front, e, back, rfl, hfront, hover⟩ := exists_overflow hN (not_lt.mp hvalue)
      exact .inr ⟨front, e, back, rfl, hfront, hover, (readsRight_split h hds hfront hover).mp hright⟩
    · rintro (hlt | ⟨front, e, back, rfl, hfront, hover, hstops⟩)
      · exact absurd hlt hvalue
      · exact (readsRight_split h hds hfront hover).mpr hstops

end Accumulator

end Bsh.Library
