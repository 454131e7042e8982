import Bsh.Shell.Subscript
import Bsh.Library.Slice

/-!
# Subscripts of scalars

A subscript that `getindex` accepts marks the place in front of one character and the place behind
another; `getstrvalue` returns what is between them, and `assignstrvalue` replaces it.
-/

namespace Bsh.Shell

open Bsh.Library List

namespace TextEnv

variable {env : TextEnv} {s : Bytes} {chs : List Bytes}

/-! ## Walking over characters -/

theorem Cut.charLen_drop (h : env.Cut s chs) {k : ℕ} (hk : k < chs.length) :
    env.charLen (s.drop (place chs k)) = some chs[k].length := by
  induction h generalizing k with
  | nil => exact absurd hk (Nat.not_lt_zero k)
  | @cons ch rest chs hne hlen _ ih =>
    cases k with
    | zero => exact hlen
    | succ k =>
      have hplace : place (ch :: chs) (k + 1) = ch.length + place chs k := by
        rw [place, map_cons, take_succ_cons, sum_cons, place]
      rw [hplace, ← drop_drop, drop_left, getElem_cons_succ]
      exact ih _

/-- The walk stops at the start of a character, or with the string. -/
theorem Cut.walkChars (h : env.Cut s chs) (n last : ℕ) :
    env.walkChars n s last =
      some ⟨(chs.drop n).flatten, n - chs.length,
        (((chs.take n).getLast?).map List.length).getD last⟩ := by
  induction h generalizing n last with
  | nil =>
    cases n with
    | zero => rfl
    | succ n => rfl
  | @cons ch rest chs hne hlen hrest ih =>
    cases n with
    | zero =>
      rw [TextEnv.walkChars, drop_zero, flatten_cons, hrest.flatten, Nat.zero_sub]
      rfl
    | succ n =>
      obtain ⟨c, ch, rfl⟩ := exists_cons_of_ne_nil hne
      rw [cons_append] at hlen ⊢
      rw [TextEnv.walkChars, hlen]
      simp only []
      rw [← cons_append, drop_left, ih, drop_succ_cons, @length_cons _ _ chs,
        Nat.add_sub_add_right, take_succ_cons, List.getLast?_cons]
      cases (chs.take n).getLast? with
      | none => rfl
      | some d => rfl

theorem Cut.drop (h : env.Cut s chs) (n : ℕ) : env.Cut (chs.drop n).flatten (chs.drop n) := by
  induction h generalizing n with
  | nil =>
    rw [drop_nil]
    exact Cut.nil
  | @cons ch rest chs hne hlen hrest ih =>
    cases n with
    | zero =>
      rw [drop_zero, flatten_cons, hrest.flatten]
      exact Cut.cons hne hlen hrest
    | succ n => exact ih n

theorem Cut.length_le (h : env.Cut s chs) : chs.length ≤ s.length := by
  induction h with
  | nil => exact Nat.le_refl 0
  | cons hne _ _ ih =>
    have hpos := List.length_pos_iff.mpr hne
    rw [length_append, length_cons]
    omega

theorem Cut.nextCharLen (h : env.Cut s chs) : ∃ next, env.nextCharLen s = some next := by
  cases h with
  | nil => exact ⟨1, rfl⟩
  | cons hne hlen _ =>
    refine ⟨_, (if_neg ?_).trans hlen⟩
    exact append_ne_nil_of_left_ne_nil hne _

end TextEnv

/-! ## Arguments -/

/-- Subscripts whose offsets from either end of a value of `n` characters and `len` bytes are in the
range of an `int`. -/
def FitsInt (kshArrays : Bool) (n len : ℕ) (i : ℤ) : Prop :=
  let r := if kshArrays ∧ 0 ≤ i then i + 1 else i
  (-2 ^ 31 : ℤ) ≤ r - len ∧ len + max (r - n) 0 < 2 ^ 31

/-- The position that a subscript means in a value of `n` characters or elements. -/
def norm (kshArrays : Bool) (n : ℕ) (i : ℤ) : ℤ :=
  if i < 0 then n + 1 + i else if kshArrays then i + 1 else i

theorem toInt_eq {n : ℤ} (h : -2 ^ 31 ≤ n ∧ n < 2 ^ 31) : toInt n = n :=
  Int.bmod_eq_of_le (by omega) (by omega)

theorem toZlong_eq {n : ℤ} (h : -2 ^ 32 ≤ n ∧ n < 2 ^ 32) : toZlong n = n :=
  Int.bmod_eq_of_le (by omega) (by omega)

variable {chs : List Bytes} {i : ℤ} {len n : ℕ} (opts : SubscriptOpts)

/-- The subscript that `getarg` goes on with, its sign, and its position. -/
theorem userIndex_spec (hn : n ≤ len)
    (h : FitsInt opts.kshArrays n len i) :
    -2 ^ 31 ≤ opts.userIndex i - len ∧ len + max (opts.userIndex i - n) 0 < 2 ^ 31 ∧
      (opts.userIndex i < 0 ↔ i < 0) ∧ norm opts.kshArrays n i =
        if opts.userIndex i < 0 then n + 1 + opts.userIndex i else opts.userIndex i := by
  obtain ⟨hlow, hhigh⟩ := h
  rw [SubscriptOpts.userIndex, norm]
  by_cases hksh : opts.kshArrays = true ∧ 0 ≤ i
  · rw [if_pos hksh] at hlow hhigh ⊢
    have hzlong : toZlong (i + 1) = i + 1 := toZlong_eq (by omega)
    rw [hzlong, if_neg (by omega), if_pos hksh.1, if_neg (by omega)]
    exact ⟨hlow, hhigh, by omega, rfl⟩
  · rw [if_neg hksh] at hlow hhigh ⊢
    refine ⟨hlow, hhigh, Iff.rfl, ?_⟩
    split_ifs with hneg hksh'
    · rfl
    · exact absurd ⟨hksh', by omega⟩ hksh
    · rfl

/-- What `getarg` says about a scalar: the offset of the place behind the character, and the place in
front of it. -/
structure SubscriptArg.Marks (a : SubscriptArg) (chs : List Bytes) (r : ℤ) : Prop where
  positive : 0 < r → a.raw = place chs r.toNat + max (r - chs.length) 0 ∧
    a.raw - a.prevcharlen = place chs (r - 1).toNat + max (r - 1 - chs.length) 0
  zero : r = 0 → a.raw = 0
  negative : r < 0 → a.raw =
    if chs.length + r < 0 then r - chs.flatten.length
    else place chs (chs.length + r).toNat - chs.flatten.length

theorem place_add_length (chs : List Bytes) (k : ℕ) :
    place chs k + (chs.drop k).flatten.length = chs.flatten.length := by
  rw [place_eq_length, ← length_append, ← flatten_append, List.take_append_drop]

theorem getLast?_take {k : ℕ} (hk : k < chs.length) :
    (chs.take (k + 1)).getLast? = some chs[k] := by
  rw [take_succ_eq_append_getElem hk, List.getLast?_concat]

theorem getargScalar_marks {env : TextEnv} {s : Bytes} (hcut : env.Cut s chs) (hcount : env.metastrlen s = some chs.length)
    (hfits : FitsInt opts.kshArrays chs.length s.length i) :
    ∃ a, getargScalar env opts s i = some a ∧ a.Marks chs (opts.userIndex i) := by
  obtain ⟨hlow, hhigh, -, -⟩ := userIndex_spec opts hcut.length_le hfits
  rw [getargScalar]
  generalize opts.userIndex i = r at hlow hhigh ⊢
  have hflat := hcut.flatten
  rcases lt_trichotomy r 0 with hneg | rfl | hpos
  · simp only [if_neg (not_lt.mpr hneg.le), if_neg hneg.ne, hcount]
    by_cases hoff : chs.length + r < 0
    · simp only [if_pos hoff]
      refine ⟨_, rfl, fun h ↦ absurd hneg (not_lt.mpr h.le), fun h ↦ absurd h hneg.ne, fun _ ↦ ?_⟩
      have hz : toZlong (r - s.length) = r - s.length := toZlong_eq (by omega)
      rw [if_pos hoff, hflat]
      exact hz
    · obtain ⟨next, hnext⟩ := (hcut.drop (chs.length + r).toNat).nextCharLen
      have hsum := place_add_length chs (chs.length + r).toNat
      simp only [if_neg hoff, hcut.walkChars, hnext]
      refine ⟨_, rfl, fun h ↦ absurd hneg (not_lt.mpr h.le), fun h ↦ absurd h hneg.ne, fun _ ↦ ?_⟩
      change (-(chs.drop (chs.length + r).toNat).flatten.length : ℤ) = _
      omega
  · obtain ⟨next, hnext⟩ := hcut.nextCharLen
    simp only [hnext]
    exact ⟨_, rfl, fun h ↦ absurd h (lt_irrefl 0), fun _ ↦ rfl, fun h ↦ absurd h (lt_irrefl 0)⟩
  · obtain ⟨k, rfl⟩ : ∃ k : ℕ, r = k + 1 := ⟨(r - 1).toNat, by omega⟩
    have hindex : ((k : ℤ) + 1).toNat = k + 1 := rfl
    obtain ⟨next, hnext⟩ := (hcut.drop (k + 1)).nextCharLen
    have hsum := place_add_length chs (k + 1)
    rw [hflat] at hsum
    simp only [if_pos hpos, hindex, hcut.walkChars, hnext]
    refine ⟨_, rfl, fun _ ↦ ?_, fun h ↦ absurd h hpos.ne', fun h ↦ absurd hpos (not_lt.mpr h.le)⟩
    have hraw : toZlong (((s.length - (chs.drop (k + 1)).flatten.length : ℕ) : ℤ) +
        (k + 1 - chs.length : ℕ)) = place chs (k + 1) + max ((k : ℤ) + 1 - chs.length) 0 := by
      rw [toZlong_eq (by omega)]
      omega
    simp only [hindex, hraw, true_and]
    by_cases hin : k < chs.length
    · have hsucc := place_succ chs hin
      rw [if_pos (by omega), getLast?_take hin]
      simp only [Option.map_some, Option.getD_some]
      have hprev : ((k : ℤ) + 1 - 1).toNat = k := by omega
      rw [hprev]
      omega
    · have hend := place_of_length_le chs (Nat.le_of_not_lt hin)
      have hend' := place_of_length_le chs (k := k + 1) (by omega)
      have hprev : ((k : ℤ) + 1 - 1).toNat = k := by omega
      rw [if_neg (by omega), hprev]
      omega

namespace SubscriptArg.Marks

variable {a : SubscriptArg} {chs : List Bytes} {r : ℤ}

theorem sign (h : a.Marks chs r) (hne : ∀ ch ∈ chs, ch ≠ []) :
    (0 < r → 0 < a.raw) ∧ (r < 0 → a.raw < 0) := by
  refine ⟨fun hr ↦ ?_, fun hr ↦ ?_⟩
  · have hraw := (h.positive hr).1
    cases chs with
    | nil =>
      rw [length_nil] at hraw
      omega
    | cons ch chs =>
      have hpos := List.length_pos_iff.mpr (hne ch mem_cons_self)
      have hone : place (ch :: chs) 1 ≤ place (ch :: chs) r.toNat := place_mono _ (by omega)
      have hfirst : place (ch :: chs) 1 = ch.length := by
        rw [place_eq_length, take_succ_cons, take_zero, flatten_singleton]
      omega
  · rw [h.negative hr]
    split_ifs with hoff
    · omega
    · have hlt := place_lt hne (k := (chs.length + r).toNat) (by omega)
      omega

theorem toInt_raw (h : a.Marks chs r) (hlow : -2 ^ 31 ≤ r - chs.flatten.length)
    (hhigh : chs.flatten.length + max (r - chs.length) 0 < 2 ^ 31) : toInt a.raw = a.raw := by
  have hle := place_le chs r.toNat
  have hle' := place_le chs (chs.length + r).toNat
  refine toInt_eq ?_
  rcases lt_trichotomy r 0 with hr | rfl | hr
  · rw [h.negative hr]
    split_ifs <;> omega
  · rw [h.zero rfl]
    omega
  · rw [(h.positive hr).1]
    omega

end SubscriptArg.Marks

/-- A range from the place in front of the character at index `x` to the place in front of the one at
`y`; an end counted from behind is at the start of the last character. -/
structure SubscriptValue.Marks (v : SubscriptValue) (chs : List Bytes) (x y : ℕ) : Prop where
  start : min (max (if v.start < 0 then v.start + chs.flatten.length else v.start) 0)
    (chs.flatten.length : ℤ) = place chs x
  stop : (0 ≤ v.stop ∧ min v.stop chs.flatten.length = place chs y) ∨
    (v.stop + chs.flatten.length < 0 ∧ y = 0) ∨
    (v.stop < 0 ∧ ∃ k < chs.length, v.stop + chs.flatten.length = place chs k ∧ y = k + 1)

theorem subscriptValue_eq (ksh : Bool) {a : SubscriptArg} {a2 : Option SubscriptArg}
    (hraw : toInt a.raw = a.raw) (hraw2 : ∀ b ∈ a2, toInt b.raw = b.raw)
    (hnot : ¬ (a.raw = 0 ∧ (a2.getD a).raw = 0)) :
    subscriptValue ⟨ksh, false⟩ a a2 =
      { start := if 0 < a.raw then a.raw - a.prevcharlen else a.raw
        stop := (a2.getD a).raw
        com := a2.isSome || a.raw ≠ (a2.getD a).raw
        empty := false } := by
  cases a2 with
  | none =>
    have hne : ¬ (a.raw = 0 ∧ a.raw = 0) := hnot
    simp only [subscriptValue, hraw, if_neg hne]
    split_ifs <;> rfl
  | some b =>
    have hb := hraw2 b rfl
    have hne : ¬ (a.raw = 0 ∧ b.raw = 0) := hnot
    simp only [subscriptValue, hraw, hb, if_neg hne]
    split_ifs <;> rfl

theorem subscriptValue_marks {v : SubscriptValue} {a b : SubscriptArg}
    {r r' : ℤ} (hne : ∀ ch ∈ chs, ch ≠ []) (ha : a.Marks chs r) (hb : b.Marks chs r')
    (hstart : v.start = if 0 < a.raw then a.raw - a.prevcharlen else a.raw)
    (hstop : v.stop = b.raw) :
    v.Marks chs ((if r < 0 then chs.length + 1 + r else r) - 1).toNat
      (if r' < 0 then chs.length + 1 + r' else r').toNat := by
  constructor
  · have hsign := ha.sign hne
    rcases lt_trichotomy r 0 with hr | rfl | hr
    · have hneg := hsign.2 hr
      rw [if_neg (by omega)] at hstart
      rw [hstart, if_pos hneg, if_pos hr, ha.negative hr]
      have hle := place_le chs (chs.length + r).toNat
      have hindex : ((chs.length : ℤ) + 1 + r - 1).toNat = (chs.length + r).toNat := by omega
      rw [hindex]
      split_ifs with hoff
      · have hzero : (chs.length + r).toNat = 0 := by omega
        rw [hzero, place_zero]
        omega
      · omega
    · rw [ha.zero rfl] at hstart
      rw [hstart]
      exact min_eq_left (Int.natCast_nonneg _)
    · have hpos := hsign.1 hr
      have hprev := (ha.positive hr).2
      have hle := place_le chs (r - 1).toNat
      rw [if_pos hpos, hprev] at hstart
      rw [hstart, if_neg (by omega), if_neg (by omega)]
      by_cases hin : r - 1 < chs.length
      · omega
      · have hend := place_of_length_le chs (k := (r - 1).toNat) (by omega)
        omega
  · rw [hstop]
    rcases lt_trichotomy r' 0 with hr | rfl | hr
    · rw [if_pos hr, hb.negative hr]
      by_cases hoff : chs.length + r' < 0
      · omega
      · have hlt := place_lt hne (k := (chs.length + r').toNat) (by omega)
        refine .inr (.inr ⟨?_, (chs.length + r').toNat, by omega, ?_, by omega⟩)
        · omega
        · omega
    · refine .inl ⟨(hb.zero rfl).ge, ?_⟩
      rw [hb.zero rfl]
      exact min_eq_left (Int.natCast_nonneg _)
    · have hraw := (hb.positive hr).1
      have hle := place_le chs r'.toNat
      rw [if_neg (by omega)]
      by_cases hin : r' < chs.length
      · omega
      · have hend := place_of_length_le chs (k := r'.toNat) (by omega)
        omega

/-- The offsets that stand for the whole value mark all of it. -/
theorem SubscriptValue.Marks.whole {v : SubscriptValue} {x y : ℕ}
    (h : v.Marks chs x y) (hne : ∀ ch ∈ chs, ch ≠ []) (hstart : v.start = 0) (hstop : v.stop = -1) :
    place chs x = 0 ∧ place chs y = chs.flatten.length := by
  have hfrom := h.start
  have hle := place_le chs y
  rcases h.stop with ⟨hpos, -⟩ | ⟨hneg, rfl⟩ | ⟨-, k, hk, hkstop, rfl⟩
  · omega
  · omega
  · have hsucc := place_succ chs hk
    have hpos := List.length_pos_iff.mpr (hne _ (getElem_mem hk))
    omega

/-! ## Reading and assigning -/

section

variable {env : TextEnv} {s : Bytes} {chs : List Bytes} {v : SubscriptValue} {x y : ℕ}

theorem stepOver_place (hcut : env.Cut s chs) {k : ℕ} (hk : k < chs.length) :
    env.stepOver s (place chs k) = some ↑(place chs (k + 1)) := by
  have hlt := place_lt hcut.ne_nil hk
  rw [hcut.flatten] at hlt
  have hne : s.drop (place chs k) ≠ [] := by
    intro hnil
    have hlen := length_drop (i := place chs k) (l := s)
    rw [hnil, length_nil] at hlen
    omega
  rw [TextEnv.stepOver, Int.toNat_natCast, if_neg hne, hcut.charLen_drop hk, place_succ chs hk,
    Option.map_some, Nat.cast_add]

theorem copyRange_eq (s : Bytes) {p q : ℕ} {start stop : ℤ} (h : 0 ≤ start)
    (hp : min start s.length = p) (hq : max 0 (min stop s.length) = q) :
    copyRange s s.length start stop = (s.drop p).take (q - p) := by
  simp only [copyRange]
  by_cases hstop : stop ≤ start
  · have hnone : q - p = 0 := by omega
    rw [if_pos hstop, hnone, take_zero]
  · rw [if_neg hstop]
    by_cases hstart : (s.length : ℤ) < start
    · have hend : s.drop p = [] := drop_eq_nil_of_le (by omega)
      rw [if_pos hstart, hend, take_nil, take_nil, ite_self]
    · have hp' : start.toNat = p := by omega
      rw [if_neg hstart, hp']
      split_ifs with hshort
      · have hcount : (stop - start).toNat = q - p := by omega
        rw [hcount]
      · rw [take_of_length_le]
        rw [length_drop]
        omega

/-- `getstrvalue` returns the characters of the range. -/
theorem getstrvalue_marks (hcut : env.Cut s chs) (hv : v.Marks chs x y)
    (hlen : s.length < 2 ^ 31) : getstrvalue env s v = some ((chs.take y).drop x).flatten := by
  have hint : toInt s.length = s.length := toInt_eq (by omega)
  have hflat := hcut.flatten
  have hplace := place_le chs
  have hstart := hv.start
  have hstop := hv.stop
  rw [← flatten_slice, hflat]
  rw [hflat] at hstart hstop hplace
  simp only [getstrvalue, hint]
  have hfrom : 0 ≤ (if v.start < 0 then max (v.start + s.length) 0 else v.start) ∧
      min (if v.start < 0 then max (v.start + s.length) 0 else v.start) (s.length : ℤ) =
        place chs x := by
    split_ifs at hstart ⊢ <;> omega
  have hle := hplace y
  by_cases hwhole : v.start = 0 ∧ v.stop = -1
  · obtain ⟨hx, hy⟩ := hv.whole hcut.ne_nil hwhole.1 hwhole.2
    rw [hflat] at hy
    rw [if_pos hwhole, hx, hy, drop_zero, Nat.sub_zero, take_length]
  · rw [if_neg hwhole]
    rcases hstop with ⟨hpos, hy⟩ | ⟨hneg, rfl⟩ | ⟨hneg, k, hk, hkstop, rfl⟩
    · rw [if_neg (not_lt.mpr hpos), copyRange_eq s hfrom.1 hfrom.2]
      omega
    · rw [if_pos (by omega), if_neg (by omega), copyRange_eq s hfrom.1 hfrom.2]
      rw [place_zero]
      omega
    · rw [if_pos hneg, if_pos (by omega), hkstop, stepOver_place hcut hk, Option.map_some,
        copyRange_eq s hfrom.1 hfrom.2]
      omega

theorem storeRange_eq (strset : Bool) {s val : Bytes} {p q : ℕ} {start stop : ℤ}
    (hp : start = p) (hple : p ≤ s.length) (hq : max 0 (min stop s.length) = q)
    (hlen : s.length + val.length < 2 ^ 31) :
    storeRange strset s val s.length start stop =
      some (.value (s.take p ++ val ++ s.drop (max p q))) := by
  have hval : toInt val.length = val.length := toInt_eq (by omega)
  have hend : (if stop < start then start else min stop s.length) = ↑(max p q) := by
    split_ifs <;> omega
  have hsize : toInt (start + val.length + (s.length - (max p q : ℕ))) =
      start + val.length + (s.length - (max p q : ℕ)) := toInt_eq (by omega)
  simp only [storeRange, hval, hend, hsize]
  split_ifs with hpath
  · rw [spliceNew, if_pos (by omega), hp]
    rfl
  · have hlast : start.toNat + val.length = max p q := by omega
    rw [spliceInPlace, if_pos (by omega), hlast, hp]
    rfl

/-- `assignstrvalue` replaces the characters of the range.  Without `MULTIBYTE`, an end that is
counted from behind must not be at a byte that is stored as a pair. -/
theorem assignstrvalue_marks (strset : Bool) {val : Bytes} (hcut : env.Cut s chs)
    (hv : v.Marks chs x y) (hempty : v.empty = false) (hlen : s.length + val.length < 2 ^ 31)
    (hsingle : env.multibyte = false → v.stop < 0 → 0 < y → ∀ ch ∈ chs[y - 1]?, ch.length = 1) :
    assignstrvalue env strset s v val =
      some (.value ((chs.take x).flatten ++ val ++ (chs.drop (max x y)).flatten)) := by
  have hint : toInt s.length = s.length := toInt_eq (by omega)
  have hflat := hcut.flatten
  have hplace := place_le chs
  have hstart := hv.start
  have hstop := hv.stop
  rw [← take_place, ← drop_place, ← max_place, hflat]
  rw [hflat] at hstart hstop hplace
  simp only [assignstrvalue, hint, hempty, Bool.false_eq_true, if_false]
  have hfrom : min (if v.start < 0 then max (v.start + s.length) 0 else v.start) (s.length : ℤ) =
      place chs x := by
    split_ifs at hstart ⊢ <;> omega
  have hlex := hplace x
  have hle := hplace y
  by_cases hwhole : v.start = 0 ∧ v.stop = -1
  · obtain ⟨hx, hy⟩ := hv.whole hcut.ne_nil hwhole.1 hwhole.2
    rw [hflat] at hy
    rw [if_pos hwhole, hx, hy, take_zero, nil_append, Nat.zero_max, drop_length, append_nil]
  · rw [if_neg hwhole]
    rcases hstop with ⟨hpos, hy⟩ | ⟨hneg, rfl⟩ | ⟨hneg, k, hk, hkstop, rfl⟩
    · rw [if_neg (not_lt.mpr hpos), storeRange_eq strset (q := place chs y) hfrom hlex (by omega) hlen]
    · rw [if_pos (by omega), if_pos hneg,
        storeRange_eq strset (q := place chs 0) hfrom hlex (by rw [place_zero]; omega) hlen]
    · rw [if_pos hneg, if_neg (by omega), if_neg (by omega), hkstop]
      cases hmultibyte : env.multibyte with
      | true =>
        rw [if_pos rfl, stepOver_place hcut hk, Option.bind_some,
          storeRange_eq strset (q := place chs (k + 1)) hfrom hlex (by omega) hlen]
      | false =>
        have hone := hsingle hmultibyte hneg k.succ_pos chs[k] (List.getElem?_eq_getElem hk)
        have hsucc := place_succ chs hk
        rw [if_neg Bool.false_ne_true,
          storeRange_eq strset (q := place chs (k + 1)) hfrom hlex (by omega) hlen]

end

/-! ## Whole subscripts -/

/-- The subscripts 0 and 0,0 where counting begins at 1. -/
def ZeroRange (ksh : Bool) (i : ℤ) (j : Option ℤ) : Prop := ksh = false ∧ i = 0 ∧ j.getD i = 0

theorem userIndex_eq_zero (hn : n ≤ len)
    (h : FitsInt opts.kshArrays n len i) :
    opts.userIndex i = 0 ↔ opts.kshArrays = false ∧ i = 0 := by
  obtain ⟨hlow, hhigh⟩ := h
  rw [SubscriptOpts.userIndex]
  by_cases hksh : opts.kshArrays = true ∧ 0 ≤ i
  · rw [if_pos hksh] at hlow hhigh ⊢
    have hzlong : toZlong (i + 1) = i + 1 := toZlong_eq (by omega)
    rw [hzlong, hksh.1]
    exact ⟨fun h ↦ by omega, fun h ↦ nomatch h.1⟩
  · rw [if_neg hksh]
    refine ⟨fun h ↦ ⟨?_, h⟩, fun h ↦ h.2⟩
    rw [Bool.eq_false_iff]
    exact fun hopt ↦ hksh ⟨hopt, h.ge⟩

theorem zeroRange_iff (ksh : Bool) {j : Option ℤ} (hn : n ≤ len)
    (hi : FitsInt ksh n len i) (hj : FitsInt ksh n len (j.getD i)) :
    ZeroRange ksh i j ↔ SubscriptOpts.userIndex ⟨ksh, false⟩ i = 0 ∧
      SubscriptOpts.userIndex ⟨ksh, false⟩ (j.getD i) = 0 := by
  rw [userIndex_eq_zero ⟨ksh, false⟩ hn hi, userIndex_eq_zero ⟨ksh, false⟩ hn hj, ZeroRange]
  exact ⟨fun ⟨h, h', h''⟩ ↦ ⟨⟨h, h'⟩, h, h''⟩, fun ⟨⟨h, h'⟩, _, h''⟩ ↦ ⟨h, h', h''⟩⟩

section

variable {env : TextEnv} {ksh : Bool} {s : Bytes} {chs : List Bytes} {i : ℤ} {j : Option ℤ}

theorem getindexScalar_spec (hcut : env.Cut s chs) (hcount : env.metastrlen s = some chs.length)
    (hi : FitsInt ksh chs.length s.length i) (hj : FitsInt ksh chs.length s.length (j.getD i)) :
    ∃ v, getindexScalar env ⟨ksh, false⟩ s i j = some v ∧
      (ZeroRange ksh i j → v.start = -1 ∧ v.stop = 0 ∧ v.empty = true) ∧
      (¬ ZeroRange ksh i j → v.empty = false ∧ (v.stop < 0 → j.getD i < 0) ∧
        v.Marks chs (norm ksh chs.length i - 1).toNat (norm ksh chs.length (j.getD i)).toNat) := by
  have hflat := hcut.flatten
  let opts : SubscriptOpts := ⟨ksh, false⟩
  obtain ⟨a, ha, hmarks⟩ := getargScalar_marks opts hcut hcount hi
  obtain ⟨b, hb, hmarks'⟩ := getargScalar_marks opts hcut hcount hj
  obtain ⟨hlow, hhigh, -, hnorm⟩ := userIndex_spec opts hcut.length_le hi
  obtain ⟨hlow', hhigh', hindexneg, hnorm'⟩ := userIndex_spec opts hcut.length_le hj
  have hraw := hmarks.toInt_raw (by rwa [hflat]) (by rwa [hflat])
  have hraw' := hmarks'.toInt_raw (by rwa [hflat]) (by rwa [hflat])
  have hsign := hmarks.sign hcut.ne_nil
  have hsign' := hmarks'.sign hcut.ne_nil
  obtain ⟨a2, hindex, hlast, hone⟩ : ∃ a2,
      getindexScalar env opts s i j = some (subscriptValue opts a a2) ∧ a2.getD a = b ∧
        ∀ c ∈ a2, c = b := by
    cases j with
    | none =>
      rw [Option.getD_none, ha] at hb
      refine ⟨none, ?_, Option.some.inj hb, fun c hc ↦ nomatch hc⟩
      simp only [getindexScalar, ha]
    | some j =>
      rw [Option.getD_some] at hb
      refine ⟨some b, ?_, rfl, fun c hc ↦ (Option.some.inj hc).symm⟩
      simp only [getindexScalar, ha, hb, Option.map_some]
  have hzero : ZeroRange ksh i j ↔ a.raw = 0 ∧ b.raw = 0 := by
    have ha0 : a.raw = 0 ↔ opts.userIndex i = 0 := ⟨fun h ↦ by omega, hmarks.zero⟩
    have hb0 : b.raw = 0 ↔ opts.userIndex (j.getD i) = 0 := ⟨fun h ↦ by omega, hmarks'.zero⟩
    rw [ha0, hb0, zeroRange_iff ksh hcut.length_le hi hj]
  refine ⟨_, hindex, fun h ↦ ?_, fun h ↦ ?_⟩
  · obtain ⟨ha0, hb0⟩ := hzero.mp h
    rw [ha0] at hraw
    cases a2 with
    | none => simp [subscriptValue, opts, ha0, hraw]
    | some c =>
      rw [hone c rfl]
      simp [subscriptValue, opts, ha0, hraw, hb0]
  · rw [hzero, ← hlast] at h
    have hvalue := subscriptValue_eq ksh hraw (fun c hc ↦ by rw [hone c hc, hraw']) h
    have hstop : (subscriptValue opts a a2).stop = b.raw := by
      rw [hvalue]
      exact congrArg SubscriptArg.raw hlast
    refine ⟨by rw [hvalue], fun hneg ↦ ?_, ?_⟩
    · rw [hstop] at hneg
      rcases lt_trichotomy (opts.userIndex (j.getD i)) 0 with h | h | h
      · exact hindexneg.mp h
      · rw [hmarks'.zero h] at hneg
        exact absurd hneg (lt_irrefl 0)
      · exact absurd hneg (not_lt.mpr (hsign'.1 h).le)
    · rw [hnorm, hnorm']
      exact subscriptValue_marks hcut.ne_nil hmarks hmarks' (by rw [hvalue]) hstop

theorem scalarSubscript_eq (hcut : env.Cut s chs) (hcount : env.metastrlen s = some chs.length)
    (hi : FitsInt ksh chs.length s.length i) (hj : FitsInt ksh chs.length s.length (j.getD i)) :
    scalarSubscript env ⟨ksh, false⟩ s i j =
      some (slice chs (norm ksh chs.length i) (norm ksh chs.length (j.getD i))).flatten := by
  obtain ⟨v, hv, hzero, hmarks⟩ := getindexScalar_spec hcut hcount hi hj
  have hlen : s.length < 2 ^ 31 := by
    have := hi.2
    omega
  rw [scalarSubscript, hv]
  by_cases h : ZeroRange ksh i j
  · obtain ⟨hstart, hstop, -⟩ := hzero h
    obtain ⟨hksh, hi0, hj0⟩ := h
    have hnone : norm ksh chs.length (j.getD i) = 0 := by
      rw [norm, hj0, hksh, if_neg (lt_irrefl 0)]
      rfl
    rw [hnone, slice, Int.toNat_zero, take_zero, drop_nil, flatten_nil]
    have hint : toInt s.length = s.length := toInt_eq (by omega)
    simp only [getstrvalue, hstart, hstop, hint, copyRange]
    rw [if_neg (by omega), if_neg (lt_irrefl 0), if_pos (by omega)]
  · exact getstrvalue_marks hcut (hmarks h).2.2 hlen

/-- What an assignment to a subscript of a scalar leaves, whatever the setter of the parameter is. -/
theorem assignScalar_eq (strset : Bool) {val : Bytes} (hcut : env.Cut s chs)
    (hcount : env.metastrlen s = some chs.length) (hi : FitsInt ksh chs.length s.length i)
    (hj : FitsInt ksh chs.length s.length (j.getD i)) (hlen : s.length + val.length < 2 ^ 31)
    (hsingle : env.multibyte = false → j.getD i < 0 → 0 < norm ksh chs.length (j.getD i) →
      ∀ ch ∈ chs[(norm ksh chs.length (j.getD i)).toNat - 1]?, ch.length = 1) :
    (ZeroRange ksh i j → assignScalar env ⟨ksh, false⟩ strset s i j val = some .invalidRange) ∧
      (¬ ZeroRange ksh i j → assignScalar env ⟨ksh, false⟩ strset s i j val =
        some (.value ((beforeSlice chs (norm ksh chs.length i)).flatten ++ val ++
          (behindSlice chs (norm ksh chs.length i) (norm ksh chs.length (j.getD i))).flatten))) := by
  obtain ⟨v, hv, hzero, hmarks⟩ := getindexScalar_spec hcut hcount hi hj
  rw [assignScalar, hv]
  refine ⟨fun h ↦ ?_, fun h ↦ ?_⟩
  · simp only [assignstrvalue, (hzero h).2.2, if_true]
  · obtain ⟨hempty, hneg, hrange⟩ := hmarks h
    exact assignstrvalue_marks strset hcut hrange hempty hlen
      (fun hmultibyte hstop hpos ↦ hsingle hmultibyte (hneg hstop) (by omega))

end

end Bsh.Shell
