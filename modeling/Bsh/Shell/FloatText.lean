import Bsh.Shell.IntegerText

/-!
# Floating point numbers with underscores

`convfloat_underscore` of `params.c` groups the digits on both sides of the point.  The room for the
underscores is predicted from the numbers of digits, each less one: a side without digits counts as
`-1` there, which a spacing of 1 does not divide to zero.
-/

namespace Bsh.Shell

open Bsh.Library List

/-- The text behind its sign. -/
def unsigned (s : Bytes) : Bytes := if headIs '-' s then s.tail else s

/-- `ndigits_int`. -/
def ndigitsInt (s : Bytes) : ℕ := ((unsigned s).takeWhile idigit).length

/-- `ndigits_frac`. -/
def ndigitsFrac (s : Bytes) : ℕ :=
  let sptr := (unsigned s).drop (ndigitsInt s)
  if headIs '.' sptr then (sptr.tail.takeWhile idigit).length else 0

/-- `nunderscore`, with the divisions of C. -/
def floatUnderscores (ndigitsInt ndigitsFrac : ℕ) (underscore : ℤ) : ℤ :=
  ((ndigitsInt : ℤ) - 1).tdiv underscore + ((ndigitsFrac : ℤ) - 1).tdiv underscore

/-- The loop over the digits in front of the point: what it writes for the text at `sptr`. -/
def intLoop (underscore : ℕ) : ℕ → Bytes → Bytes
  | n + 1, c :: s =>
    if n ≠ 0 ∧ n % underscore = 0 then c :: char '_' :: intLoop underscore n s
    else c :: intLoop underscore n s
  | _, _ => []

/-- The loop over the digits behind the point. -/
def fracLoop (underscore : ℕ) : ℕ → ℕ → Bytes → Bytes
  | n + 1, mod, c :: s =>
    if n ≠ 0 ∧ mod + 1 = underscore then c :: char '_' :: fracLoop underscore n 0 s
    else c :: fracLoop underscore n (mod + 1) s
  | _, _, _ => []

/-- What is written from `retptr` on, without the NUL. -/
def floatText (s : Bytes) (underscore : ℕ) : Bytes :=
  let sptr := (unsigned s).drop (ndigitsInt s)
  (if headIs '-' s then s.take 1 else []) ++ intLoop underscore (ndigitsInt s) (unsigned s) ++
    if ndigitsFrac s = 0 then sptr
    else sptr.take 1 ++ fracLoop underscore (ndigitsFrac s) 0 sptr.tail ++
      sptr.tail.drop (ndigitsFrac s)

/-- `convfloat_underscore`, for the text `s` of `convfloat`. -/
def convfloatUnderscore (s : Bytes) (underscore : ℤ) : Option Bytes :=
  let nunderscore := floatUnderscores (ndigitsInt s) (ndigitsFrac s) underscore
  if underscore ≤ 0 ∨ nunderscore = 0 then some s
  else
    ((Cells.fresh (s.length + nunderscore + 1).toNat).storeAll 0
      (floatText s underscore.toNat ++ [0])).bind fun r ↦ Arith.stringIn r.1

/-- A text without its underscores. -/
def withoutUnderscores (s : Bytes) : Bytes := s.filter (· ≠ char '_')

/-- Nothing is written outside of the memory, and without its underscores the text is `s` again. -/
def KeepsFloat (s : Bytes) (underscore : ℤ) : Prop :=
  ∃ text, convfloatUnderscore s underscore = some text ∧ withoutUnderscores text = s

/-! ## What the loops write -/

section Loops

variable {u : ℕ} {n : ℕ} {s : Bytes}

theorem withoutUnderscores_cons {c : UInt8} (hc : char '_' ≠ c) (s : Bytes) :
    withoutUnderscores (c :: s) = c :: withoutUnderscores s :=
  filter_cons_of_pos (decide_eq_true hc.symm)

theorem withoutUnderscores_underscore (s : Bytes) :
    withoutUnderscores (char '_' :: s) = withoutUnderscores s :=
  filter_cons_of_neg (by decide)

theorem withoutUnderscores_append (s t : Bytes) :
    withoutUnderscores (s ++ t) = withoutUnderscores s ++ withoutUnderscores t :=
  filter_append _ _

theorem withoutUnderscores_eq (h : char '_' ∉ s) : withoutUnderscores s = s :=
  List.filter_eq_self.mpr fun _ hc ↦ decide_eq_true fun heq ↦ h (heq ▸ hc)

theorem withoutUnderscores_intLoop (hplain : char '_' ∉ s) :
    withoutUnderscores (intLoop u n s) = s.take n := by
  induction s generalizing n with
  | nil => cases n <;> rfl
  | cons c s ih =>
    rw [mem_cons, not_or] at hplain
    cases n with
    | zero => rfl
    | succ n =>
      rw [intLoop, take_succ_cons, ← ih hplain.2]
      split
      · rw [withoutUnderscores_cons hplain.1, withoutUnderscores_underscore]
      · rw [withoutUnderscores_cons hplain.1]

theorem withoutUnderscores_fracLoop {mod : ℕ} (hplain : char '_' ∉ s) :
    withoutUnderscores (fracLoop u n mod s) = s.take n := by
  induction s generalizing n mod with
  | nil => cases n <;> rfl
  | cons c s ih =>
    rw [mem_cons, not_or] at hplain
    cases n with
    | zero => rfl
    | succ n =>
      rw [fracLoop, take_succ_cons]
      split
      · rw [withoutUnderscores_cons hplain.1, withoutUnderscores_underscore, ih hplain.2]
      · rw [withoutUnderscores_cons hplain.1, ih hplain.2]

/-- One more digit in front makes a group full when the others are a multiple of the spacing. -/
theorem div_eq_pred_div (n : ℕ) :
    n / u = (n - 1) / u + if n ≠ 0 ∧ n % u = 0 then 1 else 0 := by
  cases n with
  | zero => simp
  | succ n =>
    rw [Nat.succ_div, Nat.add_sub_cancel]
    simp only [Nat.dvd_iff_mod_eq_zero, ne_eq, Nat.succ_ne_zero, not_false_eq_true, true_and]

theorem length_intLoop (hn : n ≤ s.length) :
    (intLoop u n s).length = n + (n - 1) / u := by
  induction s generalizing n with
  | nil =>
    rw [Nat.le_zero.mp hn]
    simp [intLoop]
  | cons c s ih =>
    cases n with
    | zero => simp [intLoop]
    | succ n =>
      have hrest := ih (Nat.le_of_succ_le_succ hn)
      have hdiv := @div_eq_pred_div u n
      rw [intLoop, Nat.add_sub_cancel]
      split <;> simp_all <;> omega

theorem length_fracLoop {mod : ℕ} (hmod : mod < u) (hn : n ≤ s.length) :
    (fracLoop u n mod s).length = n + (n + mod - 1) / u := by
  induction s generalizing n mod with
  | nil =>
    rw [Nat.le_zero.mp hn, Nat.zero_add, Nat.div_eq_of_lt (by omega)]
    rfl
  | cons c s ih =>
    cases n with
    | zero =>
      rw [Nat.zero_add, Nat.div_eq_of_lt (by omega)]
      rfl
    | succ n =>
      have hn' : n ≤ s.length := Nat.le_of_succ_le_succ hn
      rw [fracLoop]
      by_cases hlast : n = 0
      · subst hlast
        rw [if_neg fun h ↦ h.1 rfl, Nat.div_eq_of_lt (by omega)]
        cases s <;> rfl
      · by_cases hfull : mod + 1 = u
        · have hgroup : n + 1 + mod - 1 = (n + 0 - 1) + 1 + mod := by omega
          rw [if_pos ⟨hlast, hfull⟩, length_cons, length_cons, ih (by omega) hn', hgroup,
            Nat.add_assoc _ 1 mod, Nat.add_comm 1 mod, hfull, Nat.add_div_right _ (by omega)]
          omega
        · have hsame : n + (mod + 1) - 1 = n + 1 + mod - 1 := by omega
          rw [if_neg fun h ↦ hfull h.2, length_cons, ih (by omega) hn', hsame]
          omega

end Loops

/-! ## The prediction -/

/-- Counts of digits for which the prediction is right, or no underscore is wanted. -/
def Predicted (ndigitsInt ndigitsFrac : ℕ) (underscore : ℤ) : Prop :=
  2 ≤ underscore ∨ (0 < ndigitsInt ∧ 0 < ndigitsFrac) ∨ ndigitsInt + ndigitsFrac = 2

theorem tdiv_pred {u : ℤ} (hu : 1 ≤ u) (n : ℕ) :
    ((n : ℤ) - 1).tdiv u = ((n - 1) / u.toNat : ℕ) - if n = 0 ∧ u = 1 then 1 else 0 := by
  obtain ⟨u, rfl⟩ : ∃ k : ℕ, u = k := ⟨u.toNat, by omega⟩
  cases n with
  | zero =>
    rcases Nat.lt_or_ge u 2 with hone | htwo
    · obtain rfl : u = 1 := by omega
      rfl
    · have hzero : ((0 : ℕ) - 1 : ℤ).tdiv u = 0 := by
        change (-1 : ℤ).tdiv u = 0
        rw [Int.neg_tdiv, Int.tdiv_eq_zero_of_lt (by omega) (by omega), neg_zero]
      have hne : ¬((0 : ℕ) = 0 ∧ (u : ℤ) = 1) := fun h ↦ by omega
      rw [hzero, if_neg hne]
      simp
  | succ n =>
    rw [if_neg fun h ↦ Nat.succ_ne_zero n h.1, Nat.add_sub_cancel, Int.toNat_natCast]
    push_cast
    rw [add_sub_cancel_right, sub_zero, Int.tdiv_eq_ediv_of_nonneg (Int.natCast_nonneg n)]

theorem floatUnderscores_le {u : ℤ} (hu : 1 ≤ u) (i f : ℕ) :
    floatUnderscores i f u ≤ ((i - 1) / u.toNat + (f - 1) / u.toNat : ℕ) := by
  rw [floatUnderscores, tdiv_pred hu, tdiv_pred hu]
  push_cast
  split_ifs <;> omega

/-- The prediction falls short by one for each side without digits, when the spacing is 1. -/
theorem predicted_iff {u : ℤ} (hu : 1 ≤ u) (i f : ℕ) :
    Predicted i f u ↔ floatUnderscores i f u = 0 ∨
      floatUnderscores i f u = ((i - 1) / u.toNat + (f - 1) / u.toNat : ℕ) := by
  rw [floatUnderscores, tdiv_pred hu, tdiv_pred hu, Predicted]
  rcases eq_or_lt_of_le hu with rfl | htwo
  · rw [Int.toNat_one, Nat.div_one, Nat.div_one]
    split_ifs <;> omega
  · rw [if_neg (by omega), if_neg (by omega)]
    push_cast
    omega

/-! ## The whole text -/

section Text

variable {s : Bytes}

theorem ndigitsInt_le (s : Bytes) : ndigitsInt s ≤ (unsigned s).length :=
  ( takeWhile_prefix _).length_le

theorem ndigitsFrac_le (s : Bytes) :
    ndigitsFrac s ≤ ((unsigned s).drop (ndigitsInt s)).tail.length := by
  unfold ndigitsFrac
  dsimp only
  split
  · exact ( takeWhile_prefix _).length_le
  · exact Nat.zero_le _

theorem sign_append (s : Bytes) : (if headIs '-' s then s.take 1 else []) ++
    ((unsigned s).take (ndigitsInt s) ++ (unsigned s).drop (ndigitsInt s)) = s := by
  rw [List.take_append_drop, unsigned]
  split
  · rw [← drop_one, List.take_append_drop]
  · rfl

theorem withoutUnderscores_floatText (hplain : char '_' ∉ s) (u : ℕ) :
    withoutUnderscores (floatText s u) = s := by
  have hmem {l : Bytes} (hl : l ⊆ s) : char '_' ∉ l := fun h ↦ hplain (hl h)
  have hunsigned : unsigned s ⊆ s := by
    unfold unsigned
    split
    · exact tail_subset s
    · exact List.Subset.refl s
  have hsptr : (unsigned s).drop (ndigitsInt s) ⊆ s := List.Subset.trans (drop_subset _ _) hunsigned
  have hsign : (if headIs '-' s then s.take 1 else []) ⊆ s := by
    split
    · exact take_subset _ _
    · exact nil_subset s
  unfold floatText
  dsimp only
  rw [withoutUnderscores_append, withoutUnderscores_append, withoutUnderscores_eq (hmem hsign),
    withoutUnderscores_intLoop (hmem hunsigned), append_assoc]
  refine Eq.trans ?_ (sign_append s)
  congr 2
  generalize (unsigned s).drop (ndigitsInt s) = sptr at hsptr
  split
  · exact withoutUnderscores_eq (hmem hsptr)
  · have htail := List.Subset.trans (tail_subset sptr) hsptr
    rw [withoutUnderscores_append, withoutUnderscores_append,
      withoutUnderscores_eq (hmem (List.Subset.trans (take_subset _ _) hsptr)),
      withoutUnderscores_fracLoop (hmem htail),
      withoutUnderscores_eq (hmem (List.Subset.trans (drop_subset _ _) htail)), append_assoc,
      List.take_append_drop, ← drop_one, List.take_append_drop]

/-- An underscore between the groups on each side. -/
theorem length_floatText {u : ℕ} (hu : 0 < u) :
    (floatText s u).length = s.length + ((ndigitsInt s - 1) / u + (ndigitsFrac s - 1) / u) := by
  have hsplit := congrArg List.length (sign_append s)
  have hint := @length_intLoop u _ _ (ndigitsInt_le s)
  have hfrac := length_fracLoop hu (ndigitsFrac_le s)
  have hle := ndigitsInt_le s
  have hle' := ndigitsFrac_le s
  rw [length_append, List.take_append_drop] at hsplit
  rw [length_tail, length_drop] at hle'
  unfold floatText
  dsimp only
  rw [length_append, length_append, hint]
  by_cases hzero : ndigitsFrac s = 0
  · rw [if_pos hzero, hzero, length_drop, Nat.zero_sub, Nat.zero_div]
    omega
  · rw [if_neg hzero, length_append, length_append, hfrac, length_take,
      length_drop, length_drop, length_tail, length_drop, Nat.add_zero]
    omega

theorem ne_zero_of_mem_floatText (hnul : 0 ∉ s) (hplain : char '_' ∉ s) (u : ℕ) :
    ∀ c ∈ floatText s u, c ≠ 0 := by
  rintro c hc rfl
  apply hnul
  rw [← withoutUnderscores_floatText hplain u]
  exact List.mem_filter.mpr ⟨hc, by decide⟩

/-- Every grouped text is kept unless one side has no digits, the spacing is 1 and an underscore is
asked for. -/
theorem keepsFloat_iff (hnul : 0 ∉ s) (hplain : char '_' ∉ s) {underscore : ℤ}
    (hu : 1 ≤ underscore) :
    KeepsFloat s underscore ↔ Predicted (ndigitsInt s) (ndigitsFrac s) underscore := by
  have hlength := @length_floatText s underscore.toNat
  have hle := floatUnderscores_le hu (ndigitsInt s) (ndigitsFrac s)
  rw [predicted_iff hu, KeepsFloat, convfloatUnderscore]
  generalize floatUnderscores (ndigitsInt s) (ndigitsFrac s) underscore = predicted at *
  generalize (ndigitsInt s - 1) / underscore.toNat + (ndigitsFrac s - 1) / underscore.toNat =
    written at *
  by_cases hzero : predicted = 0
  · rw [if_pos (.inr hzero)]
    exact iff_of_true ⟨s, rfl, withoutUnderscores_eq hplain⟩ (.inl hzero)
  rw [if_neg (by omega)]
  have hsize : (floatText s underscore.toNat ++ [0]).length = s.length + written + 1 := by
    rw [length_append, hlength (by omega), length_singleton]
  rcases eq_or_lt_of_le hle with heq | hlt
  · have hfill := Cells.storeAll_fills_iff.mpr
      (⟨by rw [hsize, heq]; omega, rfl⟩ : (s.length + predicted + 1).toNat =
        (floatText s underscore.toNat ++ [0]).length ∧ _)
    rw [hfill, Option.bind_some,
      Arith.stringIn_text (ne_zero_of_mem_floatText hnul hplain underscore.toNat)]
    exact iff_of_true ⟨_, rfl, withoutUnderscores_floatText hplain _⟩ (.inr heq)
  · have hfull : (Cells.fresh (s.length + predicted + 1).toNat).storeAll 0
        (floatText s underscore.toNat ++ [0]) = none := by
      apply Cells.storeAll_eq_none (Nat.zero_le _)
      rw [hsize, Cells.fresh, List.length_replicate]
      omega
    rw [hfull, Option.bind_none]
    constructor
    · rintro ⟨text, htext, -⟩
      cases htext
    · omega

/-- `-1234.5` with an underscore for every two digits. -/
theorem keepsFloat_grouped : KeepsFloat (Bytes.ascii "-1234.5") 2 :=
  (keepsFloat_iff (by decide) (by decide) (by decide)).mpr (.inl (by decide))

/-- For `5.` with a spacing of 1 two bytes are allocated, and three are written. -/
theorem not_keepsFloat_point : ¬KeepsFloat (Bytes.ascii "5.") 1 := by
  have hnone : convfloatUnderscore (Bytes.ascii "5.") 1 = none := by decide
  rintro ⟨text, htext, -⟩
  rw [hnone] at htext
  cases htext

end Text

end Bsh.Shell
