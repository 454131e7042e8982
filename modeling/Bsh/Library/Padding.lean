import Mathlib.Algebra.BigOperators.Group.List.Basic
import Mathlib.Algebra.GroupWithZero.Nat
import Mathlib.Data.List.DropRight

/-!
# Fields of a fixed width

A text is put into a field at its left or right end, cut where it is too long.  The rest of the field
is filled with a text that is used once, next to the field's text, and behind it by a text that is
repeated as often as needed.
-/

namespace Bsh.Library

open List

namespace Padding

variable {α : Type*}

/-- The first `k` elements behind the end of a text. -/
def after (k : ℕ) (once again : List α) : List α :=
  (once ++ (List.replicate k again).flatten).take k

/-- The last `k` elements in front of the start of a text. -/
def before (k : ℕ) (once again : List α) : List α :=
  ((List.replicate k again).flatten ++ once).rtake k

/-- A text at the left end of a field of width `w`. -/
def fieldLeft (w : ℕ) (once again text : List α) : List α :=
  if w ≤ text.length then text.take w else text ++ after (w - text.length) once again

/-- A text at the right end of a field of width `w`. -/
def fieldRight (w : ℕ) (once again text : List α) : List α :=
  if w ≤ text.length then text.rtake w else before (w - text.length) once again ++ text

/-- There is enough to fill `k` places. -/
def Enough (k : ℕ) (once again : List α) : Prop := k ≤ once.length ∨ again ≠ []

theorem length_flatten_replicate (n : ℕ) (again : List α) :
    (List.replicate n again).flatten.length = n * again.length := by
  simp

variable {j k : ℕ} {once : List α}

theorem take_flatten_replicate {n : ℕ} {again : List α} (hpos : 0 < again.length)
    (h : j ≤ n * again.length) :
    (List.replicate n again).flatten.take j =
      (List.replicate (j / again.length) again).flatten ++ again.take (j % again.length) := by
  induction n generalizing j with
  | zero =>
    obtain rfl : j = 0 := by omega
    simp
  | succ n ih =>
    rw [replicate_succ, flatten_cons]
    by_cases hj : j < again.length
    · rw [take_append_of_le_length hj.le, Nat.div_eq_of_lt hj, Nat.mod_eq_of_lt hj]
      rfl
    · have hle : again.length ≤ j := not_lt.mp hj
      have hrest : j - again.length ≤ n * again.length := by
        rw [Nat.succ_mul] at h
        omega
      have hdiv : j / again.length = (j - again.length) / again.length + 1 :=
        Nat.div_eq_sub_div hpos hle
      have hmod : j % again.length = (j - again.length) % again.length :=
        Nat.mod_eq_sub_mod hle
      rw [take_append, take_of_length_le hle, ih hrest, hdiv, hmod,
        replicate_succ, flatten_cons, append_assoc]

/-! ## Behind a text -/

theorem after_once (h : k ≤ once.length) (again : List α) :
    after k once again = once.take k := take_append_of_le_length h

theorem after_again {again : List α} (hagain : again ≠ []) :
    after (once.length + j) once again = once ++
      ((List.replicate (j / again.length) again).flatten ++ again.take (j % again.length)) := by
  have hpos := List.length_pos_iff.mpr hagain
  have hle : j ≤ (once.length + j) * again.length := by
    calc j ≤ once.length + j := Nat.le_add_left _ _
      _ ≤ (once.length + j) * again.length := Nat.le_mul_of_pos_right _ hpos
  have hdrop : once.length + j - once.length = j := Nat.add_sub_cancel_left _ _
  unfold after
  rw [take_append, take_of_length_le (Nat.le_add_right _ _), hdrop,
    take_flatten_replicate hpos hle]

theorem after_nothing (once : List α) : after (once.length + j) once [] = once := by
  unfold after
  rw [flatten_replicate_nil, append_nil, take_of_length_le (Nat.le_add_right _ _)]

theorem length_after {again : List α} (h : Enough k once again) :
    (after k once again).length = k := by
  unfold after
  rw [length_take, length_append, length_flatten_replicate]
  rcases h with h | h
  · omega
  · have hpos := List.length_pos_iff.mpr h
    have hle := Nat.le_mul_of_pos_right k hpos
    omega

theorem length_after_eq_iff {again : List α} :
    (after k once again).length = k ↔ Enough k once again := by
  refine ⟨fun h ↦ ?_, length_after⟩
  by_contra hnot
  obtain ⟨hlt, hnil⟩ := not_or.mp hnot
  obtain rfl := not_not.mp hnil
  obtain ⟨j, rfl⟩ := Nat.exists_eq_add_of_le (not_le.mp hlt).le
  rw [after_nothing] at h
  omega

/-! ## In front of a text -/

/-- What is in front of a text is what is behind it, the other way round. -/
theorem before_eq_reverse (k : ℕ) (once again : List α) :
    before k once again = (after k once.reverse again.reverse).reverse := by
  unfold before after
  rw [rtake_eq_reverse_take_reverse, reverse_append, reverse_flatten,
    map_replicate, reverse_replicate]

theorem before_once (h : k ≤ once.length) (again : List α) :
    before k once again = once.rtake k := by
  rw [before_eq_reverse, after_once (by rwa [length_reverse]),
    rtake_eq_reverse_take_reverse]

theorem before_again {again : List α} (hagain : again ≠ []) :
    before (once.length + j) once again = again.rtake (j % again.length) ++
      ((List.replicate (j / again.length) again).flatten ++ once) := by
  have hreverse : again.reverse ≠ [] := fun h ↦ hagain (List.reverse_eq_nil_iff.mp h)
  have hafter : after (once.reverse.length + j) once.reverse again.reverse = _ :=
    after_again hreverse
  rw [length_reverse, length_reverse] at hafter
  rw [before_eq_reverse, hafter, reverse_append, reverse_append, reverse_reverse,
    ← rtake_eq_reverse_take_reverse, reverse_flatten, map_replicate,
    reverse_replicate, reverse_reverse, append_assoc]

theorem before_nothing (once : List α) : before (once.length + j) once [] = once := by
  have hafter : after (once.reverse.length + j) once.reverse [] = _ := after_nothing once.reverse
  rw [length_reverse] at hafter
  rw [before_eq_reverse, reverse_nil, hafter, reverse_reverse]

theorem length_before_eq_iff {again : List α} :
    (before k once again).length = k ↔ Enough k once again := by
  rw [before_eq_reverse, length_reverse, length_after_eq_iff]
  unfold Enough
  rw [length_reverse, ne_eq, reverse_eq_nil_iff]

/-! ## Fields -/

/-- What a field needs besides its text. -/
def FieldEnough (w : ℕ) (once again text : List α) : Prop :=
  text.length < w → Enough (w - text.length) once again

theorem length_fieldLeft_eq_iff {w : ℕ} {again text : List α} :
    (fieldLeft w once again text).length = w ↔ FieldEnough w once again text := by
  unfold fieldLeft FieldEnough
  split
  case isTrue h =>
    rw [length_take, Nat.min_eq_left h]
    exact iff_of_true rfl fun hlt ↦ absurd h (not_le.mpr hlt)
  case isFalse h =>
    rw [← length_after_eq_iff, length_append]
    omega

theorem length_fieldRight_eq_iff {w : ℕ} {again text : List α} :
    (fieldRight w once again text).length = w ↔ FieldEnough w once again text := by
  unfold fieldRight FieldEnough
  split
  case isTrue h =>
    rw [List.rtake, length_drop, Nat.sub_sub_self h]
    exact iff_of_true rfl fun hlt ↦ absurd h (not_le.mpr hlt)
  case isFalse h =>
    rw [← length_before_eq_iff, length_append]
    omega

theorem fieldLeft_zero (once again text : List α) : fieldLeft 0 once again text = [] := by
  unfold fieldLeft
  rw [if_pos (Nat.zero_le _), take_zero]

theorem fieldRight_zero (once again text : List α) : fieldRight 0 once again text = [] := by
  unfold fieldRight
  rw [if_pos (Nat.zero_le _), rtake_zero]

theorem length_after_le (k : ℕ) (once again : List α) : (after k once again).length ≤ k := by
  unfold after
  rw [length_take]
  exact Nat.min_le_left _ _

theorem length_fieldLeft_le (w : ℕ) (once again text : List α) :
    (fieldLeft w once again text).length ≤ w := by
  unfold fieldLeft
  split
  case isTrue =>
    rw [length_take]
    exact Nat.min_le_left _ _
  case isFalse h =>
    have hafter := length_after_le (w - text.length) once again
    rw [length_append]
    omega

theorem length_fieldRight_le (w : ℕ) (once again text : List α) :
    (fieldRight w once again text).length ≤ w := by
  unfold fieldRight
  split
  case isTrue h =>
    rw [List.rtake, length_drop]
    omega
  case isFalse h =>
    have hafter := length_after_le (w - text.length) once.reverse again.reverse
    rw [length_append, before_eq_reverse, length_reverse]
    omega

end Padding

end Bsh.Library

/-!
# Texts cut by width

Every element of a text has a width, which may be 0.  A cut goes forward until elements of the wanted
width have been passed; the last of them may be wider than what was left to pass.
-/

namespace Bsh.Library

open List

namespace Widths

variable {α : Type*} (width : α → ℕ)

/-- The width of a text. -/
def total (l : List α) : ℕ := (l.map width).sum

/-- What is passed on the way to the width `c`. -/
def takeWidth : ℕ → List α → List α
  | 0, _ => []
  | _ + 1, [] => []
  | c + 1, x :: l => x :: takeWidth (c + 1 - width x) l

/-- What is left behind. -/
def dropWidth : ℕ → List α → List α
  | 0, l => l
  | _ + 1, [] => []
  | c + 1, x :: l => dropWidth (c + 1 - width x) l

@[simp] theorem total_nil : total width ([] : List α) = 0 := rfl

@[simp] theorem total_cons (x : α) (l : List α) :
    total width (x :: l) = width x + total width l := by
  simp [total]

@[simp] theorem takeWidth_zero (l : List α) : takeWidth width 0 l = [] := by
  cases l <;> rfl

@[simp] theorem dropWidth_zero (l : List α) : dropWidth width 0 l = l := by
  cases l <;> rfl

@[simp] theorem takeWidth_nil (c : ℕ) : takeWidth width c [] = [] := by
  cases c <;> rfl

@[simp] theorem dropWidth_nil (c : ℕ) : dropWidth width c [] = [] := by
  cases c <;> rfl

theorem take_append_drop (c : ℕ) (l : List α) :
    takeWidth width c l ++ dropWidth width c l = l := by
  induction l generalizing c with
  | nil => cases c <;> rfl
  | cons x l ih =>
    cases c with
    | zero => rfl
    | succ c => rw [takeWidth, dropWidth, cons_append, ih]

variable {width}

theorem takeWidth_one {l : List α} (h : ∀ x ∈ l, width x = 1) (c : ℕ) :
    takeWidth width c l = l.take c := by
  induction l generalizing c with
  | nil => cases c <;> rfl
  | cons x l ih =>
    cases c with
    | zero => rfl
    | succ c =>
      rw [takeWidth, h x mem_cons_self, Nat.add_sub_cancel,
        ih fun y hy ↦ h y (mem_cons_of_mem x hy), take_succ_cons]

theorem dropWidth_one {l : List α} (h : ∀ x ∈ l, width x = 1) (c : ℕ) :
    dropWidth width c l = l.drop c := by
  have hsplit : l.take c ++ dropWidth width c l = l.take c ++ l.drop c := by
    rw [← takeWidth_one h, take_append_drop, takeWidth_one h, List.take_append_drop]
  exact append_cancel_left hsplit

/-! ## Demands -/

/-- Each of the texts is as wide as is asked for. -/
def Met (width : α → ℕ) (demands : List (ℕ × List α)) : Prop :=
  ∀ d ∈ demands, d.1 ≤ total width d.2

instance (demands : List (ℕ × List α)) : Decidable (Met width demands) :=
  inferInstanceAs (Decidable (∀ d ∈ demands, d.1 ≤ total width d.2))

theorem met_append {d e : List (ℕ × List α)} :
    Met width (d ++ e) ↔ Met width d ∧ Met width e := forall_mem_append

/-- A result that there is where the demands are met. -/
def served {β : Type*} (width : α → ℕ) (demands : List (ℕ × List α)) (b : β) : Option β :=
  if Met width demands then some b else none

section Served

variable {β γ : Type*} {d e : List (ℕ × List α)}

theorem served_nil (b : β) : served width [] b = some b :=
  if_pos fun _ h ↦ absurd h not_mem_nil

theorem served_of_met (h : Met width d) (b : β) : served width d b = some b := if_pos h

theorem met_of_served {b c : β} (h : served width d b = some c) : Met width d ∧ b = c := by
  unfold served at h
  split at h
  case isTrue hd => exact ⟨hd, Option.some.inj h⟩
  case isFalse => cases h

theorem served_map (b : β) (f : β → γ) : (served width d b).map f = served width d (f b) := by
  unfold served
  split <;> rfl

theorem served_bind (b : β) (c : γ) {f : β → Option γ} (h : f b = served width e c) :
    (served width d b).bind f = served width (d ++ e) c := by
  unfold served at h ⊢
  by_cases hd : Met width d
  · rw [if_pos hd, Option.bind_some, h]
    simp only [met_append, hd, true_and]
  · rw [if_neg hd, if_neg fun hall ↦ hd (met_append.mp hall).1]
    rfl

theorem served_bind_map {ε : Type*} (b : β) (c : γ) (f : β → γ → ε) :
    ((served width d b).bind fun x ↦ (served width e c).map (f x)) =
      served width (d ++ e) (f b c) :=
  served_bind b (f b c) (served_map c (f b))

end Served

end Widths

end Bsh.Library
