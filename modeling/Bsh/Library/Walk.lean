import Bsh.Library.HashChains

/-!
# Walks along lists that change

A walk along a linked list remembers the next element to go to.  Putting an element in front of the
list, replacing one or taking one out leaves the rest of the walk as it is, but for that element,
provided that a walk which is about to go to the element is told.
-/

namespace Bsh.Library

open List

variable {α : Type*} [DecidableEq α]

/-- The list from an element on. -/
def suffixAt (x : α) : List α → List α
  | [] => []
  | y :: l => if y = x then y :: l else suffixAt x l

/-- What comes after an element. -/
def successor (x : α) (l : List α) : Option α := (suffixAt x l).tail.head?

/-- What a walk that goes to `u` next will still come to. -/
def remaining (u : Option α) (l : List α) : List α :=
  match u with
  | none => []
  | some x => suffixAt x l

theorem suffixAt_suffix (x : α) (l : List α) : suffixAt x l <:+ l := by
  induction l with
  | nil => exact suffix_refl _
  | cons y l ih =>
    rw [suffixAt]
    split
    · exact suffix_refl _
    · exact ih.trans (suffix_cons y l)

theorem remaining_suffix (u : Option α) (l : List α) : remaining u l <:+ l := by
  cases u with
  | none => exact nil_suffix
  | some x => exact suffixAt_suffix x l

variable {l : List α} {u : Option α} {x : α}

theorem mem_of_mem_remaining {z : α} (h : z ∈ remaining u l) : z ∈ l :=
  (remaining_suffix u l).mem h

theorem remaining_head (l : List α) : remaining l.head? l = l := by
  cases l with
  | nil => rfl
  | cons x l => exact if_pos rfl

theorem remaining_cons (h : u ≠ some x) (l : List α) :
    remaining u (x :: l) = remaining u l := by
  cases u with
  | none => rfl
  | some y => exact if_neg fun heq ↦ h (congrArg some heq.symm)

theorem successor_mem {z : α} (h : successor x l = some z) : z ∈ l := by
  have htail : z ∈ (suffixAt x l).tail := mem_of_head? h
  exact (suffixAt_suffix x l).mem (mem_of_mem_tail htail)

theorem remaining_step (hnodup : l.Nodup) (hx : x ∈ l) :
    remaining (some x) l = x :: remaining (successor x l) l := by
  induction l with
  | nil => exact absurd hx not_mem_nil
  | cons y l ih =>
    obtain ⟨hy, hnodup⟩ := List.nodup_cons.mp hnodup
    by_cases hyx : y = x
    · subst hyx
      have hsuffix : suffixAt y (y :: l) = y :: l := if_pos rfl
      have hnext : successor y (y :: l) = l.head? := by rw [successor, hsuffix, tail_cons]
      have hhead : l.head? ≠ some y := fun hhead ↦ hy (mem_of_head? hhead)
      rw [hnext, remaining_cons hhead, remaining_head]
      exact hsuffix
    · have hxl : x ∈ l := (List.mem_cons.mp hx).resolve_left (Ne.symm hyx)
      have hsuffix : suffixAt x (y :: l) = suffixAt x l := if_neg hyx
      have hnext : successor x (y :: l) = successor x l := by rw [successor, hsuffix, successor]
      have hhere : some x ≠ some y := fun heq ↦ hyx (Option.some.inj heq).symm
      have hthere : successor x l ≠ some y := fun hsucc ↦ hy (successor_mem hsucc)
      rw [hnext, remaining_cons hhere, remaining_cons hthere]
      exact ih hnodup hxl

theorem successor_ne (hnodup : l.Nodup) : successor x l ≠ some x := by
  intro h
  have hwalk := remaining_step hnodup (successor_mem h)
  rw [h] at hwalk
  exact cons_ne_self x _ hwalk.symm

theorem mem_remaining_replaceFirst {p : α → Bool} {y : α}
    (hnodup : l.Nodup) (hfind : l.find? p = some y) (hx : x ∉ l) (hux : u ≠ some x) (z : α) :
    z ∈ remaining (if u = some y then some x else u) (HashChains.replaceFirst p x l) ↔
      (z ∈ remaining u l ∧ z ≠ y) ∨ (z = x ∧ y ∈ remaining u l) := by
  induction l with
  | nil => cases hfind
  | cons a l ih =>
    obtain ⟨ha, hnodup⟩ := List.nodup_cons.mp hnodup
    rw [mem_cons, not_or] at hx
    rw [HashChains.replaceFirst]
    by_cases hp : p a = true
    · rw [List.find?_cons_of_pos hp] at hfind
      obtain rfl : a = y := Option.some.inj hfind
      rw [if_pos hp]
      by_cases hu : u = some a
      · subst hu
        rw [if_pos rfl]
        have hnew : remaining (some x) (x :: l) = x :: l := if_pos rfl
        have hold : remaining (some a) (a :: l) = a :: l := if_pos rfl
        rw [hnew, hold, mem_cons, mem_cons]
        constructor
        · rintro (rfl | hz)
          · exact .inr ⟨rfl, mem_cons_self⟩
          · exact .inl ⟨.inr hz, fun heq ↦ ha (heq ▸ hz)⟩
        · rintro (⟨rfl | hz, hne⟩ | ⟨rfl, _⟩)
          · exact absurd rfl hne
          · exact .inr hz
          · exact .inl rfl
      · rw [if_neg hu, remaining_cons hux, remaining_cons hu]
        constructor
        · exact fun hz ↦ .inl ⟨hz, fun heq ↦ ha (heq ▸ mem_of_mem_remaining hz)⟩
        · rintro (⟨hz, _⟩ | ⟨_, hmem⟩)
          · exact hz
          · exact absurd (mem_of_mem_remaining hmem) ha
    · rw [List.find?_cons_of_neg hp] at hfind
      have hya : y ≠ a := fun heq ↦ ha (heq ▸ mem_of_find?_eq_some hfind)
      rw [if_neg hp]
      by_cases hu : u = some a
      · subst hu
        have hne : (some a : Option α) ≠ some y := fun heq ↦ hya (Option.some.inj heq).symm
        have hwalk : ∀ m : List α, remaining (some a) (a :: m) = a :: m := fun m ↦ if_pos rfl
        have hmem := mem_of_find?_eq_some hfind
        rw [if_neg hne, hwalk, hwalk, mem_cons, mem_cons, mem_cons,
          HashChains.mem_replaceFirst hnodup hfind]
        constructor
        · rintro (rfl | ⟨hz, hzy⟩ | rfl)
          · exact .inl ⟨.inl rfl, Ne.symm hya⟩
          · exact .inl ⟨.inr hz, hzy⟩
          · exact .inr ⟨rfl, .inr hmem⟩
        · rintro (⟨rfl | hz, hzy⟩ | ⟨rfl, _⟩)
          · exact .inl rfl
          · exact .inr (.inl ⟨hz, hzy⟩)
          · exact .inr (.inr rfl)
      · have hpatched : (if u = some y then some x else u) ≠ some a := by
          split
          · exact fun heq ↦ hx.1 (Option.some.inj heq)
          · exact hu
        rw [remaining_cons hpatched, remaining_cons hu]
        exact ih hnodup hfind hx.2

theorem mem_remaining_eraseP {p : α → Bool} {y : α}
    (hnodup : l.Nodup) (hfind : l.find? p = some y) (z : α) :
    z ∈ remaining (if u = some y then successor y l else u) (l.eraseP p) ↔ z ∈ remaining u l ∧ z ≠ y := by
  induction l with
  | nil => cases hfind
  | cons a l ih =>
    obtain ⟨ha, hnodup⟩ := List.nodup_cons.mp hnodup
    by_cases hp : p a = true
    · rw [List.find?_cons_of_pos hp] at hfind
      obtain rfl : a = y := Option.some.inj hfind
      rw [eraseP_cons_of_pos hp]
      by_cases hu : u = some a
      · subst hu
        have hwalk : remaining (some a) (a :: l) = a :: l := if_pos rfl
        have hnext : successor a (a :: l) = l.head? := by
          rw [successor, show suffixAt a (a :: l) = a :: l from if_pos rfl, tail_cons]
        rw [if_pos rfl, hnext, remaining_head, hwalk, mem_cons]
        constructor
        · exact fun hz ↦ ⟨.inr hz, fun heq ↦ ha (heq ▸ hz)⟩
        · rintro ⟨rfl | hz, hne⟩
          · exact absurd rfl hne
          · exact hz
      · rw [if_neg hu, remaining_cons hu]
        exact ⟨fun hz ↦ ⟨hz, fun heq ↦ ha (heq ▸ mem_of_mem_remaining hz)⟩, And.left⟩
    · rw [List.find?_cons_of_neg hp] at hfind
      have hmem := mem_of_find?_eq_some hfind
      have hay : a ≠ y := fun heq ↦ ha (heq ▸ hmem)
      have hnext : successor y (a :: l) = successor y l := by
        rw [successor, show suffixAt y (a :: l) = suffixAt y l from if_neg hay, successor]
      rw [eraseP_cons_of_neg hp, hnext]
      by_cases hu : u = some a
      · subst hu
        have hne : (some a : Option α) ≠ some y := fun heq ↦ hay (Option.some.inj heq)
        have hwalk : ∀ m : List α, remaining (some a) (a :: m) = a :: m := fun m ↦ if_pos rfl
        rw [if_neg hne, hwalk, hwalk, mem_cons, mem_cons,
          HashChains.mem_eraseP hnodup hfind]
        constructor
        · rintro (rfl | ⟨hz, hzy⟩)
          · exact ⟨.inl rfl, hay⟩
          · exact ⟨.inr hz, hzy⟩
        · rintro ⟨rfl | hz, hzy⟩
          · exact .inl rfl
          · exact .inr ⟨hz, hzy⟩
      · have hpatched : (if u = some y then successor y l else u) ≠ some a := by
          split
          · exact fun heq ↦ ha (successor_mem heq)
          · exact hu
        rw [remaining_cons hpatched, remaining_cons hu]
        exact ih hnodup hfind

end Bsh.Library
