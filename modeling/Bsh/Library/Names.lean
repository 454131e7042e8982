import Mathlib.Data.List.Basic

/-!
# Names between separators

A text is a row of names with one or more separators between them, and any number of separators in
front and behind.  `names` collects the names.  `Row m` is a text of `m` names without separators at
its ends; it can be built up and taken apart from either end.
-/

namespace Bsh.Library

open List

namespace Names

variable {α : Type*} {sep : α} {l t a b : List α} {m n r : ℕ}

/-! ## Collecting names -/

section Collecting

variable [DecidableEq α]

/-- The names of a text behind a part of a name. -/
def namesFrom (sep : α) : List α → List α → List (List α)
  | part, [] => if part = [] then [] else [part]
  | part, c :: l =>
    if c = sep then (if part = [] then [] else [part]) ++ namesFrom sep [] l
    else namesFrom sep (part ++ [c]) l

/-- The names of a text. -/
def names (sep : α) (l : List α) : List (List α) := namesFrom sep [] l

theorem namesFrom_append_sep (part a b : List α) :
    namesFrom sep part (a ++ sep :: b) = namesFrom sep part a ++ names sep b := by
  induction a generalizing part with
  | nil => simp only [nil_append, namesFrom, if_true, names]
  | cons c a ih =>
    rw [cons_append, namesFrom, namesFrom]
    by_cases hc : c = sep
    · rw [if_pos hc, if_pos hc, ih, append_assoc]
    · rw [if_neg hc, if_neg hc, ih]

/-- No name goes across a separator. -/
theorem names_append_sep (a b : List α) : names sep (a ++ sep :: b) = names sep a ++ names sep b :=
  namesFrom_append_sep [] a b

theorem names_nil : names sep ([] : List α) = [] := rfl

theorem names_sep_cons (b : List α) : names sep (sep :: b) = names sep b :=
  names_append_sep [] b

theorem names_replicate_append (n : ℕ) (b : List α) :
    names sep (List.replicate n sep ++ b) = names sep b := by
  induction n with
  | zero => rfl
  | succ n ih => rw [replicate_succ, cons_append, names_sep_cons, ih]

theorem names_append_replicate (a : List α) (n : ℕ) :
    names sep (a ++ List.replicate n sep) = names sep a := by
  cases n with
  | zero => rw [replicate_zero, append_nil]
  | succ n =>
    have h := @names_replicate_append α sep _ n []
    rw [append_nil] at h
    rw [replicate_succ, names_append_sep, h, names_nil, append_nil]

theorem names_append_gap (a b : List α) (r : ℕ) :
    names sep (a ++ List.replicate (r + 1) sep ++ b) = names sep a ++ names sep b := by
  rw [append_assoc, replicate_succ, cons_append, names_append_sep,
    names_replicate_append]

theorem namesFrom_of_notMem (part : List α) (hl : sep ∉ l) :
    namesFrom sep part l = if part ++ l = [] then [] else [part ++ l] := by
  induction l generalizing part with
  | nil => rw [namesFrom, append_nil]
  | cons c l ih =>
    rw [mem_cons, not_or] at hl
    rw [namesFrom, if_neg (Ne.symm hl.1), ih _ hl.2, append_assoc, singleton_append]

end Collecting

/-! ## Rows of names -/

/-- A name. -/
structure IsName (sep : α) (l : List α) : Prop where
  ne_nil : l ≠ []
  sep_notMem : sep ∉ l

/-- A text of `m` names, with one or more separators between them. -/
inductive Row (sep : α) : ℕ → List α → Prop where
  | name {n : List α} (hn : IsName sep n) : Row sep 1 n
  | more {m : ℕ} {n b : List α} (hn : IsName sep n) (r : ℕ) (hb : Row sep m b) :
      Row sep (m + 1) (n ++ List.replicate (r + 1) sep ++ b)

theorem Row.pos (h : Row sep m l) : 0 < m := by
  cases h with
  | name _ => exact Nat.one_pos
  | more _ _ _ => exact Nat.succ_pos _

theorem Row.head (h : Row sep m l) : ∃ c t, l = c :: t ∧ c ≠ sep := by
  have hname {n t : List α} (hn : IsName sep n) : ∃ c u, n ++ t = c :: u ∧ c ≠ sep := by
    obtain ⟨c, n, rfl⟩ := exists_cons_of_ne_nil hn.ne_nil
    exact ⟨c, n ++ t, rfl, fun hc ↦ hn.sep_notMem (hc ▸ mem_cons_self)⟩
  cases h with
  | name hn =>
    have h := hname (t := []) hn
    rwa [append_nil] at h
  | more hn r _ =>
    rw [append_assoc]
    exact hname hn

theorem Row.append (ha : Row sep m a) (r : ℕ) (hb : Row sep n b) :
    Row sep (m + n) (a ++ List.replicate (r + 1) sep ++ b) := by
  induction ha with
  | name hn =>
    rw [Nat.add_comm]
    exact .more hn r hb
  | @more m name a hn r' _ ih =>
    have h := Row.more hn r' ih
    rw [Nat.add_right_comm]
    simpa only [append_assoc] using h

/-- A row can be taken apart between any two of its names. -/
theorem Row.split (h : Row sep (m + n) l) (hm : 0 < m) (hn : 0 < n) :
    ∃ a r b, l = a ++ List.replicate (r + 1) sep ++ b ∧ Row sep m a ∧ Row sep n b := by
  induction m generalizing l with
  | zero => exact absurd hm (Nat.lt_irrefl 0)
  | succ m ih =>
    rw [Nat.add_right_comm] at h
    generalize hk : m + n = k at h
    cases h with
    | name _ => omega
    | @more _ name b hname r hb =>
      subst hk
      rcases Nat.eq_zero_or_pos m with rfl | hpos
      · rw [Nat.zero_add] at hb
        exact ⟨name, r, b, rfl, .name hname, hb⟩
      · obtain ⟨a, r', b, rfl, ha, hb'⟩ := ih hb hpos
        refine ⟨name ++ List.replicate (r + 1) sep ++ a, r', b, ?_, .more hname r ha, hb'⟩
        simp only [append_assoc]

theorem IsName.reverse (h : IsName sep l) : IsName sep l.reverse :=
  ⟨fun hnil ↦ h.ne_nil (List.reverse_eq_nil_iff.mp hnil),
    fun hmem ↦ h.sep_notMem (List.mem_reverse.mp hmem)⟩

theorem Row.reverse (h : Row sep m l) : Row sep m l.reverse := by
  induction h with
  | name hn => exact .name hn.reverse
  | @more m n b hn r _ ih =>
    have hrow := ih.append r (.name hn.reverse)
    rwa [reverse_append, reverse_append, reverse_replicate, ← append_assoc]

theorem Row.last (h : Row sep m l) :
    m = 1 ∧ IsName sep l ∨
      ∃ k a r n, m = k + 1 ∧ l = a ++ List.replicate (r + 1) sep ++ n ∧ Row sep k a ∧ IsName sep n := by
  cases h with
  | name hn => exact .inl ⟨rfl, hn⟩
  | @more k n b hn r hb =>
    obtain ⟨a, r', b', heq, ha, hb'⟩ := (Row.more hn r hb).split hb.pos Nat.one_pos
    cases hb' with
    | name hlast => exact .inr ⟨k, a, r', b', rfl, heq, ha, hlast⟩
    | more _ _ hempty =>
      have := hempty.pos
      omega

/-- Every text is separators, or a row between separators. -/
theorem exists_row (sep : α) (l : List α) :
    (∃ n, l = List.replicate n sep) ∨
      ∃ lead m b trail, Row sep m b ∧ l = List.replicate lead sep ++ b ++ List.replicate trail sep := by
  induction l with
  | nil => exact .inl ⟨0, rfl⟩
  | cons c l ih =>
    by_cases hc : c = sep
    · subst hc
      rcases ih with ⟨n, rfl⟩ | ⟨lead, m, b, trail, hb, rfl⟩
      · exact .inl ⟨n + 1, rfl⟩
      · exact .inr ⟨lead + 1, m, b, trail, hb, rfl⟩
    · have hname : IsName sep [c] := ⟨cons_ne_nil c [], by simpa using Ne.symm hc⟩
      rcases ih with ⟨n, rfl⟩ | ⟨lead, m, b, trail, hb, rfl⟩
      · exact .inr ⟨0, 1, [c], n, .name hname, rfl⟩
      · cases lead with
        | succ lead => exact .inr ⟨0, m + 1, _, trail, .more hname lead hb, by simp⟩
        | zero =>
          have hlonger {n : List α} (hn : IsName sep n) : IsName sep (c :: n) :=
            ⟨cons_ne_nil c n, by simpa using ⟨Ne.symm hc, hn.sep_notMem⟩⟩
          cases hb with
          | name hn => exact .inr ⟨0, 1, _, trail, .name (hlonger hn), rfl⟩
          | more hn r hb => exact .inr ⟨0, _, _, trail, .more (hlonger hn) r hb, by simp⟩

/-! ## Pieces -/

/-- A text of names, each with the number of separators behind it. -/
def text (sep : α) (l : List (List α × ℕ)) : List α :=
  l.flatMap fun p ↦ p.1 ++ List.replicate p.2 sep

/-- Names that are kept apart by separators. -/
inductive Pieces (sep : α) : List (List α × ℕ) → Prop where
  | nil : Pieces sep []
  | last {n : List α} (hn : IsName sep n) (r : ℕ) : Pieces sep [(n, r)]
  | more {n : List α} {l : List (List α × ℕ)} (hn : IsName sep n) (r : ℕ) (h : Pieces sep l) :
      Pieces sep ((n, r + 1) :: l)

theorem text_cons (p : List α × ℕ) (l : List (List α × ℕ)) :
    text sep (p :: l) = p.1 ++ List.replicate p.2 sep ++ text sep l := flatMap_cons

theorem Pieces.head {l : List (List α × ℕ)} (h : Pieces sep l) :
    ∀ c ∈ (text sep l).head?, c ≠ sep := by
  have hname {n u : List α} (hn : IsName sep n) : ∀ c ∈ (n ++ u).head?, c ≠ sep := by
    obtain ⟨d, n, rfl⟩ := exists_cons_of_ne_nil hn.ne_nil
    rintro c ⟨⟩ rfl
    exact hn.sep_notMem mem_cons_self
  cases h with
  | nil => exact fun c hc ↦ nomatch hc
  | last hn r =>
    rw [text_cons, append_assoc]
    exact hname hn
  | more hn r h =>
    rw [text_cons, append_assoc]
    exact hname hn

theorem Pieces.isName {l : List (List α × ℕ)} (h : Pieces sep l) : ∀ p ∈ l, IsName sep p.1 := by
  induction h with
  | nil => exact fun p hp ↦ nomatch hp
  | last hn r => exact List.forall_mem_cons.mpr ⟨hn, fun p hp ↦ nomatch hp⟩
  | more hn r _ ih => exact List.forall_mem_cons.mpr ⟨hn, ih⟩

section Reading

variable [DecidableEq α]

/-- A character in front of separators and pieces. -/
def putFront (sep c : α) (p : ℕ × List (List α × ℕ)) : ℕ × List (List α × ℕ) :=
  if c = sep then (p.1 + 1, p.2)
  else
    match p with
    | (0, (n, r) :: l) => (0, (c :: n, r) :: l)
    | (k, l) => (0, ([c], k) :: l)

/-- The separators at the start of a text, and its pieces. -/
def pieces (sep : α) : List α → ℕ × List (List α × ℕ)
  | [] => (0, [])
  | c :: l => putFront sep c (pieces sep l)

theorem text_putFront (c : α) (p : ℕ × List (List α × ℕ)) :
    List.replicate (putFront sep c p).1 sep ++ text sep (putFront sep c p).2 =
      c :: (List.replicate p.1 sep ++ text sep p.2) := by
  unfold putFront
  by_cases hc : c = sep
  · rw [if_pos hc, hc]
    rfl
  · rw [if_neg hc]
    obtain ⟨k, l⟩ := p
    match k, l with
    | 0, (n, r) :: l => rfl
    | 0, [] => rfl
    | k + 1, l =>
      rfl

theorem pieces_text (l : List α) :
    List.replicate (pieces sep l).1 sep ++ text sep (pieces sep l).2 = l := by
  induction l with
  | nil => rfl
  | cons c l ih => rw [pieces, text_putFront, ih]

theorem pieces_putFront (c : α) {p : ℕ × List (List α × ℕ)} (h : Pieces sep p.2) :
    Pieces sep (putFront sep c p).2 := by
  unfold putFront
  by_cases hc : c = sep
  · rwa [if_pos hc]
  · rw [if_neg hc]
    have hone : IsName sep [c] := ⟨cons_ne_nil c [], by simpa using Ne.symm hc⟩
    have hlonger {n : List α} (hn : IsName sep n) : IsName sep (c :: n) :=
      ⟨cons_ne_nil c n, by simpa using ⟨Ne.symm hc, hn.sep_notMem⟩⟩
    obtain ⟨k, l⟩ := p
    match k, l, h with
    | 0, _, .nil => exact .last hone 0
    | 0, _, .last hn r => exact .last (hlonger hn) r
    | 0, _, .more hn r h => exact .more (hlonger hn) r h
    | k + 1, l, h => exact .more hone k h

theorem pieces_valid (l : List α) : Pieces sep (pieces sep l).2 := by
  induction l with
  | nil => exact .nil
  | cons c l ih => exact pieces_putFront c ih

theorem pieces_replicate (k : ℕ) (t : List α) :
    pieces sep (List.replicate k sep ++ t) = ((pieces sep t).1 + k, (pieces sep t).2) := by
  induction k with
  | zero => rfl
  | succ k ih =>
    rw [replicate_succ, cons_append, pieces, ih]
    exact if_pos rfl

theorem pieces_name {n t : List α} (hn : IsName sep n)
    (ht : (pieces sep t).1 = 0 → (pieces sep t).2 = []) :
    pieces sep (n ++ t) = (0, (n, (pieces sep t).1) :: (pieces sep t).2) := by
  obtain ⟨hne, hsep⟩ := hn
  induction n with
  | nil => exact absurd rfl hne
  | cons c n ih =>
    rw [mem_cons, not_or] at hsep
    have hc : ¬ c = sep := Ne.symm hsep.1
    rw [cons_append, pieces]
    unfold putFront
    rw [if_neg hc]
    cases n with
    | nil =>
      match pieces sep t, ht with
      | (0, []), _ => rfl
      | (0, _ :: _), ht => exact absurd (ht rfl) (cons_ne_nil _ _)
      | (k + 1, l), _ => rfl
    | cons d n =>
      rw [ih (cons_ne_nil d n) hsep.2]
      rfl

theorem Pieces.pieces_eq {l : List (List α × ℕ)} (h : Pieces sep l) (k : ℕ) :
    pieces sep (List.replicate k sep ++ text sep l) = (k, l) := by
  have hlead {l : List (List α × ℕ)} (hl : pieces sep (text sep l) = (0, l)) (k : ℕ) :
      pieces sep (List.replicate k sep ++ text sep l) = (k, l) := by
    rw [pieces_replicate, hl, Nat.zero_add]
  refine hlead ?_ k
  induction h with
  | nil => rfl
  | @last n hn r =>
    have hnil := @hlead [] rfl r
    rw [text_cons, append_assoc, pieces_name hn, hnil]
    exact fun _ ↦ congrArg Prod.snd hnil
  | @more n l hn r _ ih =>
    have hrest := hlead ih (r + 1)
    rw [text_cons, append_assoc, pieces_name hn, hrest]
    rw [hrest]
    exact fun h ↦ absurd h (Nat.succ_ne_zero r)

end Reading

/-! ## The names of a row -/

section Collecting

variable [DecidableEq α]

theorem IsName.names_eq (h : IsName sep l) : names sep l = [l] := by
  rw [names, namesFrom_of_notMem [] h.sep_notMem, nil_append, if_neg h.ne_nil]

theorem Row.length_names (h : Row sep m l) : (names sep l).length = m := by
  induction h with
  | name hn => rw [hn.names_eq, length_singleton]
  | more hn r _ ih => rw [names_append_gap, hn.names_eq, singleton_append, length_cons, ih]

end Collecting

end Names

end Bsh.Library
