import Bsh.Shell.ModeSpec

/-!
# The `f` qualifier as a whole

For a list of symbolic sub-specs the two masks accept a file exactly when every sub-spec does.  An
octal sub-spec is fine as the last one, unless it is an `=` that leaves a bit unchecked of which an
earlier sub-spec demands something: that demand is forgotten.  An octal sub-spec that is not the
last is refused, because the comma behind it is not skipped.
-/

namespace Bsh.Shell

open Bsh.Library List

/-! ## Well-formed qualifiers -/

/-- The sub-specs of a list, separated by commas. -/
def listText : List SubSpec → Bytes
  | [] => []
  | [s] => s.text
  | s :: items => s.text ++ char ',' :: listText items

/-- Sub-specs between delimiters; the closing one is not among their characters. -/
structure ModeList where
  opener : UInt8
  items : List SubSpec
  items_ne_nil : items ≠ []
  opener_ne_zero : opener ≠ 0
  not_startsOctal : startsOctal opener = false
  closing_not_mem : closingDelimiter opener ∉ listText items

/-- What stands behind `f`. -/
inductive ModeQualifier where
  | single (s : OctalSpec)
  | list (l : ModeList)

namespace ModeQualifier

def items : ModeQualifier → List SubSpec
  | single s => [.octal s]
  | list l => l.items

def text : ModeQualifier → Bytes
  | single s => (SubSpec.octal s).text
  | list l => l.opener :: (listText l.items ++ [closingDelimiter l.opener])

/-- A number without delimiters ends where the digits do. -/
def EndsBefore : ModeQualifier → Bytes → Prop
  | single _, rest => rest.head?.any isModeDigit = false
  | list _, _ => True

/-- The masks accept a mode exactly when every sub-spec on its own does. -/
def AcceptsEach (q : ModeQualifier) (rest : Bytes) : Prop :=
  ∃ data rest', qgetmodespec (q.text ++ rest) = .ok (data, rest') ∧
    ∀ mode, qualmodeflags mode data = true ↔ ∀ s ∈ q.items, s.Accepts mode

end ModeQualifier

/-! ## The loop over the sub-specs -/

def SubSpec.IsSymbolic : SubSpec → Prop
  | octal _ => False
  | symbolic _ => True

/-- Only the last sub-spec is octal. -/
def OctalLast (items : List SubSpec) : Prop := ∀ s ∈ items.dropLast, s.IsSymbolic

/-- The bits whose earlier demands the last sub-spec leaves alone. -/
def lastLeaves (items : List SubSpec) : Set ℕ := items.getLast?.elim Set.univ SubSpec.leaves

theorem SubSpec.demands_on_leaves (s : SubSpec) : s.demands.on s.leaves = s.demands := by
  cases s with
  | symbolic s => exact Demands.on_univ _
  | octal s =>
    apply Demands.ext
    · exact Set.inter_eq_left.mpr fun i hi _ ↦ hi.1
    · exact Set.inter_eq_left.mpr fun i hi _ ↦ hi.1

theorem demandsAfter_last (d : Demands ℕ) (s : SubSpec) :
    demandsAfter d s = (d.on s.leaves).join
      ((Demands.all [s.demands]).on (modeDomain ∩ s.leaves)) := by
  rw [demandsAfter, Demands.all_singleton, Set.inter_comm, ← Demands.on_on, s.demands_on_leaves]

/-- What is demanded in the end after a first sub-spec that forgets nothing. -/
theorem demandsAfter_first (d : Demands ℕ) {s : SubSpec} (hs : s.IsSymbolic)
    (l : List (Demands ℕ)) (kept : Set ℕ) :
    ((demandsAfter d s).on kept).join ((Demands.all l).on (modeDomain ∩ kept)) =
      (d.on kept).join ((Demands.all (s.demands :: l)).on (modeDomain ∩ kept)) := by
  have hleaves : s.leaves = Set.univ := by
    cases s with
    | octal s => exact hs.elim
    | symbolic s => rfl
  calc
    _ = ((d.on kept).join (s.demands.on (modeDomain ∩ kept))).join
        ((Demands.all l).on (modeDomain ∩ kept)) := by
      rw [demandsAfter, hleaves, Demands.on_univ, Demands.join_on, Demands.on_on]
    _ = _ := by
      rw [Demands.join_assoc, ← Demands.join_on, ← Demands.all_cons]

variable {finish : UInt8} (hnull : finish ≠ 0)

include hnull

theorem modeItem_append (s : SubSpec) (hfinish : finish ∉ s.text) {stop : UInt8}
    (hstop : stop = char ',' ∨ stop = finish) (hplain : isModeDigit stop = false) (rest : Bytes)
    (m : ModeMasks) :
    ∃ m', modeItem finish (s.text ++ stop :: rest) m =
        .ok (m', stop, match s with
          | .octal _ => stop :: rest
          | .symbolic _ => rest) ∧
      m'.demands = demandsAfter m.demands s := by
  cases s with
  | octal s => exact @modeItem_octal finish s hfinish (stop :: rest) hplain (fun _ ↦ hstop.symm) m
  | symbolic s => exact modeItem_symbolic hnull s hfinish hstop rest m

theorem modeItems_spec {items : List SubSpec} (hne : items ≠ []) (hordered : OctalLast items)
    (hfinish : finish ∉ listText items) (hplain : isModeDigit finish = false) {turns : ℕ}
    (hturns : items.length ≤ turns) (m : ModeMasks) (rest : Bytes) :
    ∃ m' rest', modeItems finish turns (listText items ++ finish :: rest) m = .ok (m', rest') ∧
      m'.demands = (m.demands.on (lastLeaves items)).join
        ((Demands.all (items.map SubSpec.demands)).on (modeDomain ∩ lastLeaves items)) := by
  induction items generalizing turns m with
  | nil => exact absurd rfl hne
  | cons s items ih =>
    obtain ⟨turns, rfl⟩ : ∃ n, turns = n + 1 := ⟨turns - 1, by simp at hturns; omega⟩
    cases items with
    | nil =>
      obtain ⟨m', hitem, hdemands⟩ := modeItem_append hnull s hfinish (.inr rfl) hplain rest m
      have hdone : ¬ (finish ≠ 0 ∧ finish ≠ finish) := fun h ↦ h.2 rfl
      rw [listText, modeItems, hitem]
      dsimp only
      rw [if_neg hdone]
      exact ⟨m', _, rfl, hdemands.trans (demandsAfter_last _ _)⟩
    | cons s' items =>
      have hs : s.IsSymbolic := hordered s mem_cons_self
      have hordered' : OctalLast (s' :: items) :=
        fun e he ↦ hordered e (mem_cons_of_mem _ he)
      have htext : listText (s :: s' :: items) = s.text ++ char ',' :: listText (s' :: items) := rfl
      rw [htext] at hfinish ⊢
      have hhead : finish ∉ s.text := fun h ↦ hfinish (mem_append_left _ h)
      have htail : finish ∉ listText (s' :: items) :=
        fun h ↦ hfinish (mem_append_right _ (mem_cons_of_mem _ h))
      have hcomma : char ',' ≠ finish := fun h ↦
        hfinish (mem_append_right _ (h ▸ mem_cons_self))
      obtain ⟨m₁, hitem, hdemands₁⟩ := modeItem_append hnull s hhead (.inl rfl) rfl
        _ m
      obtain ⟨m', rest', hitems, hdemands⟩ := ih (cons_ne_nil _ _) hordered' htail
        (by simpa using hturns) m₁
      refine ⟨m', rest', ?_, ?_⟩
      · cases s with
        | octal s => exact hs.elim
        | symbolic s =>
          rw [append_assoc, cons_append, modeItems, hitem]
          dsimp only
          rw [if_pos ⟨hnull, hcomma⟩, hitems]
      · rw [hdemands, hdemands₁]
        exact demandsAfter_first _ hs _ _

omit hnull in
/-- The comma behind an octal sub-spec is read as a sub-spec of its own. -/
theorem modeItems_comma (turns : ℕ) (rest : Bytes) (m : ModeMasks) :
    modeItems finish turns (char ',' :: rest) m = .error invalidMode := by
  cases turns with
  | zero => rfl
  | succ turns =>
    have hwho : isWho (char ',') = false := by decide
    have hzero : ¬ (0 : BitVec 64) ≠ 0 := fun h ↦ h rfl
    rw [modeItems, modeItem_eq (takeWho_none hwho finish rest), if_neg hzero,
      if_neg fun h ↦ h.2.1 rfl]

theorem modeItems_error {items : List SubSpec} (hordered : ¬ OctalLast items)
    (hfinish : finish ∉ listText items) (turns : ℕ) (m : ModeMasks) (rest : Bytes) :
    modeItems finish turns (listText items ++ finish :: rest) m = .error invalidMode := by
  induction items generalizing turns m with
  | nil => exact absurd (forall_mem_nil _) hordered
  | cons s items ih =>
    cases items with
    | nil => exact absurd (forall_mem_nil _) hordered
    | cons s' items =>
      cases turns with
      | zero => rfl
      | succ turns =>
        have htext : listText (s :: s' :: items) =
            s.text ++ char ',' :: listText (s' :: items) := rfl
        rw [htext] at hfinish ⊢
        have hhead : finish ∉ s.text := fun h ↦ hfinish (mem_append_left _ h)
        have htail : finish ∉ listText (s' :: items) :=
          fun h ↦ hfinish (mem_append_right _ (mem_cons_of_mem _ h))
        have hcomma : char ',' ≠ finish := fun h ↦
          hfinish (mem_append_right _ (h ▸ mem_cons_self))
        obtain ⟨m₁, hitem, -⟩ := modeItem_append hnull s hhead (.inl rfl) rfl
          _ m
        rw [append_assoc, cons_append, modeItems, hitem]
        dsimp only
        rw [if_pos ⟨hnull, hcomma⟩]
        cases s with
        | octal s => exact modeItems_comma turns _ m₁
        | symbolic s =>
          apply ih _ htail
          intro hrest
          apply hordered
          intro e he
          obtain rfl | he := List.mem_cons.mp he
          · exact trivial
          · exact hrest e he

omit hnull

/-! ## When the masks mean what the sub-specs say -/

set_option maxRecDepth 4000 in
theorem closingDelimiter_plain : ∀ c, startsOctal c = false →
    isModeDigit (closingDelimiter c) = false ∧ (c ≠ 0 → closingDelimiter c ≠ 0) :=
  Bytes.forall_byte (by decide)

namespace ModeQualifier

/-- The bits of a mode on which no demand is forgotten. -/
def kept (q : ModeQualifier) : Set ℕ := modeDomain ∩ lastLeaves q.items

/-- Everything that the sub-specs demand. -/
def demands (q : ModeQualifier) : Demands ℕ := Demands.all (q.items.map SubSpec.demands)

/-- No demand is lost: none is about a bit that the last sub-spec leaves unchecked, and none asks
for a bit that modes do not have. -/
def ForgetsNothing (q : ModeQualifier) : Prop :=
  ∀ s ∈ q.items, s.demands.present ⊆ q.kept ∧ s.demands.absent ∩ modeDomain ⊆ q.kept

/-- Two sub-specs exclude each other on a bit that counts. -/
def ExcludesAll (q : ModeQualifier) : Prop := (q.demands.on q.kept).Contradictory

theorem starts_single (s : OctalSpec) (rest : Bytes) :
    ∃ c p, (SubSpec.octal s).text ++ rest = c :: p ∧ startsOctal c = true := by
  obtain ⟨d, ds, hdigits⟩ := exists_cons_of_ne_nil s.digits_ne_nil
  have hd := s.isModeDigit_of_mem d (hdigits ▸ mem_cons_self)
  change ∃ c p, s.how.toList ++ s.digits ++ rest = c :: p ∧ _
  cases hhow : s.how with
  | none =>
    refine ⟨d, ds ++ rest, ?_, ?_⟩
    · rw [hdigits]
      rfl
    · rw [startsOctal, Bool.or_assoc]
      exact Bool.or_eq_true _ _ |>.mpr (.inr hd)
  | some h =>
    refine ⟨h, s.digits ++ rest, rfl, ?_⟩
    rw [startsOctal, s.isHow_of_mem h hhow]
    rfl

theorem zero_not_mem_octal (s : OctalSpec) : 0 ∉ (SubSpec.octal s).text := by
  intro h
  obtain hmem | hmem := List.mem_append.mp h
  · exact (how_plain 0 (s.isHow_of_mem 0 (Option.mem_toList.mp hmem))).2.2 rfl
  · exact (modeDigit_plain 0 (s.isModeDigit_of_mem 0 hmem)).2.2.2.2 rfl

theorem on_empty (kept : Set ℕ) (d : Demands ℕ) :
    ((ModeMasks.demands ⟨0, 0⟩).on kept).join d = d := by
  apply Demands.ext
  · ext i
    simp [ModeMasks.demands, Demands.on, Demands.join]
  · ext i
    simp [ModeMasks.demands, Demands.on, Demands.join]

/-- The masks of a qualifier whose sub-specs are all read. -/
theorem qgetmodespec_spec (q : ModeQualifier) {rest : Bytes} (hrest : q.EndsBefore rest)
    (hordered : OctalLast q.items) :
    ∃ m rest', qgetmodespec (q.text ++ rest) = .ok (ModeMasks.data m, rest') ∧
      m.demands = q.demands.on q.kept := by
  cases q with
  | single s =>
    obtain ⟨m, hitem, hdemands⟩ :=
      @modeItem_octal 0 s (zero_not_mem_octal s) rest hrest (fun h ↦ absurd rfl h) ⟨0, 0⟩
    obtain ⟨c, p, htext, hstarts⟩ := starts_single s rest
    have hdone : ¬ ((0 : UInt8) ≠ 0 ∧ rest.headD 0 ≠ 0) := fun h ↦ h.1 rfl
    refine ⟨m, rest, ?_, ?_⟩
    · rw [htext] at hitem
      change qgetmodespec ((SubSpec.octal s).text ++ rest) = _
      rw [htext, qgetmodespec]
      dsimp only
      rw [if_pos hstarts, modeItems, hitem]
      dsimp only
      rw [if_neg hdone]
    · rw [hdemands, demandsAfter_last, on_empty]
      rfl
  | list l =>
    obtain ⟨hplain, hnull⟩ := closingDelimiter_plain l.opener l.not_startsOctal
    have hopener : ¬ startsOctal l.opener = true := by
      rw [l.not_startsOctal]
      exact Bool.false_ne_true
    have hturns (items : List SubSpec) : items.length ≤ (listText items).length + 1 := by
      induction items with
      | nil => exact Nat.zero_le _
      | cons s items ih =>
        cases items with
        | nil => exact Nat.le_add_left 1 _
        | cons s' items =>
          change (s :: s' :: items).length ≤ (s.text ++ char ',' :: listText (s' :: items)).length + 1
          simp only [length_append, length_cons] at ih ⊢
          omega
    obtain ⟨m, rest', hitems, hdemands⟩ := modeItems_spec (hnull l.opener_ne_zero) l.items_ne_nil
      hordered l.closing_not_mem hplain ((hturns l.items).trans (by
        rw [length_append]
        omega : _ ≤ (listText l.items ++ closingDelimiter l.opener :: rest).length + 1)) ⟨0, 0⟩ rest
    refine ⟨m, rest', ?_, ?_⟩
    · change qgetmodespec (l.opener :: (listText l.items ++ [closingDelimiter l.opener]) ++ rest) = _
      rw [cons_append, append_assoc, singleton_append, qgetmodespec]
      dsimp only
      rw [if_neg hopener, hitems]
    · rw [hdemands, on_empty]
      rfl

theorem qgetmodespec_error (q : ModeQualifier) (rest : Bytes) (hordered : ¬ OctalLast q.items) :
    qgetmodespec (q.text ++ rest) = .error invalidMode := by
  cases q with
  | single s => exact absurd (forall_mem_nil _) hordered
  | list l =>
    obtain ⟨-, hnull⟩ := closingDelimiter_plain l.opener l.not_startsOctal
    have hopener : ¬ startsOctal l.opener = true := by
      rw [l.not_startsOctal]
      exact Bool.false_ne_true
    change ¬ OctalLast l.items at hordered
    change qgetmodespec (l.opener :: (listText l.items ++ [closingDelimiter l.opener]) ++ rest) = _
    rw [cons_append, append_assoc, singleton_append, qgetmodespec]
    dsimp only
    rw [if_neg hopener, modeItems_error (hnull l.opener_ne_zero) hordered l.closing_not_mem]

/-- The masks are right exactly when every octal sub-spec is the last one and either no demand is
forgotten or two sub-specs exclude each other anyway. -/
theorem acceptsEach_iff (q : ModeQualifier) {rest : Bytes} (hrest : q.EndsBefore rest) :
    q.AcceptsEach rest ↔ OctalLast q.items ∧ (q.ForgetsNothing ∨ q.ExcludesAll) := by
  have heach (mode : BitVec 12) :
      (∀ s ∈ q.items, s.Accepts mode) ↔ q.demands.Meets (Demands.bits mode) := by
    rw [demands, Demands.meets_all]
    simp [SubSpec.accepts_iff]
  have hmeets : (∀ v ⊆ modeDomain, (q.demands.on q.kept).Meets v ↔ q.demands.Meets v) ↔
      q.ForgetsNothing ∨ q.ExcludesAll := by
    have hiff := @Demands.meets_iff_meets_iff _ (q.demands.on q.kept) q.demands modeDomain
      Set.inter_subset_left Set.inter_subset_left (fun i hi ↦ hi.2.1)
    rw [hiff]
    apply or_congr_left
    constructor
    · intro h s hs
      have hmem : s.demands ∈ q.items.map SubSpec.demands := mem_map_of_mem hs
      constructor
      · intro i hi
        exact (h.1 ⟨s.demands, hmem, hi⟩).2
      · intro i hi
        exact (h.2 ⟨⟨s.demands, hmem, hi.1⟩, hi.2⟩).2
    · intro h
      constructor
      · intro i hi
        obtain ⟨d, hd, hpresent⟩ := hi
        obtain ⟨s, hs, rfl⟩ := List.mem_map.mp hd
        exact ⟨⟨s.demands, hd, hpresent⟩, (h s hs).1 hpresent⟩
      · intro i hi
        obtain ⟨⟨d, hd, habsent⟩, hdomain⟩ := hi
        obtain ⟨s, hs, rfl⟩ := List.mem_map.mp hd
        exact ⟨⟨s.demands, hd, habsent⟩, (h s hs).2 ⟨habsent, hdomain⟩⟩
  by_cases hordered : OctalLast q.items
  · obtain ⟨m, rest', hread, hm⟩ := q.qgetmodespec_spec hrest hordered
    have hmodes : q.AcceptsEach rest ↔
        ∀ mode : BitVec 12, (q.demands.on q.kept).Meets (Demands.bits mode) ↔
          q.demands.Meets (Demands.bits mode) := by
      constructor
      · intro h mode
        obtain ⟨data, rest'', hread', hdata⟩ := h
        rw [hread] at hread'
        cases hread'
        rw [← hm, ← qualmodeflags_iff, ← heach]
        exact hdata mode
      · intro h
        refine ⟨m.data, rest', hread, fun mode ↦ ?_⟩
        rw [qualmodeflags_iff, hm, heach]
        exact h mode
    rw [hmodes, ← hmeets]
    constructor
    · intro h
      refine ⟨hordered, fun v hv ↦ ?_⟩
      obtain ⟨mode, rfl⟩ := Demands.exists_bits hv
      exact h mode
    · intro h mode
      exact h.2 _ fun i hi ↦ BitVec.lt_of_getLsbD hi
  · constructor
    · intro h
      obtain ⟨data, rest', hread, -⟩ := h
      rw [q.qgetmodespec_error rest hordered] at hread
      cases hread
    · intro h
      exact absurd h.1 hordered

/-! ## Some qualifiers -/

/-- `644`. -/
def octalSixFourFour : OctalSpec where
  how := none
  digits := Bytes.ascii "644"
  isHow_of_mem := nofun
  digits_ne_nil := by decide
  isModeDigit_of_mem := by decide

/-- `u+` and some permissions. -/
def userPlus (permissions : Bytes) (h : ∀ c ∈ permissions, isPermission c = true) :
    SymbolicSpec where
  who := Bytes.ascii "u"
  how := char '+'
  permissions := permissions
  who_ne_nil := by decide
  isWho_of_mem := by decide
  isHow_how := by decide
  isPermission_of_mem := h

/-- `f:644,u+x:`. -/
def octalFirst : ModeQualifier := .list {
  opener := char ':'
  items := [.octal octalSixFourFour, .symbolic (userPlus (Bytes.ascii "x") (by decide))]
  items_ne_nil := by decide
  opener_ne_zero := by decide
  not_startsOctal := by decide
  closing_not_mem := by decide }

/-- `f:u+s,644:`. -/
def setuidForgotten : ModeQualifier := .list {
  opener := char ':'
  items := [.symbolic (userPlus (Bytes.ascii "s") (by decide)), .octal octalSixFourFour]
  items_ne_nil := by decide
  opener_ne_zero := by decide
  not_startsOctal := by decide
  closing_not_mem := by decide }

/-- `f:644,u+x:` is refused, and `f:u+s,644:` accepts the mode `0644`. -/
theorem not_acceptsEach :
    ¬ octalFirst.AcceptsEach [] ∧ ¬ setuidForgotten.AcceptsEach [] := by
  constructor
  · intro h
    obtain ⟨data, rest, hread, -⟩ := h
    cases hread
  · intro h
    obtain ⟨data, rest, hread, hmodes⟩ := h
    cases hread
    have haccepts := (hmodes 0o644).mp (by decide) _ mem_cons_self
    exact absurd (haccepts 11 (by decide) (by decide)) (by decide)

/-- `f:gu+w,o-rx:`. -/
def documentedModes : ModeQualifier := .list {
  opener := char ':'
  items := [
    .symbolic ⟨Bytes.ascii "gu", char '+', Bytes.ascii "w", by decide, by decide, by decide,
      by decide⟩,
    .symbolic ⟨Bytes.ascii "o", char '-', Bytes.ascii "rx", by decide, by decide, by decide,
      by decide⟩]
  items_ne_nil := by decide
  opener_ne_zero := by decide
  not_startsOctal := by decide
  closing_not_mem := by decide }

theorem acceptsEach_documented : documentedModes.AcceptsEach (Bytes.ascii ".") := by
  apply (acceptsEach_iff documentedModes trivial).mpr
  have hkept : documentedModes.kept = modeDomain := Set.inter_univ _
  have hchecked (s : SubSpec) (hs : s.IsSymbolic) : {i | s.checked i = true} ⊆ modeDomain := by
    cases s with
    | octal s => exact hs.elim
    | symbolic s =>
      intro i hi
      obtain ⟨c, -, hc⟩ := List.any_eq_true.mp hi
      exact whoBits_lt hc
  have hall : ∀ s ∈ documentedModes.items, s.IsSymbolic := by
    simp [documentedModes, items, SubSpec.IsSymbolic]
  constructor
  · exact fun s hs ↦ hall s (mem_of_mem_dropLast hs)
  · left
    intro s hs
    rw [hkept]
    exact ⟨fun i hi ↦ hchecked s (hall s hs) hi.1, fun i hi ↦ hi.2⟩

end ModeQualifier

end Bsh.Shell
