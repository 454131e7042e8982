import Mathlib.Data.List.TakeWhile
import Bsh.Shell.SortOrder

/-!
# The keys of a sort

Without backslashes to ignore and without signs, `eltpcmp` compares elements by keys: the characters
and a mark of the end, where a run of digits stands behind its value.  With either of the two it is
no order, whatever the other flags are.
-/

namespace Bsh.Shell

open Bsh.Library List

/-! ## Places -/

theorem passCommon_spec (common beforea beforeb : Bytes) (hcommon : 0 ∉ common) {ra rb : Bytes}
    (hdiffer : charAt ra ≠ charAt rb) :
    passCommon beforea beforeb (common ++ ra) (common ++ rb) =
      (⟨common.reverse ++ beforea, ra⟩, ⟨common.reverse ++ beforeb, rb⟩) := by
  induction common generalizing beforea beforeb with
  | nil =>
    cases ra with
    | nil => cases rb <;> rfl
    | cons c ra =>
      cases rb with
      | nil => rfl
      | cons d rb =>
        rw [nil_append, nil_append, passCommon, if_neg fun h ↦ hdiffer h.1]
        rfl
  | cons c common ih =>
    have hne : c ≠ 0 := fun h ↦ hcommon (h ▸ mem_cons_self)
    rw [cons_append, cons_append, passCommon, if_pos ⟨rfl, hne⟩,
      ih _ _ fun h ↦ hcommon (mem_cons_of_mem _ h), reverse_cons, append_assoc,
      append_assoc]
    rfl

theorem strcoll_spec (common : Bytes) (hcommon : 0 ∉ common) {ra rb : Bytes}
    (hdiffer : charAt ra ≠ charAt rb) :
    strcoll (common ++ ra) (common ++ rb) = ((charAt ra).toNat : ℤ) - (charAt rb).toNat := by
  induction common with
  | nil =>
    cases ra with
    | nil => cases rb <;> rfl
    | cons c ra =>
      cases rb with
      | nil => rfl
      | cons d rb =>
        rw [nil_append, nil_append, strcoll, if_neg fun h ↦ hdiffer h.1]
        rfl
  | cons c common ih =>
    have hne : c ≠ 0 := fun h ↦ hcommon (h ▸ mem_cons_self)
    rw [cons_append, cons_append, strcoll, if_pos ⟨rfl, hne⟩,
      ih fun h ↦ hcommon (mem_cons_of_mem _ h)]

theorem backToDigits_eq (before as bs : Bytes) :
    backToDigits before before as bs =
      (⟨before.dropWhile idigit, (before.takeWhile idigit).reverse ++ as⟩,
        ⟨before.dropWhile idigit, (before.takeWhile idigit).reverse ++ bs⟩) := by
  induction before generalizing as bs with
  | nil => rfl
  | cons c before ih =>
    rw [backToDigits]
    by_cases hdigit : idigit c = true
    · rw [if_pos hdigit, ih, dropWhile_cons_of_pos hdigit, takeWhile_cons_of_pos hdigit,
        reverse_cons, append_assoc, append_assoc]
      rfl
    · rw [if_neg hdigit, dropWhile_cons_of_neg hdigit, takeWhile_cons_of_neg hdigit]
      rfl

theorem backToDigits_spec (before as bs : Bytes) : ∃ digits front, before = digits ++ front ∧
    (∀ c ∈ digits, idigit c = true) ∧ (∀ c ∈ front.head?, idigit c = false) ∧
    backToDigits before before as bs =
      (⟨front, digits.reverse ++ as⟩, ⟨front, digits.reverse ++ bs⟩) := by
  refine ⟨before.takeWhile idigit, before.dropWhile idigit, List.takeWhile_append_dropWhile.symm,
    fun c hc ↦ mem_takeWhile_imp hc, ?_, backToDigits_eq before as bs⟩
  intro c hc
  have hhead := List.head?_dropWhile_not idigit before
  rw [Option.mem_def.mp hc] at hhead
  exact hhead

/-! ## Keys -/

/-- The characters of a string, as numbers. -/
def codes (s : Bytes) : List ℤ := s.map fun c ↦ (c.toNat : ℤ)

/-- The characters, with the value of each run of digits in front of it and a mark behind. -/
def numericKey (mark : ℤ) : Bytes → List ℤ
  | [] => [mark]
  | c :: s =>
    if idigit c then
      48 :: (digitsFrom 0 (c :: s.takeWhile idigit) : ℤ) ::
        (codes (c :: s.takeWhile idigit) ++ numericKey mark (s.dropWhile idigit))
    else c.toNat :: numericKey mark s
  termination_by s => s.length
  decreasing_by
    · exact Nat.lt_succ_of_le (dropWhile_sublist _).length_le
    · exact Nat.lt_succ_self _

/-- What comes first: a character, or the mark of the end. -/
def leading (mark : ℤ) (s : Bytes) : ℤ := s.head?.elim mark fun c ↦ (c.toNat : ℤ)

theorem takeWhile_run {digits rest : Bytes} (hdigits : ∀ c ∈ digits, idigit c = true)
    (hrest : idigit (charAt rest) = false) : (digits ++ rest).takeWhile idigit = digits := by
  rw [takeWhile_append_of_pos hdigits]
  cases rest with
  | nil => exact append_nil _
  | cons c rest =>
    have hc : idigit c = false := hrest
    rw [takeWhile_cons, if_neg (Bool.eq_false_iff.mp hc), append_nil]

theorem dropWhile_run {digits rest : Bytes} (hdigits : ∀ c ∈ digits, idigit c = true)
    (hrest : idigit (charAt rest) = false) : (digits ++ rest).dropWhile idigit = rest := by
  rw [dropWhile_append_of_pos hdigits]
  cases rest with
  | nil => rfl
  | cons c rest =>
    have hc : idigit c = false := hrest
    rw [dropWhile_cons, if_neg (Bool.eq_false_iff.mp hc)]

theorem numericKey_run (mark : ℤ) {digits rest : Bytes} (hne : digits ≠ [])
    (hdigits : ∀ c ∈ digits, idigit c = true) (hrest : idigit (charAt rest) = false) :
    numericKey mark (digits ++ rest) =
      48 :: (digitsFrom 0 digits : ℤ) :: (codes digits ++ numericKey mark rest) := by
  cases digits with
  | nil => exact absurd rfl hne
  | cons c digits =>
    have htail : ∀ d ∈ digits, idigit d = true := fun d hd ↦
      hdigits d (mem_cons_of_mem _ hd)
    rw [cons_append, numericKey, if_pos (hdigits c mem_cons_self),
      takeWhile_run htail hrest, dropWhile_run htail hrest]

theorem numericKey_other (mark : ℤ) {c : UInt8} (hc : idigit c = false) (s : Bytes) :
    numericKey mark (c :: s) = (c.toNat : ℤ) :: numericKey mark s := by
  rw [numericKey, if_neg (Bool.eq_false_iff.mp hc)]

theorem numericKey_first (mark : ℤ) (s : Bytes) : ∃ behind, numericKey mark s =
    (if idigit (charAt s) then 48 else leading mark s) :: behind := by
  cases s with
  | nil => exact ⟨[], by rw [numericKey]; rfl⟩
  | cons c s =>
    rw [numericKey]
    have hhead : charAt (c :: s) = c := rfl
    rw [hhead]
    by_cases hdigit : idigit c = true
    · rw [if_pos hdigit, if_pos hdigit]
      exact ⟨_, rfl⟩
    · rw [if_neg hdigit, if_neg hdigit]
      exact ⟨_, rfl⟩

theorem exists_run (s : Bytes) : ∃ digits rest, s = digits ++ rest ∧
    (∀ c ∈ digits, idigit c = true) ∧ idigit (charAt rest) = false := by
  induction s with
  | nil => exact ⟨[], [], rfl, nofun, rfl⟩
  | cons c s ih =>
    by_cases hdigit : idigit c = true
    · obtain ⟨digits, rest, rfl, hdigits, hrest⟩ := ih
      refine ⟨c :: digits, rest, rfl, ?_, hrest⟩
      intro d hd
      rcases List.mem_cons.mp hd with rfl | hd
      · exact hdigit
      · exact hdigits d hd
    · exact ⟨[], c :: s, rfl, nofun, Bool.eq_false_iff.mpr hdigit⟩

/-- In front of another character than a digit the keys agree when they do from it on. -/
theorem agrees_in_front {result mark mark' : ℤ} {n : UInt8} (hn : idigit n = false) {a b : Bytes}
    (h : Agrees result (numericKey mark (n :: a)) (numericKey mark' (n :: b))) (front : Bytes) :
    Agrees result (numericKey mark (front ++ n :: a)) (numericKey mark' (front ++ n :: b)) := by
  induction hlength : front.length using Nat.strong_induction_on generalizing front with
  | _ length ih =>
    obtain ⟨digits, rest, rfl, hdigits, hrest⟩ := exists_run front
    subst hlength
    have hstop (behind : Bytes) : idigit (charAt (rest ++ n :: behind)) = false := by
      cases rest with
      | nil => exact hn
      | cons c rest => exact hrest
    have hagrees : Agrees result (numericKey mark (rest ++ n :: a))
        (numericKey mark' (rest ++ n :: b)) := by
      cases rest with
      | nil => exact h
      | cons c rest =>
        have hc : idigit c = false := hrest
        rw [cons_append, cons_append, numericKey_other mark hc,
          numericKey_other mark' hc]
        apply Agrees.cons
        refine ih rest.length ?_ rest rfl
        rw [length_append, length_cons]
        omega
    by_cases hne : digits = []
    · rw [hne]
      exact hagrees
    · rw [append_assoc, append_assoc, numericKey_run mark hne hdigits (hstop a),
        numericKey_run mark' hne hdigits (hstop b)]
      exact ((hagrees.append (codes digits)).cons _).cons _

theorem agrees_behind {result mark mark' : ℤ} {a b : Bytes}
    (h : Agrees result (numericKey mark a) (numericKey mark' b)) {before : Bytes}
    (hbefore : ∀ c ∈ before.head?, idigit c = false) :
    Agrees result (numericKey mark (before.reverse ++ a))
      (numericKey mark' (before.reverse ++ b)) := by
  cases before with
  | nil => exact h
  | cons n before =>
    have hn := hbefore n rfl
    rw [reverse_cons, append_assoc, append_assoc]
    apply agrees_in_front hn
    rw [numericKey_other mark hn, numericKey_other mark' hn]
    exact h.cons _

/-- What is compared behind the digits that both numbers begin with. -/
theorem codes_behind (mark : ℤ) (digits : Bytes) {rest : Bytes}
    (hrest : idigit (charAt rest) = false) :
    ∃ behind, codes digits ++ numericKey mark rest = leading mark (digits ++ rest) :: behind := by
  cases digits with
  | nil =>
    obtain ⟨behind, hbehind⟩ := numericKey_first mark rest
    rw [if_neg (Bool.eq_false_iff.mp hrest)] at hbehind
    exact ⟨behind, hbehind⟩
  | cons c digits => exact ⟨codes digits ++ numericKey mark rest, rfl⟩

theorem agrees_runs {result mark mark' : ℤ} {front da db ra rb : Bytes}
    (hfront : ∀ c ∈ front, idigit c = true) (hda : ∀ c ∈ da, idigit c = true)
    (hdb : ∀ c ∈ db, idigit c = true) (hra : idigit (charAt ra) = false)
    (hrb : idigit (charAt rb) = false) (hnea : front ++ da ≠ []) (hneb : front ++ db ≠ [])
    (h : digitsFrom 0 (front ++ da) = digitsFrom 0 (front ++ db) ∧
        Agrees result (leading mark (da ++ ra)) (leading mark' (db ++ rb)) ∨
      Agrees result (digitsFrom 0 (front ++ da)) (digitsFrom 0 (front ++ db))) :
    Agrees result (numericKey mark (front ++ da ++ ra)) (numericKey mark' (front ++ db ++ rb)) := by
  have hxa : ∀ c ∈ front ++ da, idigit c = true := fun c hc ↦
    (List.mem_append.mp hc).elim (hfront c) (hda c)
  have hxb : ∀ c ∈ front ++ db, idigit c = true := fun c hc ↦
    (List.mem_append.mp hc).elim (hfront c) (hdb c)
  rw [numericKey_run mark hnea hxa hra, numericKey_run mark' hneb hxb hrb]
  apply Agrees.cons
  rcases h with ⟨hvalue, hleading⟩ | hvalue
  · rw [hvalue]
    apply Agrees.cons
    have hcodes (digits : Bytes) : codes (front ++ digits) = codes front ++ codes digits :=
      map_append
    rw [hcodes, hcodes, append_assoc, append_assoc]
    apply Agrees.append
    obtain ⟨behind, hbehind⟩ := codes_behind mark da hra
    obtain ⟨behind', hbehind'⟩ := codes_behind mark' db hrb
    rw [hbehind, hbehind']
    exact hleading.head behind behind'
  · apply Agrees.head
    rcases hvalue with ⟨hneg, hlt⟩ | ⟨hpos, hlt⟩
    · exact .inl ⟨hneg, Int.ofNat_lt.mpr hlt⟩
    · exact .inr ⟨hpos, Int.ofNat_lt.mpr hlt⟩

/-- The marks of an end are below all characters. -/
theorem agrees_leading {mark mark' : ℤ} (hmark : mark < 0) (hmark' : mark' < 0) {a b : Bytes}
    (hdiffer : charAt a ≠ charAt b) :
    Agrees (((charAt a).toNat : ℤ) - (charAt b).toNat) (leading mark a) (leading mark' b) := by
  have hne : (charAt a).toNat ≠ (charAt b).toNat := fun h ↦ hdiffer (UInt8.toNat_inj.mp h)
  have hzero : (charAt []).toNat = 0 := rfl
  cases a with
  | nil =>
    cases b with
    | nil => exact absurd rfl hdiffer
    | cons d b =>
      left
      change _ ∧ mark < (d.toNat : ℤ)
      omega
  | cons c a =>
    cases b with
    | nil =>
      right
      change _ ∧ mark' < (c.toNat : ℤ)
      omega
    | cons d b =>
      have hcd : c.toNat ≠ d.toNat := hne
      rcases Nat.lt_or_gt_of_ne hcd with hless | hmore
      · left
        change (c.toNat : ℤ) - d.toNat < 0 ∧ (c.toNat : ℤ) < d.toNat
        omega
      · right
        change 0 < (c.toNat : ℤ) - d.toNat ∧ (d.toNat : ℤ) < c.toNat
        omega

/-- Unless both strings go on with digits, the next characters decide. -/
theorem agrees_first {mark mark' : ℤ} (hmark : mark < 0) (hmark' : mark' < 0) {a b : Bytes}
    (hdiffer : charAt a ≠ charAt b) (hnot : ¬ (idigit (charAt a) = true ∧ idigit (charAt b) = true)) :
    Agrees (((charAt a).toNat : ℤ) - (charAt b).toNat) (numericKey mark a)
      (numericKey mark' b) := by
  obtain ⟨behind, hbehind⟩ := numericKey_first mark a
  obtain ⟨behind', hbehind'⟩ := numericKey_first mark' b
  rw [hbehind, hbehind']
  apply Agrees.head
  by_cases hda : idigit (charAt a) = true
  · have hrange := idigit_iff.mp hda
    have hother : ¬ idigit (charAt b) = true := fun h ↦ hnot ⟨hda, h⟩
    have houtside : ¬ (48 ≤ (charAt b).toNat ∧ (charAt b).toNat ≤ 57) := fun h ↦
      hother (idigit_iff.mpr h)
    rw [if_pos hda, if_neg hother]
    cases b with
    | nil =>
      right
      change 0 < ((charAt a).toNat : ℤ) - 0 ∧ mark' < 48
      omega
    | cons d b =>
      change ¬ (48 ≤ d.toNat ∧ d.toNat ≤ 57) at houtside
      change Agrees (((charAt a).toNat : ℤ) - d.toNat) 48 (d.toNat : ℤ)
      rw [Agrees]
      omega
  · rw [if_neg hda]
    by_cases hdb : idigit (charAt b) = true
    · have hrange := idigit_iff.mp hdb
      have houtside : ¬ (48 ≤ (charAt a).toNat ∧ (charAt a).toNat ≤ 57) := fun h ↦
        hda (idigit_iff.mpr h)
      rw [if_pos hdb]
      cases a with
      | nil =>
        left
        change 0 - ((charAt b).toNat : ℤ) < 0 ∧ mark < 48
        omega
      | cons c a =>
        change ¬ (48 ≤ c.toNat ∧ c.toNat ≤ 57) at houtside
        change Agrees ((c.toNat : ℤ) - (charAt b).toNat) (c.toNat : ℤ) 48
        rw [Agrees]
        omega
    · rw [if_neg hdb]
      exact agrees_leading hmark hmark' hdiffer

/-- Where neither string goes on with a digit, a run in front of that is the same. -/
theorem agrees_behind_run {result mark mark' : ℤ} {ra rb run : Bytes}
    (hra : idigit (charAt ra) = false) (hrb : idigit (charAt rb) = false)
    (hrun : ∀ c ∈ run, idigit c = true)
    (hleading : Agrees result (leading mark ra) (leading mark' rb)) :
    Agrees result (numericKey mark (run ++ ra)) (numericKey mark' (run ++ rb)) := by
  by_cases hnil : run = []
  · obtain ⟨behind, hbehind⟩ := numericKey_first mark ra
    obtain ⟨behind', hbehind'⟩ := numericKey_first mark' rb
    rw [if_neg (Bool.eq_false_iff.mp hra)] at hbehind
    rw [if_neg (Bool.eq_false_iff.mp hrb)] at hbehind'
    rw [hnil, nil_append, nil_append, hbehind, hbehind']
    exact hleading.head behind behind'
  · have hne : run ++ [] ≠ [] := fun h ↦ hnil ((append_nil run).symm.trans h)
    have hruns : Agrees result (numericKey mark (run ++ [] ++ ra))
        (numericKey mark' (run ++ [] ++ rb)) :=
      agrees_runs hrun nofun nofun hra hrb hne hne (.inl ⟨rfl, hleading⟩)
    rwa [append_nil] at hruns

theorem agrees_ends {result mark mark' : ℤ} (front : Bytes) {ra rb : Bytes}
    (hra : idigit (charAt ra) = false) (hrb : idigit (charAt rb) = false)
    (hleading : Agrees result (leading mark ra) (leading mark' rb)) :
    Agrees result (numericKey mark (front ++ ra)) (numericKey mark' (front ++ rb)) := by
  obtain ⟨digits, before, hsplit, hdigits, hbefore, _⟩ := backToDigits_spec front.reverse ra rb
  have hfront : front = before.reverse ++ digits.reverse := by
    rw [← reverse_append, ← hsplit, reverse_reverse]
  rw [hfront, append_assoc, append_assoc]
  apply agrees_behind _ hbefore
  exact agrees_behind_run hra hrb (fun c hc ↦ hdigits c (List.mem_reverse.mp hc)) hleading

/-- The numeric comparison at the first difference. -/
theorem compareNumeric_agrees {mark mark' : ℤ} (hmark : mark < 0) (hmark' : mark' < 0)
    (front common : Bytes) (hcommon : 0 ∉ common) {ra rb : Bytes}
    (hdiffer : charAt ra ≠ charAt rb) :
    Agrees (compareNumeric 1 false (strcoll (common ++ ra) (common ++ rb))
        ⟨front.reverse, common ++ ra⟩ ⟨front.reverse, common ++ rb⟩)
      (numericKey mark (front ++ common ++ ra)) (numericKey mark' (front ++ common ++ rb)) := by
  rw [compareNumeric, strcoll_spec common hcommon hdiffer]
  dsimp only
  rw [passCommon_spec common _ _ hcommon hdiffer]
  obtain ⟨digits, before, hsplit, hdigits, hbefore, hback⟩ :=
    backToDigits_spec (common.reverse ++ front.reverse) ra rb
  have hfront : front ++ common = before.reverse ++ digits.reverse := by
    rw [← reverse_append, ← hsplit, reverse_append, reverse_reverse,
      reverse_reverse]
  have hrun : ∀ c ∈ digits.reverse, idigit c = true := fun c hc ↦
    hdigits c (List.mem_reverse.mp hc)
  rw [hfront, append_assoc, append_assoc, hback]
  apply agrees_behind _ hbefore
  generalize digits.reverse = run at hrun ⊢
  simp only [Bool.false_eq_true, false_and, if_false, Int.one_mul]
  have hleading := agrees_leading hmark hmark' hdiffer
  by_cases hany : idigit (charAt ra) = true ∨ idigit (charAt rb) = true
  · rw [if_pos hany]
    by_cases hboth : idigit (charAt (run ++ ra)) = true ∧ idigit (charAt (run ++ rb)) = true
    · rw [if_pos hboth]
      obtain ⟨da, ra, rfl, hda, hra⟩ := exists_run ra
      obtain ⟨db, rb, rfl, hdb, hrb⟩ := exists_run rb
      rw [← append_assoc, ← append_assoc] at hboth ⊢
      have hne {x rest : Bytes} (hrest : idigit (charAt rest) = false)
          (h : idigit (charAt (x ++ rest)) = true) : x ≠ [] := by
        rintro rfl
        exact absurd h (Bool.eq_false_iff.mp hrest)
      have hxa : ∀ c ∈ run ++ da, idigit c = true := fun c hc ↦
        (List.mem_append.mp hc).elim (hrun c) (hda c)
      have hxb : ∀ c ∈ run ++ db, idigit c = true := fun c hc ↦
        (List.mem_append.mp hc).elim (hrun c) (hdb c)
      apply agrees_runs hrun hda hdb hra hrb (hne hra hboth.1) (hne hrb hboth.2)
      rcases compareNumbers_spec _
        hxa hxb hra hrb with ⟨hvalue, hresult⟩ | hvalue
      · rw [hresult]
        exact .inl ⟨hvalue, hleading⟩
      · exact .inr hvalue
    · rw [if_neg hboth]
      have hnil : run = [] := by
        by_contra hne
        rw [charAt_append hne, charAt_append hne] at hboth
        exact hboth ⟨idigit_charAt hrun hne, idigit_charAt hrun hne⟩
      rw [hnil] at hboth ⊢
      exact agrees_first hmark hmark' hdiffer hboth
  · rw [if_neg hany]
    exact agrees_behind_run (Bool.eq_false_iff.mpr fun h ↦ hany (.inl h))
      (Bool.eq_false_iff.mpr fun h ↦ hany (.inr h)) hrun hleading

/-! ## Elements -/

/-- An end without a recorded length is the lowest. -/
def SortElt.mark (e : SortElt) : ℤ := if e.recorded then -1 else -2

theorem SortElt.mark_neg (e : SortElt) : e.mark < 0 := by
  rw [mark]
  split <;> decide

/-- The key of a string. -/
def stringKey (sortnumeric : SortNumeric) (mark : ℤ) (s : Bytes) : List ℤ :=
  if sortnumeric = .off then codes s ++ [mark] else numericKey mark s

/-- Without the digits a key is made of the characters. -/
theorem agrees_codes {result mark mark' : ℤ} (front : Bytes) {ra rb : Bytes}
    (hleading : Agrees result (leading mark ra) (leading mark' rb)) :
    Agrees result (codes (front ++ ra) ++ [mark]) (codes (front ++ rb) ++ [mark']) := by
  have hcodes (s : Bytes) : codes (front ++ s) = codes front ++ codes s := map_append
  have hfirst (mark : ℤ) (s : Bytes) : ∃ behind, codes s ++ [mark] = leading mark s :: behind := by
    cases s with
    | nil => exact ⟨[], rfl⟩
    | cons c s => exact ⟨_, rfl⟩
  obtain ⟨behind, hbehind⟩ := hfirst mark ra
  obtain ⟨behind', hbehind'⟩ := hfirst mark' rb
  rw [hcodes, hcodes, append_assoc, append_assoc, hbehind, hbehind']
  exact (hleading.head behind behind').append (codes front)

theorem agrees_stringKey (sortnumeric : SortNumeric) {result mark mark' : ℤ} (front : Bytes)
    {ra rb : Bytes} (hra : idigit (charAt ra) = false) (hrb : idigit (charAt rb) = false)
    (hleading : Agrees result (leading mark ra) (leading mark' rb)) :
    Agrees result (stringKey sortnumeric mark (front ++ ra))
      (stringKey sortnumeric mark' (front ++ rb)) := by
  rw [stringKey, stringKey]
  by_cases hoff : sortnumeric = .off
  · rw [if_pos hoff, if_pos hoff]
    exact agrees_codes front hleading
  · rw [if_neg hoff, if_neg hoff]
    exact agrees_ends front hra hrb hleading

theorem comparePlaces_agrees {sortnumeric : SortNumeric} (hsigned : sortnumeric ≠ .signed)
    {mark mark' : ℤ} (hmark : mark < 0) (hmark' : mark' < 0)
    (front common : Bytes) (hcommon : 0 ∉ common) {ra rb : Bytes}
    (hdiffer : charAt ra ≠ charAt rb) :
    Agrees (comparePlaces ⟨false, sortnumeric, false⟩ ⟨front.reverse, common ++ ra⟩
        ⟨front.reverse, common ++ rb⟩)
      (stringKey sortnumeric mark (front ++ common ++ ra))
      (stringKey sortnumeric mark' (front ++ common ++ rb)) := by
  cases sortnumeric with
  | off =>
    have hresult : comparePlaces ⟨false, .off, false⟩ ⟨front.reverse, common ++ ra⟩
        ⟨front.reverse, common ++ rb⟩ = ((charAt ra).toNat : ℤ) - (charAt rb).toNat :=
      (Int.one_mul _).trans (strcoll_spec common hcommon hdiffer)
    rw [hresult]
    exact agrees_codes _ (agrees_leading hmark hmark' hdiffer)
  | numeric => exact compareNumeric_agrees hmark hmark' front common hcommon hdiffer
  | signed => exact absurd rfl hsigned

/-! ## The scan of strings with a length -/

theorem charAt_eq_cons {s : Bytes} {c : UInt8} (hc : c ≠ 0) (h : charAt s = c) :
    s = c :: s.tail := by
  cases s with
  | nil => exact absurd h.symm hc
  | cons d s =>
    have hd : d = c := h
    rw [hd, tail_cons]

/-- Both strings begin with what has been scanned, and behind the last common null byte the rest of
that has none. -/
theorem lengthScan_spec (both : Bool) (len : ℕ) {a b : Bytes} {pos last : ℕ}
    (hlen : both = true → len ≤ a.length ∧ len ≤ b.length) (hlast : last ≤ pos) :
    ∃ common ra rb last', lengthScan both len a b pos last = (ra, rb, last') ∧
      a = common ++ ra ∧ b = common ++ rb ∧ last ≤ last' ∧ last' ≤ pos + common.length ∧
      0 ∉ common.drop (last' - pos) ∧
      (charAt ra = charAt rb → common.length = len ∨ both = false ∧ charAt ra = 0) := by
  induction len generalizing a b pos last with
  | zero =>
    refine ⟨[], a, b, last, rfl, rfl, rfl, Nat.le_refl _, hlast, ?_, fun _ ↦ .inl rfl⟩
    rw [drop_nil]
    exact not_mem_nil
  | succ len ih =>
    rw [lengthScan]
    by_cases hsame : charAt a = charAt b
    · rw [if_pos hsame]
      by_cases hzero : charAt a = 0
      · rw [if_pos hzero]
        cases both with
        | false =>
          refine ⟨[], a, b, last, rfl, rfl, rfl, Nat.le_refl _, hlast, ?_,
            fun _ ↦ .inr ⟨rfl, hzero⟩⟩
          rw [drop_nil]
          exact not_mem_nil
        | true =>
          obtain ⟨hlena, hlenb⟩ := hlen rfl
          cases a with
          | nil => exact absurd hlena (Nat.not_succ_le_zero _)
          | cons c a =>
            cases b with
            | nil => exact absurd hlenb (Nat.not_succ_le_zero _)
            | cons d b =>
              have hcd : c = d := hsame
              obtain ⟨common, ra, rb, last', hscan, rfl, rfl, hfrom, hto, hnone, hend⟩ :=
                ih
                  (fun _ ↦ ⟨Nat.le_of_succ_le_succ hlena, Nat.le_of_succ_le_succ hlenb⟩)
                  (Nat.le_refl (pos + 1))
              refine ⟨c :: common, ra, rb, last', hscan, rfl, congrArg (· :: _) hcd.symm,
                by omega, ?_, ?_, ?_⟩
              · rw [length_cons]
                omega
              · have hshift : last' - pos = last' - (pos + 1) + 1 := by omega
                rw [hshift, drop_succ_cons]
                exact hnone
              · intro hends
                exact (hend hends).imp_left (congrArg (· + 1))
      · rw [if_neg hzero]
        have ha := charAt_eq_cons hzero rfl
        have hb := charAt_eq_cons hzero hsame.symm
        have hlen' : both = true → len ≤ a.tail.length ∧ len ≤ b.tail.length := by
          intro hboth
          obtain ⟨hlena, hlenb⟩ := hlen hboth
          rw [length_tail, length_tail]
          omega
        obtain ⟨common, ra, rb, last', hscan, hra, hrb, hfrom, hto, hnone, hend⟩ :=
          ih hlen' (Nat.le_succ_of_le hlast)
        refine ⟨charAt a :: common, ra, rb, last', hscan, ?_, ?_, hfrom, ?_, ?_, ?_⟩
        · rw [cons_append, ← hra]
          exact ha
        · rw [cons_append, ← hrb]
          exact hb
        · rw [length_cons]
          omega
        · by_cases hmore : last' ≤ pos
          · have hdrop : last' - (pos + 1) = 0 := by omega
            rw [hdrop, drop_zero] at hnone
            rw [Nat.sub_eq_zero_of_le hmore, drop_zero]
            intro hmem
            rcases List.mem_cons.mp hmem with heq | hmem
            · exact hzero heq.symm
            · exact hnone hmem
          · have hshift : last' - pos = last' - (pos + 1) + 1 := by omega
            rw [hshift, drop_succ_cons]
            exact hnone
        · intro hends
          exact (hend hends).imp_left (congrArg (· + 1))
    · rw [if_neg hsame]
      refine ⟨[], a, b, last, rfl, rfl, rfl, Nat.le_refl _, hlast, ?_, fun h ↦ absurd h hsame⟩
      rw [drop_nil]
      exact not_mem_nil

/-! ## The order of the elements -/

theorem passCommon_self (before s : Bytes) : ∃ p, passCommon before before s s = (p, p) := by
  induction s generalizing before with
  | nil => exact ⟨_, rfl⟩
  | cons c s ih =>
    rw [passCommon]
    by_cases hne : c = c ∧ c ≠ 0
    · rw [if_pos hne]
      exact ih (c :: before)
    · rw [if_neg hne]
      exact ⟨_, rfl⟩

theorem strcoll_self (s : Bytes) : strcoll s s = 0 := by
  induction s with
  | nil => rfl
  | cons c s ih =>
    rw [strcoll]
    by_cases hne : c = c ∧ c ≠ 0
    · rw [if_pos hne, ih]
    · rw [if_neg hne, Int.sub_self]

theorem compareNumeric_self (p : Place) : compareNumeric 1 false 0 p p = 0 := by
  obtain ⟨q, hq⟩ := passCommon_self p.before p.rest
  obtain ⟨digits, front, _, _, _, hback⟩ := backToDigits_spec q.before q.rest q.rest
  rw [compareNumeric, hq]
  dsimp only
  rw [hback]
  simp only [Bool.false_eq_true, false_and, if_false, Int.mul_zero]
  generalize digits.reverse ++ q.rest = s
  split
  · split
    · obtain ⟨run, rest, rfl, hrun, hrest⟩ := exists_run s
      rcases compareNumbers_spec 0 hrun hrun hrest hrest with ⟨_, hzero⟩ | ⟨_, hlt⟩ | ⟨_, hlt⟩
      · exact hzero
      · exact absurd hlt (Nat.lt_irrefl _)
      · exact absurd hlt (Nat.lt_irrefl _)
    · rfl
  · rfl

theorem comparePlaces_self {sortnumeric : SortNumeric} (hsigned : sortnumeric ≠ .signed)
    (p : Place) : comparePlaces ⟨false, sortnumeric, false⟩ p p = 0 := by
  have hcoll := strcoll_self p.rest
  cases sortnumeric with
  | off => exact (Int.one_mul _).trans hcoll
  | numeric =>
    change compareNumeric 1 false (strcoll p.rest p.rest) p p = 0
    rw [hcoll]
    exact compareNumeric_self p
  | signed => exact absurd rfl hsigned

theorem eltpcmp_self {sortnumeric : SortNumeric} (hsigned : sortnumeric ≠ .signed) (e : SortElt) :
    eltpcmp ⟨false, sortnumeric, false⟩ e e = 0 := by
  rw [eltpcmp]
  split
  · dsimp only
    rw [if_neg fun h ↦ h.2 rfl]
    exact comparePlaces_self hsigned _
  · exact comparePlaces_self hsigned _

/-- A string at whose end nothing is recorded goes on with a null byte only when it is over. -/
theorem SortElt.rest_nil {e : SortElt} (he : e.recorded = false) {common rest : Bytes}
    (hsplit : e.cmp = common ++ rest) (hzero : charAt rest = 0) : rest = [] := by
  cases rest with
  | nil => rfl
  | cons c rest =>
    have hc : c = 0 := hzero
    refine absurd ?_ (e.plain he)
    rw [hsplit, hc]
    exact mem_append_right _ mem_cons_self

theorem SortElt.ext {a b : SortElt} (hcmp : a.cmp = b.cmp) (hrecorded : a.recorded = b.recorded) :
    a = b := by
  cases a
  cases hcmp
  cases hrecorded
  rfl

/-- The element of the sort's key. -/
def SortElt.key (sortnumeric : SortNumeric) (e : SortElt) : List ℤ :=
  stringKey sortnumeric e.mark e.cmp

theorem eltpcmp_plain {sortnumeric : SortNumeric} (hsigned : sortnumeric ≠ .signed)
    {a b : SortElt} (ha : a.recorded = false) (hb : b.recorded = false) (hne : a ≠ b) :
    Agrees (eltpcmp ⟨false, sortnumeric, false⟩ a b) (a.key sortnumeric) (b.key sortnumeric) := by
  obtain ⟨common, ra, rb, _, _, hsplita, hsplitb, _, _, _, hend⟩ :=
    lengthScan_spec false (a.cmp.length + 1) (a := a.cmp) nofun (Nat.le_refl 0)
  have hdiffer : charAt ra ≠ charAt rb := by
    intro hsame
    rcases hend hsame with hlength | ⟨_, hzero⟩
    · have hle := congrArg List.length hsplita
      rw [length_append] at hle
      omega
    · have hra := a.rest_nil ha hsplita hzero
      have hrb := b.rest_nil hb hsplitb (hsame.symm.trans hzero)
      rw [hra] at hsplita
      rw [hrb] at hsplitb
      exact hne (SortElt.ext (hsplita.trans hsplitb.symm) (ha.trans hb.symm))
  have hcommon : 0 ∉ common := fun hmem ↦
    a.plain ha (hsplita ▸ mem_append_left _ hmem)
  have hagrees := comparePlaces_agrees hsigned a.mark_neg b.mark_neg [] common hcommon hdiffer
  rw [eltpcmp, ha, hb, SortElt.key, SortElt.key, hsplita, hsplitb]
  exact hagrees

/-- One string is over and the other one goes on with a null byte, or only one length is recorded:
the result where the scan finds no difference. -/
theorem ended_agrees {a b : SortElt} (h : (a.recorded || b.recorded) = true) (hne : a ≠ b)
    {common ra rb : Bytes} (hsplita : a.cmp = common ++ ra) (hsplitb : b.cmp = common ++ rb)
    (hsame : charAt ra = charAt rb)
    (hend : a.recorded = true → b.recorded = true → ra = [] ∨ rb = [])
    (hzero : charAt ra = 0) :
    a.len ≠ b.len ∧ Agrees
      (if a.recorded then if b.recorded then (a.len - b.len) * 1 else 1 else -1)
      (leading a.mark ra) (leading b.mark rb) := by
  have hzero' : charAt rb = 0 := hsame.symm.trans hzero
  have hlengtha := congrArg List.length hsplita
  have hlengthb := congrArg List.length hsplitb
  rw [length_append] at hlengtha hlengthb
  rw [SortElt.len, SortElt.len, SortElt.mark, SortElt.mark]
  cases ha : a.recorded with
  | false =>
    have hb : b.recorded = true := by rwa [ha] at h
    have hra := a.rest_nil ha hsplita hzero
    simp only [hb, hra, if_true, Bool.false_eq_true, if_false]
    refine ⟨by omega, .inl ⟨by decide, ?_⟩⟩
    cases rb with
    | nil => exact (by decide : (-2 : ℤ) < -1)
    | cons d rb =>
      have hd : d = 0 := hzero'
      rw [hd]
      exact (by decide : (-2 : ℤ) < 0)
  | true =>
    cases hb : b.recorded with
    | false =>
      have hrb := b.rest_nil hb hsplitb hzero'
      simp only [hrb, if_true, Bool.false_eq_true, if_false]
      refine ⟨by omega, .inr ⟨by decide, ?_⟩⟩
      cases ra with
      | nil => exact (by decide : (-2 : ℤ) < -1)
      | cons c ra =>
        have hc : c = 0 := hzero
        rw [hc]
        exact (by decide : (-2 : ℤ) < 0)
    | true =>
      simp only [if_true]
      cases ra with
      | nil =>
        cases rb with
        | nil => exact absurd (SortElt.ext (hsplita.trans hsplitb.symm) (ha.trans hb.symm)) hne
        | cons d rb =>
          have hd : d = 0 := hzero'
          rw [length_nil] at hlengtha
          rw [length_cons] at hlengthb
          rw [hd]
          exact ⟨by omega, .inl ⟨by omega, (by decide : (-1 : ℤ) < 0)⟩⟩
      | cons c ra =>
        have hc : c = 0 := hzero
        have hrb : rb = [] := (hend ha hb).resolve_left (cons_ne_nil _ _)
        rw [hrb, length_nil] at hlengthb
        rw [length_cons] at hlengtha
        rw [hc, hrb]
        exact ⟨by omega, .inr ⟨by omega, (by decide : (-1 : ℤ) < 0)⟩⟩

/-- Two elements of which one has its length recorded. -/
theorem eltpcmp_recorded {sortnumeric : SortNumeric} (hsigned : sortnumeric ≠ .signed)
    {a b : SortElt} (h : (a.recorded || b.recorded) = true) (hne : a ≠ b) :
    Agrees (eltpcmp ⟨false, sortnumeric, false⟩ a b) (a.key sortnumeric) (b.key sortnumeric) := by
  rw [eltpcmp, if_pos h]
  generalize hlen : (if a.recorded then
    if b.recorded && b.cmp.length < a.cmp.length then b.cmp.length else a.cmp.length
    else b.cmp.length) = len
  have hshort : len ≤ a.cmp.length ∧ len ≤ b.cmp.length ∨
      (a.recorded && b.recorded) = false := by
    cases ha : a.recorded with
    | false => exact .inr rfl
    | true =>
      cases hb : b.recorded with
      | false => exact .inr rfl
      | true =>
        rw [ha, hb, if_pos rfl, Bool.true_and] at hlen
        by_cases hless : b.cmp.length < a.cmp.length
        · rw [if_pos (decide_eq_true hless)] at hlen
          omega
        · rw [if_neg (by simpa using hless)] at hlen
          omega
  obtain ⟨common, ra, rb, last, hscan, hsplita, hsplitb, _, hlast, hnone, hend⟩ :=
    lengthScan_spec (a.recorded && b.recorded) len
      (fun hboth ↦ hshort.resolve_right (by rw [hboth]; decide)) (Nat.le_refl 0)
  dsimp only
  rw [hscan]
  by_cases hsame : charAt ra = charAt rb
  · have hnil (hlength : common.length = len) : ra = [] ∨ rb = [] := by
      have hlengtha := congrArg List.length hsplita
      have hlengthb := congrArg List.length hsplitb
      rw [length_append] at hlengtha hlengthb
      have hone : len = a.cmp.length ∨ len = b.cmp.length := by
        rw [← hlen]
        split
        · split
          · exact .inr rfl
          · exact .inl rfl
        · exact .inr rfl
      rcases hone with hone | hone
      · exact .inl (eq_nil_of_length_eq_zero (by omega))
      · exact .inr (eq_nil_of_length_eq_zero (by omega))
    have hzero : charAt ra = 0 := by
      rcases hend hsame with hlength | ⟨_, hzero⟩
      · rcases hnil hlength with hra | hrb
        · rw [hra]
          rfl
        · rw [hsame, hrb]
          rfl
      · exact hzero
    have hboth (ha : a.recorded = true) (hb : b.recorded = true) : ra = [] ∨ rb = [] := by
      rcases hend hsame with hlength | ⟨hfalse, _⟩
      · exact hnil hlength
      · rw [ha, hb] at hfalse
        cases hfalse
    obtain ⟨hlens, hagrees⟩ := ended_agrees h hne hsplita hsplitb hsame hboth hzero
    have hdigit {s : Bytes} (hs : charAt s = 0) : idigit (charAt s) = false := by
      rw [hs]
      rfl
    rw [if_pos ⟨hsame, hlens⟩, SortElt.key, SortElt.key, hsplita, hsplitb]
    exact agrees_stringKey sortnumeric common (hdigit hzero) (hdigit (hsame.symm.trans hzero))
      hagrees
  · rw [if_neg fun h ↦ hsame h.1]
    rw [Nat.zero_add] at hlast
    have hpieces (rest : Bytes) : (common ++ rest).take last = common.take last ∧
        (common ++ rest).drop last = common.drop last ++ rest := by
      rw [take_append_of_le_length hlast, drop_append_of_le_length hlast]
      exact ⟨rfl, rfl⟩
    have hagrees := comparePlaces_agrees hsigned a.mark_neg b.mark_neg (common.take last)
      (common.drop last) hnone hsame
    rw [List.take_append_drop] at hagrees
    rw [SortElt.key, SortElt.key, hsplita, hsplitb, (hpieces ra).1, (hpieces ra).2,
      (hpieces rb).1, (hpieces rb).2]
    exact hagrees

theorem eltpcmp_comparesKeys {sortnumeric : SortNumeric} (hsigned : sortnumeric ≠ .signed) :
    ComparesKeys (eltpcmp ⟨false, sortnumeric, false⟩) (SortElt.key sortnumeric) where
  refl := eltpcmp_self hsigned
  agrees a b hne := by
    cases h : a.recorded || b.recorded with
    | true => exact eltpcmp_recorded hsigned h hne
    | false =>
      obtain ⟨ha, hb⟩ := Bool.or_eq_false_iff.mp h
      exact eltpcmp_plain hsigned ha hb hne

/-! ## The direction -/

theorem compareNumbers_sortdir (sortdir mul cmp : ℤ) (as bs : Bytes) :
    compareNumbers sortdir mul cmp as bs = sortdir * compareNumbers 1 mul cmp as bs := by
  rw [compareNumbers, compareNumbers]
  dsimp only
  split
  · split
    · rw [Int.mul_one, Int.mul_comm]
    · split
      · rw [Int.mul_one, Int.mul_comm]
      · rw [Int.one_mul]
  · rw [Int.one_mul]

theorem compareNumeric_sortdir (sortdir : ℤ) (signed : Bool) (cmp : ℤ) (as bs : Place) :
    compareNumeric sortdir signed cmp as bs = sortdir * compareNumeric 1 signed cmp as bs := by
  rw [compareNumeric, compareNumeric]
  dsimp only
  split
  · rw [Int.one_mul]
  · split
    · rw [Int.one_mul]
    · split
      · split
        · exact compareNumbers_sortdir ..
        · rw [Int.one_mul]
      · rw [Int.one_mul]

theorem comparePlaces_sortdir (flags : SortFlags) (as bs : Place) :
    comparePlaces flags as bs =
      flags.sortdir * comparePlaces { flags with backwards := false } as bs := by
  obtain ⟨backwards, sortnumeric, sortnobslash⟩ := flags
  rw [comparePlaces, comparePlaces]
  dsimp only
  cases sortnumeric with
  | off =>
    change _ = _ * (1 * _)
    rw [Int.one_mul]
  | numeric => exact compareNumeric_sortdir ..
  | signed => exact compareNumeric_sortdir ..

/-- Backwards, the result has the other sign. -/
theorem eltpcmp_sortdir (flags : SortFlags) (a b : SortElt) :
    eltpcmp flags a b = flags.sortdir * eltpcmp { flags with backwards := false } a b := by
  have hforward : SortFlags.sortdir { flags with backwards := false } = 1 := rfl
  rw [eltpcmp, eltpcmp, hforward]
  dsimp only
  split
  · generalize lengthScan _ _ _ _ _ _ = scanned
    split
    · split
      · split
        · rw [Int.mul_one, Int.mul_comm]
        · rw [Int.mul_one]
      · rw [Int.mul_neg_one]
    · exact comparePlaces_sortdir ..
  · exact comparePlaces_sortdir ..

theorem eltpcmp_totalPreorder {flags : SortFlags} (hsigned : flags.sortnumeric ≠ .signed)
    (hnobslash : flags.sortnobslash = false) : TotalPreorder (eltpcmp flags) := by
  obtain ⟨backwards, sortnumeric, sortnobslash⟩ := flags
  obtain rfl : sortnobslash = false := hnobslash
  have hforward := (eltpcmp_comparesKeys hsigned).totalPreorder
  cases backwards with
  | false => exact hforward
  | true =>
    have hneg : eltpcmp ⟨true, sortnumeric, false⟩ =
        fun a b ↦ -eltpcmp ⟨false, sortnumeric, false⟩ a b := by
      funext a b
      rw [eltpcmp_sortdir]
      exact Int.neg_one_mul _
    rw [hneg]
    exact hforward.neg

/-! ## Sorting by the comparison -/

/-- A string whose backslashes are ignored. -/
def withoutBackslashes : Bytes → Bytes
  | [] => []
  | [c] => if c = char '\\' then [] else [c]
  | c :: d :: s =>
    if c = char '\\' then d :: withoutBackslashes s else c :: withoutBackslashes (d :: s)

/-- What decides whether two elements are the same to a sort. -/
def SortElt.same (flags : SortFlags) (a b : SortElt) : Prop :=
  a.recorded = b.recorded ∧
    if flags.sortnobslash then withoutBackslashes a.cmp = withoutBackslashes b.cmp
    else a.cmp = b.cmp

/-- What a sort by `eltpcmp` relies on, and what the numeric flags are for. -/
structure SortsProperly (flags : SortFlags) : Prop where
  preorder : TotalPreorder (eltpcmp flags)
  same : ∀ a b, eltpcmp flags a b ≤ 0 → eltpcmp flags b a ≤ 0 → a.same flags b
  numbers : flags.sortnumeric ≠ .off → ∀ (m n : ℕ) (a b : SortElt),
    a.cmp = Decimal.decimal m → b.cmp = Decimal.decimal n →
      (m < n → flags.sortdir * eltpcmp flags a b < 0) ∧
        (m = n → a.recorded = b.recorded → eltpcmp flags a b = 0)

theorem sortdir_mul_self (flags : SortFlags) (x : ℤ) : flags.sortdir * (flags.sortdir * x) = x := by
  obtain ⟨backwards, _, _⟩ := flags
  cases backwards with
  | false => exact (Int.one_mul _).trans (Int.one_mul _)
  | true =>
    change -1 * (-1 * x) = x
    omega

theorem numericKey_decimal (mark : ℤ) (n : ℕ) :
    ∃ behind, numericKey mark (Decimal.decimal n) = 48 :: (n : ℤ) :: behind := by
  have hne : Decimal.decimal n ≠ [] := fun h ↦
    Decimal.decimalCodes_ne_nil n (List.map_eq_nil_iff.mp h)
  have hkey : numericKey mark (Decimal.decimal n ++ []) = _ :=
    numericKey_run mark hne (fun _ ↦ idigit_of_mem_decimal) rfl
  rw [append_nil, digitsFrom_decimal] at hkey
  exact ⟨_, hkey⟩

theorem forward_totalPreorder {flags : SortFlags} (h : TotalPreorder (eltpcmp flags)) :
    TotalPreorder (eltpcmp { flags with backwards := false }) := by
  obtain ⟨backwards, sortnumeric, sortnobslash⟩ := flags
  cases backwards with
  | false => exact h
  | true =>
    have hneg : eltpcmp ⟨false, sortnumeric, sortnobslash⟩ =
        fun a b ↦ -eltpcmp ⟨true, sortnumeric, sortnobslash⟩ a b := by
      funext a b
      rw [eltpcmp_sortdir ⟨true, sortnumeric, sortnobslash⟩]
      change eltpcmp ⟨false, sortnumeric, sortnobslash⟩ a b =
        -(-1 * eltpcmp ⟨false, sortnumeric, sortnobslash⟩ a b)
      omega
    rw [hneg]
    exact h.neg

/-- `-9-2`, `-95` and `-9` with signs: the minus sign in `-9-2` counts although a digit is in front
of it. -/
def signedElt (s : Bytes) (hs : 0 ∉ s) : SortElt := ⟨s, false, fun _ ↦ hs⟩

theorem signed_intransitive (sortnobslash : Bool) :
    ¬ TotalPreorder (eltpcmp ⟨false, .signed, sortnobslash⟩) := by
  intro h
  have htrans := h.trans (signedElt [char '-', char '9', char '-', char '2'] (by decide))
    (signedElt [char '-', char '9', char '5'] (by decide))
    (signedElt [char '-', char '9'] (by decide))
  cases sortnobslash with
  | false => exact absurd (htrans (by decide) (by decide)) (by decide)
  | true => exact absurd (htrans (by decide) (by decide)) (by decide)

/-- Strings with a null byte within. -/
def nulElt (s : Bytes) : SortElt := ⟨s, true, nofun⟩

/-- A backslash hides the null byte that the two strings have in common. -/
theorem nobslash_intransitive (sortnumeric : SortNumeric) :
    ¬ TotalPreorder (eltpcmp ⟨false, sortnumeric, true⟩) := by
  intro h
  have htrans := h.trans (nulElt [char 'a', 0, char 'y'])
    (nulElt [char '\\', char 'a', 0, char 'x']) (nulElt [char 'a', 0, char 'x'])
  cases sortnumeric with
  | off => exact absurd (htrans (by decide) (by decide)) (by decide)
  | numeric => exact absurd (htrans (by decide) (by decide)) (by decide)
  | signed => exact absurd (htrans (by decide) (by decide)) (by decide)

theorem sortsProperly_same {flags : SortFlags} (hsigned : flags.sortnumeric ≠ .signed)
    (hnobslash : flags.sortnobslash = false) {a b : SortElt} (hab : eltpcmp flags a b ≤ 0)
    (hba : eltpcmp flags b a ≤ 0) : a.same flags b := by
  have hswap := (eltpcmp_totalPreorder hsigned hnobslash).swap a b
  have hzero : eltpcmp flags a b = 0 := by omega
  rw [eltpcmp_sortdir] at hzero
  have hforward := sortdir_mul_self flags (eltpcmp { flags with backwards := false } a b)
  rw [hzero, Int.mul_zero] at hforward
  obtain ⟨backwards, sortnumeric, sortnobslash⟩ := flags
  obtain rfl : sortnobslash = false := hnobslash
  obtain rfl := (eltpcmp_comparesKeys hsigned).eq_of_zero hforward.symm
  exact ⟨rfl, rfl⟩

theorem sortsProperly_numbers {flags : SortFlags} (hsigned : flags.sortnumeric ≠ .signed)
    (hnobslash : flags.sortnobslash = false) (hoff : flags.sortnumeric ≠ .off) {m n : ℕ}
    {a b : SortElt} (ha : a.cmp = Decimal.decimal m) (hb : b.cmp = Decimal.decimal n) :
    (m < n → flags.sortdir * eltpcmp flags a b < 0) ∧
      (m = n → a.recorded = b.recorded → eltpcmp flags a b = 0) := by
  obtain ⟨backwards, sortnumeric, sortnobslash⟩ := flags
  obtain rfl : sortnobslash = false := hnobslash
  rw [eltpcmp_sortdir, sortdir_mul_self]
  constructor
  · intro hless
    rw [(eltpcmp_comparesKeys hsigned).neg_iff, SortElt.key, SortElt.key, stringKey, stringKey,
      if_neg hoff, if_neg hoff, ha, hb]
    obtain ⟨behind, hbehind⟩ := numericKey_decimal a.mark m
    obtain ⟨behind', hbehind'⟩ := numericKey_decimal b.mark n
    rw [hbehind, hbehind', cons_lt_cons_iff, cons_lt_cons_iff]
    exact .inr ⟨rfl, .inl (Int.ofNat_lt.mpr hless)⟩
  · rintro rfl hrecorded
    obtain rfl := SortElt.ext (ha.trans hb.symm) hrecorded
    rw [(eltpcmp_comparesKeys hsigned).refl, Int.mul_zero]

/-- `eltpcmp` is an order of the elements for the flags without signs and backslashes, and for no
others. -/
theorem sortsProperly_iff (flags : SortFlags) :
    SortsProperly flags ↔ flags.sortnumeric ≠ .signed ∧ flags.sortnobslash = false := by
  constructor
  · intro h
    have hforward := forward_totalPreorder h.preorder
    obtain ⟨backwards, sortnumeric, sortnobslash⟩ := flags
    constructor
    · rintro rfl
      exact signed_intransitive sortnobslash hforward
    · rw [← Bool.not_eq_true]
      rintro rfl
      exact nobslash_intransitive sortnumeric hforward
  · rintro ⟨hsigned, hnobslash⟩
    exact ⟨eltpcmp_totalPreorder hsigned hnobslash,
      fun _ _ hab hba ↦ sortsProperly_same hsigned hnobslash hab hba,
      fun hoff _ _ _ _ ha hb ↦ sortsProperly_numbers hsigned hnobslash hoff ha hb⟩

/-- With signs, and with backslashes ignored, there are elements in a circle. -/
theorem eltpcmp_circles :
    ¬ SortsProperly ⟨false, .signed, false⟩ ∧ ¬ SortsProperly ⟨false, .off, true⟩ :=
  ⟨fun h ↦ signed_intransitive false h.preorder, fun h ↦ nobslash_intransitive .off h.preorder⟩

end Bsh.Shell
