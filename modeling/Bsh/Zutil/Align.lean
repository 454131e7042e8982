import Bsh.Library.Cells
import Bsh.Shell.Numbers

/-!
# Aligned strings

`zformat -a` puts the right parts of its arguments below each other.  The room for a line is taken
from the lengths of the parts in bytes, the padding from their widths on the screen; a line of many
bytes that is narrow gets padding that no other line has room for.
-/

namespace Bsh.Zutil

open Bsh.Library Bsh.Shell List

/-- The option `MULTIBYTE`, and `MB_METASTRWIDTH` of a character set. -/
structure AlignEnv where
  multibyte : Bool
  width : Bytes → ℕ

def colon : UInt8 := char ':'
def backslash : UInt8 := char '\\'

/-! ## The two passes -/

/-- The loop that looks for the colon: what stands in front of it, the backslashes among that, and
the text from the colon on. -/
def scanLeft : Bytes → Bytes × ℕ × Bytes
  | [] => ([], 0, [])
  | [c] => if c = colon then ([], 0, [c]) else ([c], 0, [])
  | c :: d :: s =>
    if c = colon then ([], 0, c :: d :: s)
    else if c = backslash then
      let (raw, nbc, rest) := scanLeft s
      (c :: d :: raw, nbc + 1, rest)
    else
      let (raw, nbc, rest) := scanLeft (d :: s)
      (c :: raw, nbc, rest)

/-- The loop that removes the backslashes: what it copies, and the text from the colon on. -/
def copyLeft : Bytes → Bytes × Bytes
  | [] => ([], [])
  | [c] => if c = colon then ([], [c]) else ([c], [])
  | c :: d :: s =>
    if c = colon then ([], c :: d :: s)
    else if c = backslash then
      let (copy, rest) := copyLeft s
      (d :: copy, rest)
    else
      let (copy, rest) := copyLeft (d :: s)
      (c :: copy, rest)

/-- `*cp == ':' && cp[1]`. -/
def rightPart (rest : Bytes) : Option Bytes :=
  if headIs ':' rest ∧ rest.tail ≠ [] then some rest.tail else none

/-- The width of a left part, with or without `MULTIBYTE`. -/
def AlignEnv.leftWidth (env : AlignEnv) (left : Bytes) : ℤ :=
  if env.multibyte then env.width left else left.length

/-- `pre`, `prechars` and `suf`. -/
structure Sizes where
  pre : ℤ
  prechars : ℤ
  suf : ℤ

/-- The first pass over an argument. -/
def measure (env : AlignEnv) (sizes : Sizes) (spec : Bytes) : Sizes :=
  let (raw, nbc, rest) := scanLeft spec
  match rightPart rest with
  | none => sizes
  | some right =>
    let d : ℤ := raw.length - nbc
    let dchars : ℤ := if env.multibyte then (env.width raw : ℤ) - nbc else d
    { pre := if sizes.pre < d then d else sizes.pre
      prechars := if sizes.prechars < dchars then dchars else sizes.prechars
      suf := if sizes.suf < right.length then right.length else sizes.suf }

/-- The second pass over an argument.  There is no result when a line does not fit in the buffer, or
when `memset` is given a negative size; otherwise `ztrdup` reads the line from the buffer. -/
def assemble (env : AlignEnv) (sizes : Sizes) (sep spec : Bytes) : Option Bytes :=
  let (copy, rest) := copyLeft spec
  match rightPart rest with
  | none => some copy
  | some right =>
    let rempad := sizes.prechars - env.leftWidth copy
    if rempad < 0 then none
    else do
      let pad := List.replicate rempad.toNat (char ' ')
      let buf := Cells.fresh (sizes.pre + sizes.suf + sep.length + 1).toNat
      let (buf, ptr) ← buf.storeAll 0 copy
      let (buf, ptr) ← buf.storeAll ptr pad
      let (buf, ptr) ← buf.storeAll ptr sep
      let _ ← buf.storeAll ptr (right ++ [0])
      return copy ++ pad ++ sep ++ right

/-- `zformat -a`: the array that is set. -/
def zformatAlign (env : AlignEnv) (sep : Bytes) (specs : List Bytes) : Option (List Bytes) :=
  specs.mapM (assemble env (specs.foldl (measure env) ⟨0, 0, 0⟩) sep)

/-! ## What is expected -/

/-- A line with a right part has the separator at the column; any other argument is kept, but for a
colon at its end. -/
def LineRight (env : AlignEnv) (sep : Bytes) (column : ℤ) (spec line : Bytes) : Prop :=
  match rightPart (copyLeft spec).2 with
  | some right => ∃ pad : ℕ,
      line = (copyLeft spec).1 ++ List.replicate pad (char ' ') ++ sep ++ right ∧
        env.leftWidth (copyLeft spec).1 + pad = column
  | none => spec = line ++ (copyLeft spec).2

/-- Every line fits, the separators are below each other, and nothing else is changed. -/
def AlignRight (env : AlignEnv) (sep : Bytes) (specs : List Bytes) : Prop :=
  ∃ lines column, zformatAlign env sep specs = some lines ∧
    List.Forall₂ (LineRight env sep column) specs lines

/-- What a line is: without a right part, the argument up to the colon less the backslashes. -/
def LineAligned (env : AlignEnv) (sep : Bytes) (column : ℤ) (spec line : Bytes) : Prop :=
  match rightPart (copyLeft spec).2 with
  | some right => ∃ pad : ℕ,
      line = (copyLeft spec).1 ++ List.replicate pad (char ' ') ++ sep ++ right ∧
        env.leftWidth (copyLeft spec).1 + pad = column
  | none => line = (copyLeft spec).1

/-- The lines are assembled, with the separators below each other. -/
def Aligned (env : AlignEnv) (sep : Bytes) (specs : List Bytes) : Prop :=
  ∃ lines column, zformatAlign env sep specs = some lines ∧
    List.Forall₂ (LineAligned env sep column) specs lines

/-! ## When the lines fit -/

/-- The parts of an argument whose right part is not empty. -/
structure Parts where
  raw : Bytes
  escapes : ℕ
  left : Bytes
  right : Bytes

def parts (spec : Bytes) : Option Parts :=
  (rightPart (scanLeft spec).2.2).map fun right ↦
    ⟨(scanLeft spec).1, (scanLeft spec).2.1, (copyLeft spec).1, right⟩

/-- The largest of the values of a list, and at least 0. -/
def largest (f : Parts → ℤ) (l : List Parts) : ℤ := (l.map f).foldr max 0

/-- The width of a left part as it is taken together with its backslashes. -/
def rawWidth (env : AlignEnv) (p : Parts) : ℤ :=
  if env.multibyte then (env.width p.raw : ℤ) - p.escapes else p.left.length

/-- A line is not wider than the widest, and its bytes with the padding are not more than the longest
left part and the longest right part have. -/
def LineFits (env : AlignEnv) (all : List Parts) (p : Parts) : Prop :=
  env.leftWidth p.left ≤ largest (rawWidth env) all ∧
    p.left.length + (largest (rawWidth env) all - env.leftWidth p.left) + p.right.length ≤
      largest (fun p ↦ p.left.length) all + largest (fun p ↦ p.right.length) all

def AlignFits (env : AlignEnv) (specs : List Bytes) : Prop :=
  ∀ p ∈ specs.filterMap parts, LineFits env (specs.filterMap parts) p

/-! ## The passes agree -/

/-- What the two loops have in common. -/
structure PassesAgree (spec : Bytes) : Prop where
  rest : (copyLeft spec).2 = (scanLeft spec).2.2
  length : (copyLeft spec).1.length + (scanLeft spec).2.1 = (scanLeft spec).1.length
  text : (scanLeft spec).1 ++ (scanLeft spec).2.2 = spec

theorem passesAgree (spec : Bytes) : PassesAgree spec := by
  induction spec using List.twoStepInduction with
  | nil => exact ⟨rfl, rfl, rfl⟩
  | singleton c =>
    by_cases hc : c = colon
    · constructor <;> simp [scanLeft, copyLeft, hc]
    · constructor <;> simp [scanLeft, copyLeft, hc]
  | cons_cons c d s ih ihd =>
    by_cases hc : c = colon
    · constructor <;> simp [scanLeft, copyLeft, hc]
    · by_cases hslash : c = backslash
      · have hscan : scanLeft (c :: d :: s) =
            (c :: d :: (scanLeft s).1, (scanLeft s).2.1 + 1, (scanLeft s).2.2) := by
          rw [scanLeft, if_neg hc, if_pos hslash]
        have hcopy : copyLeft (c :: d :: s) = (d :: (copyLeft s).1, (copyLeft s).2) := by
          rw [copyLeft, if_neg hc, if_pos hslash]
        have hlength := ih.length
        constructor
        · rw [hscan, hcopy]
          exact ih.rest
        · simp only [hscan, hcopy, length_cons]
          omega
        · rw [hscan]
          exact congrArg (c :: d :: ·) ih.text
      · have hscan : scanLeft (c :: d :: s) = (c :: (scanLeft (d :: s)).1,
            (scanLeft (d :: s)).2.1, (scanLeft (d :: s)).2.2) := by
          rw [scanLeft, if_neg hc, if_neg hslash]
        have hcopy : copyLeft (c :: d :: s) =
            (c :: (copyLeft (d :: s)).1, (copyLeft (d :: s)).2) := by
          rw [copyLeft, if_neg hc, if_neg hslash]
        have hlength := (ihd d).length
        constructor
        · rw [hscan, hcopy]
          exact (ihd d).rest
        · simp only [hscan, hcopy, length_cons]
          omega
        · rw [hscan]
          exact congrArg (c :: ·) (ihd d).text

/-! ## The first pass -/

variable {env : AlignEnv} {spec sep right : Bytes} {specs : List Bytes} {sizes : Sizes} {column : ℤ}

theorem if_lt_eq_max (a b : ℤ) : (if a < b then b else a) = max a b := by
  split <;> omega

theorem parts_eq_some (h : rightPart (copyLeft spec).2 = some right) :
    parts spec = some ⟨(scanLeft spec).1, (scanLeft spec).2.1, (copyLeft spec).1, right⟩ := by
  rw [parts, ← (passesAgree spec).rest, h]
  rfl

theorem parts_eq_none (h : rightPart (copyLeft spec).2 = none) : parts spec = none := by
  rw [parts, ← (passesAgree spec).rest, h]
  rfl

theorem measure_parts (env : AlignEnv) (sizes : Sizes) (spec : Bytes) :
    measure env sizes spec =
      match parts spec with
      | none => sizes
      | some p => ⟨max sizes.pre p.left.length, max sizes.prechars (rawWidth env p),
          max sizes.suf p.right.length⟩ := by
  have hagree := passesAgree spec
  have hlength : ((scanLeft spec).1.length : ℤ) - (scanLeft spec).2.1 =
      (copyLeft spec).1.length := by
    have := hagree.length
    omega
  unfold measure parts
  dsimp only
  cases hright : rightPart (scanLeft spec).2.2 with
  | none => rfl
  | some right =>
    simp only [Option.map_some, if_lt_eq_max, hlength]
    rfl

/-- The first pass finds the largest values. -/
theorem foldl_measure (hpre : 0 ≤ sizes.pre) (hprechars : 0 ≤ sizes.prechars)
    (hsuf : 0 ≤ sizes.suf) :
    specs.foldl (measure env) sizes =
      ⟨max sizes.pre (largest (fun p ↦ p.left.length) (specs.filterMap parts)),
        max sizes.prechars (largest (rawWidth env) (specs.filterMap parts)),
        max sizes.suf (largest (fun p ↦ p.right.length) (specs.filterMap parts))⟩ := by
  induction specs generalizing sizes with
  | nil =>
    change sizes = ⟨max sizes.pre 0, max sizes.prechars 0, max sizes.suf 0⟩
    rw [max_eq_left hpre, max_eq_left hprechars, max_eq_left hsuf]
  | cons spec specs ih =>
    rw [foldl_cons, measure_parts]
    cases hparts : parts spec with
    | none => rw [filterMap_cons_none hparts, ih hpre hprechars hsuf]
    | some p =>
      have hlargest (f : Parts → ℤ) (l : List Parts) :
          largest f (p :: l) = max (f p) (largest f l) := rfl
      rw [filterMap_cons_some hparts, hlargest, hlargest, hlargest, ← max_assoc, ← max_assoc,
        ← max_assoc]
      exact ih (hpre.trans (le_max_left _ _)) (hprechars.trans (le_max_left _ _))
        (hsuf.trans (le_max_left _ _))

theorem largest_nonneg (f : Parts → ℤ) (l : List Parts) : 0 ≤ largest f l := by
  induction l with
  | nil => exact le_rfl
  | cons p l ih => exact ih.trans (le_max_right _ _)

theorem foldl_measure_start (env : AlignEnv) (specs : List Bytes) :
    specs.foldl (measure env) ⟨0, 0, 0⟩ =
      ⟨largest (fun p ↦ p.left.length) (specs.filterMap parts),
        largest (rawWidth env) (specs.filterMap parts),
        largest (fun p ↦ p.right.length) (specs.filterMap parts)⟩ := by
  rw [foldl_measure le_rfl le_rfl le_rfl, max_eq_right (largest_nonneg _ _),
    max_eq_right (largest_nonneg _ _), max_eq_right (largest_nonneg _ _)]

/-! ## The second pass -/

/-- Texts that are stored one behind the other fit exactly when they fit together. -/
theorem storeAll_isSome_iff (n : ℕ) (text : Bytes) :
    (∃ r, (Cells.fresh n : Cells UInt8).storeAll 0 text = some r) ↔ text.length ≤ n := by
  have hlength : (Cells.fresh n : Cells UInt8).length = n := List.length_replicate
  constructor
  · rintro ⟨r, hr⟩
    by_contra h
    rw [Cells.storeAll_eq_none (Nat.zero_le _) (by omega)] at hr
    cases hr
  · exact fun h ↦ ⟨_, Cells.storeAll_eq (by omega)⟩

theorem stores_eq (buf : Cells UInt8) (a b c d : Bytes) (line : Bytes) :
    ((buf.storeAll 0 a).bind fun r ↦ (r.1.storeAll r.2 b).bind fun r ↦
      (r.1.storeAll r.2 c).bind fun r ↦ (r.1.storeAll r.2 d).bind fun _ ↦ some line) =
        (buf.storeAll 0 (a ++ b ++ c ++ d)).bind fun _ ↦ some line := by
  rw [Cells.storeAll_storeAll, Cells.storeAll_storeAll, Cells.storeAll_storeAll, Option.bind_assoc,
    Option.bind_assoc, Option.bind_assoc]

/-- A line with a right part is assembled exactly when it fits. -/
theorem assemble_right (hright : rightPart (copyLeft spec).2 = some right) {line : Bytes} :
    assemble env sizes sep spec = some line ↔
      0 ≤ sizes.prechars - env.leftWidth (copyLeft spec).1 ∧
        (copyLeft spec).1.length + (sizes.prechars - env.leftWidth (copyLeft spec).1) + sep.length +
            right.length + 1 ≤ ((sizes.pre + sizes.suf + sep.length + 1).toNat : ℤ) ∧
          line = (copyLeft spec).1 ++
            List.replicate (sizes.prechars - env.leftWidth (copyLeft spec).1).toNat (char ' ') ++
              sep ++ right := by
  unfold assemble
  dsimp only
  rw [hright]
  dsimp only
  generalize (copyLeft spec).1 = copy
  generalize hpad : sizes.prechars - env.leftWidth copy = rempad
  by_cases hneg : rempad < 0
  · rw [if_pos hneg]
    constructor
    · exact fun h ↦ absurd h.symm (Option.some_ne_none line)
    · exact fun h ↦ absurd h.1 (not_le.mpr hneg)
  · have hstores := stores_eq (Cells.fresh (sizes.pre + sizes.suf + sep.length + 1).toNat) copy
      (List.replicate rempad.toNat (char ' ')) sep (right ++ [0])
      (copy ++ List.replicate rempad.toNat (char ' ') ++ sep ++ right)
    have hlength : ((copy ++ List.replicate rempad.toNat (char ' ') ++ sep ++
        (right ++ [0])).length : ℤ) =
          copy.length + rempad + sep.length + right.length + 1 := by
      simp only [length_append, List.length_replicate, length_singleton]
      omega
    have hfits := storeAll_isSome_iff (sizes.pre + sizes.suf + sep.length + 1).toNat
      (copy ++ List.replicate rempad.toNat (char ' ') ++ sep ++ (right ++ [0]))
    rw [if_neg hneg]
    refine (iff_of_eq (congrArg (· = some line) hstores)).trans ?_
    rw [← hlength, Nat.cast_le, ← hfits]
    constructor
    · intro h
      obtain ⟨r, hr, hline⟩ := Option.bind_eq_some_iff.mp h
      exact ⟨not_lt.mp hneg, ⟨r, hr⟩, (Option.some.inj hline).symm⟩
    · rintro ⟨-, ⟨r, hr⟩, rfl⟩
      rw [hr, Option.bind_some]

theorem assemble_other (hright : rightPart (copyLeft spec).2 = none) :
    assemble env sizes sep spec = some (copyLeft spec).1 := by
  unfold assemble
  dsimp only
  rw [hright]

/-! ## All arguments -/

theorem lineAligned_iff (hpre : 0 ≤ sizes.pre) (hsuf : 0 ≤ sizes.suf) :
    (∃ line, assemble env sizes sep spec = some line ∧ LineAligned env sep column spec line) ↔
      ∀ p ∈ parts spec, (env.leftWidth p.left ≤ sizes.prechars ∧
        p.left.length + (sizes.prechars - env.leftWidth p.left) + p.right.length ≤
          sizes.pre + sizes.suf) ∧ sizes.prechars = column := by
  unfold LineAligned
  cases hright : rightPart (copyLeft spec).2 with
  | none =>
    rw [parts_eq_none hright, assemble_other hright]
    exact ⟨fun _ p hp ↦ absurd hp (Option.not_mem_none p), fun _ ↦ ⟨_, rfl, rfl⟩⟩
  | some right =>
    rw [parts_eq_some hright]
    simp only [Option.mem_def, Option.some.injEq, forall_eq']
    constructor
    · rintro ⟨line, hline, pad, htext, hcolumn⟩
      obtain ⟨hpad, hfits, hassembled⟩ := (assemble_right hright).mp hline
      have hlengths := congrArg List.length (htext.symm.trans hassembled)
      simp only [length_append, List.length_replicate] at hlengths
      refine ⟨⟨by omega, by omega⟩, by omega⟩
    · rintro ⟨⟨hwidth, hfits⟩, hcolumn⟩
      refine ⟨_, (assemble_right hright).mpr ⟨by omega, by omega, rfl⟩, _, rfl, by omega⟩

theorem exists_mapM_iff {α β : Type*} {f : α → Option β} {r : α → β → Prop} {l : List α} :
    (∃ l', l.mapM f = some l' ∧ List.Forall₂ r l l') ↔ ∀ a ∈ l, ∃ b, f a = some b ∧ r a b := by
  induction l with
  | nil => exact ⟨fun _ _ h ↦ absurd h not_mem_nil, fun _ ↦ ⟨[], rfl, .nil⟩⟩
  | cons a l ih =>
    rw [forall_mem_cons, ← ih, mapM_cons]
    constructor
    · rintro ⟨l', hl', hr⟩
      obtain ⟨b, hb, hrest⟩ := Option.bind_eq_some_iff.mp hl'
      obtain ⟨bs, hbs, heq⟩ := Option.bind_eq_some_iff.mp hrest
      cases heq
      rw [forall₂_cons] at hr
      exact ⟨⟨b, hb, hr.1⟩, bs, hbs, hr.2⟩
    · rintro ⟨⟨b, hb, hr⟩, bs, hbs, hrest⟩
      refine ⟨b :: bs, ?_, .cons hr hrest⟩
      rw [hb, hbs]
      rfl

/-- The lines are assembled and aligned exactly when they fit. -/
theorem aligned_iff (env : AlignEnv) (sep : Bytes) (specs : List Bytes) :
    Aligned env sep specs ↔ AlignFits env specs := by
  have hlines (column : ℤ) :
      (∃ lines, zformatAlign env sep specs = some lines ∧
        List.Forall₂ (LineAligned env sep column) specs lines) ↔
          ∀ spec ∈ specs, ∀ p ∈ parts spec, LineFits env (specs.filterMap parts) p ∧
            largest (rawWidth env) (specs.filterMap parts) = column := by
    unfold zformatAlign
    rw [exists_mapM_iff, foldl_measure_start]
    exact forall₂_congr fun spec _ ↦ lineAligned_iff (largest_nonneg _ _) (largest_nonneg _ _)
  unfold Aligned AlignFits
  rw [exists_comm]
  constructor
  · rintro ⟨column, h⟩ p hp
    obtain ⟨spec, hspec, hparts⟩ := List.mem_filterMap.mp hp
    exact ((hlines column).mp h spec hspec p hparts).1
  · intro hfit
    refine ⟨largest (rawWidth env) (specs.filterMap parts), (hlines _).mpr fun spec hspec p hp ↦ ?_⟩
    exact ⟨hfit p (List.mem_filterMap.mpr ⟨spec, hspec, hp⟩), rfl⟩

/-- UTF-8, with characters that are one column wide. -/
def narrowUtf8 : AlignEnv where
  multibyte := true
  width s := s.countP fun c ↦ c < 0x80 || 0xC0 ≤ c

/-- `a:x`, `abc:y`, `b:` and `\\esc\:ape`. -/
def fourSpecs : List Bytes :=
  [Bytes.ascii "a:x", Bytes.ascii "abc:y", Bytes.ascii "b:", Bytes.ascii "\\\\esc\\:ape"]

-- the line of `éé:x` beside `abc:x` has a byte more than the buffer
example :
    zformatAlign narrowUtf8 (Bytes.ascii " ")
      [[0xC3, 0xA9, 0xC3, 0xA9] ++ Bytes.ascii ":x", Bytes.ascii "abc:x"] = none := by
  decide

end Bsh.Zutil
