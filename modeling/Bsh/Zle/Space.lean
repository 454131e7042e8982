import Bsh.Library.Bytes
import Bsh.Library.Memory

/-!
# Space in the editor line

`sizeline`, `spaceinline` and `shiftchars` of `zle_utils.c`.  The line is held as wide characters or,
for completion, as metafied bytes; the mark and the boundaries of the highlighted regions are
positions in the form that is in use.  A region with `ZRH_PREDISPLAY` counts its boundaries from the
start of the text that is displayed in front of the line.

Sizes are `int`: a function whose size is no `int` any more gives `none`.
-/

namespace Bsh.Zle

open Bsh.Library List

/-- `INT_MAX`. -/
def intMax : ℕ := 2 ^ 31 - 1

/-- One form of the line: `zleline`, `zlecs`, `zlell` and `linesz`, or their twins of the metafied
line. -/
structure LineForm (α : Type) where
  chars : ℕ → α
  cs : ℕ
  ll : ℕ
  size : ℕ

/-- `struct region_highlight`, where `predisplay` is its flag and `stop` its `end`. -/
structure RegionHighlight where
  predisplay : Bool
  start : ℤ
  stop : ℤ
  startMeta : ℤ
  stopMeta : ℤ

/-- The line and what goes with it.  The regions are those behind the special ones. -/
structure EditLine (α : Type) where
  zleline : LineForm α
  zlemetaline : Option (LineForm UInt8)
  mark : ℤ
  viinsbegin : ℤ
  predisplaylen : ℕ
  regionHighlights : List RegionHighlight
  regionActive : Bool

/-! ## The buffer -/

/-- The loop of `sizeline`. -/
def sizeline (sz cursz : ℕ) : Option ℕ :=
  if sz ≤ cursz then some cursz
  else if cursz < 256 then sizeline sz 256
  else if intMax < cursz * 4 then none
  else sizeline sz (cursz * 4)
termination_by sz - cursz
decreasing_by all_goals omega

namespace LineForm

variable {α : Type} (nul : α)

/-- What the line holds. -/
def text (b : LineForm α) : List α := Memory.contents b.chars b.ll

def insertSpace (ct : ℕ) (b : LineForm α) : Option (LineForm α) :=
  if intMax < ct + b.ll then none
  else (sizeline (ct + b.ll) b.size).map fun size ↦
    { b with
      chars := Function.update (Memory.raise b.cs ct (b.ll - b.cs) b.chars) (b.ll + ct) nul
      ll := b.ll + ct
      size }

def shift (dst cnt : ℕ) (b : LineForm α) : LineForm α :=
  let chars := Memory.lower cnt (b.ll - cnt - dst) dst b.chars
  let dst := max dst (b.ll - cnt)
  { b with chars := Function.update chars dst nul, ll := dst }

end LineForm

/-! ## Boundaries -/

def RegionHighlight.sub (predisplaylen : ℕ) (r : RegionHighlight) : ℤ :=
  if r.predisplay then predisplaylen else 0

/-- `spaceinline` for `mark`. -/
def markSpaced (cs ct mark : ℤ) : ℤ := if cs < mark then mark + ct else mark

/-- `spaceinline` for the start of a region. -/
def startSpaced (cs ct sub start : ℤ) : ℤ := if cs ≤ start - sub then start + ct else start

/-- `spaceinline` for the end of a region. -/
def stopSpaced (predisplaylen : ℕ) (cs ct sub stop : ℤ) : ℤ :=
  if cs ≤ stop - sub ∧ (predisplaylen = 0 ∨ cs ≠ 0) then stop + ct else stop

/-- `shiftchars` for `mark`. -/
def markShifted (dst cnt mark : ℤ) : ℤ :=
  if dst + cnt ≤ mark then mark - cnt else if dst < mark then dst else mark

/-- `shiftchars` for both boundaries of a region. -/
def boundaryShifted (dst cnt sub x : ℤ) : ℤ :=
  if dst < x - sub then if dst + cnt < x - sub then x - cnt else dst + sub else x

namespace RegionHighlight

variable (predisplaylen : ℕ)

def spaced (cs ct : ℤ) (r : RegionHighlight) : RegionHighlight :=
  { r with
    start := startSpaced cs ct (r.sub predisplaylen) r.start
    stop := stopSpaced predisplaylen cs ct (r.sub predisplaylen) r.stop }

def spacedMeta (cs ct : ℤ) (r : RegionHighlight) : RegionHighlight :=
  { r with
    startMeta := startSpaced cs ct (r.sub predisplaylen) r.startMeta
    stopMeta := stopSpaced predisplaylen cs ct (r.sub predisplaylen) r.stopMeta }

def shifted (dst cnt : ℤ) (r : RegionHighlight) : RegionHighlight :=
  { r with
    start := boundaryShifted dst cnt (r.sub predisplaylen) r.start
    stop := boundaryShifted dst cnt (r.sub predisplaylen) r.stop }

def shiftedMeta (dst cnt : ℤ) (r : RegionHighlight) : RegionHighlight :=
  { r with
    startMeta := boundaryShifted dst cnt (r.sub predisplaylen) r.startMeta
    stopMeta := boundaryShifted dst cnt (r.sub predisplaylen) r.stopMeta }

end RegionHighlight

/-! ## The functions -/

namespace EditLine

variable {α : Type} (nul : α)

def spaceinline (ct : ℕ) (s : EditLine α) : Option (EditLine α) :=
  match s.zlemetaline with
  | some b => (b.insertSpace 0 ct).map fun b' ↦
    { s with
      zlemetaline := some b'
      mark := markSpaced b.cs ct s.mark
      regionHighlights := s.regionHighlights.map (·.spacedMeta s.predisplaylen b.cs ct)
      regionActive := false }
  | none => (s.zleline.insertSpace nul ct).map fun b' ↦
    { s with
      zleline := b'
      mark := markSpaced s.zleline.cs ct s.mark
      viinsbegin := if s.zleline.cs < s.viinsbegin then 0 else s.viinsbegin
      regionHighlights := s.regionHighlights.map (·.spaced s.predisplaylen s.zleline.cs ct)
      regionActive := false }

def shiftchars (dst cnt : ℕ) (s : EditLine α) : Option (EditLine α) :=
  if intMax < dst + cnt then none
  else
    match s.zlemetaline with
    | some b => some
      { s with
        zlemetaline := some (b.shift 0 dst cnt)
        mark := markShifted dst cnt s.mark
        regionHighlights := s.regionHighlights.map (·.shiftedMeta s.predisplaylen dst cnt)
        regionActive := false }
    | none => some
      { s with
        zleline := s.zleline.shift nul dst cnt
        mark := markShifted dst cnt s.mark
        regionHighlights := s.regionHighlights.map (·.shifted s.predisplaylen dst cnt)
        regionActive := false }

/-- The cursor, and the length and the size of the line, in the form that is in use. -/
def cs (s : EditLine α) : ℕ := (s.zlemetaline.map LineForm.cs).getD s.zleline.cs

def ll (s : EditLine α) : ℕ := (s.zlemetaline.map LineForm.ll).getD s.zleline.ll

def size (s : EditLine α) : ℕ := (s.zlemetaline.map LineForm.size).getD s.zleline.size

end EditLine

/-! ## The text of the line -/

namespace LineForm

variable {α : Type} (nul : α) (b : LineForm α)

@[simp]
theorem length_text : b.text.length = b.ll := Memory.length_contents b.chars b.ll

theorem insertSpace_ends {ct : ℕ} {b' : LineForm α} (h : b.insertSpace nul ct = some b') :
    b'.cs = b.cs ∧ b'.ll = b.ll + ct := by
  unfold insertSpace at h
  split at h
  · exact nomatch h
  · obtain ⟨size, -, rfl⟩ := Option.map_eq_some_iff.mp h
    exact ⟨rfl, rfl⟩

theorem text_insertSpace (hcs : b.cs ≤ b.ll) {ct : ℕ} {b' : LineForm α}
    (h : b.insertSpace nul ct = some b') :
    ∃ gap : List α, gap.length = ct ∧
      b'.text = b.text.take b.cs ++ gap ++ b.text.drop b.cs := by
  unfold insertSpace at h
  split at h
  · exact nomatch h
  · obtain ⟨size, -, rfl⟩ := Option.map_eq_some_iff.mp h
    refine ⟨Memory.contents (fun j ↦ b.chars (b.cs + j)) ct, Memory.length_contents _ _, ?_⟩
    calc Memory.contents (Function.update (Memory.raise b.cs ct (b.ll - b.cs) b.chars)
          (b.ll + ct) nul) (b.ll + ct)
        = Memory.contents (Memory.raise b.cs ct (b.ll - b.cs) b.chars) (b.ll + ct) :=
          Memory.contents_congr fun i hi ↦ Function.update_of_ne hi.ne _ _
      _ = _ := Memory.contents_raise b.chars hcs ct

theorem insertSpace_isSome {ct : ℕ} :
    (b.insertSpace nul ct).isSome ↔ ct + b.ll ≤ intMax ∧ (sizeline (ct + b.ll) b.size).isSome := by
  unfold insertSpace
  split
  · next h => simp [h]
  · next h => simp [not_lt.mp h]

theorem text_shift {dst : ℕ} (hdst : dst ≤ b.ll) (cnt : ℕ) :
    (b.shift nul dst cnt).text = b.text.take dst ++ b.text.drop (dst + cnt) := by
  calc Memory.contents (Function.update (Memory.lower cnt (b.ll - cnt - dst) dst b.chars)
        (max dst (b.ll - cnt)) nul) (max dst (b.ll - cnt))
      = Memory.contents (Memory.lower cnt (b.ll - cnt - dst) dst b.chars)
          (max dst (b.ll - cnt)) :=
        Memory.contents_congr fun i hi ↦ Function.update_of_ne hi.ne _ _
    _ = _ := Memory.contents_lower b.chars hdst cnt

end LineForm

end Bsh.Zle

/-!
# Positions that move with their text

Space that is made in the line moves the mark and the boundaries of the regions behind it, and a cut
maps those inside of it to its start.  Taking the space out again brings everything back.  At the
start of the line, with text displayed in front of it, `spaceinline` leaves the end of every region
where it is, also where the region starts in the line.
-/

namespace Bsh.Zle

open Bsh.Library List

/-! ## What is expected of the positions -/

/-- A line in one form, with its positions and the regions less the text in front of the line. -/
structure Tracked (α : Type) where
  text : List α
  cs : ℕ
  mark : ℤ
  regions : List (ℤ × ℤ)

namespace Tracked

variable {α : Type}

/-- The positions are in the line, and no region ends before it starts. -/
structure Placed (t : Tracked α) : Prop where
  mark : 0 ≤ t.mark ∧ t.mark ≤ t.text.length
  regions : ∀ r ∈ t.regions, r.1 ≤ r.2 ∧ r.2 ≤ t.text.length

/-- The characters of the line that a region covers. -/
def covered (t : Tracked α) (r : ℤ × ℤ) : List α :=
  (t.text.take r.2.toNat).drop r.1.toNat

/-- Space for `ct` characters at `cs` moves what is behind it. -/
def Spaced (cs ct x y : ℤ) : Prop := (cs < x → y = x + ct) ∧ (x < cs → y = x)

/-- A cut of `cnt` characters from `dst` on maps what is inside to its start. -/
def Cut (dst cnt x y : ℤ) : Prop :=
  (x ≤ dst → y = x) ∧ (dst ≤ x → x ≤ dst + cnt → y = dst) ∧ (dst + cnt ≤ x → y = x - cnt)

structure Inserted (ct : ℕ) (t t' : Tracked α) : Prop where
  text : ∃ gap : List α, gap.length = ct ∧ t'.text = t.text.take t.cs ++ gap ++ t.text.drop t.cs
  mark : Spaced t.cs ct t.mark t'.mark
  regions : List.Forall₂ (fun r r' ↦ Spaced t.cs ct r.1 r'.1 ∧ Spaced t.cs ct r.2 r'.2)
    t.regions t'.regions
  placed : t'.Placed
  same : List.Forall₂ (fun (r r' : ℤ × ℤ) ↦ r.2 < t.cs ∨ t.cs < r.1 → t'.covered r' = t.covered r)
    t.regions t'.regions

structure Deleted (dst cnt : ℕ) (t t' : Tracked α) : Prop where
  text : t'.text = t.text.take dst ++ t.text.drop (dst + cnt)
  mark : Cut dst cnt t.mark t'.mark
  regions : List.Forall₂ (fun r r' ↦ Cut dst cnt r.1 r'.1 ∧ Cut dst cnt r.2 r'.2)
    t.regions t'.regions
  placed : t'.Placed
  same : List.Forall₂ (fun (r r' : ℤ × ℤ) ↦ r.2 ≤ dst ∨ dst + cnt ≤ r.1 → t'.covered r' = t.covered r)
    t.regions t'.regions

/-- Line, mark and regions are those from before. -/
structure Restored (t t' : Tracked α) : Prop where
  text : t'.text = t.text
  mark : t'.mark = t.mark
  regions : t'.regions = t.regions

/-- Some region would have to move its end at the start of the line. -/
def Stuck (predisplaylen ct : ℕ) (t : Tracked α) : Prop :=
  predisplaylen ≠ 0 ∧ t.cs = 0 ∧ 0 < ct ∧ ∃ r ∈ t.regions, 0 ≤ r.1 ∨ 0 < r.2

/-! ## The moves -/

/-- `spaceinline`, with what the space holds. -/
def space (predisplaylen : ℕ) (gap : List α) (t : Tracked α) : Tracked α where
  text := t.text.take t.cs ++ gap ++ t.text.drop t.cs
  cs := t.cs
  mark := markSpaced t.cs gap.length t.mark
  regions := t.regions.map fun r ↦
    (startSpaced t.cs gap.length 0 r.1, stopSpaced predisplaylen t.cs gap.length 0 r.2)

/-- `shiftchars`. -/
def shift (dst cnt : ℕ) (t : Tracked α) : Tracked α where
  text := t.text.take dst ++ t.text.drop (dst + cnt)
  cs := t.cs
  mark := markShifted dst cnt t.mark
  regions := t.regions.map fun r ↦ (boundaryShifted dst cnt 0 r.1, boundaryShifted dst cnt 0 r.2)

end Tracked

/-! ## One boundary -/

theorem markSpaced_spaced (cs ct x : ℤ) : Tracked.Spaced cs ct x (markSpaced cs ct x) := by
  unfold Tracked.Spaced markSpaced
  constructor
  · intro h
    rw [if_pos h]
  · intro h
    rw [if_neg (by omega)]

theorem startSpaced_spaced (cs ct x : ℤ) : Tracked.Spaced cs ct x (startSpaced cs ct 0 x) := by
  unfold Tracked.Spaced startSpaced
  constructor
  · intro h
    rw [if_pos (by omega)]
  · intro h
    rw [if_neg (by omega)]

theorem markShifted_cut (dst cnt x : ℤ) (hcnt : 0 ≤ cnt) :
    Tracked.Cut dst cnt x (markShifted dst cnt x) := by
  unfold Tracked.Cut markShifted
  split
  · omega
  · split
    · omega
    · omega

theorem boundaryShifted_cut (dst cnt x : ℤ) (hcnt : 0 ≤ cnt) :
    Tracked.Cut dst cnt x (boundaryShifted dst cnt 0 x) := by
  unfold Tracked.Cut boundaryShifted
  split
  · split
    · omega
    · omega
  · omega

/-! ## Pieces of the text -/

section Pieces

variable {α : Type*} {l l' : List α} {n a b : ℕ}

theorem piece_before (h : l'.take n = l.take n) (hb : b ≤ n) :
    (l'.take b).drop a = (l.take b).drop a := by
  congr 1
  calc l'.take b = (l'.take n).take b := by rw [take_take, Nat.min_eq_left hb]
    _ = (l.take n).take b := by rw [h]
    _ = l.take b := by rw [take_take, Nat.min_eq_left hb]

theorem piece_behind {n' a' b' : ℕ} (h : l'.drop n' = l.drop n) (ha : a' = a - n + n')
    (hb : b' = b - n + n') (hn : n ≤ a) (hab : a ≤ b) :
    (l'.take b').drop a' = (l.take b).drop a := by
  have hstart : l'.drop a' = l.drop a := by
    calc l'.drop a' = (l'.drop n').drop (a - n) := by
          rw [drop_drop, ha, Nat.add_comm]
      _ = (l.drop n).drop (a - n) := by rw [h]
      _ = l.drop a := by rw [drop_drop, Nat.add_sub_cancel' hn]
  rw [drop_take, drop_take, hstart, ha, hb]
  congr 1
  omega

end Pieces

/-! ## The moves do what is expected -/

namespace Tracked

variable {α : Type} {t : Tracked α}

theorem space_front (hcs : t.cs ≤ t.text.length) (predisplaylen : ℕ) (gap : List α) :
    (t.space predisplaylen gap).text.take t.cs = t.text.take t.cs ∧
    (t.space predisplaylen gap).text.drop (t.cs + gap.length) = t.text.drop t.cs ∧
    (t.space predisplaylen gap).text.length = t.text.length + gap.length := by
  have hlength : (t.text.take t.cs).length = t.cs := length_take_of_le hcs
  refine ⟨?_, ?_, ?_⟩
  · rw [space, append_assoc]
    exact take_left' hlength
  · apply drop_left'
    rw [length_append, hlength]
  · rw [space]
    simp only [length_append, length_drop, hlength]
    omega

variable {gap : List α} {predisplaylen : ℕ}

/-- The ends move with their text unless the text in front of the line holds them. -/
theorem stopSpaced_spaced {cs ct x : ℤ}
    (h : predisplaylen = 0 ∨ cs ≠ 0 ∨ ct = 0 ∨ x ≤ 0) :
    Spaced cs ct x (stopSpaced predisplaylen cs ct 0 x) := by
  unfold Spaced stopSpaced
  split
  · omega
  · omega

theorem space_inserted (hplaced : t.Placed)
    (hcs : t.cs ≤ t.text.length) (hfree : ¬ t.Stuck predisplaylen gap.length) :
    t.Inserted gap.length (t.space predisplaylen gap) := by
  obtain ⟨hfront, hback, hlength⟩ := space_front hcs predisplaylen gap
  have hstop : ∀ r ∈ t.regions, Spaced t.cs gap.length r.2
      (stopSpaced predisplaylen t.cs gap.length 0 r.2) := by
    intro r hr
    apply stopSpaced_spaced
    by_contra hnot
    push Not at hnot
    obtain ⟨hpre, hzero, hgap, hpos⟩ := hnot
    exact hfree ⟨hpre, by omega, by omega, r, hr, .inr hpos⟩
  have horder : ∀ r ∈ t.regions, startSpaced t.cs gap.length 0 r.1 ≤
      stopSpaced predisplaylen t.cs gap.length 0 r.2 ∧
      stopSpaced predisplaylen t.cs gap.length 0 r.2 ≤ (t.text.length + gap.length : ℕ) := by
    intro r hr
    have hregion := hplaced.regions r hr
    have hstuck : predisplaylen ≠ 0 → t.cs = 0 → 0 < gap.length → r.1 < 0 ∧ r.2 ≤ 0 := by
      intro hpre hzero hgap
      by_contra hnot
      exact hfree ⟨hpre, hzero, hgap, r, hr, by omega⟩
    unfold startSpaced stopSpaced
    split <;> split <;> omega
  constructor
  · exact ⟨gap, rfl, rfl⟩
  · exact markSpaced_spaced _ _ _
  · rw [space, forall₂_map_right_iff, forall₂_same]
    exact fun r hr ↦ ⟨startSpaced_spaced _ _ _, hstop r hr⟩
  · constructor
    · have hmark := hplaced.mark
      rw [hlength]
      unfold space markSpaced
      dsimp only
      split <;> omega
    · rw [hlength]
      intro r hr
      obtain ⟨r, hr', rfl⟩ := List.mem_map.mp hr
      exact horder r hr'
  · rw [space, forall₂_map_right_iff, forall₂_same]
    intro r hr hapart
    have hregion := hplaced.regions r hr
    obtain ⟨hstartBehind, hstartFront⟩ := startSpaced_spaced t.cs gap.length r.1
    obtain ⟨hstopBehind, hstopFront⟩ := hstop r hr
    rcases hapart with hbefore | hbehind
    · rw [hstartFront (by omega), hstopFront hbefore]
      exact piece_before hfront (by omega)
    · exact piece_behind hback (by omega) (by omega) (by omega) (by omega)

/-- A region that is left behind at the start of the line. -/
theorem space_stuck {ct : ℕ} (hstuck : t.Stuck predisplaylen ct) (hgap : gap.length = ct) :
    ¬ t.Inserted ct (t.space predisplaylen gap) := by
  intro hinserted
  obtain ⟨hpre, hzero, hct, r, hr, hregion⟩ := hstuck
  have hstay : stopSpaced predisplaylen t.cs gap.length 0 r.2 = r.2 := by
    unfold stopSpaced
    rw [if_neg]
    rintro ⟨-, h | h⟩
    · exact hpre h
    · exact h (by omega)
  by_cases hstop : 0 < r.2
  · have hmoved := hinserted.regions
    rw [space, forall₂_map_right_iff, forall₂_same] at hmoved
    have hend := (hmoved r hr).2.1 (by omega)
    omega
  · have horder := hinserted.placed.regions _ (mem_map_of_mem hr)
    have hstart : startSpaced t.cs gap.length 0 r.1 = r.1 + gap.length := by
      rw [startSpaced, if_pos (by omega)]
    omega

theorem shift_deleted {dst cnt : ℕ} (hplaced : t.Placed) (hdst : dst ≤ t.text.length) :
    t.Deleted dst cnt (t.shift dst cnt) := by
  have hcnt : (0 : ℤ) ≤ cnt := Int.natCast_nonneg cnt
  have hlength : (t.shift dst cnt).text.length = dst + (t.text.length - (dst + cnt)) := by
    rw [shift, length_append, length_take_of_le hdst, length_drop]
  have hfront : (t.shift dst cnt).text.take dst = t.text.take dst :=
    take_left' (length_take_of_le hdst)
  have hback : (t.shift dst cnt).text.drop dst = t.text.drop (dst + cnt) :=
    drop_left' (length_take_of_le hdst)
  constructor
  · rfl
  · exact markShifted_cut _ _ _ hcnt
  · rw [shift, forall₂_map_right_iff, forall₂_same]
    exact fun r hr ↦ ⟨boundaryShifted_cut _ _ _ hcnt, boundaryShifted_cut _ _ _ hcnt⟩
  · constructor
    · have hmark := hplaced.mark
      rw [hlength]
      unfold shift markShifted
      dsimp only
      split
      · omega
      · split <;> omega
    · intro r hr
      obtain ⟨r, hr', rfl⟩ := List.mem_map.mp hr
      have hregion := hplaced.regions r hr'
      obtain ⟨hstart, hstart', hstart''⟩ := boundaryShifted_cut dst cnt r.1 hcnt
      obtain ⟨hstop, hstop', hstop''⟩ := boundaryShifted_cut dst cnt r.2 hcnt
      omega
  · rw [shift, forall₂_map_right_iff, forall₂_same]
    intro r hr hapart
    have hregion := hplaced.regions r hr
    obtain ⟨hstart, -, hstart'⟩ := boundaryShifted_cut dst cnt r.1 hcnt
    obtain ⟨hstop, -, hstop'⟩ := boundaryShifted_cut dst cnt r.2 hcnt
    rcases hapart with hbefore | hbehind
    · rw [hstart (by omega), hstop hbefore]
      exact piece_before hfront (by omega)
    · exact piece_behind hback (by omega) (by omega) (by omega) (by omega)

theorem shift_space (hcs : t.cs ≤ t.text.length)
    (hfree : ∀ r ∈ t.regions, predisplaylen = 0 ∨ t.cs ≠ 0 ∨ gap.length = 0 ∨ r.2 ≤ 0) :
    t.Restored ((t.space predisplaylen gap).shift t.cs gap.length) := by
  obtain ⟨hfront, hback, -⟩ := space_front hcs predisplaylen gap
  constructor
  · rw [shift, hfront, hback, List.take_append_drop]
  · change markShifted t.cs gap.length (markSpaced t.cs gap.length t.mark) = t.mark
    unfold markShifted markSpaced
    split <;> split <;> omega
  · change List.map _ (List.map _ t.regions) = t.regions
    rw [map_map]
    calc _ = t.regions.map id := by
          apply map_congr_left
          intro r hr
          have hend := hfree r hr
          apply Prod.ext
          · change boundaryShifted t.cs gap.length 0 (startSpaced t.cs gap.length 0 r.1) = r.1
            unfold boundaryShifted startSpaced
            split_ifs <;> omega
          · change boundaryShifted t.cs gap.length 0
              (stopSpaced predisplaylen t.cs gap.length 0 r.2) = r.2
            unfold boundaryShifted stopSpaced
            split_ifs <;> omega
      _ = t.regions := map_id t.regions

end Tracked

/-! ## The line in the form that is in use -/

namespace EditLine

variable {α : Type} (nul : α)

def plain (s : EditLine α) : Tracked α where
  text := s.zleline.text
  cs := s.zleline.cs
  mark := s.mark
  regions := s.regionHighlights.map fun r ↦
    (r.start - r.sub s.predisplaylen, r.stop - r.sub s.predisplaylen)

def metafied (b : LineForm UInt8) (s : EditLine α) : Tracked UInt8 where
  text := b.text
  cs := b.cs
  mark := s.mark
  regions := s.regionHighlights.map fun r ↦
    (r.startMeta - r.sub s.predisplaylen, r.stopMeta - r.sub s.predisplaylen)

/-- A property of the line in the form that is in use. -/
def Active (P : ∀ {β : Type}, Tracked β → Prop) (s : EditLine α) : Prop :=
  match s.zlemetaline with
  | some b => P (s.metafied b)
  | none => P s.plain

/-- What holds between two lines, both in the form that is in use. -/
def Turns (P : ∀ {β : Type}, Tracked β → Tracked β → Prop) (s s' : EditLine α) : Prop :=
  match s.zlemetaline, s'.zlemetaline with
  | some b, some b' => P (s.metafied b) (s'.metafied b')
  | none, none => P s.plain s'.plain
  | _, _ => False

theorem startSpaced_sub (cs ct sub x : ℤ) :
    startSpaced cs ct sub x - sub = startSpaced cs ct 0 (x - sub) := by
  unfold startSpaced
  split_ifs <;> omega

theorem stopSpaced_sub (predisplaylen : ℕ) (cs ct sub x : ℤ) :
    stopSpaced predisplaylen cs ct sub x - sub = stopSpaced predisplaylen cs ct 0 (x - sub) := by
  unfold stopSpaced
  split_ifs <;> omega

theorem boundaryShifted_sub (dst cnt sub x : ℤ) :
    boundaryShifted dst cnt sub x - sub = boundaryShifted dst cnt 0 (x - sub) := by
  unfold boundaryShifted
  split_ifs <;> omega

variable {ct : ℕ} {s s' : EditLine α}

/-- Both forms of `spaceinline` are the same move. -/
theorem spaceinline_turns (hcs : s.cs ≤ s.ll)
    (h : s.spaceinline nul ct = some s') :
    s.Turns (fun t t' ↦ ∃ gap, gap.length = ct ∧ t' = t.space s.predisplaylen gap) s' := by
  unfold spaceinline at h
  unfold Turns
  cases hform : s.zlemetaline with
  | some b =>
    rw [hform] at h
    simp only [cs, ll, hform, Option.map_some, Option.getD_some] at hcs
    obtain ⟨b', hb', rfl⟩ := Option.map_eq_some_iff.mp h
    obtain ⟨hcs', -⟩ := b.insertSpace_ends 0 hb'
    obtain ⟨gap, hgap, htext⟩ := b.text_insertSpace 0 hcs hb'
    refine ⟨gap, hgap, ?_⟩
    simp only [Tracked.space, metafied, htext, hcs', hgap, map_map, Tracked.mk.injEq, true_and]
    apply map_congr_left
    intro r hr
    exact Prod.ext (startSpaced_sub _ _ _ _) (stopSpaced_sub _ _ _ _ _)
  | none =>
    rw [hform] at h
    simp only [cs, ll, hform, Option.map_none, Option.getD_none] at hcs
    obtain ⟨b', hb', rfl⟩ := Option.map_eq_some_iff.mp h
    obtain ⟨hcs', -⟩ := s.zleline.insertSpace_ends nul hb'
    obtain ⟨gap, hgap, htext⟩ := s.zleline.text_insertSpace nul hcs hb'
    refine ⟨gap, hgap, ?_⟩
    simp only [Tracked.space, plain, htext, hcs', hgap, map_map, Tracked.mk.injEq, true_and]
    apply map_congr_left
    intro r hr
    exact Prod.ext (startSpaced_sub _ _ _ _) (stopSpaced_sub _ _ _ _ _)

theorem shiftchars_turns {dst cnt : ℕ} (hdst : dst ≤ s.ll)
    (h : s.shiftchars nul dst cnt = some s') :
    s.Turns (fun t t' ↦ t' = t.shift dst cnt) s' := by
  unfold shiftchars at h
  unfold Turns
  split at h
  · exact nomatch h
  · cases hform : s.zlemetaline with
    | some b =>
      rw [hform] at h
      simp only [ll, hform, Option.map_some, Option.getD_some] at hdst
      obtain rfl := Option.some_inj.mp h
      simp only [Tracked.shift, metafied, b.text_shift 0 hdst, map_map, Tracked.mk.injEq,
        true_and]
      refine ⟨rfl, ?_⟩
      apply map_congr_left
      intro r hr
      exact Prod.ext (boundaryShifted_sub _ _ _ _) (boundaryShifted_sub _ _ _ _)
    | none =>
      rw [hform] at h
      simp only [ll, hform, Option.map_none, Option.getD_none] at hdst
      obtain rfl := Option.some_inj.mp h
      simp only [Tracked.shift, plain, s.zleline.text_shift nul hdst, map_map,
        Tracked.mk.injEq, true_and]
      refine ⟨rfl, ?_⟩
      apply map_congr_left
      intro r hr
      exact Prod.ext (boundaryShifted_sub _ _ _ _) (boundaryShifted_sub _ _ _ _)

theorem Turns.of_active {A : ∀ {β : Type}, Tracked β → Prop}
    {P Q : ∀ {β : Type}, Tracked β → Tracked β → Prop}
    (h : s.Turns (fun t t' ↦ P t t') s') (hactive : s.Active (fun t ↦ A t))
    (himp : ∀ {β : Type} (t t' : Tracked β), A t → P t t' → Q t t') :
    s.Turns (fun t t' ↦ Q t t') s' := by
  unfold Turns Active at *
  split at h
  · next hform _ =>
    rw [hform] at hactive
    exact himp _ _ hactive h
  · next hform _ =>
    rw [hform] at hactive
    exact himp _ _ hactive h
  · exact h

theorem Turns.comp {P Q : ∀ {β : Type}, Tracked β → Tracked β → Prop} {s'' : EditLine α}
    (h : s.Turns (fun t t' ↦ P t t') s') (h' : s'.Turns (fun t t' ↦ Q t t') s'') :
    s.Turns (fun t t'' ↦ ∃ t', P t t' ∧ Q t' t'') s'' := by
  unfold Turns at *
  cases hform : s.zlemetaline with
  | some b =>
    cases hform' : s'.zlemetaline with
    | some b' =>
      cases hform'' : s''.zlemetaline with
      | some b'' =>
        rw [hform, hform'] at h
        rw [hform', hform''] at h'
        exact ⟨_, h, h'⟩
      | none => simp [hform', hform''] at h'
    | none => simp [hform, hform'] at h
  | none =>
    cases hform' : s'.zlemetaline with
    | some b' => simp [hform, hform'] at h
    | none =>
      cases hform'' : s''.zlemetaline with
      | some b'' => simp [hform', hform''] at h'
      | none =>
        rw [hform, hform'] at h
        rw [hform', hform''] at h'
        exact ⟨_, h, h'⟩

theorem Turns.and {P Q : ∀ {β : Type}, Tracked β → Tracked β → Prop}
    (hP : s.Turns (fun t t' ↦ P t t') s') (hQ : s.Turns (fun t t' ↦ Q t t') s') :
    s.Turns (fun t t' ↦ P t t' ∧ Q t t') s' := by
  unfold Turns at *
  split at hP
  · next hform hform' =>
    rw [hform, hform'] at hQ
    exact ⟨hP, hQ⟩
  · next hform hform' =>
    rw [hform, hform'] at hQ
    exact ⟨hP, hQ⟩
  · exact hP.elim

theorem Turns.false (h : s.Turns (fun _ _ ↦ False) s') : False := by
  unfold Turns at h
  split at h <;> exact h

theorem active_eq_cs (s : EditLine α) : s.Active (fun t ↦ t.cs = s.cs) := by
  unfold Active cs
  cases s.zlemetaline with
  | some b => rfl
  | none => rfl

theorem active_length (s : EditLine α) : s.Active (fun t ↦ t.text.length = s.ll) := by
  unfold Active ll
  cases s.zlemetaline with
  | some b => exact b.length_text
  | none => exact s.zleline.length_text

theorem Active.and {P Q : ∀ {β : Type}, Tracked β → Prop}
    (hP : s.Active (fun t ↦ P t)) (hQ : s.Active (fun t ↦ Q t)) :
    s.Active (fun t ↦ P t ∧ Q t) := by
  unfold Active at *
  split at hP
  · next hform =>
    rw [hform] at hQ
    exact ⟨hP, hQ⟩
  · next hform =>
    rw [hform] at hQ
    exact ⟨hP, hQ⟩

theorem Active.mono {P Q : ∀ {β : Type}, Tracked β → Prop}
    (h : s.Active (fun t ↦ P t)) (himp : ∀ {β : Type} (t : Tracked β), P t → Q t) :
    s.Active (fun t ↦ Q t) := by
  unfold Active at *
  split at h
  · exact himp _ h
  · exact himp _ h

theorem Active.const {p : Prop} (h : s.Active (fun _ ↦ p)) : p := by
  unfold Active at h
  split at h <;> exact h

theorem active_not {P : ∀ {β : Type}, Tracked β → Prop} :
    s.Active (fun t ↦ ¬ P t) ↔ ¬ s.Active (fun t ↦ P t) := by
  unfold Active
  cases s.zlemetaline with
  | some b => rfl
  | none => rfl

/-! ## When the positions follow their text -/

/-- The buffer can take so many more characters. -/
def Roomy (ct : ℕ) (s : EditLine α) : Prop :=
  ct + s.ll ≤ intMax ∧ (sizeline (ct + s.ll) s.size).isSome

/-- The positions follow their text through `spaceinline`, through `shiftchars` behind it, and
through `shiftchars` at any place. -/
def Follows (ct dst cnt : ℕ) (s : EditLine α) : Prop :=
  (∃ s', s.spaceinline nul ct = some s' ∧ s.Turns (fun t t' ↦ t.Inserted ct t') s' ∧
    ∃ s'', s'.shiftchars nul s.cs ct = some s'' ∧ s.Turns (fun t t' ↦ t.Restored t') s'') ∧
  ∃ s', s.shiftchars nul dst cnt = some s' ∧ s.Turns (fun t t' ↦ t.Deleted dst cnt t') s'

theorem spaceinline_isSome :
    (s.spaceinline nul ct).isSome ↔ s.Roomy ct := by
  unfold spaceinline Roomy ll size
  cases s.zlemetaline with
  | some b => simpa using b.insertSpace_isSome 0
  | none => simpa using s.zleline.insertSpace_isSome nul

theorem spaceinline_ll (h : s.spaceinline nul ct = some s') :
    s'.ll = s.ll + ct := by
  unfold spaceinline at h
  unfold ll
  cases hform : s.zlemetaline with
  | some b =>
    rw [hform] at h
    obtain ⟨b', hb', rfl⟩ := Option.map_eq_some_iff.mp h
    exact (b.insertSpace_ends 0 hb').2
  | none =>
    rw [hform] at h
    obtain ⟨b', hb', rfl⟩ := Option.map_eq_some_iff.mp h
    exact (s.zleline.insertSpace_ends nul hb').2

theorem shiftchars_isSome {dst cnt : ℕ} :
    (s.shiftchars nul dst cnt).isSome ↔ dst + cnt ≤ intMax := by
  unfold shiftchars
  split
  · next h => simp [h]
  · next h =>
    cases s.zlemetaline with
    | some b => simpa using h
    | none => simpa using h

/-- The mark and the regions follow their text as long as the sizes are numbers of the machine,
and no region of the line is held at its start. -/
theorem follows_iff {ct dst cnt : ℕ} {s : EditLine α}
    (hvalid : s.Active (fun t ↦ t.Placed ∧ t.cs ≤ t.text.length)) (hdst : dst ≤ s.ll) :
    s.Follows nul ct dst cnt ↔
      (s.Roomy ct ∧ dst + cnt ≤ intMax) ∧
        ¬ s.Active (fun t ↦ t.Stuck s.predisplaylen ct) := by
  have hcs : s.cs ≤ s.ll := by
    apply Active.const
    apply (hvalid.and ((active_eq_cs s).and (active_length s))).mono
    rintro β t ⟨⟨-, hle⟩, hcs, hlength⟩
    rwa [hcs, hlength] at hle
  constructor
  · rintro ⟨⟨s', hspace, hinserted, -⟩, s₂, hshift, -⟩
    have hroomy : s.Roomy ct := by
      rw [← spaceinline_isSome nul, hspace]
      rfl
    have hsum : dst + cnt ≤ intMax := by
      rw [← shiftchars_isSome nul, hshift]
      rfl
    refine ⟨⟨hroomy, hsum⟩, fun hstuck ↦ ?_⟩
    have hboth := (spaceinline_turns nul hcs hspace).and hinserted
    apply Turns.false
    apply hboth.of_active (hvalid.and hstuck)
    rintro β t t' ⟨⟨hplaced, -⟩, hstuck⟩ ⟨⟨gap, hgap, rfl⟩, hinserted⟩
    exact Tracked.space_stuck hstuck hgap hinserted
  · rintro ⟨⟨hroomy, hsum⟩, hfree⟩
    have hactive := hvalid.and (active_not.mpr hfree)
    constructor
    · obtain ⟨s', hspace⟩ := Option.isSome_iff_exists.mp ((spaceinline_isSome nul).mpr hroomy)
      have hturns := spaceinline_turns nul hcs hspace
      have hll := spaceinline_ll nul hspace
      have hback : s.cs + ct ≤ intMax := by
        have hfits := hroomy.1
        omega
      obtain ⟨s'', hshift⟩ := Option.isSome_iff_exists.mp
        ((shiftchars_isSome nul).mpr hback)
      refine ⟨s', hspace, ?_, s'', hshift, ?_⟩
      · apply hturns.of_active hactive
        rintro β t t' ⟨⟨hplaced, hcs⟩, hfree⟩ ⟨gap, rfl, rfl⟩
        exact Tracked.space_inserted hplaced hcs hfree
      · have hrestored := hturns.comp (shiftchars_turns nul (by omega) hshift)
        apply hrestored.of_active (hactive.and (active_eq_cs s))
        rintro β t t' ⟨⟨⟨-, hcs⟩, hfree⟩, heq⟩ ⟨-, ⟨gap, rfl, rfl⟩, rfl⟩
        rw [← heq]
        apply Tracked.shift_space hcs
        intro r hr
        by_contra hnot
        push Not at hnot
        exact hfree ⟨hnot.1, hnot.2.1, Nat.pos_of_ne_zero hnot.2.2.1, r, hr, .inr hnot.2.2.2⟩
    · obtain ⟨s', hshift⟩ := Option.isSome_iff_exists.mp
        ((shiftchars_isSome nul).mpr hsum)
      refine ⟨s', hshift, ?_⟩
      apply (shiftchars_turns nul hdst hshift).of_active (hactive.and (active_length s))
      rintro β t t' ⟨⟨⟨hplaced, -⟩, -⟩, hlength⟩ rfl
      exact Tracked.shift_deleted hplaced (hlength ▸ hdst)

/-- A region over both characters of a line, with the cursor between them. -/
def twoLetters : EditLine ℕ :=
  ⟨⟨fun i ↦ 97 + i, 1, 2, 256⟩, none, 2, 0, 1, [⟨false, 0, 2, 0, 0⟩], false⟩

theorem twoLetters_follows : twoLetters.Follows 0 3 0 1 := by
  apply (follows_iff 0 _ _).mpr
  · refine ⟨⟨⟨by decide, ?_⟩, by decide⟩, ?_⟩
    · rw [sizeline, if_pos (by decide)]
      rfl
    · rintro ⟨-, hcs, -⟩
      exact absurd hcs (by decide)
  · refine ⟨⟨by decide, ?_⟩, by decide⟩
    decide
  · decide

/-- The same line with the cursor at its start, behind one displayed character. -/
def heldLetters : EditLine ℕ :=
  ⟨⟨fun i ↦ 97 + i, 0, 2, 256⟩, none, 2, 0, 1, [⟨false, 0, 2, 0, 0⟩], false⟩

/-- The region starts one place later and ends where it ended. -/
theorem heldLetters_stay : heldLetters.Active (fun t ↦ t.Placed ∧ t.cs ≤ t.text.length) ∧
    heldLetters.Roomy 1 ∧ ¬ heldLetters.Follows 0 1 0 0 := by
  have hplaced : heldLetters.plain.Placed := ⟨by decide, by decide⟩
  refine ⟨⟨hplaced, by decide⟩, ⟨by decide, ?_⟩, ?_⟩
  · rw [sizeline, if_pos (by decide)]
    rfl
  · rintro ⟨⟨s', hspace, hinserted, -⟩, -⟩
    have hturns := spaceinline_turns 0 (by decide) hspace
    apply Turns.false
    apply (hturns.and hinserted).of_active (A := fun t ↦ t.Placed ∧ t.Stuck 1 1)
    · exact ⟨hplaced, by decide, rfl, by decide, (0, 2), List.mem_singleton.mpr rfl, by decide⟩
    · rintro β t t' ⟨hplaced, hstuck⟩ ⟨⟨gap, hgap, rfl⟩, hinserted⟩
      exact Tracked.space_stuck hstuck hgap hinserted

end EditLine

end Bsh.Zle
