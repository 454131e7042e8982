import Bsh.Shell.Yank
import Bsh.Zle.Space

/-!
# Inserting a string

`doinsert` of `zle_misc.c`, behind `iremovesuffix` and `invalidatelist`.  In overwrite mode the
characters of all copies are counted, combining characters left out, and as many logical characters
of the line give way.  The count reads the string as if the copies stood in it one behind the other:
from the second copy on it reads what is behind the string.
-/

namespace Bsh.Zle

open Bsh.Library Bsh.Shell List

/-- The text, count and mode of `doinsert`; `insmode` and `combiningChars` are options. -/
structure Insertion (α : Type) where
  zstr : List α
  zmult : ℤ
  insmode : Bool
  combiningChars : Bool

namespace Insertion

variable {α : Type}

/-- The number of copies. -/
def copies (q : Insertion α) : ℕ := q.zmult.natAbs

/-- What is put into the line. -/
def inserted (q : Insertion α) : List α := (List.replicate q.copies q.zstr).flatten

end Insertion

variable {α : Type} (ch : ZleChars α)

/-- The loop that counts the characters of the copies; it reads `zstr[i]`. -/
def countChars (zstr : List α) : ℕ → Option ℕ
  | 0 => some 0
  | n + 1 => do
    let count ← countChars zstr n
    let c ← zstr[n]?
    return if ch.isCombining c then count else count + 1

/-- The loop that looks for the end of what is overwritten. -/
def overwriteEnd [DecidableEq α] (combiningChars : Bool) (line : List α) : ℕ → ℕ → ℕ
  | 0, pos => pos
  | i + 1, pos =>
    if pos < line.length ∧ (line)[pos]? ≠ some ch.newline then
      overwriteEnd combiningChars line i (ch.inccs combiningChars line pos)
    else pos

/-- `while (m--)` with the loop in it. -/
def storeCopies (zstr : List α) : ℕ → ℕ → (ℕ → α) → ℕ → α
  | 0, _, mem => mem
  | m + 1, i, mem => storeCopies zstr m (i + zstr.length) (Memory.store zstr i mem)

/-- The space for the copies. -/
def makeSpace [DecidableEq α] (q : Insertion α) (s : EditLine α) : Option (EditLine α) :=
  let total := q.copies * q.zstr.length
  let zlecs := s.zleline.cs
  if intMax < total then none
  else if q.insmode ∨ s.zleline.chars zlecs = ch.newline then s.spaceinline ch.nul total
  else do
    let count ← countChars ch q.zstr total
    let pos := overwriteEnd ch q.combiningChars s.zleline.text count zlecs
    if pos < zlecs + total then s.spaceinline ch.nul (zlecs + total - pos)
    else if zlecs + total < pos then s.shiftchars ch.nul zlecs (pos - (zlecs + total))
    else return s

def doinsert [DecidableEq α] (q : Insertion α) (s : EditLine α) : Option (EditLine α) :=
  (makeSpace ch q s).map fun s ↦
    let line := { s.zleline with
      chars := storeCopies q.zstr q.copies s.zleline.cs s.zleline.chars }
    let cs := if q.zmult < 0 then line.cs else line.cs + q.copies * q.zstr.length
    { s with zleline := { line with
        cs := ch.alignmultiwordright q.combiningChars line.text cs } }

/-! ## The loops -/

theorem countChars_eq {zstr : List α} {n : ℕ} (h : n ≤ zstr.length) :
    countChars ch zstr n = some ((zstr.take n).countP fun c ↦ !ch.isCombining c) := by
  induction n with
  | zero => simp [countChars]
  | succ n ih =>
    have hread : zstr[n]? = some zstr[n] := List.getElem?_eq_getElem h
    rw [countChars, ih (Nat.le_of_succ_le h), hread, take_add_one, hread, countP_append]
    cases hc : ch.isCombining zstr[n] with
    | false => simp [hc]
    | true => simp [hc]

theorem countChars_isSome {zstr : List α} {n : ℕ} :
    (countChars ch zstr n).isSome ↔ n ≤ zstr.length := by
  constructor
  · intro h
    cases n with
    | zero => exact Nat.zero_le _
    | succ n =>
      by_contra hlong
      rw [countChars, List.getElem?_eq_none (by omega)] at h
      cases hcount : countChars ch zstr n with
      | none => simp [hcount] at h
      | some count => simp [hcount] at h
  · intro h
    rw [countChars_eq ch h]
    rfl

theorem storeCopies_eq (zstr : List α) (m i : ℕ) (mem : ℕ → α) :
    storeCopies zstr m i mem = Memory.store (List.replicate m zstr).flatten i mem := by
  induction m generalizing i mem with
  | zero => rfl
  | succ m ih =>
    rw [storeCopies, ih, replicate_succ, flatten_cons, Memory.store_append]

variable [DecidableEq α]

/-- Some logical characters from a position on, up to a newline or the end of the line. -/
structure Overwritten (combiningChars : Bool) (line : List α) (count pos stop : ℕ) : Prop where
  ends : ∃ k ≤ count, (ch.inccs combiningChars line)^[k] pos = stop ∧
    (∀ j < k, (ch.inccs combiningChars line)^[j] pos < line.length ∧
      (line)[(ch.inccs combiningChars line)^[j] pos]? ≠ some ch.newline) ∧
    (k = count ∨ line.length ≤ stop ∨ (line)[stop]? = some ch.newline)

theorem overwriteEnd_overwritten (combiningChars : Bool) (line : List α) (count pos : ℕ) :
    Overwritten ch combiningChars line count pos
      (overwriteEnd ch combiningChars line count pos) := by
  induction count generalizing pos with
  | zero => exact ⟨0, Nat.le_refl 0, rfl, fun j hj ↦ absurd hj (Nat.not_lt_zero j), .inl rfl⟩
  | succ count ih =>
    rw [overwriteEnd]
    split
    · next hgo =>
      obtain ⟨k, hk, hstop, hbefore, hend⟩ := ih _
      refine ⟨k + 1, Nat.succ_le_succ hk, hstop, ?_, ?_⟩
      · intro j hj
        cases j with
        | zero => exact hgo
        | succ j => exact hbefore j (Nat.lt_of_succ_lt_succ hj)
      · rcases hend with h | h
        · exact .inl (congrArg Nat.succ h)
        · exact .inr h
    · next hstop =>
      refine ⟨0, Nat.zero_le _, rfl, fun j hj ↦ absurd hj (Nat.not_lt_zero j), .inr ?_⟩
      by_cases hlength : pos < line.length
      · exact .inr (by_contra fun h ↦ hstop ⟨hlength, h⟩)
      · exact .inl (not_lt.mp hlength)

theorem le_overwriteEnd (combiningChars : Bool) (line : List α) (count pos : ℕ) :
    pos ≤ overwriteEnd ch combiningChars line count pos := by
  induction count generalizing pos with
  | zero => exact Nat.le_refl pos
  | succ count ih =>
    rw [overwriteEnd]
    split
    · have hnext : pos + 1 ≤ ch.inccs combiningChars line pos :=
        ch.le_alignmultiwordright combiningChars line (pos + 1)
      exact (Nat.le_of_succ_le hnext).trans (ih _)
    · exact Nat.le_refl pos

theorem overwriteEnd_le (combiningChars : Bool) {line : List α} (count : ℕ) {pos : ℕ}
    (h : pos ≤ line.length) : overwriteEnd ch combiningChars line count pos ≤ line.length := by
  induction count generalizing pos with
  | zero => exact h
  | succ count ih =>
    rw [overwriteEnd]
    split
    · next hgo => exact ih (ch.inccs_le combiningChars hgo.1)
    · exact h

/-! ## The line behind -/

namespace Insertion

omit [DecidableEq α] in
theorem length_inserted (q : Insertion α) :
    q.inserted.length = q.copies * q.zstr.length := by
  rw [inserted, length_flatten, map_replicate, sum_replicate_nat]

/-- Where the text that stays starts. -/
def behind (q : Insertion α) (s : EditLine α) : ℕ :=
  if q.insmode ∨ s.zleline.chars s.zleline.cs = ch.newline then s.zleline.cs
  else overwriteEnd ch q.combiningChars s.zleline.text
    (q.inserted.countP fun c ↦ !ch.isCombining c) s.zleline.cs

/-- The copies are at the cursor, the text in front of it stays, and so does the text behind as many
logical characters as are put in, or in insert mode all of it. -/
structure Right (q : Insertion α) (s s' : EditLine α) : Prop where
  text : ∃ stop, s'.zleline.text =
      s.zleline.text.take s.zleline.cs ++ q.inserted ++ s.zleline.text.drop stop ∧
    if q.insmode then stop = s.zleline.cs
    else Overwritten ch q.combiningChars s.zleline.text
      (q.inserted.countP fun c ↦ !ch.isCombining c) s.zleline.cs stop

/-- The copies are made without a look at the string, or there is one at most. -/
def InString (q : Insertion α) (s : EditLine α) : Prop :=
  q.insmode = true ∨ s.zleline.chars s.zleline.cs = ch.newline ∨ q.copies ≤ 1

/-- The length of the copies is a number of the machine, and the buffer can take them. -/
def Fits (q : Insertion α) (s : EditLine α) : Prop :=
  q.copies * q.zstr.length ≤ intMax ∧
    s.Roomy (s.zleline.cs + q.copies * q.zstr.length - q.behind ch s)

variable {q : Insertion α} {s : EditLine α}

theorem le_behind : s.zleline.cs ≤ q.behind ch s := by
  unfold behind
  split
  · exact Nat.le_refl _
  · exact le_overwriteEnd ch _ _ _ _

theorem behind_le (hcs : s.zleline.cs ≤ s.zleline.ll) : q.behind ch s ≤ s.zleline.ll := by
  unfold behind
  split
  · exact hcs
  · rw [← s.zleline.length_text]
    exact overwriteEnd_le ch _ _ (by rwa [s.zleline.length_text])

/-- What stays behind the copies starts behind what they overwrite. -/
theorem behind_right :
    if q.insmode then q.behind ch s = s.zleline.cs
    else Overwritten ch q.combiningChars s.zleline.text
      (q.inserted.countP fun c ↦ !ch.isCombining c) s.zleline.cs (q.behind ch s) := by
  split
  · next hmode => rw [behind, if_pos (.inl hmode)]
  · next hmode =>
    unfold behind
    split
    · next hchar =>
      have hnewline := hchar.resolve_left hmode
      refine ⟨0, Nat.zero_le _, rfl, fun j hj ↦ absurd hj (Nat.not_lt_zero j), .inr ?_⟩
      by_cases hend : s.zleline.cs < s.zleline.ll
      · right
        rw [LineForm.text, Memory.getElem?_contents hend, hnewline]
      · left
        rw [s.zleline.length_text]
        exact not_lt.mp hend
    · exact overwriteEnd_overwritten ch _ _ _ _

omit [DecidableEq α] in
/-- The count of the characters never leaves the string. -/
theorem countChars_inserted (hone : q.copies ≤ 1) :
    countChars ch q.zstr (q.copies * q.zstr.length) =
      some (q.inserted.countP fun c ↦ !ch.isCombining c) := by
  have hcopies : q.copies = 0 ∨ q.copies = 1 := by omega
  rcases hcopies with h | h
  · rw [inserted, h, Nat.zero_mul]
    rfl
  · rw [inserted, h, Nat.one_mul, countChars_eq ch (Nat.le_refl _), take_length]
    simp

/-- The space for the copies, seen from the text that stays. -/
structure Spaced (q : Insertion α) (s s' : EditLine α) : Prop where
  cs : s'.zleline.cs = s.zleline.cs
  room : s.zleline.cs + q.copies * q.zstr.length ≤ s'.zleline.ll
  front : s'.zleline.text.take s.zleline.cs = s.zleline.text.take s.zleline.cs
  back : s'.zleline.text.drop (s.zleline.cs + q.copies * q.zstr.length) =
    s.zleline.text.drop (q.behind ch s)

omit [DecidableEq α] in
theorem spaceinline_spaced {stop : ℕ} {s' : EditLine α} (hplain : s.zlemetaline = none)
    (hcs : s.zleline.cs ≤ s.zleline.ll) (hstop : s.zleline.cs ≤ stop)
    (hgrow : stop ≤ s.zleline.cs + q.copies * q.zstr.length) (hstop' : stop ≤ s.zleline.ll)
    (h : s.spaceinline ch.nul (s.zleline.cs + q.copies * q.zstr.length - stop) = some s') :
    s'.zleline.cs = s.zleline.cs ∧
    s.zleline.cs + q.copies * q.zstr.length ≤ s'.zleline.ll ∧
    s'.zleline.text.take s.zleline.cs = s.zleline.text.take s.zleline.cs ∧
    s'.zleline.text.drop (s.zleline.cs + q.copies * q.zstr.length) =
      s.zleline.text.drop stop := by
  set total := q.copies * q.zstr.length
  rw [EditLine.spaceinline, hplain] at h
  obtain ⟨b, hb, rfl⟩ := Option.map_eq_some_iff.mp h
  obtain ⟨hcs', hll⟩ := s.zleline.insertSpace_ends ch.nul hb
  obtain ⟨gap, hgap, htext⟩ := s.zleline.text_insertSpace ch.nul hcs hb
  have hfront : (s.zleline.text.take s.zleline.cs).length = s.zleline.cs :=
    length_take_of_le (by rwa [s.zleline.length_text])
  refine ⟨hcs', ?_, ?_, ?_⟩
  · change s.zleline.cs + total ≤ b.ll
    omega
  · rw [htext, append_assoc]
    exact take_left' hfront
  · have hlength : (s.zleline.text.take s.zleline.cs ++ gap).length =
        s.zleline.cs + (s.zleline.cs + total - stop) := by
      rw [length_append, hfront, hgap]
    rw [htext, drop_append, drop_eq_nil_of_le (by omega), nil_append,
      drop_drop, hlength]
    congr 1
    omega

omit [DecidableEq α] in
theorem shiftchars_spaced {stop : ℕ} {s' : EditLine α} (hplain : s.zlemetaline = none)
    (hcs : s.zleline.cs ≤ s.zleline.ll)
    (hshrink : s.zleline.cs + q.copies * q.zstr.length ≤ stop) (hstop : stop ≤ s.zleline.ll)
    (h : s.shiftchars ch.nul s.zleline.cs
      (stop - (s.zleline.cs + q.copies * q.zstr.length)) = some s') :
    s'.zleline.cs = s.zleline.cs ∧
    s.zleline.cs + q.copies * q.zstr.length ≤ s'.zleline.ll ∧
    s'.zleline.text.take s.zleline.cs = s.zleline.text.take s.zleline.cs ∧
    s'.zleline.text.drop (s.zleline.cs + q.copies * q.zstr.length) =
      s.zleline.text.drop stop := by
  set total := q.copies * q.zstr.length
  rw [EditLine.shiftchars, hplain] at h
  split at h
  · exact nomatch h
  · obtain rfl := Option.some_inj.mp h
    have htext := s.zleline.text_shift ch.nul hcs (stop - (s.zleline.cs + total))
    have hfront : (s.zleline.text.take s.zleline.cs).length = s.zleline.cs :=
      length_take_of_le (by rwa [s.zleline.length_text])
    refine ⟨rfl, ?_, ?_, ?_⟩
    · change s.zleline.cs + total ≤
        max s.zleline.cs (s.zleline.ll - (stop - (s.zleline.cs + total)))
      omega
    · rw [htext]
      exact take_left' hfront
    · rw [htext, drop_append, drop_eq_nil_of_le (by omega), nil_append,
        drop_drop, hfront]
      congr 1
      omega

theorem makeSpace_spaced {s' : EditLine α} (hplain : s.zlemetaline = none)
    (hcs : s.zleline.cs ≤ s.zleline.ll) (hone : q.InString ch s)
    (h : makeSpace ch q s = some s') : q.Spaced ch s s' := by
  unfold makeSpace at h
  dsimp only at h
  split at h
  · exact nomatch h
  · split at h
    · next hmode =>
      have hbehind : q.behind ch s = s.zleline.cs := if_pos hmode
      rw [← Nat.add_sub_cancel_left
        (m := q.copies * q.zstr.length)] at h
      obtain ⟨hcs', hroom, hfront, hback⟩ := spaceinline_spaced ch hplain hcs (Nat.le_refl _)
        (Nat.le_add_right _ _) hcs h
      exact ⟨hcs', hroom, hfront, hbehind ▸ hback⟩
    · next hmode =>
      rw [not_or] at hmode
      have hcopies : q.copies ≤ 1 := (hone.resolve_left hmode.1).resolve_left hmode.2
      have hbehind : q.behind ch s = overwriteEnd ch q.combiningChars s.zleline.text
          (q.inserted.countP fun c ↦ !ch.isCombining c) s.zleline.cs :=
        if_neg (not_or.mpr hmode)
      rw [countChars_inserted ch hcopies] at h
      dsimp only [Option.bind_some, Option.bind_eq_bind] at h
      rw [← hbehind] at h
      have hle := le_behind ch (q := q) (s := s)
      have hll := behind_le ch (q := q) hcs
      split at h
      · next hgrow =>
        obtain ⟨hcs', hroom, hfront, hback⟩ := spaceinline_spaced ch hplain hcs hle hgrow.le hll h
        exact ⟨hcs', hroom, hfront, hback⟩
      · next hgrow =>
        split at h
        · next hshrink =>
          obtain ⟨hcs', hroom, hfront, hback⟩ := shiftchars_spaced ch hplain hcs hshrink.le hll h
          exact ⟨hcs', hroom, hfront, hback⟩
        · next hsame =>
          obtain rfl := Option.some_inj.mp h
          have heq : s.zleline.cs + q.copies * q.zstr.length = q.behind ch s := by omega
          exact ⟨rfl, heq ▸ hll, rfl, by rw [heq]⟩

theorem makeSpace_isSome (hplain : s.zlemetaline = none) (hcs : s.zleline.cs ≤ s.zleline.ll)
    (hsize : s.zleline.ll ≤ s.zleline.size) (hint : s.zleline.ll ≤ intMax)
    (hstr : q.zstr ≠ []) :
    (makeSpace ch q s).isSome ↔ q.InString ch s ∧ q.Fits ch s := by
  unfold makeSpace InString Fits
  by_cases htotal : intMax < q.copies * q.zstr.length
  · simp [htotal]
  · rw [if_neg htotal]
    by_cases hmode : q.insmode = true ∨ s.zleline.chars s.zleline.cs = ch.newline
    · have hbehind : q.behind ch s = s.zleline.cs := if_pos hmode
      rw [if_pos hmode, EditLine.spaceinline_isSome, hbehind, Nat.add_sub_cancel_left]
      exact ⟨fun h ↦ ⟨by tauto, not_lt.mp htotal, h⟩, fun h ↦ h.2.2⟩
    · have hbehind : q.behind ch s = overwriteEnd ch q.combiningChars s.zleline.text
          (q.inserted.countP fun c ↦ !ch.isCombining c) s.zleline.cs := if_neg hmode
      have hll := behind_le ch (q := q) hcs
      rw [if_neg hmode]
      by_cases hcopies : q.copies ≤ 1
      · rw [countChars_inserted ch hcopies]
        dsimp only [Option.bind_some, Option.bind_eq_bind]
        rw [← hbehind]
        have hin : q.insmode = true ∨ s.zleline.chars s.zleline.cs = ch.newline ∨ q.copies ≤ 1 :=
          .inr (.inr hcopies)
        split
        · next hgrow =>
          rw [EditLine.spaceinline_isSome]
          exact ⟨fun h ↦ ⟨hin, not_lt.mp htotal, h⟩, fun h ↦ h.2.2⟩
        · next hgrow =>
          have hroomy : s.Roomy (s.zleline.cs + q.copies * q.zstr.length - q.behind ch s) := by
            rw [Nat.sub_eq_zero_of_le (not_lt.mp hgrow)]
            unfold EditLine.Roomy EditLine.ll EditLine.size
            simp only [hplain, Option.map_none, Option.getD_none, Nat.zero_add]
            rw [sizeline, if_pos hsize]
            exact ⟨hint, rfl⟩
          have hright : (q.insmode = true ∨ s.zleline.chars s.zleline.cs = ch.newline ∨
              q.copies ≤ 1) ∧ q.copies * q.zstr.length ≤ intMax ∧
              s.Roomy (s.zleline.cs + q.copies * q.zstr.length - q.behind ch s) :=
            ⟨hin, not_lt.mp htotal, hroomy⟩
          split
          · rw [EditLine.shiftchars_isSome]
            exact ⟨fun _ ↦ hright, fun _ ↦ by omega⟩
          · exact ⟨fun _ ↦ hright, fun _ ↦ rfl⟩
      · have hread : countChars ch q.zstr (q.copies * q.zstr.length) = none := by
          rw [← Option.not_isSome_iff_eq_none, countChars_isSome, not_le]
          have hpos := List.length_pos_iff.mpr hstr
          calc q.zstr.length < 2 * q.zstr.length := by omega
            _ ≤ q.copies * q.zstr.length := Nat.mul_le_mul_right _ (by omega)
        rw [hread]
        constructor
        · intro h
          exact absurd h (by simp)
        · intro h
          exact absurd h.1 (by tauto)

theorem doinsert_text {s' : EditLine α} (hplain : s.zlemetaline = none)
    (hcs : s.zleline.cs ≤ s.zleline.ll) (hone : q.InString ch s)
    (h : doinsert ch q s = some s') :
    s'.zleline.text = s.zleline.text.take s.zleline.cs ++ q.inserted ++
      s.zleline.text.drop (q.behind ch s) := by
  obtain ⟨spaced, hspace, rfl⟩ := Option.map_eq_some_iff.mp h
  have hspaced := makeSpace_spaced ch hplain hcs hone hspace
  have hroom : spaced.zleline.cs + q.inserted.length ≤ spaced.zleline.ll := by
    rw [hspaced.cs, q.length_inserted]
    exact hspaced.room
  calc Memory.contents (storeCopies q.zstr q.copies spaced.zleline.cs spaced.zleline.chars)
        spaced.zleline.ll
      = spaced.zleline.text.take spaced.zleline.cs ++ q.inserted ++
          spaced.zleline.text.drop (spaced.zleline.cs + q.inserted.length) := by
        rw [storeCopies_eq]
        exact Memory.contents_store hroom
    _ = _ := by
        rw [hspaced.cs, q.length_inserted, hspaced.front, hspaced.back]

/-- The string is put in as it should be exactly if the characters of at most one copy are counted,
and the sizes are numbers of the machine. -/
theorem doinsert_iff (hplain : s.zlemetaline = none) (hcs : s.zleline.cs ≤ s.zleline.ll)
    (hsize : s.zleline.ll ≤ s.zleline.size) (hint : s.zleline.ll ≤ intMax)
    (hstr : q.zstr ≠ []) :
    (∃ s', doinsert ch q s = some s' ∧ q.Right ch s s') ↔ q.InString ch s ∧ q.Fits ch s := by
  have hsome : (doinsert ch q s).isSome ↔ q.InString ch s ∧ q.Fits ch s := by
    rw [← makeSpace_isSome ch hplain hcs hsize hint hstr, doinsert, Option.isSome_map]
  constructor
  · rintro ⟨s', h, -⟩
    rw [← hsome, h]
    rfl
  · intro hright
    obtain ⟨s', h⟩ := Option.isSome_iff_exists.mp (hsome.mpr hright)
    exact ⟨s', h, q.behind ch s, doinsert_text ch hplain hcs hright.1 h, behind_right ch⟩

/-- Characters of which none is combining. -/
def letters : ZleChars ℕ := ⟨⟨fun _ ↦ false, fun _ ↦ true⟩, 0, 10, fun c ↦ c == 32⟩

/-- `xyz` with the cursor at its start. -/
def lineXyz : EditLine ℕ := ⟨⟨fun i ↦ 120 + i, 0, 3, 256⟩, none, 0, 0, 0, [], false⟩

/-- One copy of `ab` in overwrite mode. -/
theorem overwrite_once : ∃ s', doinsert letters ⟨[97, 98], 1, false, true⟩ lineXyz = some s' ∧
    Insertion.Right letters ⟨[97, 98], 1, false, true⟩ lineXyz s' := by
  apply (doinsert_iff letters rfl (by decide) (by decide) (by decide) (by decide)).mpr
  refine ⟨.inr (.inr (by decide)), by decide, by decide, ?_⟩
  rw [sizeline, if_pos (by decide)]
  rfl

/-- Two copies of `a` in overwrite mode: the second character that is counted is not in the
string. -/
theorem overwrite_twice : ¬ ∃ s', doinsert letters ⟨[97], 2, false, true⟩ lineXyz = some s' ∧
    Insertion.Right letters ⟨[97], 2, false, true⟩ lineXyz s' := by
  rintro ⟨s', h, -⟩
  exact nomatch h

end Insertion

end Bsh.Zle
