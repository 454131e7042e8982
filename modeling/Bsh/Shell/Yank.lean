import Bsh.Shell.KillRing

/-!
# Yanking

`yank`, `pastebuf`, `viputbefore`, `viputafter` and `yankpop` of `zle_misc.c`, with the functions on
the line that they call.  `put-replace-selection` and the bracketed paste are left out, as are the
mark and the undo list.  The memory of the line is not bounded here.

A function gives `none` where it would read outside of the line or of a buffer, or would not come to
an end.
-/

namespace Bsh.Shell

open Bsh.Library List

/-- The bits of `lastcmd` that belong to `ZLE_YANK`. -/
inductive YankFlag where
  | neither
  | before
  | after
deriving DecidableEq

/-- `kct` is `none` for the original buffer, which is -1 in the source. -/
structure YankState (α : Type*) where
  kills : KillState α
  zleline : List α
  zlecs : ℕ
  yankb : ℕ
  yanke : ℕ
  yankcs : ℕ
  kct : Option ℕ
  kctbuf : Option KillSlot
  lastcmd : YankFlag
  combiningChars : Bool
  invicmdmode : Bool

/-! ## Positions in the line -/

namespace ZleChars

variable {α : Type*} (ch : ZleChars α)

section

variable [DecidableEq α]

def findbol (line : List α) : ℕ → ℕ
  | 0 => 0
  | x + 1 => if (line)[x]? = some ch.newline then x + 1 else findbol line x

def findeol (line : List α) (cs : ℕ) : ℕ :=
  cs + ((line.drop cs).takeWhile fun c ↦ c ≠ ch.newline).length

end

def inccs (combiningChars : Bool) (line : List α) (cs : ℕ) : ℕ :=
  ch.alignmultiwordright combiningChars line (cs + 1)

def deccs (combiningChars : Bool) (line : List α) (cs : ℕ) : ℕ :=
  (ch.alignmultiwordleft combiningChars line (cs - 1)).getD (cs - 1)

/-- The loop of `vifirstnonblank`; the first argument bounds its turns. -/
def firstNonblank (combiningChars : Bool) (line : List α) : ℕ → ℕ → Option ℕ
  | 0, _ => none
  | fuel + 1, cs =>
    if cs ≠ line.length && (line)[cs]?.any ch.isBlank then
      firstNonblank combiningChars line fuel (ch.inccs combiningChars line cs)
    else some cs

end ZleChars

/-- So many more characters, each of them the one `p` places before it. -/
def stretch {α : Type*} (p : ℕ) : ℕ → List α → Option (List α)
  | 0, l => some l
  | n + 1, l => l[l.length - p]?.bind fun a ↦ stretch p n (l ++ [a])

namespace YankState

variable {α : Type*} (ch : ZleChars α)

/-! ## Changing the line -/

/-- `spaceinline`, `ZS_memcpy` and the move of the cursor behind the text. -/
def insertText (s : YankState α) (text : List α) : YankState α :=
  { s with zleline := s.zleline.take s.zlecs ++ text ++ s.zleline.drop s.zlecs
           zlecs := s.zlecs + text.length }

/-- `foredel` with `CUT_RAW`. -/
def foredel (s : YankState α) (ct : ℤ) : Option (YankState α) :=
  if s.zleline.length < s.zlecs then none
  else if 0 ≤ ct then
    let zleline := s.zleline.take s.zlecs ++ s.zleline.drop (s.zlecs + ct.toNat)
    some { s with zleline
                  zlecs := ch.alignmultiwordright s.combiningChars zleline s.zlecs }
  else if s.zlecs < (-ct).toNat then none
  else
    (stretch (-ct).toNat (s.zleline.length + (-ct).toNat - s.zlecs)
      (s.zleline.take s.zlecs)).map fun zleline ↦
      { s with zleline
               zlecs := ch.alignmultiwordright s.combiningChars zleline s.zlecs }

/-! ## Pasting -/

/-- The loop of `yank`. -/
def yankTimes (text : List α) : ℕ → YankState α → YankState α
  | 0, s => s
  | n + 1, s => yankTimes text n
      { s.insertText text with kct := none, yanke := s.zlecs + text.length }

/-- The loop of `pastebuf`. -/
def pasteTimes (text : List α) : ℕ → YankState α → YankState α
  | 0, s => s
  | n + 1, s => pasteTimes text n (s.insertText text)

variable [DecidableEq α]

/-- `vifirstnonblank`. -/
def vifirstnonblank (s : YankState α) : Option (YankState α) :=
  (ch.firstNonblank s.combiningChars s.zleline (s.zleline.length + 1)
    (ch.findbol s.zleline s.zlecs)).map fun zlecs ↦ { s with zlecs }

/-- `pastebuf` for whole lines. -/
def pasteLines (s : YankState α) (text : List α) (after : Bool) : Option (YankState α) :=
  if after then
    let yankb := ch.findeol s.zleline s.zlecs
    let pasted := insertText { s with zlecs := yankb } (ch.newline :: text)
    vifirstnonblank ch { pasted with
      zlecs := yankb + 1, yankb, yanke := yankb + 1 + text.length }
  else
    let yankb := ch.findbol s.zleline s.zlecs
    let pasted := insertText { s with zlecs := yankb } (text ++ [ch.newline])
    vifirstnonblank ch { pasted with zlecs := yankb, yankb, yanke := yankb + text.length + 1 }

/-- Where `pastebuf` begins in a line, for characters. -/
def pasteStart (s : YankState α) (after : Bool) : ℕ :=
  if after && s.zlecs ≠ ch.findeol s.zleline s.zlecs then
    ch.inccs s.combiningChars s.zleline s.zlecs
  else s.zlecs

/-- `pastebuf` for characters. -/
def pasteChars (s : YankState α) (text : List α) (mult : ℕ) (after : Bool) : YankState α :=
  let yankb := s.pasteStart ch after
  let s := pasteTimes text mult { s with zlecs := yankb, yankb }
  let s := { s with yanke := s.zlecs }
  if s.zlecs ≠ 0 && s.invicmdmode then
    { s with zlecs := ch.deccs s.combiningChars s.zleline s.zlecs }
  else s

/-- `pastebuf` for the positions 0 and 1. -/
def pastebuf (s : YankState α) (text : List α) (line : Bool) (mult : ℕ) (after : Bool) :
    Option (YankState α) :=
  if line then s.pasteLines ch text after else some (s.pasteChars ch text mult after)

/-! ## The commands -/

/-- The `len` characters at `p`. -/
def bufferText (s : YankState α) (slot : KillSlot) (p : ℕ) : Option (List α) :=
  s.kills.blocks.read ch.nul p (s.kills.buffer slot).len

/-- The buffer that `zmod` selects. -/
def selected (zmod : Zmod) : KillSlot := if zmod.modVibuf then .vibuf zmod.vibuf else .cutbuf

def yank (s : YankState α) (zmult : ℤ) (zmod : Zmod) : Option (ℕ × YankState α) :=
  if zmult < 0 then some (1, s)
  else
    let slot := selected zmod
    match (s.kills.buffer slot).buf with
    | none => some (1, { s with kctbuf := some slot })
    | some p => (s.bufferText ch slot p).map fun text ↦
        (0, yankTimes text zmult.toNat
          { s with kctbuf := some slot, yankb := s.zlecs, yankcs := s.zlecs })

/-- `viputbefore` and `viputafter`; `clip` is what `system_clipget` gives, empty also for NULL. -/
def viput (s : YankState α) (after : Bool) (clip : List α) (zmult : ℤ) (zmod : Zmod) :
    Option (ℕ × YankState α) :=
  if zmult < 0 then some (1, s)
  else if zmod.modNull then some (0, s)
  else if zmod.modOssel then
    if clip.isEmpty then some (1, s)
    else (pastebuf ch { s with kct := none, yankcs := s.zlecs } clip false zmult.toNat after).map
      fun s ↦ (0, s)
  else
    let slot := selected zmod
    match (s.kills.buffer slot).buf with
    | none => some (1, { s with kctbuf := some slot })
    | some p => (s.bufferText ch slot p).bind fun text ↦
        (pastebuf ch { s with kctbuf := some slot, kct := none, yankcs := s.zlecs } text
          (s.kills.buffer slot).line zmult.toNat after).map fun s ↦ (0, s)

/-- One turn around the original buffer and the ring. -/
def kctNext (kringnum : ℕ) : Option ℕ → Option ℕ
  | none => some kringnum
  | some kct =>
    let kctnew := (kct + kringsize - 1) % kringsize
    if kctnew = kringnum then none else some kctnew

/-- The buffer that `kct` stands for. -/
def kctSlot (original : KillSlot) : Option ℕ → KillSlot
  | none => original
  | some kct => .kring kct

/-- `!buf->buf || *buf->buf == ZWC('\0')`; `junk` is what memory holds that nothing was written
to. -/
def skips (junk : α) (s : YankState α) (slot : KillSlot) : Option Bool :=
  match (s.kills.buffer slot).buf with
  | none => some true
  | some p => (s.kills.blocks.read junk p 1).map fun text ↦ text = [ch.nul]

/-- The loop of `yankpop`, up to `kctstart` or to a buffer that is not skipped; the first argument
bounds its turns. -/
def popLoop (junk : α) (s : YankState α) (original : KillSlot) (kctstart : Option ℕ) :
    ℕ → Option ℕ → Option (Option ℕ)
  | 0, _ => none
  | fuel + 1, kct =>
    let kct := kctNext s.kills.kringnum kct
    if kct = kctstart then some kct
    else
      match s.skips ch junk (kctSlot original kct) with
      | none => none
      | some true => popLoop junk s original kctstart fuel kct
      | some false => some kct

/-- The end of `yankpop`. -/
def replaceYank (s : YankState α) (slot : KillSlot) (kct : Option ℕ) :
    Option (ℕ × YankState α) :=
  match (s.kills.buffer slot).buf with
  | none => none
  | some p => (s.bufferText ch slot p).bind fun text ↦
      (foredel ch { s with kct, zlecs := s.yankb } (s.yanke - s.yankb)).bind fun t ↦
        (pastebuf ch { t with zlecs := t.yankcs } text (s.kills.buffer slot).line 1
          (t.lastcmd = .after)).map fun t ↦ (0, t)

def yankpop (junk : α) (s : YankState α) : Option (ℕ × YankState α) :=
  match s.lastcmd, s.kills.kring, s.kctbuf with
  | .neither, _, _ => some (1, { s with kctbuf := none })
  | _, false, _ => some (1, { s with kctbuf := none })
  | _, _, none => some (1, { s with kctbuf := none })
  | _, true, some original =>
    match s.popLoop ch junk original s.kct (kringsize + 1) s.kct with
    | none => none
    | some kct =>
      if kct = s.kct then some (1, s)
      else s.replaceYank ch (kctSlot original kct) kct

end YankState

/-- The commands that set or use `ZLE_YANK`. -/
inductive YankCmd (α : Type*) where
  | yank (zmult : ℤ) (zmod : Zmod)
  | viput (after : Bool) (clip : List α) (zmult : ℤ) (zmod : Zmod)
  | yankpop

namespace YankState

variable {α : Type*} [DecidableEq α] (ch : ZleChars α)

/-- One command, after which `lastcmd` has the widget's flags; `yank-pop` leaves it alone. -/
def command (junk : α) (s : YankState α) : YankCmd α → Option (ℕ × YankState α)
  | .yank zmult zmod => (s.yank ch zmult zmod).map fun (ret, s) ↦
      (ret, { s with lastcmd := .before })
  | .viput after clip zmult zmod => (s.viput ch after clip zmult zmod).map fun (ret, s) ↦
      (ret, { s with lastcmd := if after then .after else .before })
  | .yankpop => s.yankpop ch junk

end YankState

end Bsh.Shell

/-!
# What pasting does to the line

The functions on the line come to an end and stay in the line.  A paste puts a text at one place,
and leaves the beginning and the end of it in `yankb` and `yanke`; deleting what is between them
brings back the line.
-/

namespace Bsh.Shell

open List

variable {α : Type*} (ch : ZleChars α)

/-! ## Positions -/

namespace CharClasses

theorem le_alignmultiwordright (q : CharClasses α) (combiningChars : Bool) (line : List α)
    (pos : ℕ) : pos ≤ q.alignmultiwordright combiningChars line pos := by
  unfold alignmultiwordright
  split
  · exact Nat.le_refl _
  · omega

theorem alignmultiwordright_le (q : CharClasses α) (combiningChars : Bool) {line : List α}
    {pos : ℕ} (h : pos ≤ line.length) :
    q.alignmultiwordright combiningChars line pos ≤ line.length := by
  unfold alignmultiwordright
  split
  · exact h
  · rename_i loccs hleft
    have hne : pos ≠ line.length := by
      rintro rfl
      simp [alignmultiwordleft] at hleft
    have hrest := (takeWhile_sublist q.isCombining (l := line.drop (pos + 1))).length_le
    rw [length_drop] at hrest
    omega

end CharClasses

namespace ZleChars

variable (combiningChars : Bool) (line : List α)

theorem lt_inccs (cs : ℕ) :
    cs < ch.inccs combiningChars line cs :=
  ch.le_alignmultiwordright combiningChars line (cs + 1)

theorem inccs_le {line : List α} {cs : ℕ} (h : cs < line.length) :
    ch.inccs combiningChars line cs ≤ line.length :=
  ch.alignmultiwordright_le combiningChars h

theorem firstNonblank_some (fuel cs : ℕ)
    (hcs : cs ≤ line.length) (hfuel : line.length - cs < fuel) :
    ∃ c, ch.firstNonblank combiningChars line fuel cs = some c := by
  induction fuel generalizing cs with
  | zero => exact absurd hfuel (Nat.not_lt_zero _)
  | succ fuel ih =>
    rw [firstNonblank]
    split
    · rename_i hblank
      have hne : cs ≠ line.length := by simpa using (Bool.and_eq_true_iff.mp hblank).1
      have hlt := ch.lt_inccs combiningChars line cs
      exact ih _ (ch.inccs_le combiningChars (by omega)) (by omega)
    · exact ⟨cs, rfl⟩

variable [DecidableEq α]

theorem findbol_le (cs : ℕ) : ch.findbol line cs ≤ cs := by
  induction cs with
  | zero => exact Nat.le_refl _
  | succ cs ih =>
    rw [findbol]
    split
    · exact Nat.le_refl _
    · exact Nat.le_succ_of_le ih

theorem findeol_le {line : List α} {cs : ℕ} (h : cs ≤ line.length) :
    ch.findeol line cs ≤ line.length := by
  have hrest := (takeWhile_sublist (fun c ↦ decide (c ≠ ch.newline))
    (l := line.drop cs)).length_le
  rw [length_drop] at hrest
  rw [findeol]
  omega

end ZleChars

namespace YankState

/-! ## Insertions -/

variable {s : YankState α}

variable {line : List α} (text : List α) (n : ℕ)

theorem take_insert {text : List α} {n : ℕ} (h : n ≤ line.length) :
    (line.take n ++ text ++ line.drop n).take (n + text.length) = line.take n ++ text := by
  have hlength : (line.take n ++ text).length = n + text.length := by
    rw [length_append, length_take, Nat.min_eq_left h]
  rw [← hlength, take_left]

theorem drop_insert {text : List α} {n : ℕ} (h : n ≤ line.length) :
    (line.take n ++ text ++ line.drop n).drop (n + text.length) = line.drop n := by
  have hlength : (line.take n ++ text).length = n + text.length := by
    rw [length_append, length_take, Nat.min_eq_left h]
  rw [← hlength, drop_left]

theorem pasteTimes_eq (h : s.zlecs ≤ s.zleline.length) :
    pasteTimes text n s = s.insertText (List.replicate n text).flatten := by
  induction n generalizing s with
  | zero => simp [pasteTimes, insertText]
  | succ n ih =>
    rw [pasteTimes, ih]
    · rw [insertText, insertText, insertText, replicate_succ, flatten_cons]
      dsimp only
      rw [take_insert h, drop_insert h, length_append, Nat.add_assoc, append_assoc,
        append_assoc, append_assoc, append_assoc]
    · simp only [insertText, length_append, length_take, length_drop]
      omega

theorem pasteTimes_marks (s : YankState α) (kct : Option ℕ) (yanke : ℕ) :
    pasteTimes text n { s with kct, yanke } = { pasteTimes text n s with kct, yanke } := by
  induction n generalizing s with
  | zero => rfl
  | succ n ih => exact ih (s.insertText text)

/-- The loop of `yank` does what the one of `pastebuf` does, and sets `kct` and `yanke`. -/
theorem yankTimes_eq_pasteTimes (s : YankState α) :
    yankTimes text (n + 1) s = { pasteTimes text (n + 1) s with
      kct := none, yanke := (pasteTimes text (n + 1) s).zlecs } := by
  induction n generalizing s with
  | zero => rfl
  | succ n ih =>
    rw [yankTimes, ih, pasteTimes_marks]
    rfl

theorem yankTimes_eq (h : s.zlecs ≤ s.zleline.length) :
    yankTimes text (n + 1) s =
      { s.insertText (List.replicate (n + 1) text).flatten with
        kct := none, yanke := s.zlecs + (List.replicate (n + 1) text).flatten.length } := by
  rw [yankTimes_eq_pasteTimes, pasteTimes_eq text (n + 1) h]
  rfl

theorem foredel_insert {text : List α} {n : ℕ} (h : n ≤ line.length)
    (hline : s.zleline = line.take n ++ text ++ line.drop n) (hcs : s.zlecs = n) :
    ∃ c, s.foredel ch ((n + text.length : ℕ) - n) = some { s with zleline := line, zlecs := c } := by
  have hlong : ¬s.zleline.length < s.zlecs := by
    rw [hline, hcs, length_append, length_append, length_take]
    omega
  have hcount : ((n + text.length : ℕ) - n : ℤ) = text.length := by omega
  have hrest : s.zleline.take n ++ s.zleline.drop (n + text.length) = line := by
    rw [hline, drop_insert h, append_assoc, take_append_of_le_length
      (by rw [length_take]; omega), take_take, Nat.min_self, List.take_append_drop]
  rw [foredel, if_neg hlong, hcount, if_pos (by omega), Int.toNat_natCast, hcs]
  rw [hrest]
  exact ⟨_, rfl⟩

/-! ## Pastes -/

/-- What is inserted. -/
def pastedText (ch : ZleChars α) (text : List α) (line : Bool) (mult : ℕ) (after : Bool) :
    List α :=
  if line then if after then ch.newline :: text else text ++ [ch.newline]
  else (List.replicate mult text).flatten

variable [DecidableEq α]

/-- Where it is inserted. -/
def pasteAt (ch : ZleChars α) (s : YankState α) (line after : Bool) : ℕ :=
  if line then if after then ch.findeol s.zleline s.zlecs else ch.findbol s.zleline s.zlecs
  else s.pasteStart ch after

/-- The text is in the line, with the marks around it. -/
def pasted (s : YankState α) (text : List α) (n c : ℕ) : YankState α :=
  { s with zleline := s.zleline.take n ++ text ++ s.zleline.drop n
           zlecs := c, yankb := n, yanke := n + text.length }

theorem vifirstnonblank_some (h : s.zlecs ≤ s.zleline.length) :
    ∃ c, s.vifirstnonblank ch = some { s with zlecs := c } := by
  have hle := ch.findbol_le s.zleline s.zlecs
  obtain ⟨c, hc⟩ := ch.firstNonblank_some s.combiningChars s.zleline (s.zleline.length + 1)
    (ch.findbol s.zleline s.zlecs) (by omega) (by omega)
  exact ⟨c, by rw [vifirstnonblank, hc]; rfl⟩

theorem pasteAt_le (h : s.zlecs ≤ s.zleline.length) (line after : Bool) :
    s.pasteAt ch line after ≤ s.zleline.length := by
  unfold pasteAt pasteStart
  split
  · split
    · exact ch.findeol_le h
    · exact Nat.le_trans (ch.findbol_le _ _) h
  · split
    · rename_i hafter
      have hne : s.zlecs ≠ ch.findeol s.zleline s.zlecs := by
        simpa using (Bool.and_eq_true_iff.mp hafter).2
      have hle := ch.findeol_le h
      have hge : s.zlecs ≤ ch.findeol s.zleline s.zlecs := Nat.le_add_right _ _
      exact ch.inccs_le _ (by omega)
    · exact h

theorem pastebuf_spec (h : s.zlecs ≤ s.zleline.length) (text : List α) (line : Bool) (mult : ℕ)
    (after : Bool) : ∃ c, s.pastebuf ch text line mult after =
      some (s.pasted (pastedText ch text line mult after) (s.pasteAt ch line after) c) := by
  have hle := pasteAt_le ch h line after
  unfold pastebuf
  unfold pasteAt at hle ⊢
  cases line with
  | true =>
    rw [if_pos rfl] at hle ⊢
    unfold pasteLines pastedText
    cases after with
    | true =>
      rw [if_pos rfl] at hle
      obtain ⟨c, hc⟩ := vifirstnonblank_some ch (s := { insertText
        { s with zlecs := ch.findeol s.zleline s.zlecs } (ch.newline :: text) with
          zlecs := ch.findeol s.zleline s.zlecs + 1
          yankb := ch.findeol s.zleline s.zlecs
          yanke := ch.findeol s.zleline s.zlecs + 1 + text.length }) (by
        simp only [insertText, length_append, length_take, length_cons]
        omega)
      refine ⟨c, hc.trans ?_⟩
      rw [pasted]
      simp only [insertText, if_true, length_cons, Nat.add_assoc, Nat.add_comm 1]
    | false =>
      rw [if_neg Bool.false_ne_true] at hle
      obtain ⟨c, hc⟩ := vifirstnonblank_some ch (s := { insertText
        { s with zlecs := ch.findbol s.zleline s.zlecs } _ with
          zlecs := ch.findbol s.zleline s.zlecs
          yankb := ch.findbol s.zleline s.zlecs
          yanke := ch.findbol s.zleline s.zlecs + text.length + 1 }) (by
        simp only [insertText, length_append, length_take]
        omega)
      refine ⟨c, hc.trans ?_⟩
      rw [pasted]
      simp only [insertText, if_true, Bool.false_eq_true, if_false, length_append,
        length_singleton, Nat.add_assoc]
  | false =>
    rw [if_neg Bool.false_ne_true] at hle ⊢
    rw [pasteChars, pasteTimes_eq text mult hle]
    split
    · exact ⟨_, rfl⟩
    · exact ⟨_, rfl⟩

end YankState

end Bsh.Shell
