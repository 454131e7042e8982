import Bsh.Library.Utf
import Bsh.Shell.Metafy
import Bsh.Zle.Space

/-!
# The two forms of the editor line

`zlelineasstring` and `stringaszleline` of `zle_utils.c`, as `metafy_line` and `unmetafy_line` use
them.  Completion works on the metafied bytes of the line; the cursor and the boundaries of the
highlighted regions go with the line, first as numbers of bytes, then as numbers of metafied bytes.
The fields of a region are the scratch storage: while one of its pairs is counted, the other holds
where the counting ends.

The cursor is converted as a boundary without an offset, except at the end of the line.
-/

namespace Bsh.Zle

open Bsh.Library Bsh.Library.Utf Bsh.Library.Utf8 Bsh.Shell

/-! ## Characters -/

/-- `BSH_INVALID_WCHAR_TEST`: a byte that is no character, in the private encoding. -/
def IsInvalidWchar (wc : ℕ) : Prop := 0xE000 ≤ wc ∧ wc ≤ 0xE0FF

instance (wc : ℕ) : Decidable (IsInvalidWchar wc) := inferInstanceAs (Decidable (_ ∧ _))

/-- `BSH_INVALID_WCHAR_TO_CHAR`. -/
def invalidWcharToChar (wc : ℕ) : UInt8 := UInt8.ofNat (wc - 0xE000)

/-- `BSH_CHAR_TO_INVALID_WCHAR`. -/
def charToInvalidWchar (b : UInt8) : ℕ := b.toNat + 0xE000

/-- The bytes that `zlelineasstring` writes for a character. -/
def charBytes (wc : ℕ) : Bytes :=
  if IsInvalidWchar wc then [invalidWcharToChar wc]
  else (wcrtomb wc).getD (Bytes.ascii "?")

/-- The bytes that it writes for a line. -/
def lineBytes (line : List ℕ) : Bytes := line.flatMap charBytes

/-! ## Boundaries -/

/-- A boundary: `start` and `start_meta`, `end` and `end_meta`, or the two positions of the
cursor. -/
structure Boundary where
  pos : ℤ
  metaPos : ℤ

/-- Do the same with both boundaries of a region. -/
def RegionHighlight.ends (predisplaylen : ℕ) (f : ℤ → Boundary → Boundary) (r : RegionHighlight) :
    RegionHighlight :=
  let start := f (r.sub predisplaylen) ⟨r.start, r.startMeta⟩
  let stop := f (r.sub predisplaylen) ⟨r.stop, r.stopMeta⟩
  { r with
    start := start.pos
    startMeta := start.metaPos
    stop := stop.pos
    stopMeta := stop.metaPos }

/-- The cursor and the regions behind the special ones. -/
structure Marks where
  cursor : Boundary
  regionHighlights : List RegionHighlight

def Marks.turn (predisplaylen : ℕ) (f : ℤ → Boundary → Boundary) (m : Marks) : Marks :=
  ⟨f 0 m.cursor, m.regionHighlights.map (·.ends predisplaylen f)⟩

/-- A character starts behind `mbLen` bytes. -/
def countDown (mbLen : ℕ) (sub : ℤ) (b : Boundary) : Boundary :=
  ⟨b.pos - 1, if b.pos - sub = 0 then sub + mbLen else b.metaPos⟩

/-- The line ends behind `mbLen` bytes. -/
def countEnd (mbLen : ℕ) (sub : ℤ) (b : Boundary) : Boundary :=
  { b with metaPos := if b.pos - sub = 0 then sub + mbLen else b.metaPos }

/-- Keep the metafied position while it is counted. -/
def keepMeta (_sub : ℤ) (b : Boundary) : Boundary := ⟨b.metaPos, b.metaPos⟩

/-- The byte at `p` becomes a pair. -/
def growAt (p : ℕ) (sub : ℤ) (b : Boundary) : Boundary :=
  { b with metaPos := if p < b.pos - sub then b.metaPos + 1 else b.metaPos }

/-- The pair at `p` becomes a byte. -/
def shrinkAt (p : ℕ) (sub : ℤ) (b : Boundary) : Boundary :=
  { b with metaPos := if p < b.pos - sub then b.metaPos - 1 else b.metaPos }

/-- The bytes from `offs` on are character number `out`. -/
def decodedAt (offs cnt out : ℕ) (sub : ℤ) (b : Boundary) : Boundary :=
  { b with
    pos := if offs ≤ b.metaPos - sub ∧ b.metaPos - sub < offs + cnt then out + sub else b.pos }

/-! ## The loops -/

variable (predisplaylen : ℕ)

/-- The first loop of `zlelineasstring`, for the positions. -/
def encodeMarks : List ℕ → ℕ → Marks → Marks
  | [], mbLen, m => m.turn predisplaylen (countEnd mbLen)
  | wc :: rest, mbLen, m =>
    encodeMarks rest (mbLen + (charBytes wc).length) (m.turn predisplaylen (countDown mbLen))

/-- The second loop, over the bytes. -/
def growMarks : Bytes → ℕ → Marks → Marks
  | [], _, m => m
  | c :: rest, p, m =>
    growMarks rest (p + 1) (if imeta c then m.turn predisplaylen (growAt p) else m)

/-- The first loop of `stringaszleline`, up to the NUL. -/
def shrinkMarks : Bytes → ℕ → Marks → Option Marks
  | [], _, _ => none
  | [c], _, m => if c = 0 then some m else none
  | c :: d :: rest, p, m =>
    if c = 0 then some m
    else if c = metaByte then shrinkMarks rest (p + 2) (m.turn predisplaylen (shrinkAt p))
    else shrinkMarks (d :: rest) (p + 1) m

/-- The next character, how many bytes it takes and the state of the conversion behind it. -/
def nextChar (bytes : Bytes) (mbs : Pending) : ℕ × ℕ × Pending :=
  match mbrtowc bytes mbs with
  | (.char wc cnt, mbs) => (wc, if cnt = 0 then 1 else min cnt bytes.length, mbs)
  | (_, mbs) => (charToInvalidWchar (bytes.headD 0), 1, mbs)

/-- The second loop: the characters, and the positions with the offset and the character number at
which it ends.  The fuel is the number of bytes. -/
def decodeMarks : ℕ → Bytes → Pending → ℕ → ℕ → Marks → Option (List ℕ × ℕ × Marks)
  | _, [], _, offs, _, m => some ([], offs, m)
  | 0, _ :: _, _, _, _, _ => none
  | turns + 1, b :: rest, mbs, offs, out, m =>
    let next := nextChar (b :: rest) mbs
    let wc := next.1
    let cnt := next.2.1
    (decodeMarks turns ((b :: rest).drop cnt) next.2.2 (offs + cnt) (out + 1)
      (m.turn predisplaylen (decodedAt offs cnt out))).map fun (chars, offs, m) ↦
        (wc :: chars, offs, m)

/-! ## The functions -/

/-- `zleline`, `zlecs` and the regions. -/
structure CharLine where
  zleline : List ℕ
  zlecs : ℤ
  regionHighlights : List RegionHighlight

/-- `zlemetaline`, `zlemetall`, `zlemetacs` and the regions. -/
structure ByteLine where
  zlemetaline : Bytes
  zlemetall : ℕ
  zlemetacs : ℤ
  regionHighlights : List RegionHighlight

/-- `zlelineasstring` with all its positions. -/
def zlelineasstring (fresh : UInt8) (l : CharLine) : Option ByteLine :=
  let s := lineBytes l.zleline
  let m := encodeMarks predisplaylen l.zleline 0 ⟨⟨l.zlecs, 0⟩, l.regionHighlights⟩
  let m := growMarks predisplaylen s 0 (m.turn predisplaylen keepMeta)
  (metafy fresh (s ++ [0]) (some s.length) .realloc).map fun zlemetaline ↦
    { zlemetaline
      zlemetall := s.length + s.countP imeta
      zlemetacs := m.cursor.metaPos
      regionHighlights := m.regionHighlights }

/-- `stringaszleline` with all its positions; `zlecs` is what the cursor was. -/
def stringaszleline (zlecs : ℤ) (l : ByteLine) : Option CharLine :=
  let m : Marks := ⟨⟨l.zlemetacs, l.zlemetacs⟩, l.regionHighlights⟩
  match shrinkMarks predisplaylen l.zlemetaline 0 (m.turn predisplaylen keepMeta) with
  | none => none
  | some m =>
    match unmetafy l.zlemetaline with
    | none => none
    | some (instr, ll) =>
      if ll ≠ 0 then
        let m : Marks := { m with cursor := { m.cursor with pos := zlecs } }
        (decodeMarks predisplaylen ll (instr.take ll) .none 0 0 m).map fun (chars, offs, m) ↦
          { zleline := chars
            zlecs := if offs ≤ m.cursor.metaPos then chars.length else m.cursor.pos
            regionHighlights := m.regionHighlights }
      else some { zleline := [], zlecs := 0, regionHighlights := m.regionHighlights }

/-- `metafy_line`. -/
def metafyLine (fresh : UInt8) (l : CharLine) : Option ByteLine :=
  zlelineasstring predisplaylen fresh l

/-- `unmetafy_line`, up to the characters that combine with the one before them. -/
def unmetafyLine (zlecs : ℤ) (l : ByteLine) : Option CharLine :=
  stringaszleline predisplaylen zlecs { l with zlemetaline := l.zlemetaline.set l.zlemetall 0 }

/-! ## One boundary -/

theorem Marks.turn_turn (f g : ℤ → Boundary → Boundary) (m : Marks) :
    (m.turn predisplaylen f).turn predisplaylen g =
      m.turn predisplaylen fun sub b ↦ g sub (f sub b) := by
  unfold Marks.turn
  rw [List.map_map]
  rfl

@[simp]
theorem Marks.turn_id (m : Marks) : m.turn predisplaylen (fun _ b ↦ b) = m := by
  unfold Marks.turn
  congr 1
  exact List.map_id' m.regionHighlights

/-- The loops, for one boundary. -/
def encodeBoundary : List ℕ → ℕ → ℤ → Boundary → Boundary
  | [], mbLen, sub, b => countEnd mbLen sub b
  | wc :: rest, mbLen, sub, b =>
    encodeBoundary rest (mbLen + (charBytes wc).length) sub (countDown mbLen sub b)

def growBoundary : Bytes → ℕ → ℤ → Boundary → Boundary
  | [], _, _, b => b
  | c :: rest, p, sub, b => growBoundary rest (p + 1) sub (if imeta c then growAt p sub b else b)

/-- The pairs of the metafied form of a byte string become bytes. -/
def shrinkBoundary : Bytes → ℕ → ℤ → Boundary → Boundary
  | [], _, _, b => b
  | c :: rest, p, sub, b =>
    if imeta c then shrinkBoundary rest (p + 2) sub (shrinkAt p sub b)
    else shrinkBoundary rest (p + 1) sub b

/-- Every character of a line is decoded from the bytes it was written as. -/
def decodeBoundary : List ℕ → ℕ → ℕ → ℤ → Boundary → Boundary
  | [], _, _, _, b => b
  | wc :: rest, offs, out, sub, b =>
    decodeBoundary rest (offs + (charBytes wc).length) (out + 1) sub
      (decodedAt offs (charBytes wc).length out sub b)

theorem encodeMarks_eq (line : List ℕ) (mbLen : ℕ) (m : Marks) :
    encodeMarks predisplaylen line mbLen m =
      m.turn predisplaylen (encodeBoundary line mbLen) := by
  induction line generalizing mbLen m with
  | nil => rfl
  | cons wc rest ih =>
    rw [encodeMarks, ih, Marks.turn_turn]
    rfl

theorem growMarks_eq (bytes : Bytes) (p : ℕ) (m : Marks) :
    growMarks predisplaylen bytes p m = m.turn predisplaylen (growBoundary bytes p) := by
  induction bytes generalizing p m with
  | nil => exact (Marks.turn_id predisplaylen m).symm
  | cons c rest ih =>
    rw [growMarks, ih]
    cases hc : imeta c with
    | true =>
      rw [if_pos rfl, Marks.turn_turn]
      congr 1
      funext sub b
      rw [growBoundary, hc, if_pos rfl]
    | false =>
      congr 1
      funext sub b
      rw [growBoundary, hc, if_neg Bool.false_ne_true]

theorem shrinkMarks_metafied (bytes rest : Bytes) (p : ℕ) (m : Marks) :
    shrinkMarks predisplaylen (metafied bytes ++ 0 :: rest) p m =
      some (m.turn predisplaylen (shrinkBoundary bytes p)) := by
  induction bytes generalizing p m with
  | nil =>
    have hturn : m.turn predisplaylen (shrinkBoundary [] p) = m := Marks.turn_id predisplaylen m
    rw [hturn]
    cases rest <;> rfl
  | cons c bytes ih =>
    cases hc : imeta c with
    | true =>
      rw [metafied_cons_special hc, shrinkMarks, if_neg (by decide), if_pos rfl, ih,
        Marks.turn_turn]
      congr 2
      funext sub b
      rw [shrinkBoundary, hc, if_pos rfl]
    | false =>
      have hplain (rest : Bytes) (p : ℕ) (hrest : rest ≠ []) :
          shrinkMarks predisplaylen (c :: rest) p m = shrinkMarks predisplaylen rest (p + 1) m := by
        cases rest with
        | nil => exact absurd rfl hrest
        | cons d rest =>
          rw [shrinkMarks, if_neg (not_imeta_ne_zero hc), if_neg (not_imeta_ne_meta hc)]
      rw [metafied_cons_plain hc, hplain _ _ (by simp), ih]
      congr 2
      funext sub b
      rw [shrinkBoundary, hc, if_neg Bool.false_ne_true]

end Bsh.Zle
