import Bsh.Shell.NiceFormat
import Bsh.Shell.QuotedRound
import Bsh.Shell.SepSplit
import Bsh.Shell.SortKeys
import Bsh.Shell.SortOrder

/-!
# The keys of a sort

`strmetasort`: every string gets a key, which is a copy of it that is unmetafied, in lower case and
without backslashes, as far as the flags say so.  The copy is made in one buffer, whose size comes
from the string as it is given, and its steps work in place from the second one on.  A step that
writes or reads outside of the buffer has no result, and neither has a key without a null byte at
its end.
-/

namespace Bsh.Shell

open Bsh.Library List

/-! ## Flags and environment -/

/-- The `SORTIT_` flags. -/
structure SortWhat where
  ignoringCase : Bool
  ignoringBackslashes : Bool
  backwards : Bool
  numerically : Bool
  numericallySigned : Bool

/-- `sortdir` and `sortnumeric` while the array is sorted; `sortnobslash` is not set. -/
def SortWhat.flags (sortwhat : SortWhat) : SortFlags where
  backwards := sortwhat.backwards
  sortnumeric :=
    if sortwhat.numericallySigned then .signed
    else if sortwhat.numerically then .numeric
    else .off
  sortnobslash := false

/-- The character set, `tulower`, and `wcrtomb` of `towlower`. -/
structure LowerEnv where
  charset : Charset
  multibyte : Bool
  tulower : UInt8 → UInt8
  wideLower : ℕ → Option Bytes
  tulower_ne : ∀ c, c ≠ 0 → tulower c ≠ 0
  tulower_zero : tulower 0 = 0
  wideLower_ne : ∀ wc text, wideLower wc = some text → 0 ∉ text

/-! ## The buffer -/

/-- Bytes are written from a place on. -/
def putBytes (mem : Bytes) (t : ℕ) (text : Bytes) : Option Bytes :=
  if t + text.length ≤ mem.length then
    some (mem.take t ++ text ++ mem.drop (t + text.length))
  else none

/-- Where a step reads from: another string, or the buffer itself. -/
inductive KeySource where
  | separate (src : Bytes)
  | inPlace

def KeySource.bytes (mem : Bytes) : KeySource → Bytes
  | .separate src => src
  | .inPlace => mem

/-! ## The steps -/

/-- Single bytes in lower case, and where the text ends. -/
def lowerSingles (env : LowerEnv) (src : KeySource) (send : ℕ) :
    ℕ → ℕ → ℕ → Bytes → Option (Bytes × ℕ)
  | 0, _, _, _ => none
  | turns + 1, s, t, mem =>
    if s < send then
      match (src.bytes mem)[s]? with
      | none => none
      | some c =>
        (putBytes mem t [env.tulower c]).bind fun mem ↦
          lowerSingles env src send turns (s + 1) (t + 1) mem
    else some (mem, t)

/-- Wide characters in lower case, and where the text ends.  A character that is not converted back
takes the byte in front of it. -/
def lowerWide (env : LowerEnv) (src : KeySource) (send : ℕ) :
    ℕ → ℕ → ℕ → env.charset.State → Bytes → Option (Bytes × ℕ)
  | 0, _, _, _, _ => none
  | turns + 1, s, t, mbsin, mem =>
    if s < send then
      match env.charset.convert 0 (((src.bytes mem).take send).drop s) mbsin with
      | .invalid => lowerSingles env src send (send + 1) s t mem
      | .incomplete => lowerSingles env src send (send + 1) s t mem
      | .char clen wc mbsin =>
        if wc = 0 then
          (putBytes mem t [0]).bind fun mem ↦
            lowerWide env src send turns (s + 1) (t + 1) mbsin mem
        else
          match env.wideLower wc with
          | some text =>
            (putBytes mem t text).bind fun mem ↦
              lowerWide env src send turns (s + clen) (t + text.length) mbsin mem
          | none =>
            if t = 0 then none else lowerWide env src send turns (s + clen) (t - 1) mbsin mem
    else some (mem, t)

/-- The copy without backslashes, and the length. -/
def dropBackslashes (src : KeySource) (fin : ℕ) :
    ℕ → ℕ → ℕ → ℕ → Bytes → Option (Bytes × ℕ)
  | 0, _, _, _, _ => none
  | turns + 1, s, t, len, mem =>
    if s < fin then
      let escaped := (src.bytes mem)[s]? = some (char '\\')
      let s := if escaped then s + 1 else s
      let len := if escaped then len - 1 else len
      match (src.bytes mem)[s]? with
      | none => none
      | some c =>
        (putBytes mem t [c]).bind fun mem ↦ dropBackslashes src fin turns (s + 1) (t + 1) len mem
    else some (mem, len)

/-! ## A key -/

/-- The length of a string up to its first null byte. -/
def strlen (s : Bytes) : ℕ := (s.takeWhile (· ≠ 0)).length

/-- A string of the array, without its null byte at the end, is metafied, or unmetafied and its
length is given. -/
inductive SortForm where
  | metafied | unmetafied
  deriving DecidableEq

/-- What a string stands for. -/
def SortForm.content (form : SortForm) (s : Bytes) : Bytes :=
  match form with
  | .metafied => unmetafiedText s
  | .unmetafied => s

/-- The element for a key: its text ends at the recorded length, or at the first null byte. -/
def endedKey (mem : Bytes) (needlen : Bool) (len : ℕ) : Option SortElt :=
  if h : needlen = true then
    if mem[len]? = some 0 then
      some { cmp := mem.take len, recorded := true, plain := fun h ↦ by cases h }
    else none
  else if 0 ∈ mem then
    some
      { cmp := mem.takeWhile (· ≠ 0)
        recorded := false
        plain := fun _ hzero ↦ by
          have hne := List.all_eq_true.mp all_takeWhile 0 hzero
          exact absurd hne (by decide) }
  else none

/-- Whether there are null bytes within: a null byte stands in front of the given length, or one
turns up when the string is unmetafied. -/
def needLen (form : SortForm) (s : Bytes) (unmetalen : ℕ) : Bool :=
  match form with
  | .metafied => (unmetafiedText s).contains 0
  | .unmetafied => strlen s ≠ unmetalen

/-- The buffer before the first step that changes characters, where that step reads, and the
length. -/
def keyStart (form : SortForm) (s : Bytes) (unmetalen : ℕ) (area : Bytes) :
    Option (Bytes × KeySource × ℕ) :=
  match form with
  | .metafied =>
    if metaByte ∈ s then
      (putBytes area 0 (unmetafiedText s ++ [0])).map fun mem ↦
        (mem, .inPlace, (unmetafiedText s).length)
    else some (area, .separate (s ++ [0]), s.length)
  | .unmetafied => some (area, .separate (s ++ [0]), unmetalen)

/-- Lower case. -/
def lowerKey (env : LowerEnv) (src : KeySource) (mem : Bytes) (len : ℕ) : Option (Bytes × ℕ) :=
  if env.multibyte then
    (lowerWide env src len (len + 1) 0 0 env.charset.initial mem).bind fun (mem, t) ↦
      (putBytes mem t [0]).map fun mem ↦ (mem, t)
  else (lowerSingles env src len (len + 1) 0 0 mem).map fun (mem, _) ↦ (mem, len)

/-- The buffer and the length of a key that is a copy. -/
def keyBuffer (env : LowerEnv) (sortwhat : SortWhat) (form : SortForm) (s : Bytes)
    (unmetalen : ℕ) (area : Bytes) : Option (Bytes × ℕ) :=
  (keyStart form s unmetalen area).bind fun (mem, src, len) ↦
    (if sortwhat.ignoringCase then
      (lowerKey env src mem len).map fun (mem, len) ↦ (mem, KeySource.inPlace, len)
    else some (mem, src, len)).bind fun (mem, src, len) ↦
      if sortwhat.ignoringBackslashes then
        dropBackslashes src (len + 1) (len + 2) 0 0 len mem
      else some (mem, len)

/-- The size of the buffer. -/
def keyRoom (sortwhat : SortWhat) (s : Bytes) : ℕ :=
  (if sortwhat.ignoringCase then 2 else 1) * strlen s + 1

/-- Whether a string gets a copy. -/
def needsCopy (sortwhat : SortWhat) (form : SortForm) (s : Bytes) : Bool :=
  sortwhat.ignoringCase || sortwhat.ignoringBackslashes ||
    (form = .metafied && s.contains metaByte)

/-- The key of a string; `fresh` is what is in the memory for the buffer. -/
def sortKey (env : LowerEnv) (fresh : ℕ → Bytes) (sortwhat : SortWhat) (form : SortForm)
    (s : Bytes) (unmetalen : ℕ) : Option SortElt :=
  if needsCopy sortwhat form s then
    (keyBuffer env sortwhat form s unmetalen (fresh (keyRoom sortwhat s))).bind fun (mem, len) ↦
      endedKey mem (needLen form s unmetalen) len
  else endedKey (s ++ [0]) (needLen form s unmetalen) unmetalen

/-! ## The array -/

/-- An element with the string and the length that it stands for. -/
structure SortItem where
  orig : Bytes
  origlen : ℕ
  elt : SortElt

/-- The element of a string of the array. -/
def sortItem (env : LowerEnv) (fresh : ℕ → Bytes) (sortwhat : SortWhat) (form : SortForm)
    (entry : Bytes × ℕ) : Option SortItem :=
  (sortKey env fresh sortwhat form entry.1 entry.2).map fun elt ↦ ⟨entry.1, entry.2, elt⟩

/-- The elements of the array; `fresh` is what is in the memory for each string. -/
def sortItems (env : LowerEnv) (fresh : ℕ → ℕ → Bytes) (sortwhat : SortWhat) (form : SortForm) :
    ℕ → List (Bytes × ℕ) → Option (List SortItem)
  | _, [] => some []
  | i, entry :: array =>
    (sortItem env (fresh i) sortwhat form entry).bind fun item ↦
      (sortItems env fresh sortwhat form (i + 1) array).map (item :: ·)

/-- `strmetasort` of strings with their lengths; the lengths of metafied strings are not used. -/
def strmetasort (env : LowerEnv) (fresh : ℕ → ℕ → Bytes) (qsort : QSort SortItem)
    (sortwhat : SortWhat) (form : SortForm) (array : List (Bytes × ℕ)) :
    Option (List (Bytes × ℕ)) :=
  if array.length < 2 then some array
  else
    (sortItems env fresh sortwhat form 0 array).map fun items ↦
      (qsort.sort (fun a b ↦ eltpcmp sortwhat.flags a.elt b.elt) items).map fun item ↦
        (item.orig, item.origlen)

end Bsh.Shell

/-!
# The order of a sorted array

When the key of every string fits its buffer, `strmetasort` leaves a permutation of the strings with
their lengths, in the order of the strings as they are compared: unmetafied, in lower case and
without backslashes.  In lower case a key fits when no character takes more room than the string
gives it, which in place is the room of the characters up to it.
-/

namespace Bsh.Shell

open Bsh.Library List

/-! ## What a key should be -/

/-- The characters of a text in lower case, each with the number of bytes that it had. -/
def lowerPieces (env : LowerEnv) : ℕ → Bytes → env.charset.State → List (ℕ × Option Bytes)
  | 0, _, _ => []
  | _ + 1, [], _ => []
  | turns + 1, c :: b, st =>
    match env.charset.convert 0 (c :: b) st with
    | .invalid => (c :: b).map fun c ↦ (1, some [env.tulower c])
    | .incomplete => (c :: b).map fun c ↦ (1, some [env.tulower c])
    | .char cnt wc st =>
      if wc = 0 then (1, some [0]) :: lowerPieces env turns b st
      else (cnt, env.wideLower wc) :: lowerPieces env turns ((c :: b).drop cnt) st

def LowerEnv.pieces (env : LowerEnv) (b : Bytes) : List (ℕ × Option Bytes) :=
  if env.multibyte then lowerPieces env b.length b env.charset.initial
  else b.map fun c ↦ (1, some [env.tulower c])

/-- The text of the pieces. -/
def piecesText (ps : List (ℕ × Option Bytes)) : Bytes := ps.flatMap fun p ↦ p.2.getD []

/-- All characters can be written in lower case. -/
def Converts (ps : List (ℕ × Option Bytes)) : Prop := ∀ p ∈ ps, p.2 ≠ none

/-- No piece takes more than the room that it and the pieces in front of it leave. -/
def NeverGrows : ℕ → List (ℕ × Option Bytes) → Prop
  | _, [] => True
  | gap, (cnt, text) :: ps =>
    (text.getD []).length ≤ gap + cnt ∧ NeverGrows (gap + cnt - (text.getD []).length) ps

/-- The text that a string is compared by. -/
def sortText (env : LowerEnv) (sortwhat : SortWhat) (form : SortForm) (s : Bytes) : Bytes :=
  let b := form.content s
  let b := if sortwhat.ignoringCase then piecesText (env.pieces b) else b
  if sortwhat.ignoringBackslashes then withoutBackslashes b else b

/-- The element for a text. -/
def SortElt.ofText (text : Bytes) : SortElt where
  cmp := text
  recorded := text.contains 0
  plain h hzero := by
    rw [List.contains_iff_mem.mpr hzero] at h
    cases h

/-- When the key of a string fits the buffer.  A string with `Meta` is changed in place. -/
structure KeyFits (env : LowerEnv) (sortwhat : SortWhat) (form : SortForm) (s : Bytes) : Prop where
  lower : sortwhat.ignoringCase = true →
    Converts (env.pieces (form.content s)) ∧
      if form = .metafied ∧ metaByte ∈ s then NeverGrows 0 (env.pieces (form.content s))
      else
        env.multibyte = true ∧ (piecesText (env.pieces (form.content s))).length ≤ 2 * strlen s
  backslashes : sortwhat.ignoringCase = false → sortwhat.ignoringBackslashes = true →
    form = .unmetafied → (withoutBackslashes s).length ≤ strlen s

/-! ## Writing to the buffer -/

/-- What a step still has to read. -/
def KeyReads (src : KeySource) (mem : Bytes) (send s : ℕ) (b : Bytes) : Prop :=
  send ≤ (src.bytes mem).length ∧ ((src.bytes mem).take send).drop s = b

variable {form : SortForm} {mem s : Bytes} {ps : List (ℕ × Option Bytes)}
  {send turns unmetalen : ℕ} {src : KeySource} (env : LowerEnv) (text b rest : Bytes)

theorem putBytes_append (bytes : Bytes) (hroom : bytes.length ≤ rest.length) :
    putBytes (text ++ rest) text.length bytes =
      some (text ++ bytes ++ rest.drop bytes.length) := by
  have hfits : text.length + bytes.length ≤ (text ++ rest).length := by
    rw [length_append]
    exact Nat.add_le_add_left hroom _
  rw [putBytes, if_pos hfits, take_left, ← drop_drop, drop_left]

namespace KeyReads

variable {src : KeySource} {mem : Bytes} {send s : ℕ} {b : Bytes}

theorem lt_iff (h : KeyReads src mem send s b) : s < send ↔ b ≠ [] := by
  rw [← h.2, Ne, drop_eq_nil_iff, length_take, Nat.min_eq_left h.1, not_le]

theorem head {c : UInt8} (h : KeyReads src mem send s (c :: b)) : (src.bytes mem)[s]? = some c := by
  have hless := h.lt_iff.mpr (cons_ne_nil c b)
  have hget : (((src.bytes mem).take send).drop s)[0]? = some c := by
    rw [h.2]
    rfl
  rw [List.getElem?_drop, Nat.add_zero, List.getElem?_take_of_lt hless] at hget
  exact hget

theorem drop (h : KeyReads src mem send s b) (cnt : ℕ) : KeyReads src mem send (s + cnt) (b.drop cnt) := by
  refine ⟨h.1, ?_⟩
  rw [← h.2, drop_drop]

/-- A write in front of what is read next does no harm. -/
theorem put {text rest bytes : Bytes} {cnt : ℕ} (h : KeyReads src (text ++ rest) send s b)
    (hroom : bytes.length ≤ rest.length)
    (hplace : src = .inPlace → text.length + bytes.length ≤ s + cnt) :
    KeyReads src (text ++ bytes ++ rest.drop bytes.length) send (s + cnt) (b.drop cnt) := by
  have hbehind := h.drop cnt
  cases src with
  | separate src => exact hbehind
  | inPlace =>
    have hlength : (text ++ bytes ++ rest.drop bytes.length).length = (text ++ rest).length := by
      rw [length_append, length_append, length_append, length_drop]
      omega
    obtain ⟨k, hk⟩ := Nat.exists_eq_add_of_le (hplace rfl)
    have hsame : (text ++ bytes ++ rest.drop bytes.length).drop (s + cnt) =
        (text ++ rest).drop (s + cnt) := by
      have hfront : text.length + bytes.length = (text ++ bytes).length := List.length_append.symm
      have hnew : (text ++ bytes ++ rest.drop bytes.length).drop (s + cnt) =
          (rest.drop bytes.length).drop k := by
        rw [hk, hfront, ← drop_drop, drop_left]
      have hold : (text ++ rest).drop (s + cnt) = (rest.drop bytes.length).drop k := by
        rw [hk, ← drop_drop, ← drop_drop, drop_left]
      rw [hnew, hold]
    refine ⟨hlength ▸ hbehind.1, ?_⟩
    rw [← hbehind.2]
    change List.drop _ (List.take _ (text ++ bytes ++ _)) = List.drop _ (List.take _ (text ++ rest))
    rw [drop_take, drop_take, hsame]

end KeyReads

/-- The buffer with a text behind another one, and where it ends. -/
def written (text more rest : Bytes) : Bytes × ℕ :=
  (text ++ more ++ rest.drop more.length, (text ++ more).length)

theorem written_append (bytes more rest : Bytes) :
    written (text ++ bytes) more (rest.drop bytes.length) = written text (bytes ++ more) rest := by
  rw [written, written, drop_drop, ← length_append, append_assoc text]

theorem written_nil : written text [] rest = (text ++ rest, text.length) := by
  rw [written, append_nil]
  rfl

/-! ## Lower case -/

theorem lowerSingles_spec {s : ℕ}
    {text rest b : Bytes} (hreads : KeyReads src (text ++ rest) send s b) (hturns : b.length < turns)
    (hroom : b.length ≤ rest.length) (hplace : src = .inPlace → text.length ≤ s) :
    lowerSingles env src send turns s text.length (text ++ rest) =
      some (written text (b.map env.tulower) rest) := by
  induction turns generalizing s text rest b with
  | zero => exact absurd hturns (Nat.not_lt_zero _)
  | succ turns ih =>
    rw [lowerSingles]
    cases b with
    | nil =>
      rw [if_neg fun hless ↦ hreads.lt_iff.mp hless rfl, map_nil, written_nil]
    | cons c b =>
      rw [length_cons] at hturns hroom
      have hone : [env.tulower c].length ≤ rest.length := Nat.le_trans (Nat.le_add_left 1 _) hroom
      have hend : text.length + 1 = (text ++ [env.tulower c]).length := by
        rw [length_append, length_singleton]
      have hleft : b.length ≤ (rest.drop [env.tulower c].length).length := by
        rw [length_drop, length_singleton]
        omega
      have hrest := ih (hreads.put hone fun hsrc ↦ Nat.add_le_add_right (hplace hsrc) 1)
        (Nat.lt_of_succ_lt_succ hturns) hleft
        (fun hsrc ↦ hend ▸ Nat.add_le_add_right (hplace hsrc) 1)
      rw [if_pos (hreads.lt_iff.mpr (cons_ne_nil c b)), hreads.head]
      dsimp only
      rw [putBytes_append _ _ _ hone, Option.bind_some, hend, hrest, written_append]
      rfl

theorem piecesText_singles :
    piecesText (b.map fun c ↦ (1, some [env.tulower c])) = b.map env.tulower := by
  induction b with
  | nil => rfl
  | cons c b ih => exact congrArg _ ih

theorem lowerPieces_nil (turns : ℕ) (st : env.charset.State) :
    lowerPieces env turns [] st = [] := by
  cases turns with
  | zero => rfl
  | succ turns => rfl

theorem converts_cons {p : ℕ × Option Bytes} :
    Converts (p :: ps) ↔ p.2 ≠ none ∧ Converts ps := forall_mem_cons

theorem piecesText_cons (cnt : ℕ) (text : Bytes) (ps : List (ℕ × Option Bytes)) :
    piecesText ((cnt, some text) :: ps) = text ++ piecesText ps := rfl

/-- What a step asks of a key in lower case. -/
structure LowerFits (src : KeySource) (s : ℕ) (text rest : Bytes) (ps : List (ℕ × Option Bytes)) :
    Prop where
  converts : Converts ps
  room : (piecesText ps).length ≤ rest.length
  place : src = .inPlace → text.length ≤ s ∧ NeverGrows (s - text.length) ps

theorem LowerFits.next {s cnt : ℕ} {text rest bytes : Bytes} (h : LowerFits src s text rest ((cnt, some bytes) :: ps)) :
    LowerFits src (s + cnt) (text ++ bytes) (rest.drop bytes.length) ps where
  converts := (converts_cons.mp h.converts).2
  room := by
    have hroom := h.room
    rw [piecesText_cons, length_append] at hroom
    rw [length_drop]
    omega
  place hsrc := by
    obtain ⟨hle, hhere, hlater⟩ := h.place hsrc
    rw [Option.getD_some] at hhere hlater
    have hgap : s - text.length + cnt - bytes.length = s + cnt - (text ++ bytes).length := by
      rw [length_append]
      omega
    rw [hgap] at hlater
    refine ⟨?_, hlater⟩
    rw [length_append]
    omega

theorem LowerFits.here {s cnt : ℕ} {text rest bytes : Bytes} (h : LowerFits src s text rest ((cnt, some bytes) :: ps)) :
    bytes.length ≤ rest.length ∧ (src = .inPlace → text.length + bytes.length ≤ s + cnt) := by
  constructor
  · have hroom := h.room
    rw [piecesText_cons, length_append] at hroom
    omega
  · intro hsrc
    obtain ⟨hle, hhere, _⟩ := h.place hsrc
    rw [Option.getD_some] at hhere
    omega

theorem KeyReads.length {s : ℕ} {b : Bytes}
    (h : KeyReads src mem send s b) : b.length ≤ send := by
  rw [← h.2, length_drop, length_take]
  omega

theorem lowerWide_spec {pieces s : ℕ}
    {text rest b : Bytes} {st : env.charset.State} (hreads : KeyReads src (text ++ rest) send s b)
    (hpieces : b.length ≤ pieces) (hturns : b.length < turns)
    (hfits : LowerFits src s text rest (lowerPieces env pieces b st)) :
    lowerWide env src send turns s text.length st (text ++ rest) =
      some (written text (piecesText (lowerPieces env pieces b st)) rest) := by
  induction turns generalizing pieces s text rest b st with
  | zero => exact absurd hturns (Nat.not_lt_zero _)
  | succ turns ih =>
    rw [lowerWide]
    cases b with
    | nil =>
      rw [if_neg fun hless ↦ hreads.lt_iff.mp hless rfl, lowerPieces_nil]
      exact congrArg some (written_nil text rest).symm
    | cons c b =>
      obtain ⟨pieces, rfl⟩ : ∃ n, pieces = n + 1 := by
        rw [length_cons] at hpieces
        exact ⟨pieces - 1, by omega⟩
      rw [length_cons] at hturns hpieces
      -- The bytes of a string that is not converted any more.
      have hsingles (hps : lowerPieces env (pieces + 1) (c :: b) st =
            (c :: b).map fun c ↦ (1, some [env.tulower c])) :
          lowerSingles env src send (send + 1) s text.length (text ++ rest) =
            some (written text (piecesText (lowerPieces env (pieces + 1) (c :: b) st)) rest) := by
        have hroom := hfits.room
        rw [hps, piecesText_singles] at hroom ⊢
        rw [length_map] at hroom
        exact lowerSingles_spec env hreads (Nat.lt_succ_of_le hreads.length) hroom
          fun hsrc ↦ (hfits.place hsrc).1
      -- One character, and what is behind it.
      have hchar {cnt left : ℕ} {bytes : Bytes} {st' : env.charset.State} (hcnt : 1 ≤ cnt)
          (hleft : (c :: b).length ≤ left + 1)
          (hps : lowerPieces env (pieces + 1) (c :: b) st =
            (cnt, some bytes) :: lowerPieces env left ((c :: b).drop cnt) st') :
          ((putBytes (text ++ rest) text.length bytes).bind fun mem ↦
              lowerWide env src send turns (s + cnt) (text.length + bytes.length) st' mem) =
            some (written text (piecesText (lowerPieces env (pieces + 1) (c :: b) st)) rest) := by
        rw [hps] at hfits ⊢
        obtain ⟨hroom, hplace⟩ := hfits.here
        have hshort : ((c :: b).drop cnt).length ≤ b.length := by
          rw [length_drop, length_cons]
          omega
        rw [length_cons] at hleft
        have hrest := ih (hreads.put hroom hplace) (by omega) (by omega) hfits.next
        rw [putBytes_append _ _ _ hroom, Option.bind_some, ← length_append, hrest,
          written_append, piecesText_cons]
      rw [if_pos (hreads.lt_iff.mpr (cons_ne_nil c b)), hreads.2]
      cases hconvert : env.charset.convert 0 (c :: b) st with
      | invalid =>
        apply hsingles
        rw [lowerPieces, hconvert]
      | incomplete =>
        apply hsingles
        rw [lowerPieces, hconvert]
      | char cnt wc st' =>
        have hcases := convert_char hconvert fun h ↦ absurd rfl h
        have hcnt : 1 ≤ cnt := by
          obtain ⟨_, _, _, _, _, _, hone⟩ | ⟨_, hmore, _, _⟩ := hcases
          · omega
          · exact hmore
        dsimp only
        by_cases hzero : wc = 0
        · rw [if_pos hzero]
          have hps : lowerPieces env (pieces + 1) (c :: b) st =
              (1, some [0]) :: lowerPieces env pieces ((c :: b).drop 1) st' := by
            rw [lowerPieces, hconvert]
            dsimp only
            rw [if_pos hzero, drop_one, tail_cons]
          exact hchar (Nat.le_refl 1) hpieces hps
        · rw [if_neg hzero]
          have hps : lowerPieces env (pieces + 1) (c :: b) st =
              (cnt, env.wideLower wc) :: lowerPieces env pieces ((c :: b).drop cnt) st' := by
            rw [lowerPieces, hconvert]
            dsimp only
            rw [if_neg hzero]
          cases hwide : env.wideLower wc with
          | none =>
            have hconverts := hfits.converts
            rw [hps, converts_cons] at hconverts
            exact absurd hwide hconverts.1
          | some bytes =>
            rw [hwide] at hps
            exact hchar hcnt hpieces hps

/-! ## Backslashes -/

theorem withoutBackslashes_length (l : Bytes) : (withoutBackslashes l).length ≤ l.length := by
  induction l using withoutBackslashes.induct with
  | case1 => exact Nat.le_refl 0
  | case2 => exact Nat.zero_le 1
  | case3 c hc =>
    rw [withoutBackslashes, if_neg hc]
  | case4 c l ih =>
    rw [withoutBackslashes, if_pos rfl, length_cons, length_cons, length_cons]
    omega
  | case5 c d l hc ih =>
    rw [withoutBackslashes, if_neg hc, length_cons, length_cons]
    omega

theorem withoutBackslashes_end :
    withoutBackslashes (b ++ [0]) = withoutBackslashes b ++ [0] := by
  induction b using withoutBackslashes.induct with
  | case1 => rfl
  | case2 => rfl
  | case3 c hc =>
    change withoutBackslashes [c, 0] = _
    rw [withoutBackslashes, withoutBackslashes, if_neg hc, if_neg hc]
    rfl
  | case4 c l ih =>
    change withoutBackslashes (_ :: c :: (l ++ [0])) = _
    rw [withoutBackslashes, withoutBackslashes, if_pos rfl, if_pos rfl, ih]
    rfl
  | case5 c d l hc ih =>
    change withoutBackslashes (c :: d :: (l ++ [0])) = _
    rw [withoutBackslashes, withoutBackslashes, if_neg hc, if_neg hc]
    exact congrArg (c :: ·) ih

theorem dropBackslashes_spec {fin s len : ℕ} {text rest l : Bytes}
    (hreads : KeyReads src (text ++ rest) fin s l) (hturns : l.length < turns)
    (hlast : l.getLast? ≠ some (char '\\')) (hlen : l.length ≤ len + 1)
    (hroom : (withoutBackslashes l).length ≤ rest.length)
    (hplace : src = .inPlace → text.length ≤ s) :
    dropBackslashes src fin turns s text.length len (text ++ rest) =
      some ((written text (withoutBackslashes l) rest).1,
        len - (l.length - (withoutBackslashes l).length)) := by
  induction turns generalizing s len text rest l with
  | zero => exact absurd hturns (Nat.not_lt_zero _)
  | succ turns ih =>
    rw [dropBackslashes]
    cases l with
    | nil =>
      rw [if_neg fun hless ↦ hreads.lt_iff.mp hless rfl]
      exact congrArg (fun mem : Bytes × ℕ ↦ some (mem.1, len)) (written_nil text rest).symm
    | cons c l =>
      rw [if_pos (hreads.lt_iff.mpr (cons_ne_nil c l)), hreads.head]
      -- A character is written, and the rest is copied.
      have hput {cnt len' : ℕ} {d : UInt8} (hcnt : 1 ≤ cnt) (hle : cnt ≤ (c :: l).length)
          (hwithout : withoutBackslashes (c :: l) = d :: withoutBackslashes ((c :: l).drop cnt))
          (hlen' : len' + (cnt - 1) = len) :
          ((putBytes (text ++ rest) text.length [d]).bind fun mem ↦
              dropBackslashes src fin turns (s + cnt) (text.length + 1) len' mem) =
            some ((written text (withoutBackslashes (c :: l)) rest).1,
              len - ((c :: l).length - (withoutBackslashes (c :: l)).length)) := by
        have hone : [d].length ≤ rest.length := by
          rw [hwithout, length_cons] at hroom
          exact Nat.le_trans (Nat.le_add_left 1 _) hroom
        have hend : text.length + 1 = (text ++ [d]).length := by
          rw [length_append, length_singleton]
        have hshort : ((c :: l).drop cnt).length + cnt = (c :: l).length := by
          rw [length_drop]
          exact Nat.sub_add_cancel hle
        have hless := withoutBackslashes_length ((c :: l).drop cnt)
        have hlast' : ((c :: l).drop cnt).getLast? ≠ some (char '\\') := by
          rw [List.getLast?_drop]
          split
          · exact (Option.some_ne_none _).symm
          · exact hlast
        have hrest := ih (hreads.put hone fun hsrc ↦ Nat.add_le_add (hplace hsrc) hcnt) (by omega)
          hlast' (by omega : ((c :: l).drop cnt).length ≤ len' + 1)
          (by
            rw [hwithout, length_cons] at hroom
            rw [length_drop, length_singleton]
            omega)
          (fun hsrc ↦ hend ▸ Nat.add_le_add (hplace hsrc) hcnt)
        have hlength : len' - (((c :: l).drop cnt).length -
              (withoutBackslashes ((c :: l).drop cnt)).length) =
            len - ((c :: l).length - (withoutBackslashes (c :: l)).length) := by
          rw [hwithout, length_cons (a := d)]
          omega
        rw [putBytes_append _ _ _ hone, Option.bind_some, hend, hrest, written_append, hlength,
          hwithout]
        rfl
      by_cases hescaped : c = char '\\'
      · cases l with
        | nil => exact absurd (congrArg some hescaped) hlast
        | cons d l =>
          have hnext := (hreads.drop 1).head
          dsimp only
          rw [if_pos (congrArg some hescaped), if_pos (congrArg some hescaped), hnext]
          refine hput (Nat.le_succ 1) (Nat.le_add_left 2 l.length) ?_ ?_
          · rw [withoutBackslashes, if_pos hescaped]
            rfl
          · rw [length_cons, length_cons] at hlen
            omega
      · dsimp only
        rw [if_neg fun h ↦ hescaped (Option.some.inj h), if_neg fun h ↦ hescaped (Option.some.inj h),
          hreads.head]
        refine hput Nat.one_pos (Nat.le_add_left 1 l.length) ?_ rfl
        rw [drop_one, tail_cons]
        cases l with
        | nil => exact if_neg hescaped
        | cons d l => rw [withoutBackslashes, if_neg hescaped]

/-! ## Lengths and null bytes -/

theorem strlen_of_not_mem (hs : 0 ∉ s) : strlen s = s.length := by
  rw [strlen]
  induction s with
  | nil => rfl
  | cons c s ih =>
    rw [mem_cons, not_or] at hs
    rw [takeWhile_cons, if_pos (decide_eq_true (Ne.symm hs.1)), length_cons, ih hs.2,
      length_cons]

theorem metaText_strlen (hs : MetaText s) : strlen s = s.length :=
  strlen_of_not_mem hs.zero_not_mem

theorem unmetafiedText_length (hs : MetaText s) :
    (unmetafiedText s).length ≤ s.length := by
  induction hs with
  | nil => exact Nat.le_refl 0
  | byte hc _ ih =>
    rw [unmetafiedText_byte hc.2.1]
    exact Nat.succ_le_succ ih
  | pair _ _ ih =>
    exact Nat.succ_le_succ (Nat.le_succ_of_le ih)

theorem unmetafiedText_self (hs : metaByte ∉ s) : unmetafiedText s = s := by
  induction s with
  | nil => rfl
  | cons c s ih =>
    rw [mem_cons, not_or] at hs
    rw [unmetafiedText_byte (Ne.symm hs.1), ih hs.2]

theorem strlen_ne_iff (s : Bytes) : strlen s ≠ s.length ↔ 0 ∈ s := by
  have hbegins : s.takeWhile (· ≠ 0) <+: s := takeWhile_prefix _
  constructor
  · intro hne
    by_contra hzero
    exact hne (strlen_of_not_mem hzero)
  · intro hzero heq
    rw [hbegins.eq_of_length heq |>.symm] at hzero
    have hne := List.all_eq_true.mp all_takeWhile 0 hzero
    exact absurd hne (by decide)

theorem zero_mem_withoutBackslashes (l : Bytes) : 0 ∈ withoutBackslashes l ↔ 0 ∈ l := by
  have hbackslash : (0 : UInt8) ≠ char '\\' := by decide
  induction l using withoutBackslashes.induct with
  | case1 => exact Iff.rfl
  | case2 => exact iff_of_false not_mem_nil (by simp [hbackslash])
  | case3 c hc => rw [withoutBackslashes, if_neg hc]
  | case4 c l ih =>
    have hrest : 0 ∈ withoutBackslashes l ↔ 0 ∈ l := ih
    rw [withoutBackslashes, if_pos rfl, mem_cons, mem_cons, mem_cons, hrest,
      or_iff_right hbackslash]
  | case5 c d l hc ih =>
    have hrest : 0 ∈ withoutBackslashes (d :: l) ↔ 0 ∈ d :: l := ih
    rw [withoutBackslashes, if_neg hc, mem_cons, mem_cons, hrest]

theorem zero_mem_singles : 0 ∈ b.map env.tulower ↔ 0 ∈ b := by
  rw [mem_map]
  constructor
  · rintro ⟨c, hc, hzero⟩
    by_contra hb
    refine env.tulower_ne c ?_ hzero
    rintro rfl
    exact hb hc
  · exact fun hb ↦ ⟨0, hb, env.tulower_zero⟩

theorem zero_mem_lowerPieces {b : Bytes} (hturns : b.length ≤ turns)
    (st : env.charset.State) : 0 ∈ piecesText (lowerPieces env turns b st) ↔ 0 ∈ b := by
  induction turns generalizing b st with
  | zero =>
    rw [eq_nil_of_length_eq_zero (Nat.le_zero.mp hturns)]
    exact Iff.rfl
  | succ turns ih =>
    cases b with
    | nil => exact Iff.rfl
    | cons c b =>
      rw [length_cons] at hturns
      rw [lowerPieces]
      cases hconvert : env.charset.convert 0 (c :: b) st with
      | invalid =>
        rw [piecesText_singles, zero_mem_singles]
      | incomplete =>
        rw [piecesText_singles, zero_mem_singles]
      | char cnt wc st' =>
        have hcases := convert_char hconvert fun h ↦ absurd rfl h
        dsimp only
        by_cases hzero : wc = 0
        · have hc : c = 0 := by
            obtain ⟨_, d, rest, hs, _, hwc, _⟩ | ⟨hwc, _⟩ := hcases
            · cases hs
              exact UInt8.toNat_inj.mp (hwc.symm.trans hzero)
            · omega
          rw [if_pos hzero, hc]
          exact iff_of_true mem_cons_self mem_cons_self
        · have hfront : 0 ∉ (c :: b).take cnt := by
            intro hmem
            obtain ⟨_, d, rest, hs, _, hwc, hone⟩ | ⟨_, _, _, hhigh⟩ := hcases
            · cases hs
              rw [hone, take_succ_cons, take_zero, mem_singleton] at hmem
              rw [← hmem] at hwc
              exact hzero hwc
            · exact absurd (hhigh 0 hmem) (by decide)
          have hpiece : 0 ∉ (env.wideLower wc).getD [] := by
            cases hwide : env.wideLower wc with
            | none => exact not_mem_nil
            | some text => exact env.wideLower_ne wc text hwide
          have hrest : ((c :: b).drop cnt).length ≤ turns := by
            rw [length_drop, length_cons]
            omega
          rw [if_neg hzero]
          calc 0 ∈ (env.wideLower wc).getD [] ++
                  piecesText (lowerPieces env turns ((c :: b).drop cnt) st')
              ↔ 0 ∈ (c :: b).drop cnt := by
                rw [mem_append, or_iff_right hpiece, ih hrest]
            _ ↔ 0 ∈ (c :: b).take cnt ++ (c :: b).drop cnt := by
                rw [mem_append, or_iff_right hfront]
            _ ↔ 0 ∈ c :: b := by rw [List.take_append_drop]

theorem zero_mem_pieces : 0 ∈ piecesText (env.pieces b) ↔ 0 ∈ b := by
  rw [LowerEnv.pieces]
  split
  · exact zero_mem_lowerPieces env (Nat.le_refl _) _
  · rw [piecesText_singles, zero_mem_singles]

theorem zero_mem_sortText (sortwhat : SortWhat) (form : SortForm) (s : Bytes) :
    0 ∈ sortText env sortwhat form s ↔ 0 ∈ form.content s := by
  have hlower : (0 ∈ if sortwhat.ignoringCase then piecesText (env.pieces (form.content s))
      else form.content s) ↔ 0 ∈ form.content s := by
    split
    · exact zero_mem_pieces env _
    · exact Iff.rfl
  rw [sortText]
  split
  · rw [zero_mem_withoutBackslashes]
    exact hlower
  · exact hlower

theorem lowerPieces_length (turns : ℕ) (b : Bytes) (st : env.charset.State) :
    ((lowerPieces env turns b st).map Prod.fst).sum ≤ b.length := by
  have hsingles (b : Bytes) :
      ((b.map fun c ↦ ((1, some [env.tulower c]) : ℕ × Option Bytes)).map Prod.fst).sum ≤
        b.length := by
    induction b with
    | nil => exact Nat.le_refl 0
    | cons c b ih =>
      rw [map_cons, map_cons, sum_cons, length_cons]
      omega
  induction turns generalizing b st with
  | zero => exact Nat.zero_le _
  | succ turns ih =>
    cases b with
    | nil => exact Nat.le_refl 0
    | cons c b =>
      rw [lowerPieces]
      cases hconvert : env.charset.convert 0 (c :: b) st with
      | invalid => exact hsingles (c :: b)
      | incomplete => exact hsingles (c :: b)
      | char cnt wc st' =>
        have hcases := convert_char hconvert fun h ↦ absurd rfl h
        have hle : cnt ≤ (c :: b).length := by
          obtain ⟨_, _, _, _, _, _, hone⟩ | ⟨_, _, hle, _⟩ := hcases
          · rw [hone]
            exact Nat.le_add_left 1 _
          · omega
        dsimp only
        by_cases hzero : wc = 0
        · have hrest := ih b st'
          rw [if_pos hzero, map_cons, sum_cons, length_cons]
          omega
        · have hrest := ih ((c :: b).drop cnt) st'
          rw [length_drop] at hrest
          rw [if_neg hzero, map_cons, sum_cons]
          omega

theorem NeverGrows.length {gap : ℕ} (h : NeverGrows gap ps) :
    (piecesText ps).length ≤ gap + (ps.map Prod.fst).sum := by
  induction ps generalizing gap with
  | nil => exact Nat.zero_le _
  | cons p ps ih =>
    obtain ⟨cnt, text⟩ := p
    have hlater := ih h.2
    have hhere := h.1
    change ((text.getD []) ++ piecesText ps).length ≤ gap + (cnt + (ps.map Prod.fst).sum)
    rw [length_append]
    omega

/-! ## A key -/

/-- A step can read a text and the null byte behind it. -/
def Ready (src : KeySource) (mem b : Bytes) : Prop := KeyReads src mem (b.length + 1) 0 (b ++ [0])

theorem Ready.reads {b : Bytes} (h : Ready src mem b) :
    KeyReads src mem b.length 0 b := by
  refine ⟨Nat.le_of_succ_le h.1, ?_⟩
  have htake : (src.bytes mem).take (b.length + 1) = b ++ [0] := h.2
  have hsplit : (src.bytes mem).take b.length = b := by
    rw [← Nat.min_eq_left (Nat.le_succ b.length), ← take_take, htake, take_left]
  exact hsplit

theorem ready_inPlace : Ready .inPlace (b ++ 0 :: rest) b := by
  have hlength : b.length + 1 = (b ++ [0]).length := by
    rw [length_append, length_singleton]
  have hmem : b ++ 0 :: rest = (b ++ [0]) ++ rest := by
    rw [append_assoc]
    rfl
  constructor
  · change b.length + 1 ≤ (b ++ 0 :: rest).length
    rw [length_append, length_cons]
    omega
  · change (b ++ 0 :: rest).take (b.length + 1) = _
    rw [hlength, hmem, take_left]

theorem ready_separate (mem b : Bytes) : Ready (.separate (b ++ [0])) mem b := by
  have hlength : b.length + 1 = (b ++ [0]).length := by
    rw [length_append, length_singleton]
  constructor
  · exact Nat.le_of_eq hlength
  · change (b ++ [0]).take (b.length + 1) = _
    rw [hlength, take_length]

theorem exists_ended {b : Bytes} (h : Ready .inPlace mem b) :
    ∃ rest, mem = b ++ 0 :: rest := by
  have htake : mem.take (b.length + 1) = b ++ [0] := h.2
  refine ⟨mem.drop (b.length + 1), ?_⟩
  calc mem = mem.take (b.length + 1) ++ mem.drop (b.length + 1) := (List.take_append_drop ..).symm
    _ = b ++ 0 :: mem.drop (b.length + 1) := by
      rw [htake, append_assoc]
      rfl

theorem endedKey_eq :
    endedKey (text ++ 0 :: rest) (text.contains 0) text.length = some (.ofText text) := by
  rw [endedKey]
  by_cases hzero : text.contains 0 = true
  · have hend : (text ++ 0 :: rest)[text.length]? = some 0 := by
      rw [List.getElem?_append_right (Nat.le_refl _), Nat.sub_self]
      rfl
    rw [dif_pos hzero, if_pos hend]
    exact congrArg some (SortElt.ext (take_left) hzero.symm)
  · have hne : 0 ∉ text := fun h ↦ hzero (List.contains_iff_mem.mpr h)
    have hmem : 0 ∈ text ++ 0 :: rest := mem_append_right _ mem_cons_self
    rw [dif_neg hzero, if_pos hmem]
    refine congrArg some (SortElt.ext ?_ (Bool.eq_false_iff.mpr hzero).symm)
    change (text ++ 0 :: rest).takeWhile (· ≠ 0) = text
    rw [takeWhile_append_of_pos, takeWhile_cons, if_neg (by decide), append_nil]
    intro c hc
    rw [decide_eq_true_eq]
    rintro rfl
    exact hne hc

theorem lowerKey_spec {b : Bytes} (hready : Ready src mem b)
    (hfits : LowerFits src 0 [] mem (env.pieces b))
    (hroom : (piecesText (env.pieces b)).length + 1 ≤ mem.length)
    (hsingle : env.multibyte = false → src = .inPlace) : ∃ rest,
    lowerKey env src mem b.length =
      some (piecesText (env.pieces b) ++ 0 :: rest, (piecesText (env.pieces b)).length) := by
  rw [lowerKey]
  cases hmulti : env.multibyte with
  | true =>
    have hpieces : env.pieces b = lowerPieces env b.length b env.charset.initial := by
      rw [LowerEnv.pieces, if_pos hmulti]
    rw [hpieces] at hfits hroom ⊢
    have hwide := lowerWide_spec env hready.reads (Nat.le_refl _) (Nat.lt_succ_self _) hfits
    have hzero : [(0 : UInt8)].length ≤
        (mem.drop (piecesText (lowerPieces env b.length b env.charset.initial)).length).length := by
      rw [length_drop, length_singleton]
      omega
    refine ⟨(mem.drop (piecesText (lowerPieces env b.length b env.charset.initial)).length).drop 1,
      ?_⟩
    change (lowerWide env src b.length (b.length + 1) 0 ([] : Bytes).length _ ([] ++ mem)).bind _ = _
    rw [hwide, Option.bind_some, written]
    dsimp only
    rw [nil_append, putBytes_append _ _ _ hzero, Option.map_some, append_assoc]
    rfl
  | false =>
    have hpieces : env.pieces b = b.map fun c ↦ (1, some [env.tulower c]) := by
      rw [LowerEnv.pieces, hmulti, if_neg Bool.false_ne_true]
    obtain rfl := hsingle hmulti
    obtain ⟨rest, rfl⟩ := exists_ended hready
    have hleft : b.length ≤ (b ++ 0 :: rest).length := by
      rw [length_append]
      omega
    have hsingles : lowerSingles env .inPlace b.length (b.length + 1) 0 ([] : Bytes).length
        ([] ++ (b ++ 0 :: rest)) = _ :=
      lowerSingles_spec env hready.reads (Nat.lt_succ_self _) hleft fun _ ↦ Nat.le_refl 0
    refine ⟨rest, ?_⟩
    rw [if_neg Bool.false_ne_true, hpieces, piecesText_singles, length_map]
    change (lowerSingles env _ b.length (b.length + 1) 0 ([] : Bytes).length
      ([] ++ (b ++ 0 :: rest))).map _ = _
    rw [hsingles, Option.map_some, written]
    rw [length_map, drop_left]
    rfl

theorem dropKey_spec {b : Bytes} (hready : Ready src mem b)
    (hroom : (withoutBackslashes b).length + 1 ≤ mem.length) : ∃ rest,
    dropBackslashes src (b.length + 1) (b.length + 2) 0 0 b.length mem =
      some (withoutBackslashes b ++ 0 :: rest, (withoutBackslashes b).length) := by
  have hlast : (b ++ [0]).getLast? ≠ some (char '\\') := by
    rw [List.getLast?_concat]
    decide
  have hlength : (b ++ [0]).length = b.length + 1 := length_append
  have hwithout : (withoutBackslashes (b ++ [0])).length = (withoutBackslashes b).length + 1 := by
    rw [withoutBackslashes_end, length_append, length_singleton]
  have hle := withoutBackslashes_length b
  have hdrop : dropBackslashes src (b.length + 1) (b.length + 2) 0 ([] : Bytes).length b.length
      ([] ++ mem) = _ :=
    dropBackslashes_spec hready (by omega) hlast (Nat.le_of_eq hlength) (by omega)
      fun _ ↦ Nat.le_refl 0
  refine ⟨mem.drop (withoutBackslashes b ++ [0]).length, hdrop.trans ?_⟩
  rw [hwithout, hlength, written, withoutBackslashes_end, nil_append, append_assoc]
  have hsub : b.length - (b.length + 1 - ((withoutBackslashes b).length + 1)) =
      (withoutBackslashes b).length := by omega
  rw [hsub]
  rfl

/-- A string of the array, and its length when it is unmetafied. -/
def EntryText (form : SortForm) (s : Bytes) (unmetalen : ℕ) : Prop :=
  match form with
  | .metafied => MetaText s
  | .unmetafied => unmetalen = s.length

theorem needLen_eq (sortwhat : SortWhat) (hentry : EntryText form s unmetalen) :
    needLen form s unmetalen = (sortText env sortwhat form s).contains 0 := by
  have hsame : (sortText env sortwhat form s).contains 0 = (form.content s).contains 0 := by
    rw [Bool.eq_iff_iff, contains_iff_mem, contains_iff_mem, zero_mem_sortText]
  rw [hsame]
  cases form with
  | metafied => rfl
  | unmetafied =>
    rw [Bool.eq_iff_iff, contains_iff_mem]
    change decide (strlen s ≠ unmetalen) = true ↔ 0 ∈ s
    rw [decide_eq_true_eq, hentry, strlen_ne_iff]

theorem keyStart_spec {area : Bytes}
    (hentry : EntryText form s unmetalen) (harea : strlen s + 1 ≤ area.length) : ∃ mem src,
    keyStart form s unmetalen area = some (mem, src, (form.content s).length) ∧
      Ready src mem (form.content s) ∧ mem.length = area.length ∧
      (src = .inPlace ↔ form = .metafied ∧ metaByte ∈ s) := by
  cases form with
  | metafied =>
    rw [keyStart]
    by_cases hmeta : metaByte ∈ s
    · have hle := unmetafiedText_length hentry
      rw [metaText_strlen hentry] at harea
      have hroom : (unmetafiedText s ++ [0]).length ≤ area.length := by
        rw [length_append, length_singleton]
        omega
      have hput := putBytes_append [] area _ hroom
      rw [nil_append] at hput
      refine ⟨_, .inPlace, ?_, ready_inPlace (unmetafiedText s)
        (area.drop (unmetafiedText s ++ [0]).length), ?_, iff_of_true rfl ⟨rfl, hmeta⟩⟩
      · rw [if_pos hmeta]
        change (putBytes area ([] : Bytes).length _).map _ = _
        rw [hput, Option.map_some, nil_append, append_assoc]
        rfl
      · rw [length_append, length_cons, length_drop, length_append,
          length_singleton]
        omega
    · have hself := unmetafiedText_self hmeta
      refine ⟨area, .separate (s ++ [0]), ?_, ?_, rfl, iff_of_false KeySource.noConfusion
        fun h ↦ hmeta h.2⟩
      · rw [if_neg hmeta, SortForm.content, hself]
      · rw [SortForm.content, hself]
        exact ready_separate area s
  | unmetafied =>
    refine ⟨area, .separate (s ++ [0]), ?_, ready_separate area s, rfl,
      iff_of_false KeySource.noConfusion fun h ↦ SortForm.noConfusion h.1⟩
    rw [keyStart, hentry]
    rfl

theorem keyBuffer_spec {sortwhat : SortWhat} {area : Bytes} (hentry : EntryText form s unmetalen) (hfits : KeyFits env sortwhat form s)
    (harea : area.length = keyRoom sortwhat s) (hcopy : needsCopy sortwhat form s = true) :
    ∃ rest, keyBuffer env sortwhat form s unmetalen area =
      some (sortText env sortwhat form s ++ 0 :: rest,
        (sortText env sortwhat form s).length) := by
  have henough : strlen s + 1 ≤ area.length := by
    rw [harea, keyRoom]
    split
    · omega
    · omega
  obtain ⟨mem, src, hstart, hready, hlength, hsrc⟩ := keyStart_spec hentry henough
  have hcontent : form = .metafied → (form.content s).length ≤ strlen s := by
    rintro rfl
    rw [metaText_strlen hentry]
    exact unmetafiedText_length hentry
  rw [keyBuffer, hstart, Option.bind_some, sortText]
  dsimp only
  cases hcase : sortwhat.ignoringCase with
  | true =>
    obtain ⟨hconverts, hroom⟩ := hfits.lower hcase
    have hmem : mem.length = 2 * strlen s + 1 := by
      rw [hlength, harea, keyRoom, hcase, if_pos rfl]
    have hbound : (piecesText (env.pieces (form.content s))).length ≤ 2 * strlen s := by
      by_cases hplace : form = .metafied ∧ metaByte ∈ s
      · rw [if_pos hplace] at hroom
        have hle := hroom.length
        have hpieces : ((env.pieces (form.content s)).map Prod.fst).sum ≤
            (form.content s).length := by
          rw [LowerEnv.pieces]
          split
          · exact lowerPieces_length env _ _ _
          · rw [map_map]
            have hones : (fun c ↦ ((1, some [env.tulower c]) : ℕ × Option Bytes).1) =
                fun _ : UInt8 ↦ 1 := rfl
            change ((form.content s).map fun c ↦ ((1, some [env.tulower c]) :
              ℕ × Option Bytes).1).sum ≤ _
            rw [hones, map_const', sum_replicate_nat, Nat.mul_one]
        have hshort := hcontent hplace.1
        omega
      · rw [if_neg hplace] at hroom
        exact hroom.2
    have hlower : LowerFits src 0 [] mem (env.pieces (form.content s)) := by
      refine ⟨hconverts, by omega, fun hplace ↦ ⟨Nat.le_refl 0, ?_⟩⟩
      rw [if_pos (hsrc.mp hplace)] at hroom
      exact hroom
    have hsingle (hmulti : env.multibyte = false) : src = .inPlace := by
      rw [hsrc]
      by_contra hplace
      rw [if_neg hplace, hmulti] at hroom
      exact Bool.false_ne_true hroom.1
    obtain ⟨rest, hkey⟩ := lowerKey_spec env hready hlower (by omega) hsingle
    rw [if_pos rfl, if_pos rfl, hkey, Option.map_some, Option.bind_some]
    cases hback : sortwhat.ignoringBackslashes with
    | true =>
      apply dropKey_spec (ready_inPlace _ rest)
      have hle := withoutBackslashes_length (piecesText (env.pieces (form.content s)))
      rw [length_append, length_cons]
      omega
    | false =>
      exact ⟨rest, rfl⟩
  | false =>
    cases hback : sortwhat.ignoringBackslashes with
    | true =>
      apply dropKey_spec hready
      have hle := withoutBackslashes_length (form.content s)
      cases form with
      | metafied =>
        have hshort := hcontent rfl
        omega
      | unmetafied =>
        have hshort := hfits.backslashes hcase hback rfl
        change (withoutBackslashes s).length + 1 ≤ mem.length
        omega
    | false =>
      have hplace : form = .metafied ∧ metaByte ∈ s := by
        rw [needsCopy, hcase, hback, Bool.false_or, Bool.false_or, Bool.and_eq_true,
          decide_eq_true_eq, contains_iff_mem] at hcopy
        exact hcopy
      obtain rfl := hsrc.mpr hplace
      obtain ⟨rest, rfl⟩ := exists_ended hready
      exact ⟨rest, rfl⟩

theorem sortKey_eq {fresh : ℕ → Bytes} (hfresh : ∀ n, (fresh n).length = n)
    {sortwhat : SortWhat}
    (hentry : EntryText form s unmetalen) (hfits : KeyFits env sortwhat form s) :
    sortKey env fresh sortwhat form s unmetalen =
      some (.ofText (sortText env sortwhat form s)) := by
  rw [sortKey]
  by_cases hcopy : needsCopy sortwhat form s = true
  · obtain ⟨rest, hkey⟩ := keyBuffer_spec env hentry hfits (hfresh _) hcopy
    rw [if_pos hcopy, hkey, Option.bind_some]
    dsimp only
    rw [needLen_eq env sortwhat hentry, endedKey_eq]
  · have hneed := needLen_eq env sortwhat hentry
    rw [if_neg hcopy]
    rw [Bool.not_eq_true, needsCopy, Bool.or_eq_false_iff, Bool.or_eq_false_iff] at hcopy
    obtain ⟨⟨hcase, hback⟩, hmeta⟩ := hcopy
    have htext : sortText env sortwhat form s = s := by
      rw [sortText, hcase, hback, if_neg Bool.false_ne_true, if_neg Bool.false_ne_true]
      cases form with
      | metafied =>
        apply unmetafiedText_self
        intro hmem
        rw [List.contains_iff_mem.mpr hmem] at hmeta
        cases hmeta
      | unmetafied => rfl
    have hkey := endedKey_eq s []
    rw [htext] at hneed ⊢
    rw [hneed]
    cases form with
    | unmetafied =>
      rw [hentry]
      exact hkey
    | metafied =>
      have hzero : s.contains 0 = false :=
        Bool.eq_false_iff.mpr fun h ↦ hentry.zero_not_mem (List.contains_iff_mem.mp h)
      rw [hzero] at hkey ⊢
      exact hkey

/-! ## The array -/

section Arrays

variable (env : LowerEnv) (sortwhat : SortWhat) (form : SortForm)

/-- The comparison of two strings of the array. -/
def compareTexts (x y : Bytes × ℕ) : ℤ :=
  eltpcmp sortwhat.flags (.ofText (sortText env sortwhat form x.1))
    (.ofText (sortText env sortwhat form y.1))

/-- An array in order. -/
def InOrder (array : List (Bytes × ℕ)) : Prop :=
  array.Pairwise fun x y ↦ compareTexts env sortwhat form x y ≤ 0

/-- Every key is the text of its string, the array is permuted and in order, and so it is when it is
sorted once more. -/
structure SortsArray (fresh : ℕ → ℕ → Bytes) (qsort : QSort SortItem)
    (array : List (Bytes × ℕ)) : Prop where
  keys : 2 ≤ array.length → ∀ i entry, array[i]? = some entry →
    sortKey env (fresh i) sortwhat form entry.1 entry.2 =
      some (.ofText (sortText env sortwhat form entry.1))
  sorts : ∃ sorted, strmetasort env fresh qsort sortwhat form array = some sorted ∧
    sorted.Perm array ∧ InOrder env sortwhat form sorted ∧
    ∃ again, strmetasort env fresh qsort sortwhat form sorted = some again ∧
      InOrder env sortwhat form again

/-- There is nothing to sort, or all keys fit and a comparison with signs orders the strings. -/
def ArrayFits (array : List (Bytes × ℕ)) : Prop :=
  array.length < 2 ∨
    (∀ entry ∈ array, KeyFits env sortwhat form entry.1) ∧
      (sortwhat.numericallySigned = true → SortsList (compareTexts env sortwhat form) array)

variable {env sortwhat form} {fresh : ℕ → ℕ → Bytes}

/-- The element of a string whose key fits. -/
def itemOf (env : LowerEnv) (sortwhat : SortWhat) (form : SortForm) (entry : Bytes × ℕ) :
    SortItem where
  orig := entry.1
  origlen := entry.2
  elt := .ofText (sortText env sortwhat form entry.1)

theorem sortItems_eq (hfresh : ∀ i n, (fresh i n).length = n) {array : List (Bytes × ℕ)}
    (hentries : ∀ entry ∈ array, EntryText form entry.1 entry.2)
    (hfits : ∀ entry ∈ array, KeyFits env sortwhat form entry.1) (i : ℕ) :
    sortItems env fresh sortwhat form i array = some (array.map (itemOf env sortwhat form)) := by
  induction array generalizing i with
  | nil => rfl
  | cons entry array ih =>
    have hkey := sortKey_eq env (hfresh i) (hentries entry mem_cons_self)
      (hfits entry mem_cons_self)
    rw [sortItems, sortItem, hkey, Option.map_some, Option.bind_some,
      ih (fun e he ↦ hentries e (mem_cons_of_mem entry he))
        (fun e he ↦ hfits e (mem_cons_of_mem entry he)), Option.map_some]
    rfl

/-- Without signs the strings are ordered by the comparison in any case. -/
theorem sortsList_compareTexts {array : List (Bytes × ℕ)}
    (hsigned : sortwhat.numericallySigned = true →
      SortsList (compareTexts env sortwhat form) array) :
    SortsList (compareTexts env sortwhat form) array := by
  cases hflag : sortwhat.numericallySigned with
  | true => exact hsigned hflag
  | false =>
    have hnumeric : sortwhat.flags.sortnumeric ≠ .signed := by
      rw [SortWhat.flags, hflag, if_neg Bool.false_ne_true]
      split
      · exact SortNumeric.noConfusion
      · exact SortNumeric.noConfusion
    have hpreorder := eltpcmp_totalPreorder hnumeric rfl
    exact (hpreorder.comap _).sortsList array

theorem strmetasort_inOrder (hfresh : ∀ i n, (fresh i n).length = n) (qsort : QSort SortItem)
    {array : List (Bytes × ℕ)} (hentries : ∀ entry ∈ array, EntryText form entry.1 entry.2)
    (hfits : ArrayFits env sortwhat form array) :
    ∃ sorted, strmetasort env fresh qsort sortwhat form array = some sorted ∧
      sorted.Perm array ∧ InOrder env sortwhat form sorted := by
  rw [strmetasort]
  by_cases hshort : array.length < 2
  · rw [if_pos hshort]
    refine ⟨array, rfl, List.Perm.refl array, ?_⟩
    cases array with
    | nil => exact List.Pairwise.nil
    | cons x array =>
      cases array with
      | nil => exact pairwise_singleton _ _
      | cons y array =>
        rw [length_cons, length_cons] at hshort
        omega
  · obtain ⟨hkeys, hsigned⟩ := hfits.resolve_left hshort
    have hsorts : SortsList (fun a b : SortItem ↦ eltpcmp sortwhat.flags a.elt b.elt)
        (array.map (itemOf env sortwhat form)) :=
      @SortsList.map _ _ _
        _ array (sortsList_compareTexts hsigned)
    have hperm := qsort.perm _ _ hsorts
    have horder := qsort.sorted _ _ hsorts
    rw [if_neg hshort, sortItems_eq hfresh hentries hkeys, Option.map_some]
    refine ⟨_, rfl, ?_, ?_⟩
    · have hback := hperm.map fun item ↦ (item.orig, item.origlen)
      rw [map_map] at hback
      have hself : ((fun item : SortItem ↦ (item.orig, item.origlen)) ∘
          itemOf env sortwhat form) = id := rfl
      rwa [hself, map_id] at hback
    · rw [InOrder, pairwise_map]
      refine horder.imp_of_mem ?_
      intro a b ha hb hle
      obtain ⟨x, _, rfl⟩ := List.mem_map.mp (hperm.mem_iff.mp ha)
      obtain ⟨y, _, rfl⟩ := List.mem_map.mp (hperm.mem_iff.mp hb)
      exact hle

end Arrays

/-! ## The C locale -/

/-- A letter in lower case. -/
def asciiLower (c : UInt8) : UInt8 := if char 'A' ≤ c ∧ c ≤ char 'Z' then c + 32 else c

set_option maxRecDepth 4000 in
theorem asciiLower_ne : ∀ c : UInt8, c ≠ 0 → asciiLower c ≠ 0 := Bytes.forall_byte (by decide)

/-- Lower case in the C locale. -/
def LowerEnv.portable (multibyte : Bool) : LowerEnv where
  charset := Charset.portable
  multibyte := multibyte
  tulower := asciiLower
  wideLower wc := if 0 < wc ∧ wc < 0x80 then some [asciiLower (UInt8.ofNat wc)] else none
  tulower_ne := asciiLower_ne
  tulower_zero := rfl
  wideLower_ne wc text h := by
    split at h
    · next hwc =>
      cases h
      have hne : UInt8.ofNat wc ≠ 0 := fun hzero ↦ by
        have hvalue := congrArg UInt8.toNat hzero
        rw [UInt8.toNat_ofNat_of_lt' (Nat.lt_trans hwc.2 (by decide))] at hvalue
        exact absurd hvalue hwc.1.ne'
      rw [mem_singleton]
      exact (asciiLower_ne _ hne).symm
    · cases h

/-- Memory that is filled with a letter. -/
def filled (_ n : ℕ) : Bytes := List.replicate n (char 'x')

/-- Ignoring case. -/
def SortWhat.caseless : SortWhat where
  ignoringCase := true
  ignoringBackslashes := false
  backwards := false
  numerically := false
  numericallySigned := false

end Bsh.Shell
