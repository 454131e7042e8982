import Bsh.Zutil.Align

/-!
# Formats

`zformat -f` and `-F` read a format with one recursive function, which takes the delimiter that ends
a piece of text and can go over a text without output.  `Reads` is the grammar of formats and
`documented` what a format stands for.  An escape at the end of the string is outside the grammar,
unless the string ends behind the character that a ternary expression tests.
-/

namespace Bsh.Zutil

open Bsh.Library Bsh.Shell List

def percent : UInt8 := char '%'

/-- The widths, and the values of expressions as `int`. -/
structure FormatEnv extends AlignEnv where
  mathInt : Bytes → ℤ

/-- `specs`, from a character to its text. -/
abbrev Specs := UInt8 → Option Bytes

/-! ## The arguments -/

/-- The specs without any arguments. -/
def defaultSpecs : Specs := fun c ↦
  if c = percent then some [percent] else if c = char ')' then some [char ')'] else none

/-- The loop over the specs; there is an error for an invalid argument. -/
def parseSpecs : Specs → List Bytes → Except Bytes Specs
  | specs, [] => .ok specs
  | specs, ap :: args =>
    match ap with
    | c :: d :: text =>
      if c = char '-' ∨ c = char '.' ∨ idigit c ∨ d ≠ colon then .error ap
      else parseSpecs (Function.update specs c (some text)) args
    | _ => .error ap

/-! ## The output buffer -/

/-- What has been written to the output buffer, and its size. -/
structure Output where
  text : Bytes
  olen : ℤ

def intMax : ℤ := 2 ^ 31 - 1

/-- The buffer of a new size; the old contents have to fit. -/
def Output.realloc (out : Output) (nlen : ℤ) : Option Output :=
  if nlen < out.olen then none else some { out with olen := nlen }

def Output.put (out : Output) (text : Bytes) : Option Output :=
  if out.text.length + text.length ≤ out.olen then some { out with text := out.text ++ text }
  else none

/-- A character of the format. -/
def Output.putChar (out : Output) (c : UInt8) : Option Output := do
  let out ←
    if out.olen ≤ wrapped 32 (out.text.length + 1) then out.realloc (wrapped 32 (2 * out.olen))
    else some out
  out.put [c]

/-- The text for an escape, in a buffer with more room if it does not fit. -/
def Output.putText (out : Output) (text : Bytes) : Option Output := do
  let out ←
    if out.olen ≤ wrapped 32 (out.text.length + text.length) then
      out.realloc (wrapped 32 (out.olen + text.length + 128))
    else some out
  out.put text

/-! ## One escape -/

/-- The digits at the head of a text, if there are any, and what follows them. -/
def leadingNumber (s : Bytes) : Option ℕ × Bytes :=
  if s.head?.any idigit then (some (digitsFrom 0 (s.takeWhile idigit)), s.dropWhile idigit)
  else (none, s)

/-- What stands between `%` and the character of an escape, for widths that fit an `int`. -/
structure EscapeHead where
  right : Bool
  min : Option ℕ
  testit : Bool
  max : Option ℕ
  rest : Bytes

def escapeHead (s : Bytes) : EscapeHead :=
  let (right, s) := if headIs '-' s then (true, s.tail) else (false, s)
  let (min, s) := leadingNumber s
  let testit := headIs '(' s
  let (right, s) := if testit && headIs '-' s.tail then (true, s.tail) else (right, s)
  let (max, s) := if headIs '.' s || testit then leadingNumber s.tail else (none, s)
  ⟨right, min, testit, max, s⟩

/-- `testval`. -/
def EscapeHead.number (head : EscapeHead) : ℕ := (head.min.or head.max).getD 0

/-- The text from `%` to the character of the escape. -/
def EscapeHead.copied (head : EscapeHead) (s : Bytes) : Bytes :=
  (percent :: s).take (s.length + 2 - head.rest.length)

/-- Whether `actval` is not zero. -/
def actval (env : FormatEnv) (presence right : Bool) (testval : ℕ) : Option Bytes → Bool
  | none => if presence then !right else testval ≠ 0
  | some spec =>
    if spec = [] then if presence then !right else testval ≠ 0
    else if presence then
      let actval := if testval ≠ 0 then env.leftWidth spec else 1
      if right then testval < actval else actval ≤ testval
    else
      let testval : ℤ := if right then -testval else testval
      env.mathInt spec - testval ≠ 0

/-- `len`, as far as the spec is written. -/
def fieldLen (max : Option ℕ) (spec : Bytes) : ℕ :=
  match max with
  | some max => if max < spec.length then max else spec.length
  | none => spec.length

/-- `outl`. -/
def fieldOutl (min : Option ℕ) (len : ℕ) : ℕ :=
  match min with
  | some min => if len < min then min else len
  | none => len

/-- The spec as it is written to the output. -/
def field (right : Bool) (min max : Option ℕ) (spec : Bytes) : Bytes :=
  let len := fieldLen max spec
  let outl := fieldOutl min len
  if outl ≤ len then spec.take outl
  else
    let pad := List.replicate (outl - len) (char ' ')
    if right then pad ++ spec.take len else spec.take len ++ pad

/-- What is written for an escape: the field, or the escape itself if there is no spec. -/
def EscapeHead.output (head : EscapeHead) (s : Bytes) : Option Bytes → Bytes
  | some spec => field head.right head.min head.max spec
  | none => head.copied s

/-! ## The scanner -/

/-- `zformat_substring`: the pointer that is returned and the output.  There is no result when the
terminator of the format is passed or the buffer left.  The first argument bounds the calls and the
turns of the loop. -/
def zformat_substring (env : FormatEnv) (presence : Bool) (specs : Specs) :
    ℕ → Bytes → UInt8 → Bool → Output → Option (Option Bytes × Output)
  | 0, _, _, _, _ => none
  | _ + 1, [], _, _, out => some (some [], out)
  | turns + 1, c :: s, endchar, skip, out =>
    if c = endchar then some (some (c :: s), out)
    else if c = percent then
      let head := escapeHead s
      match head.rest with
      -- the loop goes on behind the terminator
      | [] => none
      | x :: rest =>
        if head.testit then
          match rest with
          | [] => some (none, out)
          | endcharl :: text =>
            let actval := actval env presence head.right head.number (specs x)
            match zformat_substring env presence specs turns text endcharl (skip || actval) out with
            | none => none
            | some (none, out) => some (none, out)
            | some (some [], _) => none
            | some (some (_ :: text), out) =>
              match zformat_substring env presence specs turns text (char ')') (skip || !actval)
                out with
              | none => none
              | some (none, out) => some (none, out)
              | some (some [], _) => none
              | some (some (_ :: text), out) =>
                zformat_substring env presence specs turns text endchar skip out
        else if skip then zformat_substring env presence specs turns rest endchar skip out
        else
          (out.putText (head.output s (specs x))).bind fun out ↦
            zformat_substring env presence specs turns rest endchar skip out
    else if skip then zformat_substring env presence specs turns s endchar skip out
    else
      (out.putChar c).bind fun out ↦
        zformat_substring env presence specs turns s endchar skip out

/-- The text that `zformat -f` or `-F` sets, or the invalid argument. -/
def zformatText (env : FormatEnv) (presence : Bool) (format : Bytes) (args : List Bytes) :
    Option (Except Bytes Bytes) :=
  match parseSpecs defaultSpecs args with
  | .error ap => some (.error ap)
  | .ok specs => do
    let (_, out) ← zformat_substring env presence specs (format.length + 1) format 0 false ⟨[], 128⟩
    if out.text.length < out.olen then return .ok out.text else none

/-! ## What a format stands for -/

inductive Format where
  | done
  | char (c : UInt8) (rest : Format)
  | escape (head : EscapeHead) (copied : Bytes) (c : UInt8) (rest : Format)
  | ternary (head : EscapeHead) (c : UInt8) (yes no rest : Format)

/-- A format is read up to a delimiter, with what is left, or to the end of a string that is cut off
in the middle of a ternary expression. -/
inductive Reads : UInt8 → Bytes → Format → Option Bytes → Prop where
  | ended (e : UInt8) : Reads e [] .done (some [])
  | delimiter (e : UInt8) (s : Bytes) : Reads e (e :: s) .done (some (e :: s))
  | char {e c : UInt8} {s : Bytes} {f : Format} {r : Option Bytes} (hend : c ≠ e)
      (hc : c ≠ percent) (h : Reads e s f r) : Reads e (c :: s) (.char c f) r
  | escape {e x : UInt8} {s rest : Bytes} {f : Format} {r : Option Bytes} (hend : percent ≠ e)
      (htest : (escapeHead s).testit = false) (hrest : (escapeHead s).rest = x :: rest)
      (h : Reads e rest f r) :
      Reads e (percent :: s) (.escape (escapeHead s) ((escapeHead s).copied s) x f) r
  | cut {e x : UInt8} {s : Bytes} (hend : percent ≠ e) (htest : (escapeHead s).testit = true)
      (hrest : (escapeHead s).rest = [x]) : Reads e (percent :: s) .done none
  | ternary {e x d y z : UInt8} {s t u v : Bytes} {yes no f : Format} {r : Option Bytes}
      (hend : percent ≠ e) (htest : (escapeHead s).testit = true)
      (hrest : (escapeHead s).rest = x :: d :: t) (hyes : Reads d t yes (some (y :: u)))
      (hno : Reads (Bsh.Shell.char ')') u no (some (z :: v))) (h : Reads e v f r) :
      Reads e (percent :: s) (.ternary (escapeHead s) x yes no f) r
  | cutYes {e x d : UInt8} {s t : Bytes} {yes : Format} (hend : percent ≠ e)
      (htest : (escapeHead s).testit = true) (hrest : (escapeHead s).rest = x :: d :: t)
      (hyes : Reads d t yes none) :
      Reads e (percent :: s) (.ternary (escapeHead s) x yes .done .done) none
  | cutNo {e x d y : UInt8} {s t u : Bytes} {yes no : Format} (hend : percent ≠ e)
      (htest : (escapeHead s).testit = true) (hrest : (escapeHead s).rest = x :: d :: t)
      (hyes : Reads d t yes (some (y :: u))) (hno : Reads (Bsh.Shell.char ')') u no none) :
      Reads e (percent :: s) (.ternary (escapeHead s) x yes no .done) none

/-- What a width or an expression is compared with selects the true text. -/
def chooses (env : FormatEnv) (presence : Bool) (head : EscapeHead) (spec : Option Bytes) : Bool :=
  let value := spec.filter (· ≠ [])
  if presence then
    let wide := value.any fun v ↦
      head.number < if head.number = 0 then 1 else env.leftWidth v
    if head.right then !wide else wide
  else
    (value.elim 0 env.mathInt) = if head.right then -(head.number : ℤ) else head.number

/-- A text with at least `min` characters, of which at most `max` are from the spec. -/
def padded (right : Bool) (min max : Option ℕ) (spec : Bytes) : Bytes :=
  let shown := max.elim spec spec.take
  let pad := List.replicate (min.getD 0 - shown.length) (char ' ')
  if right then pad ++ shown else shown ++ pad

/-- What is written for a part of a format. -/
inductive Write where
  | char (c : UInt8)
  | text (b : Bytes)

def Write.bytes : Write → Bytes
  | char c => [c]
  | text b => b

/-- What is written for a format, piece by piece. -/
def writes (env : FormatEnv) (presence : Bool) (specs : Specs) : Format → List Write
  | .done => []
  | .char c f => .char c :: writes env presence specs f
  | .escape head copied c f =>
    .text ((specs c).elim copied (padded head.right head.min head.max)) ::
      writes env presence specs f
  | .ternary head c yes no f =>
    (if chooses env presence head (specs c) then writes env presence specs yes
      else writes env presence specs no) ++ writes env presence specs f

def documented (env : FormatEnv) (presence : Bool) (specs : Specs) (f : Format) : Bytes :=
  (writes env presence specs f).flatMap Write.bytes

/-- The format is read inside of its string and the output written inside of its buffer, and the
text is the documented one. -/
def FormatRight (env : FormatEnv) (presence : Bool) (format : Bytes) (args : List Bytes) : Prop :=
  match parseSpecs defaultSpecs args with
  | .error ap => zformatText env presence format args = some (.error ap)
  | .ok specs => ∃ text, zformatText env presence format args = some (.ok text) ∧
      ∀ f r, Reads 0 format f r → text = documented env presence specs f

/-! ## When it is so -/

/-- The size of a buffer that grows for a write: twice as much for a character, and for a text as much
as it needs and 128 bytes more. -/
def Write.grown : Write → ℤ → ℤ
  | char _, olen => 2 * olen
  | text b, olen => olen + b.length + 128

/-- The buffer can grow for each write: no size of it exceeds an `int`. -/
def Room : ℕ → ℤ → List Write → Prop
  | _, _, [] => True
  | used, olen, w :: l =>
    if (used + w.bytes.length : ℤ) < olen then Room (used + w.bytes.length) olen l
    else w.grown olen ≤ intMax ∧ Room (used + w.bytes.length) (w.grown olen) l

/-- The format is in the grammar, and there is room for its text. -/
def FormatFits (env : FormatEnv) (presence : Bool) (format : Bytes) (args : List Bytes) : Prop :=
  match parseSpecs defaultSpecs args with
  | .error _ => True
  | .ok specs => ∃ f r, Reads 0 format f r ∧ Room 0 128 (writes env presence specs f)

end Bsh.Zutil

/-!
# Reading a format

`zformat_substring` follows the grammar: what it reads without passing the terminator is a format,
and for a format it writes what the format stands for.  The buffer has room for all of it unless one
of its sizes exceeds an `int`.
-/

namespace Bsh.Zutil

open Bsh.Library Bsh.Shell List

variable {env : FormatEnv} {presence : Bool} {specs : Specs} {out out' : Output} {f : Format}
  {s : Bytes} {r : Option Bytes} {e : UInt8}

/-! ## The buffer -/

/-- There is a byte left for the terminator. -/
structure Output.Valid (out : Output) : Prop where
  room : (out.text.length : ℤ) < out.olen
  start : 128 ≤ out.olen
  bound : out.olen ≤ intMax

theorem wrapped_eq {n : ℤ} (hlow : 0 ≤ n) (hhigh : n ≤ intMax) : wrapped 32 n = n := by
  unfold intMax at hhigh
  apply Int.bmod_eq_of_le
  · omega
  · omega

/-- A sum of two sizes that exceeds an `int` comes out smaller than a size that does not. -/
theorem wrapped_lt {n : ℤ} (hlow : intMax < n) (hhigh : n ≤ 2 * intMax + 129) :
    wrapped 32 n < 128 := by
  unfold intMax at hlow hhigh
  have h : wrapped 32 n = n - 2 ^ 32 := by
    have hbmod : (n - 2 ^ 32).bmod (2 ^ 32) = n.bmod (2 ^ 32) := by
      have hsub := @Int.sub_mul_bmod_self_right n 1 (2 ^ 32)
      exact hsub
    unfold wrapped
    rw [← hbmod]
    apply Int.bmod_eq_of_le
    · omega
    · omega
  omega

variable {l : List Write} {text : Bytes} {w : Write} (head : EscapeHead) (skip : Bool)

theorem put_eq (h : (out.text.length + text.length : ℤ) < out.olen) :
    out.put text = some { out with text := out.text ++ text } := if_pos h.le

theorem putChar_eq (h : out.Valid) (c : UInt8) :
    out.putChar c =
      if (out.text.length + 1 : ℤ) < out.olen then some { out with text := out.text ++ [c] }
      else if 2 * out.olen ≤ intMax then some ⟨out.text ++ [c], 2 * out.olen⟩
      else none := by
  obtain ⟨hroom, hstart, hbound⟩ := h
  have hneed : wrapped 32 (out.text.length + 1) = out.text.length + 1 := by
    apply wrapped_eq
    · omega
    · omega
  unfold Output.putChar
  rw [hneed]
  by_cases hfits : (out.text.length + 1 : ℤ) < out.olen
  · rw [if_neg (not_le.mpr hfits), if_pos hfits]
    exact put_eq hfits
  · rw [if_pos (not_lt.mp hfits), if_neg hfits]
    unfold Output.realloc
    by_cases hint : 2 * out.olen ≤ intMax
    · rw [wrapped_eq (by omega) hint, if_neg (by omega), if_pos hint]
      apply put_eq
      rw [length_singleton]
      dsimp only
      omega
    · have hsmall := @wrapped_lt (2 * out.olen) (not_le.mp hint) (by omega)
      rw [if_pos (by omega), if_neg hint]
      rfl

theorem wrapped_le (n : ℤ) : wrapped 32 n ≤ intMax := by
  have h := @Int.bmod_lt n (2 ^ 32) (by norm_num)
  unfold wrapped intMax
  omega

theorem put_eq_none (h : out.olen < (out.text.length + text.length : ℤ)) :
    out.put text = none := if_neg (not_le.mpr h)

/-- More than an `int` counts is not written, whatever comes of the sizes. -/
theorem putText_long (h : out.Valid)
    (hlong : intMax < (out.text.length + text.length : ℤ)) : out.putText text = none := by
  have hfull (o : Output) (htext : o.text = out.text) (holen : o.olen ≤ intMax) :
      o.put text = none := by
    apply put_eq_none
    rw [htext]
    omega
  unfold Output.putText
  split
  · unfold Output.realloc
    split
    · rfl
    · exact hfull _ rfl (wrapped_le _)
  · exact hfull out rfl h.bound

theorem putText_eq (h : out.Valid) (text : Bytes) :
    out.putText text =
      if (out.text.length + text.length : ℤ) < out.olen then
        some { out with text := out.text ++ text }
      else if out.olen + text.length + 128 ≤ intMax then
        some ⟨out.text ++ text, out.olen + text.length + 128⟩
      else none := by
  have hbounds := h
  obtain ⟨hroom, hstart, hbound⟩ := h
  by_cases hlong : intMax < (out.text.length + text.length : ℤ)
  · rw [putText_long hbounds hlong, if_neg (by omega), if_neg (by omega)]
  · have hneed := @wrapped_eq _ (by omega) (not_lt.mp hlong)
    unfold Output.putText
    rw [hneed]
    by_cases hfits : (out.text.length + text.length : ℤ) < out.olen
    · rw [if_neg (not_le.mpr hfits), if_pos hfits]
      exact put_eq hfits
    · rw [if_pos (not_lt.mp hfits), if_neg hfits]
      unfold Output.realloc
      by_cases hint : out.olen + text.length + 128 ≤ intMax
      · rw [wrapped_eq (by omega) hint, if_neg (by omega), if_pos hint]
        apply put_eq
        dsimp only
        omega
      · have hsmall := @wrapped_lt _ (not_le.mp hint) (by omega)
        rw [if_pos (by omega), if_neg hint]
        rfl

/-! ## Writing -/

def Output.add (out : Output) : Write → Option Output
  | .char c => out.putChar c
  | .text b => out.putText b

def Output.addAll : Output → List Write → Option Output
  | out, [] => some out
  | out, w :: l => (out.add w).bind fun out ↦ out.addAll l

theorem addAll_append (out : Output) (l l' : List Write) :
    out.addAll (l ++ l') = (out.addAll l).bind fun out ↦ out.addAll l' := by
  induction l generalizing out with
  | nil => rfl
  | cons w l ih =>
    rw [cons_append, Output.addAll, Output.addAll, Option.bind_assoc]
    exact congrArg _ (funext ih)

theorem add_eq (h : out.Valid) (w : Write) :
    out.add w =
      if (out.text.length + w.bytes.length : ℤ) < out.olen then
        some { out with text := out.text ++ w.bytes }
      else if w.grown out.olen ≤ intMax then some ⟨out.text ++ w.bytes, w.grown out.olen⟩
      else none := by
  cases w with
  | char c => exact putChar_eq h c
  | text b => exact putText_eq h b

theorem valid_of_fits (h : out.Valid)
    (hfits : (out.text.length + w.bytes.length : ℤ) < out.olen) :
    Output.Valid { out with text := out.text ++ w.bytes } := by
  refine ⟨?_, h.start, h.bound⟩
  rw [length_append, Nat.cast_add]
  exact hfits

theorem valid_of_grown (h : out.Valid) (hint : w.grown out.olen ≤ intMax) :
    Output.Valid ⟨out.text ++ w.bytes, w.grown out.olen⟩ := by
  obtain ⟨hroom, hstart, hbound⟩ := h
  have hgrown : (out.text.length + w.bytes.length : ℤ) < w.grown out.olen ∧
      128 ≤ w.grown out.olen := by
    cases w with
    | char c =>
      simp only [Write.bytes, Write.grown, length_singleton]
      omega
    | text b =>
      simp only [Write.bytes, Write.grown]
      omega
  refine ⟨?_, hgrown.2, hint⟩
  rw [length_append, Nat.cast_add]
  exact hgrown.1

/-- The buffer grows as long as there is room, and holds what was written. -/
theorem addAll_room (h : out.Valid) (hroom : Room out.text.length out.olen l) :
    ∃ out', out.addAll l = some out' ∧ out'.Valid ∧
      out'.text = out.text ++ l.flatMap Write.bytes := by
  induction l generalizing out with
  | nil => exact ⟨out, rfl, h, (append_nil _).symm⟩
  | cons w l ih =>
    have hnext {o : Output} (hadd : out.add w = some o) (hvalid : o.Valid)
        (htext : o.text = out.text ++ w.bytes) (hrest : Room o.text.length o.olen l) :
        ∃ out', out.addAll (w :: l) = some out' ∧ out'.Valid ∧
          out'.text = out.text ++ (w :: l).flatMap Write.bytes := by
      obtain ⟨out', hall, hvalid', htext'⟩ := ih hvalid hrest
      refine ⟨out', ?_, hvalid', ?_⟩
      · rw [Output.addAll, hadd, Option.bind_some, hall]
      · rw [htext', htext, flatMap_cons, append_assoc]
    have hadd := add_eq h w
    have hlength : (out.text ++ w.bytes).length = out.text.length + w.bytes.length :=
      length_append
    rw [Room, ← hlength] at hroom
    by_cases hfits : (out.text.length + w.bytes.length : ℤ) < out.olen
    · rw [if_pos hfits] at hroom hadd
      exact hnext hadd (valid_of_fits h hfits) rfl hroom
    · rw [if_neg hfits] at hroom hadd
      rw [if_pos hroom.1] at hadd
      exact hnext hadd (valid_of_grown h hroom.1) rfl hroom.2

theorem room_of_addAll (h : out.Valid) (hall : out.addAll l = some out') :
    Room out.text.length out.olen l := by
  induction l generalizing out with
  | nil => trivial
  | cons w l ih =>
    obtain ⟨o, hadd, hrest⟩ := Option.bind_eq_some_iff.mp hall
    have hlength : (out.text ++ w.bytes).length = out.text.length + w.bytes.length :=
      length_append
    rw [add_eq h w] at hadd
    rw [Room, ← hlength]
    by_cases hfits : (out.text.length + w.bytes.length : ℤ) < out.olen
    · rw [if_pos hfits] at hadd ⊢
      cases hadd
      exact ih (valid_of_fits h hfits) hrest
    · rw [if_neg hfits] at hadd ⊢
      by_cases hint : w.grown out.olen ≤ intMax
      · rw [if_pos hint] at hadd
        cases hadd
        exact ⟨hint, ih (valid_of_grown h hint) hrest⟩
      · rw [if_neg hint] at hadd
        cases hadd

/-! ## One escape -/

theorem leadingNumber_length (s : Bytes) : (leadingNumber s).2.length ≤ s.length := by
  unfold leadingNumber
  split
  · exact (dropWhile_suffix _).length_le
  · exact le_rfl

theorem escapeHead_length (s : Bytes) : (escapeHead s).rest.length ≤ s.length := by
  have htail (t : Bytes) : t.tail.length ≤ t.length := by
    rw [length_tail]
    exact Nat.sub_le _ _
  have hsign (b : Bool) (t : Bytes) (p : Bool) :
      (if b then (true, t.tail) else (p, t)).2.length ≤ t.length := by
    cases b
    · exact le_rfl
    · exact htail t
  have hnumber (b : Bool) (t : Bytes) :
      (if b then leadingNumber t.tail else (none, t)).2.length ≤ t.length := by
    cases b
    · exact le_rfl
    · exact (leadingNumber_length _).trans (htail t)
  exact (hnumber _ _).trans ((hsign _ _ _).trans ((leadingNumber_length _).trans (hsign _ _ _)))

theorem actval_missing :
    (if presence then !head.right else decide (head.number ≠ 0)) =
      !chooses env presence head none := by
  unfold chooses
  cases presence with
  | true => cases head.right <;> rfl
  | false =>
    have hzero : (0 : ℤ) = head.number ↔ head.number = 0 := by omega
    have hneg : (0 : ℤ) = -head.number ↔ head.number = 0 := by omega
    cases head.right with
    | true => simp [hneg]
    | false => simp [hzero]

/-- The condition of a ternary expression, as the code tests it. -/
theorem actval_eq (spec : Option Bytes) :
    actval env presence head.right head.number spec = !chooses env presence head spec := by
  unfold actval
  cases spec with
  | none => exact actval_missing head
  | some v =>
    by_cases hv : v = []
    · subst hv
      exact actval_missing head
    · have hvalue : (some v).filter (· ≠ []) = some v := by simp [hv]
      unfold chooses
      dsimp only
      rw [if_neg hv, hvalue]
      cases presence with
      | true =>
        by_cases hzero : head.number = 0
        · cases head.right <;> simp [hzero]
        · have hnot : decide (env.leftWidth v ≤ (head.number : ℤ)) =
              !decide ((head.number : ℤ) < env.leftWidth v) := by
            rw [← decide_not, decide_eq_decide, not_lt]
          cases head.right <;> simp [hzero, hnot]
      | false => cases head.right <;> simp [sub_eq_zero, add_eq_zero_iff_eq_neg]

theorem fieldLen_le (max : Option ℕ) (spec : Bytes) : fieldLen max spec ≤ spec.length := by
  cases max with
  | none => exact le_rfl
  | some max =>
    unfold fieldLen
    dsimp only
    split <;> omega

theorem take_fieldLen (max : Option ℕ) (spec : Bytes) :
    max.elim spec spec.take = spec.take (fieldLen max spec) := by
  cases max with
  | none => exact List.take_length.symm
  | some max =>
    by_cases hmax : max < spec.length
    · exact congrArg (spec.take ·) (if_pos hmax).symm
    · have hall : spec.take max = spec := take_of_length_le (not_lt.mp hmax)
      have hlen : fieldLen (some max) spec = spec.length := if_neg hmax
      rw [hlen, take_length]
      exact hall

theorem fieldOutl_eq (min : Option ℕ) (len : ℕ) :
    len ≤ fieldOutl min len ∧ fieldOutl min len - len = min.getD 0 - len := by
  cases min with
  | none => exact ⟨le_rfl, by simp [fieldOutl]⟩
  | some min =>
    unfold fieldOutl
    dsimp only [Option.getD_some]
    split <;> omega

theorem field_eq (right : Bool) (min max : Option ℕ) (spec : Bytes) :
    field right min max spec = padded right min max spec := by
  obtain ⟨hge, hpad⟩ := fieldOutl_eq min (fieldLen max spec)
  unfold field padded
  dsimp only
  rw [take_fieldLen, length_take_of_le (fieldLen_le max spec), ← hpad]
  by_cases hfull : fieldOutl min (fieldLen max spec) ≤ fieldLen max spec
  · rw [if_pos hfull, le_antisymm hfull hge, Nat.sub_self, replicate_zero, nil_append,
      append_nil, ite_self]
  · rw [if_neg hfull]

theorem output_eq (s : Bytes) (spec : Option Bytes) :
    head.output s spec = spec.elim (head.copied s) (padded head.right head.min head.max) := by
  cases spec with
  | none => rfl
  | some spec => exact field_eq _ _ _ spec

/-! ## The whole format -/

theorem Reads.length_le {t : Bytes} (h : Reads e s f (some t)) : t.length ≤ s.length := by
  generalize hr : some t = r at h
  have hrest {x : UInt8} {s t : Bytes} (h : (escapeHead s).rest = x :: t) :
      t.length ≤ s.length := by
    have hlength := escapeHead_length s
    rw [h, length_cons] at hlength
    omega
  induction h generalizing t with
  | ended e =>
    cases hr
    exact le_rfl
  | delimiter e s =>
    cases hr
    exact le_rfl
  | char hend hc h ih => exact (ih hr).trans (Nat.le_succ _)
  | escape hend htest hhead h ih => exact (ih hr).trans ((hrest hhead).trans (Nat.le_succ _))
  | cut hend htest hhead => cases hr
  | ternary hend htest hhead hyes hno h ihyes ihno ih =>
    have hy := ihyes rfl
    have hz := ihno rfl
    have hbehind := ih hr
    have htext := hrest hhead
    simp only [length_cons] at *
    omega
  | cutYes hend htest hhead hyes ih => cases hr
  | cutNo hend htest hhead hyes hno ihyes ihno => cases hr

/-- What a format adds to the output, unless it is skipped. -/
def written (env : FormatEnv) (presence : Bool) (specs : Specs) (skip : Bool) (out : Output)
    (f : Format) : Option Output :=
  if skip then some out else out.addAll (writes env presence specs f)

theorem written_done (out : Output) :
    written env presence specs skip out .done = some out := ite_self _

theorem written_add (out : Output) {g : Format}
    (h : writes env presence specs g = w :: writes env presence specs f) :
    written env presence specs skip out g =
      if skip then written env presence specs skip out f
      else (out.add w).bind fun out ↦ written env presence specs skip out f := by
  cases skip with
  | true => rfl
  | false => exact congrArg out.addAll h

/-- Of a ternary expression one text is written. -/
theorem written_ternary (out : Output) (head : EscapeHead) (c : UInt8)
    (yes no f : Format) :
    written env presence specs skip out (.ternary head c yes no f) =
      (written env presence specs (skip || !chooses env presence head (specs c)) out yes).bind
        fun out ↦ (written env presence specs (skip || chooses env presence head (specs c)) out
          no).bind fun out ↦ written env presence specs skip out f := by
  cases skip with
  | true => rfl
  | false =>
    have hwrites : written env presence specs false out (.ternary head c yes no f) =
        out.addAll ((if chooses env presence head (specs c) then writes env presence specs yes
          else writes env presence specs no) ++ writes env presence specs f) := rfl
    rw [hwrites, addAll_append]
    cases chooses env presence head (specs c) <;> rfl

/-- A format is read with its output. -/
theorem zformat_substring_reads (h : Reads e s f r) {turns : ℕ} (hturns : s.length < turns)
    (skip : Bool) (out : Output) :
    zformat_substring env presence specs turns s e skip out =
      (written env presence specs skip out f).map fun out ↦ (r, out) := by
  have hrest {x : UInt8} {s t : Bytes} (h : (escapeHead s).rest = x :: t) :
      t.length < s.length := by
    have hlength := escapeHead_length s
    rw [h, length_cons] at hlength
    omega
  induction h generalizing turns skip out with
  | ended e =>
    obtain ⟨turns, rfl⟩ := Nat.exists_eq_add_one.mpr hturns
    rw [written_done]
    rfl
  | delimiter e s =>
    obtain ⟨turns, rfl⟩ := Nat.exists_eq_add_one.mpr (Nat.zero_lt_of_lt hturns)
    rw [written_done, zformat_substring, if_pos rfl]
    rfl
  | @char e c s f r hend hc h ih =>
    obtain ⟨turns, rfl⟩ := Nat.exists_eq_add_one.mpr (Nat.zero_lt_of_lt hturns)
    have hnext := @ih turns (Nat.succ_lt_succ_iff.mp hturns)
    rw [zformat_substring, if_neg hend, if_neg hc, written_add skip out rfl]
    cases skip with
    | true =>
      rw [if_pos rfl, if_pos rfl]
      exact hnext true out
    | false =>
      rw [if_neg Bool.false_ne_true, if_neg Bool.false_ne_true, Option.map_bind]
      exact congrArg _ (funext (hnext false))
  | @escape e x s rest f r hend htest hhead h ih =>
    obtain ⟨turns, rfl⟩ := Nat.exists_eq_add_one.mpr (Nat.zero_lt_of_lt hturns)
    have hnext := @ih turns ((hrest hhead).trans (Nat.succ_lt_succ_iff.mp hturns))
    rw [zformat_substring, if_neg hend, if_pos rfl, written_add skip out rfl]
    dsimp only
    rw [hhead]
    dsimp only
    rw [htest, if_neg Bool.false_ne_true]
    cases skip with
    | true =>
      rw [if_pos rfl, if_pos rfl]
      exact hnext true out
    | false =>
      rw [if_neg Bool.false_ne_true, if_neg Bool.false_ne_true, Option.map_bind, output_eq]
      exact congrArg _ (funext (hnext false))
  | @cut e x s hend htest hhead =>
    obtain ⟨turns, rfl⟩ := Nat.exists_eq_add_one.mpr (Nat.zero_lt_of_lt hturns)
    rw [zformat_substring, if_neg hend, if_pos rfl, written_done]
    dsimp only
    rw [hhead]
    dsimp only
    rw [htest, if_pos rfl]
    rfl
  | @ternary e x d y z s t u v yes no f r hend htest hhead hyes hno h ihyes ihno ih =>
    obtain ⟨turns, rfl⟩ := Nat.exists_eq_add_one.mpr (Nat.zero_lt_of_lt hturns)
    have htext := hrest hhead
    have hyesLength := hyes.length_le
    have hnoLength := hno.length_le
    simp only [length_cons] at hturns htext hyesLength hnoLength
    have hyesNext := @ihyes turns (by omega)
    have hnoNext := @ihno turns (by omega)
    have hnext := @ih turns (by omega)
    rw [zformat_substring, if_neg hend, if_pos rfl, written_ternary]
    dsimp only
    rw [hhead]
    dsimp only
    rw [htest, if_pos rfl, actval_eq, Bool.not_not, hyesNext]
    cases written env presence specs (skip || !chooses env presence (escapeHead s) (specs x)) out
        yes with
    | none => rfl
    | some out =>
      rw [Option.map_some, Option.bind_some]
      dsimp only
      rw [hnoNext]
      cases written env presence specs (skip || chooses env presence (escapeHead s) (specs x)) out
          no with
      | none => rfl
      | some out =>
        rw [Option.map_some, Option.bind_some]
        exact hnext skip out
  | @cutYes e x d s t yes hend htest hhead hyes ih =>
    obtain ⟨turns, rfl⟩ := Nat.exists_eq_add_one.mpr (Nat.zero_lt_of_lt hturns)
    have htext := hrest hhead
    simp only [length_cons] at hturns htext
    have hnext := @ih turns (by omega)
    rw [zformat_substring, if_neg hend, if_pos rfl, written_ternary]
    dsimp only
    rw [hhead]
    dsimp only
    rw [htest, if_pos rfl, actval_eq, hnext]
    cases written env presence specs (skip || !chooses env presence (escapeHead s) (specs x)) out
        yes with
    | none => rfl
    | some out =>
      rw [Option.map_some, Option.bind_some, written_done, Option.bind_some, written_done]
      rfl
  | @cutNo e x d y s t u yes no hend htest hhead hyes hno ihyes ihno =>
    obtain ⟨turns, rfl⟩ := Nat.exists_eq_add_one.mpr (Nat.zero_lt_of_lt hturns)
    have htext := hrest hhead
    have hyesLength := hyes.length_le
    simp only [length_cons] at hturns htext hyesLength
    have hyesNext := @ihyes turns (by omega)
    have hnoNext := @ihno turns (by omega)
    rw [zformat_substring, if_neg hend, if_pos rfl, written_ternary]
    dsimp only
    rw [hhead]
    dsimp only
    rw [htest, if_pos rfl, actval_eq, Bool.not_not, hyesNext]
    cases written env presence specs (skip || !chooses env presence (escapeHead s) (specs x)) out
        yes with
    | none => rfl
    | some out =>
      rw [Option.map_some, Option.bind_some]
      dsimp only
      rw [hnoNext]
      cases written env presence specs (skip || chooses env presence (escapeHead s) (specs x)) out
          no with
      | none => rfl
      | some out =>
        rw [Option.map_some, Option.bind_some, written_done]
        rfl

theorem reads_of_zformat_substring {turns : ℕ} {skip : Bool}
    (h : zformat_substring env presence specs turns s e skip out = some (r, out')) :
    ∃ f, Reads e s f r := by
  induction turns generalizing s e skip out r out' with
  | zero => cases h
  | succ turns ih =>
    cases s with
    | nil =>
      cases h
      exact ⟨.done, .ended e⟩
    | cons c s =>
      rw [zformat_substring] at h
      by_cases hend : c = e
      · rw [if_pos hend] at h
        cases h
        exact ⟨.done, hend ▸ .delimiter c s⟩
      · rw [if_neg hend] at h
        by_cases hc : c = percent
        · rw [if_pos hc] at h
          subst hc
          dsimp only at h
          cases hhead : (escapeHead s).rest with
          | nil =>
            rw [hhead] at h
            cases h
          | cons x rest =>
            rw [hhead] at h
            dsimp only at h
            cases htest : (escapeHead s).testit with
            | true =>
              rw [htest, if_pos rfl] at h
              cases rest with
              | nil =>
                cases h
                exact ⟨_, .cut hend htest hhead⟩
              | cons d t =>
                dsimp only at h
                split at h
                · cases h
                · rename_i hyes
                  cases h
                  obtain ⟨yes, hyes⟩ := ih hyes
                  exact ⟨_, .cutYes hend htest hhead hyes⟩
                · cases h
                · rename_i hyes
                  obtain ⟨yes, hyes⟩ := ih hyes
                  split at h
                  · cases h
                  · rename_i hno
                    cases h
                    obtain ⟨no, hno⟩ := ih hno
                    exact ⟨_, .cutNo hend htest hhead hyes hno⟩
                  · cases h
                  · rename_i hno
                    obtain ⟨no, hno⟩ := ih hno
                    obtain ⟨f, hf⟩ := ih h
                    exact ⟨_, .ternary hend htest hhead hyes hno hf⟩
            | false =>
              rw [htest, if_neg Bool.false_ne_true] at h
              obtain ⟨f, hf⟩ : ∃ f, Reads e rest f r := by
                cases skip with
                | true =>
                  exact ih h
                | false =>
                  rw [if_neg Bool.false_ne_true] at h
                  obtain ⟨o, -, hrest⟩ := Option.bind_eq_some_iff.mp h
                  exact ih hrest
              exact ⟨_, .escape hend htest hhead hf⟩
        · rw [if_neg hc] at h
          obtain ⟨f, hf⟩ : ∃ f, Reads e s f r := by
            cases skip with
            | true =>
              exact ih h
            | false =>
              rw [if_neg Bool.false_ne_true] at h
              obtain ⟨o, -, hrest⟩ := Option.bind_eq_some_iff.mp h
              exact ih hrest
          exact ⟨_, .char hend hc hf⟩

/-! ## The result -/

theorem valid_start : Output.Valid ⟨[], 128⟩ := ⟨by decide, le_rfl, by decide⟩

theorem room_start (h : Output.addAll ⟨[], 128⟩ l = some out) : Room 0 128 l := by
  have hroom := room_of_addAll valid_start h
  rwa [length_nil] at hroom

/-- `zformat` stays inside of the format and of the buffer and gives the documented text exactly for
the formats of the grammar whose text there is room for. -/
theorem formatRight_iff (env : FormatEnv) (presence : Bool) (format : Bytes) (args : List Bytes) :
    FormatRight env presence format args ↔ FormatFits env presence format args := by
  unfold FormatRight FormatFits zformatText
  cases parseSpecs defaultSpecs args with
  | error ap => exact ⟨fun _ ↦ trivial, fun _ ↦ rfl⟩
  | ok specs =>
    have hrun {f : Format} {r : Option Bytes} (h : Reads 0 format f r) :
        zformat_substring env presence specs (format.length + 1) format 0 false ⟨[], 128⟩ =
          (Output.addAll ⟨[], 128⟩ (writes env presence specs f)).map fun out ↦ (r, out) :=
      zformat_substring_reads h (Nat.lt_succ_self _) false _
    have htext {f : Format} {r : Option Bytes} (h : Reads 0 format f r)
        (hroom : Room 0 128 (writes env presence specs f)) :
        (do
          let (_, out) ← zformat_substring env presence specs (format.length + 1) format 0 false
            ⟨[], 128⟩
          if out.text.length < out.olen then return Except.ok out.text else none :
            Option (Except Bytes Bytes)) = some (.ok (documented env presence specs f)) := by
      obtain ⟨out, hall, hvalid, hout⟩ := addAll_room valid_start hroom
      rw [hrun h, hall, Option.map_some]
      refine (if_pos hvalid.room).trans ?_
      rw [hout]
      rfl
    constructor
    · rintro ⟨text, hresult, -⟩
      obtain ⟨⟨r, out⟩, hread, -⟩ := Option.bind_eq_some_iff.mp hresult
      obtain ⟨f, hf⟩ := reads_of_zformat_substring hread
      rw [hrun hf] at hread
      obtain ⟨out', hall, -⟩ := Option.map_eq_some_iff.mp hread
      exact ⟨f, r, hf, room_start hall⟩
    · rintro ⟨f, r, hf, hroom⟩
      refine ⟨_, htext hf hroom, fun f' r' hf' ↦ ?_⟩
      obtain ⟨out, hall, -⟩ := addAll_room valid_start hroom
      have hread := (hrun hf').symm.trans (hrun hf)
      rw [hall] at hread
      obtain ⟨out', hall', -⟩ := Option.map_eq_some_iff.mp hread
      have hsame := (htext hf hroom).symm.trans (htext hf' (room_start hall'))
      exact Except.ok.inj (Option.some.inj hsame)

/-- UTF-8, where every expression is 0. -/
def zeroEnv : FormatEnv := { narrowUtf8 with mathInt := fun _ ↦ 0 }

/-- The terminator behind a single `%` is copied, and the loop goes on behind it. -/
theorem not_formatRight_percent : ¬ FormatRight zeroEnv false [percent] [] := by
  rintro ⟨text, htext, -⟩
  cases htext

end Bsh.Zutil
