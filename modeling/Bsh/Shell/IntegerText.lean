import Bsh.Library.Cells
import Bsh.Shell.ArithEnds
import Bsh.Shell.MathLex
import Bsh.Shell.Truncation

/-!
# Integers as text

`convbase_ptr` and `convbase_underscore` of `params.c` write an integer in a base, with one of four
prefixes and with underscores between groups of digits, and `mathevall` reads it back.  The largest
absolute value is that of a negative number, whose sign `zzlex` has already taken away when
`zstrtol_underscore` looks at the digits.
-/

namespace Bsh.Shell.Arith

open Bsh.Library Bytes Accumulator List

/-! ## Printing -/

/-- `(dig < 10) ? '0' + dig : dig - 10 + 'A'`. -/
def digitChar (dig : ℕ) : UInt8 :=
  if dig < 10 then UInt8.ofNat ((char '0').toNat + dig) else UInt8.ofNat (dig - 10 + (char 'A').toNat)

/-- `for (x = v; x; digs++) x /= base;`, where 64 turns are enough. -/
def countDigits (base : ℕ) : ℕ → ℕ → ℕ
  | 0, _ => 0
  | turns + 1, x => if x = 0 then 0 else countDigits base turns (x / base) + 1

/-- The digits that are written from the last one on, in front of those written before. -/
def digitsInto (base : ℕ) : ℕ → ℕ → Bytes → Bytes
  | 0, _, behind => behind
  | digs + 1, x, behind => digitsInto base digs (x / base) (digitChar (x % base) :: behind)

/-- What `convbase_ptr` writes in front of the digits for a positive base. -/
def basePrefix (cbases octalZeroes : Bool) (base : ℕ) : Bytes :=
  if cbases && base = 16 then ascii "0x"
  else if cbases && base = 8 && octalZeroes then ascii "0"
  else if base ≠ 10 then Decimal.decimal base ++ ascii "#"
  else []

/-- `convbase_ptr`: the string, and the number of its digits. -/
def convbasePtr (cbases octalZeroes : Bool) (v : Zlong) (base : ℤ) : Bytes × ℕ :=
  let (sign, v) := if v.slt 0 then ([char '-'], -v) else ([], v)
  let base := if -1 ≤ base ∧ base ≤ 1 then -10 else base
  let front := if 0 < base then basePrefix cbases octalZeroes base.toNat else []
  let digs := countDigits base.natAbs 64 v.toNat
  let digs := if digs = 0 then 1 else digs
  (sign ++ front ++ digitsInto base.natAbs digs v.toNat [], digs)

/-- `convbase`. -/
def convbase (cbases octalZeroes : Bool) (v : Zlong) (base : ℤ) : Bytes :=
  (convbasePtr cbases octalZeroes v base).1

/-- The loop of `convbase_underscore`.  The characters from `sptr` downwards are a list, and `dptr`
has as many cells in front of it as its first argument says, its own included. -/
def underscoreLoop (underscore : ℕ) :
    ℕ → Bytes → Cells UInt8 → ℕ → ℕ → Option (Cells UInt8)
  | ndigits + 1, c :: below, buffer, dptr + 1, mod =>
    (buffer.store dptr c).bind fun buffer ↦
      if ndigits = 0 then some buffer
      else if mod + 1 = underscore then
        match dptr with
        | 0 => none
        | dptr + 1 =>
          (buffer.store dptr (char '_')).bind fun buffer ↦
            underscoreLoop underscore ndigits below buffer dptr 0
      else underscoreLoop underscore ndigits below buffer dptr (mod + 1)
  | _, _, _, _, _ => none

/-- The number of underscores. -/
def nunderscore (ndigits : ℕ) (underscore : ℤ) : ℕ :=
  if underscore ≤ 0 then 0 else (ndigits - 1) / underscore.toNat

/-- The buffer of `convbase_underscore`, where it allocates one. -/
def underscoreBuffer (s : Bytes) (ndigits : ℕ) (underscore : ℤ) : Option (Cells UInt8) := do
  let buffer : Cells UInt8 := Cells.fresh (s.length + nunderscore ndigits underscore + 1)
  let (buffer, _) ← buffer.storeAll 0 (s.take (s.length - ndigits))
  let buffer ← buffer.store (s.length + nunderscore ndigits underscore) 0
  underscoreLoop underscore.toNat ndigits s.reverse buffer
    (s.length + nunderscore ndigits underscore) 0

/-- The string in a buffer up to its NUL; none of its bytes may be unwritten. -/
def stringIn : Cells UInt8 → Option Bytes
  | some c :: cells => if c = 0 then some [] else (stringIn cells).map (c :: ·)
  | _ => none

/-- `convbase_underscore`. -/
def convbaseUnderscore (cbases octalZeroes : Bool) (v : Zlong) (base underscore : ℤ) :
    Option Bytes :=
  let (s, ndigits) := convbasePtr cbases octalZeroes v base
  if nunderscore ndigits underscore = 0 then some s
  else (underscoreBuffer s ndigits underscore).bind stringIn

/-! ## The warnings of a constant -/

/-- The warning of `zstrtol_underscore` in a call of `lexconstant`, with the base an `int`. -/
def readWarning (s : Bytes) (base : ℤ) : List (ℕ × Bytes) :=
  match (if base < 0 then none else zstrtolWarned s base.toNat true) with
  | some r => r.warning.toList
  | none => []

/-- The warnings behind the constants that announce a base. -/
def lexDecimalWarnings (s : Bytes) : List (ℕ × Bytes) :=
  let nptr := skipDigits (if s.head?.any isDash then s.tail else s)
  if headIs '.' nptr || headIs 'e' nptr || headIs 'E' nptr then []
  else
    let (value, ptr, _) := readInBase s 10 true
    if headIs '#' ptr then readWarning s 10 ++ readWarning ptr.tail (toCInt value)
    else readWarning s 10

/-- The warnings that `lexconstant` gives. -/
def lexconstantWarnings (octalZeroes : Bool) (s : Bytes) : List (ℕ × Bytes) :=
  let nptr := if s.head?.any isDash then s.tail else s
  if headIs '0' nptr then
    let nptr := nptr.tail
    if headIs 'x' nptr || headIs 'X' nptr || headIs 'b' nptr || headIs 'B' nptr then readWarning s 0
    else
      let behind := skipDigits nptr
      if octalZeroes && behind.length < nptr.length && !headIs '.' behind &&
          !headIs 'e' behind && !headIs 'E' behind && !headIs '#' behind then
        readWarning s 0
      else lexDecimalWarnings s
  else lexDecimalWarnings s

/-- The warnings for a text that is one constant, behind a sign or without. -/
def constantWarnings (octalZeroes : Bool) (s : Bytes) : List (ℕ × Bytes) :=
  lexconstantWarnings octalZeroes (if s.head?.any isDash then s.tail else s)

example : convbase true true (-255) 16 = ascii "-0xFF" := by decide

example : convbaseUnderscore false false (-1234567) 10 3 = some (ascii "-1_234_567") := by decide

/-! ## Digits -/

/-- The digits of a number, the most significant first. -/
def digitValues (base : ℕ) : ℕ → ℕ → List ℕ
  | 0, _ => []
  | n + 1, x => digitValues base n (x / base) ++ [x % base]

theorem digitsInto_eq (base n x : ℕ) (behind : Bytes) :
    digitsInto base n x behind = (digitValues base n x).map digitChar ++ behind := by
  induction n generalizing x behind with
  | zero => rfl
  | succ n ih =>
    rw [digitsInto, ih, digitValues, map_append, append_assoc]
    rfl

theorem digitValues_length (base n x : ℕ) : (digitValues base n x).length = n := by
  induction n generalizing x with
  | zero => rfl
  | succ n ih => rw [digitValues, length_append, ih, length_singleton]

theorem digitValues_lt {base : ℕ} (hbase : 0 < base) (n x : ℕ) :
    ∀ d ∈ digitValues base n x, d < base := by
  induction n generalizing x with
  | zero => exact fun d hd ↦ nomatch hd
  | succ n ih =>
    intro d hd
    obtain hfront | hlast := List.mem_append.mp hd
    · exact ih _ d hfront
    · rw [List.mem_singleton.mp hlast]
      exact Nat.mod_lt _ hbase

theorem value_digitValues {base n x : ℕ} (h : x < base ^ n) : value base (digitValues base n x) = x := by
  induction n generalizing x with
  | zero =>
    rw [Nat.lt_one_iff.mp h]
    rfl
  | succ n ih =>
    have hdiv : x / base < base ^ n := by
      apply Nat.div_lt_of_lt_mul
      rwa [mul_comm, ← pow_succ]
    rw [digitValues, value_concat, ih hdiv, Nat.div_add_mod]

theorem lt_pow_countDigits {base : ℕ} (hbase : 2 ≤ base) {turns x : ℕ} (h : x < 2 ^ turns) :
    x < base ^ countDigits base turns x := by
  induction turns generalizing x with
  | zero =>
    rw [Nat.lt_one_iff.mp h]
    exact Nat.one_pos
  | succ turns ih =>
    rw [countDigits]
    split
    · next hzero =>
      rw [hzero]
      exact Nat.one_pos
    · have hdiv : x / base < 2 ^ turns := by
        apply Nat.div_lt_of_lt_mul
        calc
          x < 2 ^ (turns + 1) := h
          _ = 2 * 2 ^ turns := by rw [pow_succ, mul_comm]
          _ ≤ base * 2 ^ turns := Nat.mul_le_mul_right _ hbase
      have hnext := ih hdiv
      rw [Nat.div_lt_iff_lt_mul (by omega)] at hnext
      rwa [pow_succ]

theorem digitValues_head {base : ℕ} (hbase : 2 ≤ base) {turns x : ℕ} (hx : x ≠ 0)
    (h : x < 2 ^ turns) :
    ∃ d ds, digitValues base (countDigits base turns x) x = d :: ds ∧ d ≠ 0 := by
  induction turns generalizing x with
  | zero => exact absurd (Nat.lt_one_iff.mp h) hx
  | succ turns ih =>
    rw [countDigits, if_neg hx, digitValues]
    by_cases hdiv : x / base = 0
    · have hlt : x < base := (Nat.div_eq_zero_iff_lt (by omega)).mp hdiv
      have hcount : countDigits base turns 0 = 0 := by
        cases turns with
        | zero => rfl
        | succ turns => exact if_pos rfl
      rw [hdiv, hcount, Nat.mod_eq_of_lt hlt]
      exact ⟨x, [], rfl, hx⟩
    · have hless : x / base < 2 ^ turns := by
        apply Nat.div_lt_of_lt_mul
        calc
          x < 2 ^ (turns + 1) := h
          _ = 2 * 2 ^ turns := by rw [pow_succ, mul_comm]
          _ ≤ base * 2 ^ turns := Nat.mul_le_mul_right _ hbase
      obtain ⟨d, ds, hdigits, hd⟩ := ih hdiv hless
      rw [hdigits]
      exact ⟨d, ds ++ [x % base], rfl, hd⟩

theorem digitOf_digitChar {base d : ℕ} (hbase : base ≤ 36) (hd : d < base) :
    digitOf base (digitChar d) = some d ∧ digitChar d ≠ char '_' := by
  have h0 : (char '0').toNat = 48 := rfl
  have h9 : (char '9').toNat = 57 := rfl
  have ha : (char 'a').toNat = 97 := rfl
  have hA : (char 'A').toNat = 65 := rfl
  have hunder : (char '_').toNat = 95 := rfl
  have hcode : (digitChar d).toNat = if d < 10 then 48 + d else 55 + d := by
    rw [digitChar, h0, hA]
    split
    · rw [UInt8.toNat_ofNat']
      omega
    · rw [UInt8.toNat_ofNat']
      omega
  generalize digitChar d = c at hcode
  constructor
  · unfold digitOf
    simp only [idigit, Bool.and_eq_true, decide_eq_true_eq, UInt8.le_iff_toNat_le, h0, h9, ha, hA]
    split_ifs at hcode ⊢ <;> first | omega | (congr 1; omega)
  · rintro rfl
    split at hcode <;> omega

/-! ## Underscores -/

/-- Digits, the last one first, with the underscores between them; `mod` digits have gone by since
the last underscore. -/
def spaced (underscore : ℕ) : ℕ → Bytes → Bytes
  | _, [] => []
  | _, [c] => [c]
  | mod, c :: d :: below =>
    if mod + 1 = underscore then c :: char '_' :: spaced underscore 0 (d :: below)
    else c :: spaced underscore (mod + 1) (d :: below)

theorem spaced_length {underscore mod : ℕ} (hmod : mod < underscore) {l : Bytes} (hl : l ≠ []) :
    (spaced underscore mod l).length = l.length + (mod + l.length - 1) / underscore := by
  fun_induction spaced underscore mod l with
  | case1 => exact absurd rfl hl
  | case2 mod c =>
    rw [length_singleton, Nat.add_sub_cancel, Nat.div_eq_of_lt hmod]
  | case3 mod c d below hsame ih =>
    have hpos : 0 < underscore := Nat.zero_lt_of_lt hmod
    have hnext := ih hpos (cons_ne_nil d below)
    have hturn : mod + (c :: d :: below).length - 1 =
        0 + (d :: below).length - 1 + underscore := by
      rw [length_cons, length_cons]
      omega
    rw [hturn, Nat.add_div_right _ hpos, length_cons, length_cons, hnext,
      length_cons (a := c)]
    omega
  | case4 mod c d below hsame ih =>
    have hnext := ih (by omega) (cons_ne_nil d below)
    have hturn : mod + (c :: d :: below).length - 1 = mod + 1 + (d :: below).length - 1 := by
      rw [length_cons]
      omega
    rw [hturn, length_cons, hnext, length_cons (a := c)]
    omega

theorem spaced_filter (underscore mod : ℕ) {l : Bytes} (h : ∀ c ∈ l, c ≠ char '_') :
    (spaced underscore mod l).filter (· ≠ char '_') = l := by
  fun_induction spaced underscore mod l with
  | case1 => rfl
  | case2 mod c =>
    have hc := h c mem_cons_self
    simp [hc]
  | case3 mod c d below hsame ih =>
    have hc := h c mem_cons_self
    have hnext := ih fun x hx ↦ h x (mem_cons_of_mem c hx)
    rw [filter_cons_of_pos (by simpa using hc), filter_cons_of_neg (by simp), hnext]
  | case4 mod c d below hsame ih =>
    have hc := h c mem_cons_self
    have hnext := ih fun x hx ↦ h x (mem_cons_of_mem c hx)
    rw [filter_cons_of_pos (by simpa using hc), hnext]

theorem underscoreLoop_eq {underscore : ℕ} {l : Bytes} (hl : l ≠ []) (below : Bytes)
    (buffer : Cells UInt8) (dptr mod : ℕ) :
    underscoreLoop underscore l.length (l ++ below) buffer dptr mod =
      buffer.storeDown dptr (spaced underscore mod l) := by
  fun_induction spaced underscore mod l generalizing buffer dptr with
  | case1 => exact absurd rfl hl
  | case2 mod c =>
    cases dptr with
    | zero => rfl
    | succ dptr =>
      rw [length_singleton, singleton_append, underscoreLoop, Cells.storeDown]
      cases buffer.store dptr c with
      | none => rfl
      | some buffer =>
        rw [Option.bind_some, Option.bind_some, Cells.storeDown_nil, if_pos rfl]
  | case3 mod c d rest hsame ih =>
    cases dptr with
    | zero => rfl
    | succ dptr =>
      rw [length_cons, cons_append, underscoreLoop, Cells.storeDown]
      cases buffer.store dptr c with
      | none => rfl
      | some buffer =>
        rw [Option.bind_some, Option.bind_some, if_neg (by exact Nat.succ_ne_zero _), if_pos hsame]
        cases dptr with
        | zero => rfl
        | succ dptr =>
          apply Option.bind_congr
          intro buffer _
          exact ih (cons_ne_nil d rest) buffer dptr
  | case4 mod c d rest hsame ih =>
    cases dptr with
    | zero => rfl
    | succ dptr =>
      rw [length_cons, cons_append, underscoreLoop, Cells.storeDown]
      cases buffer.store dptr c with
      | none => rfl
      | some buffer =>
        rw [Option.bind_some, Option.bind_some, if_neg (by exact Nat.succ_ne_zero _), if_neg hsame]
        exact ih (cons_ne_nil d rest) buffer dptr

/-- The buffer holds the text in front of the digits, the digits with the underscores, and a NUL,
and nothing else. -/
theorem underscoreBuffer_eq (front : Bytes) {digits : Bytes} (hdigits : digits ≠ [])
    {underscore : ℤ} (hpos : 0 < underscore) :
    underscoreBuffer (front ++ digits) digits.length underscore =
      some ((front ++ (spaced underscore.toNat 0 digits.reverse).reverse ++ [0]).map some) := by
  obtain ⟨u, rfl⟩ : ∃ u : ℕ, underscore = u := ⟨underscore.toNat, by omega⟩
  have hu : 0 < u := Int.natCast_pos.mp hpos
  have hcount : nunderscore digits.length u = (digits.length - 1) / u :=
    if_neg (not_le.mpr hpos)
  obtain ⟨k, hk⟩ : ∃ k, nunderscore digits.length u = k := ⟨_, rfl⟩
  have hlength : (spaced u 0 digits.reverse).length = digits.length + k := by
    rw [spaced_length hu (List.reverse_ne_nil_iff.mpr hdigits), length_reverse, Nat.zero_add,
      ← hk, hcount]
  have hloop := @underscoreLoop_eq u _ (List.reverse_ne_nil_iff.mpr hdigits)
    front.reverse (front.map some ++ Cells.fresh (digits.length + k) ++ [some 0])
    (front.length + (digits.length + k)) 0
  have hdown := @Cells.storeDown_append _ (front.map some) (Cells.fresh (digits.length + k))
    [some 0] _ (by rw [hlength]; exact List.length_replicate)
  rw [length_map, hlength] at hdown
  have hfront := @Cells.storeAll_append _ ([] : Cells UInt8) (Cells.fresh front.length)
    (Cells.fresh (digits.length + k + 1)) front List.length_replicate
  have hfresh : Cells.fresh (α := UInt8) (front.length + digits.length + k + 1) =
      [] ++ Cells.fresh front.length ++ Cells.fresh (digits.length + k + 1) := by
    rw [nil_append, Cells.fresh, Cells.fresh, Cells.fresh, replicate_append_replicate]
    congr 1
    omega
  have hnul := Cells.store_append (front.map some ++ Cells.fresh (digits.length + k)) [] none
    (0 : UInt8)
  have hroom : (front.map some ++ Cells.fresh (digits.length + k)).length =
      front.length + digits.length + k := by
    rw [length_append, length_map, Cells.fresh, List.length_replicate, Nat.add_assoc]
  have hsplit : front.map some ++ Cells.fresh (digits.length + k + 1) =
      front.map some ++ Cells.fresh (digits.length + k) ++ [none] := by
    rw [Cells.fresh, replicate_succ', append_assoc]
    rfl
  have htake : (front ++ digits).take ((front ++ digits).length - digits.length) = front := by
    rw [length_append, Nat.add_sub_cancel, take_left]
  rw [hroom] at hnul
  rw [length_nil, Nat.zero_add, nil_append, nil_append, hsplit] at hfront
  rw [length_reverse, ← reverse_append, hdown, ← Nat.add_assoc] at hloop
  rw [underscoreBuffer, htake, hk, length_append, hfresh, Int.toNat_natCast, nil_append,
    hfront]
  change (Cells.store (front.map some ++ Cells.fresh (digits.length + k) ++ [none])
    (front.length + digits.length + k) 0).bind _ = _
  rw [hnul, Option.bind_some, hloop, map_append, map_append]
  rfl

/-! ## The text -/

/-- `convbase_ptr` works on the absolute value. -/
def magnitude (v : Zlong) : ℕ := (if v.slt 0 then -v else v).toNat

/-- The digits that are written. -/
def digitText (base x : ℕ) : Bytes :=
  (digitValues base (if countDigits base 64 x = 0 then 1 else countDigits base 64 x) x).map digitChar

theorem convbasePtr_eq (cbases octalZeroes : Bool) (v : Zlong) {base : ℕ} (hbase : 2 ≤ base) :
    convbasePtr cbases octalZeroes v base =
      ((if v.slt 0 then [char '-'] else []) ++ basePrefix cbases octalZeroes base ++
        digitText base (magnitude v), (digitText base (magnitude v)).length) := by
  have hnot : ¬ (-1 ≤ (base : ℤ) ∧ (base : ℤ) ≤ 1) := by omega
  have hpos : 0 < (base : ℤ) := by omega
  have hsplit : (if v.slt 0 then ([char '-'], -v) else ([], v)) =
      ((if v.slt 0 then [char '-'] else []), (if v.slt 0 then -v else v)) := by
    split <;> rfl
  rw [convbasePtr, hsplit]
  dsimp only
  rw [if_neg hnot, if_pos hpos, Int.toNat_natCast, Int.natAbs_natCast, digitsInto_eq,
    append_nil, digitText, length_map, digitValues_length]
  rfl

/-- A text of the digits of a number, perhaps with underscores, that begins with a digit; a zero at
the beginning is the whole text. -/
structure DigitsOf (base x : ℕ) (text : Bytes) : Prop where
  digits : ∃ ds, DigitText base true text ds ∧ value base ds = x
  head : ∃ c rest, text = c :: rest ∧ (digitOf base c).isSome = true ∧ (c = char '0' → rest = [])

theorem digitText_filter {base : ℕ} {text : Bytes}
    (h : ∀ c ∈ text.filter (· ≠ char '_'), (digitOf base c).isSome = true) :
    DigitText base true text ((text.filter (· ≠ char '_')).filterMap (digitOf base)) := by
  induction text with
  | nil => exact .nil
  | cons c text ih =>
    by_cases hc : c = char '_'
    · subst hc
      exact .underscore rfl (ih h)
    · rw [filter_cons_of_pos (by simpa using hc)] at h ⊢
      obtain ⟨d, hd⟩ := Option.isSome_iff_exists.mp (h c mem_cons_self)
      rw [filterMap_cons, hd]
      exact .digit hd (ih fun c hc ↦ h c (mem_cons_of_mem _ hc))

theorem digitText_digits {base x : ℕ} (hlow : 2 ≤ base) (hhigh : base ≤ 36) :
    (∀ c ∈ digitText base x, (digitOf base c).isSome = true ∧ c ≠ char '_') ∧
      (digitText base x).filterMap (digitOf base) = digitValues base
        (if countDigits base 64 x = 0 then 1 else countDigits base 64 x) x := by
  have hlt := @digitValues_lt base (by omega)
    (if countDigits base 64 x = 0 then 1 else countDigits base 64 x) x
  rw [digitText]
  generalize digitValues base _ x = ds
    at hlt
  constructor
  · intro c hc
    obtain ⟨d, hd, rfl⟩ := List.mem_map.mp hc
    obtain ⟨hdigit, hunder⟩ := digitOf_digitChar hhigh (hlt d hd)
    exact ⟨by rw [hdigit]; rfl, hunder⟩
  · induction ds with
    | nil => rfl
    | cons d ds ih =>
      rw [map_cons, filterMap_cons, (digitOf_digitChar hhigh (hlt d mem_cons_self)).1,
        ih fun d hd ↦ hlt d (mem_cons_of_mem _ hd)]

theorem digitOf_zero {base : ℕ} (hbase : 2 ≤ base) : digitOf base (char '0') = some 0 := by
  unfold digitOf
  split
  · rw [if_pos ⟨UInt8.le_refl _, by omega⟩, Nat.sub_self]
  · rw [if_pos (by decide), Nat.sub_self]

theorem digitText_head {base x : ℕ} (hlow : 2 ≤ base) (hhigh : base ≤ 36) (hx : x < 2 ^ 64) :
    ∃ c rest, digitText base x = c :: rest ∧ (c = char '0' → rest = []) := by
  by_cases hzero : x = 0
  · subst hzero
    exact ⟨_, [], rfl, fun _ ↦ rfl⟩
  · obtain ⟨d, ds, hdigits, hd⟩ := digitValues_head hlow hzero hx
    have hcount : countDigits base 64 x ≠ 0 := by
      rw [countDigits, if_neg hzero]
      exact Nat.succ_ne_zero _
    have hlt : d < base := by
      apply digitValues_lt (by omega) _ x
      rw [hdigits]
      exact mem_cons_self
    rw [digitText, if_neg hcount, hdigits]
    refine ⟨digitChar d, ds.map digitChar, rfl, fun hchar ↦ ?_⟩
    have hdigit := (digitOf_digitChar hhigh hlt).1
    rw [hchar, digitOf_zero hlow] at hdigit
    exact absurd (Option.some.inj hdigit).symm hd

/-- What is left without the underscores decides what a text says. -/
theorem digitsOf_of_filter {base x : ℕ} (hlow : 2 ≤ base) (hhigh : base ≤ 36) (hx : x < 2 ^ 64)
    {text : Bytes} (hfilter : text.filter (· ≠ char '_') = digitText base x)
    (hhead : text.head? = (digitText base x).head?)
    (hone : (digitText base x).length = 1 → text = digitText base x) : DigitsOf base x text := by
  obtain ⟨hdigits, hvalues⟩ := digitText_digits hlow hhigh
  obtain ⟨c, rest, htext, hzero⟩ := digitText_head hlow hhigh hx
  constructor
  · refine ⟨_, digitText_filter (by rw [hfilter]; exact fun c hc ↦ (hdigits c hc).1), ?_⟩
    have hlt := lt_pow_countDigits hlow hx
    rw [hfilter, hvalues]
    split
    · next hcount =>
      rw [hcount, pow_zero] at hlt
      apply value_digitValues
      rw [pow_one]
      omega
    · exact value_digitValues hlt
  · rw [htext, List.head?_cons] at hhead
    obtain ⟨behind, hbehind⟩ : ∃ behind, text = c :: behind := by
      cases text with
      | nil => cases hhead
      | cons c' behind =>
        cases hhead
        exact ⟨behind, rfl⟩
    refine ⟨c, behind, hbehind, ?_, fun hc ↦ ?_⟩
    · exact (hdigits c (by rw [htext]; exact mem_cons_self)).1
    · have hrest := hzero hc
      have hsame := hone (by rw [htext, hrest, length_singleton])
      rw [hbehind, htext, hrest] at hsame
      exact (List.cons.inj hsame).2

theorem digitsOf_digitText {base x : ℕ} (hlow : 2 ≤ base) (hhigh : base ≤ 36) (hx : x < 2 ^ 64) :
    DigitsOf base x (digitText base x) := by
  apply digitsOf_of_filter hlow hhigh hx _ rfl fun _ ↦ rfl
  apply List.filter_eq_self.mpr
  intro c hc
  simpa using ((digitText_digits hlow hhigh).1 c hc).2

theorem spaced_getLast (underscore mod : ℕ) (l : Bytes) :
    (spaced underscore mod l).getLast? = l.getLast? := by
  fun_induction spaced underscore mod l with
  | case1 => rfl
  | case2 => rfl
  | case3 mod c d below hsame ih =>
    rw [List.getLast?_cons, List.getLast?_cons, ih, List.getLast?_cons_cons, List.getLast?_cons]
    rfl
  | case4 mod c d below hsame ih =>
    rw [List.getLast?_cons, ih, List.getLast?_cons_cons, List.getLast?_cons]
    rfl

theorem digitsOf_spaced {base x : ℕ} (hlow : 2 ≤ base) (hhigh : base ≤ 36) (hx : x < 2 ^ 64)
    (underscore : ℕ) :
    DigitsOf base x (spaced underscore 0 (digitText base x).reverse).reverse := by
  apply digitsOf_of_filter hlow hhigh hx
  · rw [filter_reverse, spaced_filter, reverse_reverse]
    intro c hc
    exact ((digitText_digits hlow hhigh).1 c (List.mem_reverse.mp hc)).2
  · rw [List.head?_reverse, spaced_getLast, List.getLast?_reverse]
  · intro hone
    obtain ⟨c, hc⟩ := List.length_eq_one_iff.mp hone
    rw [hc]
    rfl

/-! ## Reading -/

/-- What `zstrtol_underscore` makes of the digits of a number: up to the largest `zlong` the number,
beyond it a warning. -/
structure Reads (r : ZstrtolResult) (x : ℕ) (rest : Bytes) : Prop where
  rest : r.rest = rest
  within : x < 2 ^ 63 → r.value = BitVec.ofNat 64 x ∧ r.warning = none
  beyond : 2 ^ 63 ≤ x → r.warning.isSome = true

theorem zstrtolWarned_digits {base x : ℕ} (hlow : 2 ≤ base) (hhigh : base ≤ 36) (hx : x < 2 ^ 64)
    {text rest : Bytes} (h : DigitsOf base x text) (hrest : EndsDigits base true rest) :
    ∃ r, zstrtolWarned (text ++ rest) base true = some r ∧ Reads r x rest := by
  obtain ⟨ds, htext, hvalue⟩ := h.digits
  obtain ⟨c, behind, hcons, -⟩ := h.head
  change valueFrom base 0 ds = x at hvalue
  obtain ⟨warning, hread, hwarning⟩ := zstrtolWarned_read hlow hhigh .none htext hrest
    (.inl (by rw [hcons]; exact cons_ne_nil c behind))
  have hall : read base zulongSize ds 0 false = (x, false) := by
    have hfits : valueFrom base 0 ds < zulongSize := hvalue ▸ hx
    have happend := read_append (by omega) [] hfits
    rwa [append_nil, hvalue] at happend
  have hlimit : zlongLimit false = 2 ^ 63 - 1 := rfl
  rw [hall, hlimit] at hread hwarning
  refine ⟨_, hread, rfl, fun hlt ↦ ?_, fun hle ↦ ?_⟩
  · have hfinish : finish base (2 ^ 63 - 1) (x, false) = (x, false) :=
      if_neg (by simp; omega)
    rw [hfinish] at hwarning ⊢
    exact ⟨rfl, Option.not_isSome_iff_eq_none.mp (by rw [hwarning]; exact Bool.false_ne_true)⟩
  · have hfinish : finish base (2 ^ 63 - 1) (x, false) = (x / base, true) :=
      if_pos (by simp; omega)
    rw [hfinish] at hwarning
    exact hwarning

theorem zstrtolWarned_announced {base x : ℕ} (hlow : 2 ≤ base) (hhigh : base ≤ 36) (hx : x < 2 ^ 64)
    {front text : Bytes} (h : DigitsOf base x text)
    (hfront : announcedBase (front ++ text) = (base, text)) (hzero : headIs '0' (front ++ text)) :
    ∃ r, zstrtolWarned (front ++ text) 0 true = some r ∧ Reads r x [] := by
  obtain ⟨r, hread, hreads⟩ :=
    @zstrtolWarned_digits _ _ hlow hhigh hx _ [] h (fun c hc ↦ nomatch hc)
  obtain ⟨ds, htext, -⟩ := h.digits
  rw [append_nil] at hread
  refine ⟨r, ?_, hreads⟩
  rw [← hread]
  have hstart : ∀ c ∈ (front ++ text).head?,
      inblank c = false ∧ isDash c = false ∧ c ≠ char '+' := by
    intro c hc
    have hhead : (front ++ text).head? = some (char '0') := of_decide_eq_true hzero
    rw [hhead] at hc
    cases hc
    decide
  obtain ⟨hblank, hneg, hbody⟩ := signText_spec .none hstart
  obtain ⟨hblank', hneg', hbody'⟩ := signText_spec .none fun c hc ↦ htext.head hhigh hc
  rw [nil_append] at hblank hneg hbody hblank' hneg' hbody'
  unfold zstrtolWarned
  dsimp only
  rw [hblank, hneg, hbody, hblank', hneg', hbody', if_pos rfl, hfront,
    if_neg (by omega : ¬ base = 0)]

theorem readInBase_eq {s : Bytes} {base : ℕ} {r : ZstrtolResult}
    (h : zstrtolWarned s base true = some r) :
    readInBase s base true = (r.value, r.rest, none) ∧ readWarning s base = r.warning.toList := by
  have hnot : ¬ (base : ℤ) < 0 := by omega
  have hplain := zstrtolWarned_eq s base true
  rw [readInBase, readWarning, if_neg hnot, if_neg hnot, Int.toNat_natCast, ← hplain, h]
  exact ⟨rfl, rfl⟩

/-! ## `lexconstant` -/

variable {S F V : Type} {host : Host S F V}

/-- What `lexconstant` makes of a constant that is the whole text. -/
structure LexesConstant (host : Host S F V) (s : Bytes) (x : ℕ) : Prop where
  lexeme : ∃ value format, lexconstant host s =
      { tok := .num, ptr := [], value := some (constant host value), format := format } ∧
    (x < 2 ^ 63 → value = BitVec.ofNat 64 x)
  within : x < 2 ^ 63 → lexconstantWarnings host.octalZeroes s = []
  beyond : 2 ^ 63 ≤ x → lexconstantWarnings host.octalZeroes s ≠ []

theorem Reads.toList {r : ZstrtolResult} {x : ℕ} {rest : Bytes} (h : Reads r x rest) :
    (x < 2 ^ 63 → r.warning.toList = []) ∧ (2 ^ 63 ≤ x → r.warning.toList ≠ []) := by
  constructor
  · intro hx
    rw [(h.within hx).2]
    rfl
  · intro hx hnil
    have hsome := h.beyond hx
    rw [Option.toList_eq_nil_iff.mp hnil] at hsome
    cases hsome

theorem lexes_announced {x : ℕ} {s : Bytes} {lastbase : ℤ} {r : ZstrtolResult}
    (hread : zstrtolWarned s 0 true = some r) (hreads : Reads r x [])
    (hlex : lexconstant host s = announced host s lastbase)
    (hwarn : lexconstantWarnings host.octalZeroes s = readWarning s 0) :
    LexesConstant host s x := by
  obtain ⟨hvalue, hwarning⟩ := @readInBase_eq _ 0 _ hread
  change readInBase s 0 true = _ at hvalue
  change readWarning s 0 = _ at hwarning
  rw [← hwarn] at hwarning
  refine ⟨⟨r.value, .inBase lastbase, ?_, fun hx ↦ (hreads.within hx).1⟩, fun hx ↦ ?_, fun hx ↦ ?_⟩
  · rw [hlex, announced, hvalue, hreads.rest]
  · rw [hwarning]
    exact hreads.toList.1 hx
  · rw [hwarning]
    exact hreads.toList.2 hx

set_option maxRecDepth 4000 in
theorem not_separator_of_digit : ∀ c, (idigit c || c = char '_') = true →
    c ≠ char '.' ∧ c ≠ char 'e' ∧ c ≠ char 'E' ∧ c ≠ char '#' ∧ c ≠ char 'x' ∧ c ≠ char 'X' ∧
      c ≠ char 'b' ∧ c ≠ char 'B' :=
  Bytes.forall_byte (by decide)

theorem digitOf_small {base : ℕ} (hbase : base ≤ 10) {c : UInt8} (h : (digitOf base c).isSome) :
    idigit c = true := by
  have h0 : (char '0').toNat = 48 := rfl
  have h9 : (char '9').toNat = 57 := rfl
  unfold digitOf at h
  rw [if_pos hbase] at h
  split at h
  · next hrange =>
    rw [idigit, Bool.and_eq_true, decide_eq_true_eq, decide_eq_true_eq]
    exact ⟨hrange.1, UInt8.le_iff_toNat_le.mpr (by omega)⟩
  · cases h

theorem skipDigits_digits {base : ℕ} (hbase : base ≤ 10) {text : Bytes} {ds : List ℕ}
    (h : DigitText base true text ds) {rest : Bytes} (hrest : skipDigits rest = rest) :
    skipDigits (text ++ rest) = rest := by
  induction h with
  | nil => exact hrest
  | digit hdigit _ ih =>
    have hc := digitOf_small hbase (Option.isSome_of_mem hdigit)
    rw [skipDigits, cons_append, dropWhile_cons_of_pos (by rw [hc]; rfl)]
    exact ih
  | underscore _ _ ih =>
    exact ih

theorem lexes_hexadecimal {x : ℕ} (hx : x < 2 ^ 64) {text : Bytes} (h : DigitsOf 16 x text) :
    LexesConstant host (ascii "0x" ++ text) x := by
  obtain ⟨r, hread, hreads⟩ := 
    @zstrtolWarned_announced _ _ (by decide) (by decide) hx (ascii "0x") _ h rfl rfl
  exact @lexes_announced _ _ _ _ _ _ 16 _ hread hreads rfl rfl

theorem lexes_octal {x : ℕ} (hx : x < 2 ^ 64) {text : Bytes} (h : DigitsOf 8 x text)
    (hoctal : host.octalZeroes = true) : LexesConstant host (ascii "0" ++ text) x := by
  obtain ⟨c, rest, rfl, hdigit, -⟩ := h.head
  obtain ⟨ds, htext, -⟩ := h.digits
  have hc := digitOf_small (by decide) hdigit
  obtain ⟨-, -, -, -, hx1, hx2, hb1, hb2⟩ := not_separator_of_digit c (by rw [hc]; rfl)
  have hskip : skipDigits (c :: rest) = [] := by
    have hall := @skipDigits_digits _ (by decide) _ _ htext [] rfl
    rwa [append_nil] at hall
  have hnot (x : Char) (hne : c ≠ char x) : headIs x (c :: rest) = false := by
    simp [headIs, hne]
  have hannounced : announcedBase (ascii "0" ++ c :: rest) = (8, c :: rest) := by
    change (if headIs 'x' (c :: rest) || headIs 'X' (c :: rest) then _
      else if headIs 'b' (c :: rest) || headIs 'B' (c :: rest) then _ else _) = _
    rw [hnot 'x' hx1, hnot 'X' hx2, hnot 'b' hb1, hnot 'B' hb2]
    rfl
  obtain ⟨r, hread, hreads⟩ := 
    @zstrtolWarned_announced _ _ (by decide) (by decide) hx (ascii "0") _ h hannounced rfl
  have hdash : (ascii "0" ++ c :: rest).head?.any isDash = false := rfl
  have hhead : headIs '0' (ascii "0" ++ c :: rest) = true := rfl
  have htail : (ascii "0" ++ c :: rest).tail = c :: rest := rfl
  have hall : (host.octalZeroes && decide (([] : Bytes).length < (c :: rest).length) &&
      !headIs '.' [] && !headIs 'e' [] && !headIs 'E' [] && !headIs '#' []) = true := by
    rw [hoctal, decide_eq_true (by exact Nat.succ_pos _)]
    rfl
  apply @lexes_announced _ _ _ _ _ _ 8 _ hread hreads
  · unfold lexconstant
    dsimp only
    rw [hdash, if_neg Bool.false_ne_true, if_pos hhead, htail, hnot 'x' hx1, hnot 'X' hx2,
      hnot 'b' hb1, hnot 'B' hb2, hskip, if_pos hall]
    rfl
  · unfold lexconstantWarnings
    dsimp only
    rw [hdash, if_neg Bool.false_ne_true, if_pos hhead, htail, hnot 'x' hx1, hnot 'X' hx2,
      hnot 'b' hb1, hnot 'B' hb2, hskip, if_pos hall]
    rfl

/-- A text that begins with a digit which announces nothing is read as a decimal number first. -/
theorem lexconstant_decimalFirst {c : UInt8} {s : Bytes} (hc : idigit c = true)
    (hzero : c = char '0' → s = []) :
    lexconstant host (c :: s) = lexDecimal host (c :: s) ∧
      lexconstantWarnings host.octalZeroes (c :: s) = lexDecimalWarnings (c :: s) := by
  have hdash : (c :: s).head?.any isDash = false := (digit_plain c hc).2.1
  unfold lexconstant lexconstantWarnings
  dsimp only
  rw [hdash, if_neg Bool.false_ne_true]
  by_cases hhead : c = char '0'
  · obtain rfl := hzero hhead
    subst hhead
    have hone : headIs '0' [char '0'] = true := rfl
    have htail : ([char '0'] : Bytes).tail = [] := rfl
    have hempty (x : Char) : headIs x [] = false := rfl
    have hskip : skipDigits [] = [] := rfl
    have hshort : decide (([] : Bytes).length < ([] : Bytes).length) = false := rfl
    simp only [hone, if_true, htail, hempty, hskip, hshort, Bool.or_false, Bool.and_false,
      Bool.false_and, Bool.false_eq_true, if_false, and_self]
  · have hnot : headIs '0' (c :: s) = false := by simp [headIs, hhead]
    rw [hnot]
    exact ⟨rfl, rfl⟩

theorem lexes_decimal {x : ℕ} (hx : x < 2 ^ 64) {text : Bytes} (h : DigitsOf 10 x text) :
    LexesConstant host text x := by
  obtain ⟨r, hread, hreads⟩ := 
    @zstrtolWarned_digits _ _ (by decide) (by decide) hx _ [] h (fun c hc ↦ nomatch hc)
  obtain ⟨c, rest, rfl, hdigit, hzero⟩ := h.head
  obtain ⟨ds, htext, -⟩ := h.digits
  have hc := digitOf_small (le_refl 10) hdigit
  obtain ⟨hlex, hwarn⟩ := @lexconstant_decimalFirst _ _ _ host _ _ hc hzero
  have hskip : skipDigits (c :: rest) = [] := by
    have hall := @skipDigits_digits _ (le_refl 10) _ _ htext [] rfl
    rwa [append_nil] at hall
  have hdash : (c :: rest).head?.any isDash = false := (digit_plain c hc).2.1
  have hempty (x : Char) : headIs x [] = false := rfl
  rw [append_nil] at hread
  obtain ⟨hvalue, hwarning⟩ := readInBase_eq hread
  change readInBase (c :: rest) 10 true = _ at hvalue
  rw [hreads.rest] at hvalue
  have hall : lexDecimalWarnings (c :: rest) = r.warning.toList := by
    unfold lexDecimalWarnings
    rw [hdash, if_neg Bool.false_ne_true, hskip, hvalue]
    exact hwarning
  rw [← hwarn] at hall
  refine ⟨⟨r.value, id, ?_, fun hx ↦ (hreads.within hx).1⟩, fun hx ↦ ?_, fun hx ↦ ?_⟩
  · rw [hlex]
    unfold lexDecimal
    rw [hdash, if_neg Bool.false_ne_true, hskip, hvalue]
    simp only [hempty, Bool.or_false, Bool.false_eq_true, if_false]
  · rw [hall]
    exact hreads.toList.1 hx
  · rw [hall]
    exact hreads.toList.2 hx

theorem decimal_base {base : ℕ} (hlow : 2 ≤ base) (hhigh : base ≤ 36) :
    Decimal.decimal base = digitText 10 base ∧ toCInt (BitVec.ofNat 64 base) = base ∧
      (Decimal.decimal base).head? ≠ some (char '0') := by
  interval_cases base <;> decide

theorem lexes_based {base x : ℕ} (hlow : 2 ≤ base) (hhigh : base ≤ 36) (hx : x < 2 ^ 64)
    {text : Bytes} (h : DigitsOf base x text) :
    LexesConstant host (Decimal.decimal base ++ (char '#' :: text)) x := by
  obtain ⟨hdecimal, hint, hnotZero⟩ := decimal_base hlow hhigh
  have hfront : DigitsOf 10 base (Decimal.decimal base) := by
    rw [hdecimal]
    exact digitsOf_digitText (by decide) (by decide) (by omega)
  have hends : EndsDigits 10 true (char '#' :: text) := by
    intro c hc
    cases hc
    decide
  obtain ⟨r, hread, hreads⟩ := zstrtolWarned_digits (by decide) (by decide) (by omega) hfront hends
  obtain ⟨r', hread', hreads'⟩ :=
    @zstrtolWarned_digits _ _ hlow hhigh hx _ [] h (fun c hc ↦ nomatch hc)
  rw [append_nil] at hread'
  obtain ⟨hbase, hquiet⟩ := hreads.within (by omega)
  obtain ⟨hvalue, hwarning⟩ := readInBase_eq hread
  obtain ⟨hvalue', hwarning'⟩ := readInBase_eq hread'
  change readInBase _ 10 true = _ at hvalue
  change readWarning _ 10 = _ at hwarning
  rw [hreads.rest, hbase] at hvalue
  rw [hquiet, Option.toList_none] at hwarning
  rw [hreads'.rest] at hvalue'
  obtain ⟨ds, htext, -⟩ := hfront.digits
  have hskip : skipDigits (Decimal.decimal base ++ (char '#' :: text)) = char '#' :: text :=
    skipDigits_digits (le_refl 10) htext rfl
  obtain ⟨c, rest, hcons, hdigit, -⟩ := hfront.head
  have hc := digitOf_small (le_refl 10) hdigit
  rw [hcons, List.head?_cons] at hnotZero
  obtain ⟨hlex, hwarn⟩ := @lexconstant_decimalFirst _ _ _ host _ _ hc
    fun heq ↦ absurd (congrArg some heq) hnotZero
  have hdash : (Decimal.decimal base ++ (char '#' :: text)).head?.any isDash = false := by
    rw [hcons]
    exact (digit_plain c hc).2.1
  have hsharp : headIs '#' (char '#' :: text) = true := decide_eq_true rfl
  have hother (x : Char) (hne : char '#' ≠ char x) : headIs x (char '#' :: text) = false := by
    simp [headIs, hne]
  rw [← cons_append, ← hcons] at hlex hwarn
  have hall : lexDecimalWarnings (Decimal.decimal base ++ (char '#' :: text)) =
      r'.warning.toList := by
    unfold lexDecimalWarnings
    dsimp only
    rw [hdash, if_neg Bool.false_ne_true, hskip, hvalue, hother '.' (by decide),
      hother 'e' (by decide), hother 'E' (by decide)]
    simp only [Bool.or_false, Bool.false_eq_true, if_false, hsharp, if_true, hwarning,
      nil_append, tail_cons, hint]
    exact hwarning'
  rw [← hwarn] at hall
  refine ⟨⟨r'.value, .inBase base, ?_, fun hx ↦ (hreads'.within hx).1⟩, fun hx ↦ ?_, fun hx ↦ ?_⟩
  · rw [hlex]
    unfold lexDecimal
    dsimp only
    rw [hdash, if_neg Bool.false_ne_true, hskip, hvalue, hother '.' (by decide),
      hother 'e' (by decide), hother 'E' (by decide)]
    simp only [Bool.or_false, Bool.false_eq_true, if_false, hsharp, if_true, tail_cons, hint,
      hvalue', Option.none_or]
  · rw [hall]
    exact hreads'.toList.1 hx
  · rw [hall]
    exact hreads'.toList.2 hx

/-- Whatever `convbase_ptr` writes in front of the digits, `lexconstant` reads the number. -/
theorem lexes_convbase (cbases : Bool) {base x : ℕ} (hlow : 2 ≤ base) (hhigh : base ≤ 36)
    (hx : x < 2 ^ 64) {text : Bytes} (h : DigitsOf base x text) :
    LexesConstant host (basePrefix cbases host.octalZeroes base ++ text) x := by
  unfold basePrefix
  split
  · next h16 =>
    obtain rfl : base = 16 := by
      rw [Bool.and_eq_true, decide_eq_true_eq] at h16
      exact h16.2
    exact lexes_hexadecimal hx h
  · split
    · next h8 =>
      rw [Bool.and_eq_true, Bool.and_eq_true, decide_eq_true_eq] at h8
      obtain ⟨⟨-, rfl⟩, hoctal⟩ := h8
      exact lexes_octal hx h hoctal
    · split
      · rw [append_assoc]
        exact lexes_based hlow hhigh hx h
      · next h10 =>
        obtain rfl := not_not.mp h10
        exact lexes_decimal hx h

/-! ## The evaluation -/

theorem convbase_head (cbases octalZeroes : Bool) {base x : ℕ} (hlow : 2 ≤ base)
    (hhigh : base ≤ 36) {text : Bytes} (h : DigitsOf base x text) :
    ∃ c rest, basePrefix cbases octalZeroes base ++ text = c :: rest ∧ idigit c = true := by
  unfold basePrefix
  split
  · exact ⟨char '0', _, rfl, rfl⟩
  · split
    · exact ⟨char '0', _, rfl, rfl⟩
    · split
      · have hfront : DigitsOf 10 base (Decimal.decimal base) := by
          rw [(decimal_base hlow hhigh).1]
          exact digitsOf_digitText (by decide) (by decide) (by omega)
        obtain ⟨c, rest, hcons, hdigit, -⟩ := hfront.head
        rw [hcons]
        exact ⟨c, _, rfl, digitOf_small (le_refl 10) hdigit⟩
      · next h10 =>
        obtain rfl := not_not.mp h10
        obtain ⟨c, rest, hcons, hdigit, -⟩ := h.head
        exact ⟨c, rest, hcons, digitOf_small (le_refl 10) hdigit⟩

theorem lexStep_digit {c : UInt8} (hc : idigit c = true) (s : Bytes) (unary : Bool) :
    lexStep host unary c s = .inl (lexconstant host (c :: s)) := by
  have hne (x : Char) (hx : idigit (char x) = false) : c ≠ char x := digit_ne hc hx
  have hdash : ¬ isDash c = true := by
    rw [(digit_plain c hc).2.1]
    exact Bool.false_ne_true
  have hskip : ¬ (inblank c || c = char '"' || c = 0x9E) = true := by
    have htoken : c ≠ 0x9E := by
      rintro rfl
      cases hc
    simp [(digit_plain c hc).1, hne '"' rfl, htoken]
  have hstarts : startsConstant (c :: s) = true := by
    rw [startsConstant, List.head?_cons, Option.any_some, hc]
    rfl
  rw [lexStep, if_neg (hne '+' rfl), if_neg hdash, if_neg (hne '(' rfl), if_neg (hne ')' rfl),
    if_neg (hne '!' rfl), if_neg (hne '~' rfl), if_neg (hne '&' rfl), if_neg (hne '|' rfl),
    if_neg (hne '^' rfl), if_neg (hne '*' rfl), if_neg (hne '/' rfl), if_neg (hne '%' rfl),
    if_neg (hne '<' rfl), if_neg (hne '>' rfl), if_neg (hne '=' rfl), if_neg (hne '$' rfl),
    if_neg (hne '?' rfl), if_neg (hne ':' rfl), if_neg (hne ',' rfl), if_neg (hne '[' rfl),
    if_neg hskip, if_pos hstarts]

theorem zzlex_constant {c : UInt8} (hc : idigit c = true) (s : Bytes) (unary : Bool) :
    zzlex host unary (c :: s) = lexconstant host (c :: s) := by
  rw [zzlex, lexFrom, lexStep_digit hc]
  rfl

theorem zzlex_minus {c : UInt8} (hc : idigit c = true) (s : Bytes) :
    zzlex host true (char '-' :: c :: s) = negated host (lexconstant host (c :: s)) := by
  have hstarts : startsConstant (c :: s) = true := by
    rw [startsConstant, List.head?_cons, Option.any_some, hc]
    rfl
  have hdash : (c :: s).head?.any isDash = false := (digit_plain c hc).2.1
  have heq : headIs '=' (c :: s) = false := by
    have hne : c ≠ char '=' := digit_ne hc rfl
    simp [headIs, hne]
  have hstep : lexStep host true (char '-') (c :: s) =
      .inl (negated host (lexconstant host (c :: s))) := by
    rw [lexStep, if_neg (by decide), if_pos (by decide), hdash, if_neg Bool.false_ne_true, heq,
      if_neg Bool.false_ne_true, if_pos rfl, if_pos hstarts]
  rw [zzlex, lexFrom, hstep]
  rfl

theorem mathevall_constant {s : Bytes} {value : S → Mnumber F} {format : Format → Format}
    (h : zzlex host true s = { tok := .num, ptr := [], value := some value, format := format })
    {fuel : ℕ} (hfuel : 3 ≤ fuel) (world : World S) :
    ∃ st : ArithState S F V, mathevall host fuel host.topPrec s 0 world =
      .ok ⟨value world.params, [], st⟩ ∧ st.errflag = none := by
  obtain ⟨fuel, rfl⟩ : ∃ k, fuel = k + 3 := ⟨fuel - 3, by omega⟩
  have hstart : lex host (startState s 0 world) =
      { startState s 0 world with
        ptr := [], mtok := .num, yyval := value world.params,
        world := { world with format := format { world.format with lastbase := -1 } } } := by
    have hread : zzlex host (startState s 0 world : ArithState S F V).unary
        (startState s 0 world : ArithState S F V).ptr = _ := h
    rw [lex, hread]
    rfl
  -- Behind the constant the text ends.
  obtain ⟨first, hfirst⟩ : ∃ first : ArithState S F V, first =
      { startState s 0 world with
        ptr := [], mtok := .num, yyval := value world.params, unary := false,
        world := { world with format := format { world.format with lastbase := -1 } } } := ⟨_, rfl⟩
  have hcheck : checkunary (lex host (startState s 0 world)) = first := by
    rw [hstart, hfirst]
    rfl
  have hnum : ¬ (host.topPrec < host.prec first.mtok ∨ first.errflag.isSome) := by
    rw [hfirst]
    have hkind : MathToken.num.type.kind = .none := by decide
    have hprec : host.prec .num ≤ host.topPrec :=
      (prec_operand host hkind).trans (two_le_topPrec host)
    rintro (hlt | hsome)
    · exact absurd hprec (not_le.mpr hlt)
    · cases hsome
  obtain ⟨last, hlast⟩ : ∃ last, last = nextToken host (pushOperand host first) := ⟨_, rfl⟩
  have hend : last.mtok = .eoi ∧ last.errflag = none ∧ last.ptr = [] ∧
      last.stack.values = [⟨none, none, some (value world.params)⟩] := by
    rw [hlast, hfirst]
    refine ⟨rfl, rfl, rfl, rfl⟩
  obtain ⟨htok, herr, hptr, hstack⟩ := hend
  have hnotEoi : ¬ (host.topPrec = host.topPrec ∧
      (lex host (startState s 0 world : ArithState S F V)).mtok = .eoi) := by
    rw [hstart]
    rintro ⟨-, heoi⟩
    cases heoi
  have hparse : mathparse host (fuel + 3) host.topPrec (startState s 0 world) = .ok last := by
    rw [mathparse, if_neg (by exact Bool.false_ne_true)]
    rw [if_neg hnotEoi, hcheck, mathloop_operand hnum (.inl (by rw [hfirst])), ← hlast]
    apply mathloop_stop
    rw [htok]
    exact .inl (prec_eoi le_rfl)
  refine ⟨last, ?_, herr⟩
  have hnotClosing : ¬ last.mtok = .outpar := by
    rw [htok]
    exact MathToken.noConfusion
  rw [mathevall, hparse]
  dsimp only
  rw [if_neg hnotClosing, herr, if_neg (by exact Bool.false_ne_true), hstack, hptr]
  rfl

/-! ## The round trip -/

/-- The sign that is written. -/
def signText (n : Zlong) : Bytes := if n.slt 0 then [char '-'] else []

theorem magnitude_lt (n : Zlong) : magnitude n < 2 ^ 64 := BitVec.isLt _

/-- Only the lowest number has no absolute value. -/
theorem magnitude_small {n : Zlong} (h : n ≠ BitVec.intMin 64) : magnitude n < 2 ^ 63 := by
  have hsign : n.slt 0 = decide (2 ^ 63 ≤ n.toNat) := by
    have hmsb : n.slt 0 = n.msb := BitVec.slt_zero_eq_msb
    rw [hmsb, BitVec.msb_eq_decide]
  have hne : n.toNat ≠ 2 ^ 63 := fun heq ↦ h (BitVec.eq_of_toNat_eq (heq.trans (by decide)))
  rw [magnitude, hsign]
  split
  · next hneg =>
    have hle := of_decide_eq_true hneg
    rw [BitVec.toNat_neg]
    omega
  · next hpos =>
    have hle := of_decide_eq_false (Bool.eq_false_iff.mpr hpos)
    omega

theorem magnitude_intMin : magnitude (BitVec.intMin 64) = 2 ^ 63 := by decide

/-- A printed text is read as one constant. -/
theorem printed_read (cbases : Bool) (n : Zlong) {base : ℕ} (hlow : 2 ≤ base) (hhigh : base ≤ 36)
    {text : Bytes} (h : DigitsOf base (magnitude n) text) :
    (∃ value : Zlong, ∃ format,
      zzlex host true (signText n ++ basePrefix cbases host.octalZeroes base ++ text) =
        { tok := .num, ptr := [], format := format,
          value := some fun params ↦ if n.slt 0 then
            (constant host value params).negate host.numerics else constant host value params } ∧
      (magnitude n < 2 ^ 63 → value = BitVec.ofNat 64 (magnitude n))) ∧
    (constantWarnings host.octalZeroes
      (signText n ++ basePrefix cbases host.octalZeroes base ++ text) = [] ↔
        magnitude n < 2 ^ 63) := by
  have hlexes := @lexes_convbase _ _ _ host cbases _ _ hlow hhigh (magnitude_lt n) _ h
  obtain ⟨c, rest, hcons, hc⟩ := convbase_head cbases host.octalZeroes hlow hhigh h
  obtain ⟨⟨value, format, hlex, hvalue⟩, hwithin, hbeyond⟩ := hlexes
  have hwarnings : lexconstantWarnings host.octalZeroes
      (basePrefix cbases host.octalZeroes base ++ text) = [] ↔ magnitude n < 2 ^ 63 :=
    ⟨fun hnil ↦ not_le.mp fun hle ↦ hbeyond hle hnil, hwithin⟩
  rw [append_assoc, signText]
  rw [hcons] at hlex hwarnings ⊢
  cases hneg : n.slt 0 with
  | true =>
    refine ⟨⟨value, format, ?_, hvalue⟩, hwarnings⟩
    rw [if_pos rfl, singleton_append, zzlex_minus hc, hlex]
    rfl
  | false =>
    refine ⟨⟨value, format, ?_, hvalue⟩, ?_⟩
    · rw [if_neg Bool.false_ne_true, nil_append, zzlex_constant hc, hlex]
      rfl
    · have hdash : (c :: rest).head?.any isDash = false := (digit_plain c hc).2.1
      rw [if_neg Bool.false_ne_true, nil_append, constantWarnings, hdash,
        if_neg Bool.false_ne_true]
      exact hwarnings

/-- Printed and evaluated, with underscores or without, the integer comes back without a warning or
an error; the underscores fill the buffer that was allocated for them. -/
structure IntegerRoundTrip (host : Host S F V) (world : World S) (cbases : Bool) (n : Zlong)
    (base : ℕ) (underscore : ℤ) : Prop where
  read : ∀ text, text = convbase cbases host.octalZeroes n base ∨
      convbaseUnderscore cbases host.octalZeroes n base underscore = some text →
    constantWarnings host.octalZeroes text = [] ∧
      ∀ fuel, 3 ≤ fuel → ∃ st : ArithState S F V,
        mathevall host fuel host.topPrec text 0 world = .ok ⟨.int n, [], st⟩ ∧ st.errflag = none
  underscores : ∃ text, convbaseUnderscore cbases host.octalZeroes n base underscore = some text ∧
    text.filter (· ≠ char '_') = convbase cbases host.octalZeroes n base
  fills : let s := convbasePtr cbases host.octalZeroes n base
    nunderscore s.2 underscore ≠ 0 →
      ∃ text, convbaseUnderscore cbases host.octalZeroes n base underscore = some text ∧
        underscoreBuffer s.1 s.2 underscore = some ((text ++ [0]).map some)

theorem stringIn_text {text : Bytes} (h : ∀ c ∈ text, c ≠ 0) :
    stringIn ((text ++ [0]).map some) = some text := by
  induction text with
  | nil => rfl
  | cons c text ih =>
    rw [cons_append, map_cons, stringIn, if_neg (h c mem_cons_self),
      ih fun c hc ↦ h c (mem_cons_of_mem _ hc)]
    rfl

theorem digitText_plain {base : ℕ} (hhigh : base ≤ 36) {text : Bytes} {ds : List ℕ}
    (h : DigitText base true text ds) : ∀ c ∈ text, c ≠ 0 := by
  induction h with
  | nil => exact fun c hc ↦ nomatch hc
  | @digit c' s d ds hdigit _ ih =>
    intro c hc
    obtain rfl | hc := List.mem_cons.mp hc
    · rintro rfl
      have hle := (digitOf_spec hhigh hdigit).2.1
      exact absurd hle (by decide)
    · exact ih c hc
  | underscore _ _ ih =>
    intro c hc
    obtain rfl | hc := List.mem_cons.mp hc
    · decide
    · exact ih c hc

theorem front_plain (cbases octalZeroes : Bool) (n : Zlong) {base : ℕ} (hlow : 2 ≤ base)
    (hhigh : base ≤ 36) :
    ∀ c ∈ signText n ++ basePrefix cbases octalZeroes base, c ≠ 0 ∧ c ≠ char '_' := by
  have hdecimal : ∀ c ∈ Decimal.decimal base, c ≠ 0 ∧ c ≠ char '_' := by
    intro c hc
    obtain ⟨ds, htext, -⟩ := (digitsOf_digitText (x := base) (by decide : 2 ≤ 10) (by decide)
      (by omega)).digits
    rw [(decimal_base hlow hhigh).1] at hc
    exact ⟨digitText_plain (by decide) htext c hc,
      ((digitText_digits (by decide : 2 ≤ 10) (by decide)).1 c hc).2⟩
  intro c hc
  obtain hsign | hfront := List.mem_append.mp hc
  · rw [signText] at hsign
    split at hsign
    · rw [List.mem_singleton.mp hsign]
      decide
    · cases hsign
  · unfold basePrefix at hfront
    split at hfront
    · have hall : ∀ c ∈ ascii "0x", c ≠ 0 ∧ c ≠ char '_' := by decide
      exact hall c hfront
    · split at hfront
      · have hall : ∀ c ∈ ascii "0", c ≠ 0 ∧ c ≠ char '_' := by decide
        exact hall c hfront
      · split at hfront
        · obtain hbase | hsharp := List.mem_append.mp hfront
          · exact hdecimal c hbase
          · have hall : ∀ c ∈ ascii "#", c ≠ 0 ∧ c ≠ char '_' := by decide
            exact hall c hsharp
        · cases hfront

theorem convbaseUnderscore_eq (cbases octalZeroes : Bool) (n : Zlong) {base : ℕ} (hlow : 2 ≤ base)
    (hhigh : base ≤ 36) (underscore : ℤ) :
    ∃ text, DigitsOf base (magnitude n) text ∧
      text.filter (· ≠ char '_') = digitText base (magnitude n) ∧
      convbaseUnderscore cbases octalZeroes n base underscore =
        some (signText n ++ basePrefix cbases octalZeroes base ++ text) ∧
      (nunderscore (digitText base (magnitude n)).length underscore ≠ 0 →
        underscoreBuffer (signText n ++ basePrefix cbases octalZeroes base ++
            digitText base (magnitude n)) (digitText base (magnitude n)).length underscore =
          some ((signText n ++ basePrefix cbases octalZeroes base ++ text ++ [0]).map some)) := by
  have hprinted := convbasePtr_eq cbases octalZeroes n hlow
  change _ = (signText n ++ _ ++ _, _) at hprinted
  have hplain := digitsOf_digitText hlow hhigh (magnitude_lt n)
  have hdigits := (digitText_digits (x := magnitude n) hlow hhigh).1
  by_cases hnone : nunderscore (digitText base (magnitude n)).length underscore = 0
  · refine ⟨digitText base (magnitude n), hplain, ?_, ?_, fun hsome ↦ absurd hnone hsome⟩
    · apply List.filter_eq_self.mpr
      intro c hc
      simpa using (hdigits c hc).2
    · rw [convbaseUnderscore, hprinted]
      exact if_pos hnone
  · have hpos : 0 < underscore := by
      by_contra hnot
      exact hnone (if_pos (not_lt.mp hnot))
    obtain ⟨c, rest, hcons, -⟩ := hplain.head
    have hne : digitText base (magnitude n) ≠ [] := by
      rw [hcons]
      exact cons_ne_nil c rest
    have hspaced := digitsOf_spaced hlow hhigh (magnitude_lt n) underscore.toNat
    have hbuffer := underscoreBuffer_eq (signText n ++ basePrefix cbases octalZeroes base) hne hpos
    refine ⟨_, hspaced, ?_, ?_, fun _ ↦ hbuffer⟩
    · rw [filter_reverse, spaced_filter, reverse_reverse]
      intro c hc
      exact (hdigits c (List.mem_reverse.mp hc)).2
    · rw [convbaseUnderscore, hprinted]
      dsimp only
      rw [if_neg hnone, hbuffer, Option.bind_some, stringIn_text]
      intro c hc
      obtain hfront | htext := List.mem_append.mp hc
      · exact (front_plain cbases octalZeroes n hlow hhigh c hfront).1
      · obtain ⟨ds, hds, -⟩ := hspaced.digits
        exact digitText_plain hhigh hds c htext

/-- The round trip holds of every integer but the lowest one, unless all constants are
floating-point numbers. -/
theorem integerRoundTrip_iff (host : Host S F V) (world : World S) (cbases : Bool) (n : Zlong)
    {base : ℕ} (hlow : 2 ≤ base) (hhigh : base ≤ 36) (underscore : ℤ) :
    IntegerRoundTrip host world cbases n base underscore ↔
      n ≠ BitVec.intMin 64 ∧ host.forceFloat = false := by
  have hprinted := convbasePtr_eq cbases host.octalZeroes n hlow
  change _ = (signText n ++ _ ++ _, _) at hprinted
  have hconvbase : convbase cbases host.octalZeroes n base =
      signText n ++ basePrefix cbases host.octalZeroes base ++ digitText base (magnitude n) := by
    rw [convbase, hprinted]
  have hplain := digitsOf_digitText hlow hhigh (magnitude_lt n)
  constructor
  · intro h
    obtain ⟨hquiet, heval⟩ := h.read _ (.inl rfl)
    obtain ⟨⟨value, format, hlex, -⟩, hwarn⟩ :=
      @printed_read _ _ _ host cbases n _ hlow hhigh _ hplain
    rw [hconvbase] at hquiet heval
    constructor
    · rintro rfl
      have hlt := hwarn.mp hquiet
      exact absurd hlt (lt_irrefl _)
    · obtain ⟨st, hresult, -⟩ := heval 3 le_rfl
      obtain ⟨st', hresult', -⟩ := mathevall_constant hlex le_rfl world
      rw [hresult] at hresult'
      by_contra hfloat
      rw [Bool.not_eq_false] at hfloat
      have hnumber : Mnumber.int n = if n.slt 0 then
          (constant host value world.params).negate host.numerics
          else constant host value world.params :=
        congrArg Evaluated.result (Except.ok.inj hresult')
      rw [constant, if_pos hfloat] at hnumber
      split at hnumber
      · cases hnumber
      · cases hnumber
  · rintro ⟨hn, hfloat⟩
    have hsmall := magnitude_small hn
    obtain ⟨text, htext, hfilter, hunderscore, hbuffer⟩ :=
      convbaseUnderscore_eq cbases host.octalZeroes n hlow hhigh underscore
    have hread {text : Bytes} (h : DigitsOf base (magnitude n) text) :
        constantWarnings host.octalZeroes
            (signText n ++ basePrefix cbases host.octalZeroes base ++ text) = [] ∧
          ∀ fuel, 3 ≤ fuel → ∃ st : ArithState S F V, mathevall host fuel host.topPrec
            (signText n ++ basePrefix cbases host.octalZeroes base ++ text) 0 world =
              .ok ⟨.int n, [], st⟩ ∧ st.errflag = none := by
      obtain ⟨⟨value, format, hlex, hvalue⟩, hwarn⟩ :=
        @printed_read _ _ _ host cbases n _ hlow hhigh _ h
      refine ⟨hwarn.mpr hsmall, fun fuel hfuel ↦ ?_⟩
      obtain ⟨st, hresult, herr⟩ := mathevall_constant hlex hfuel world
      refine ⟨st, ?_, herr⟩
      have hconstant : constant host value world.params = .int (BitVec.ofNat 64 (magnitude n)) := by
        rw [constant, hfloat, if_neg Bool.false_ne_true, hvalue hsmall]
      rw [hresult, hconstant, magnitude]
      cases hneg : n.slt 0 with
      | true => rw [if_pos rfl, if_pos rfl, BitVec.ofNat_toNat, BitVec.setWidth_eq, Mnumber.negate,
          BitVec.neg_neg]
      | false => rw [if_neg Bool.false_ne_true, if_neg Bool.false_ne_true, BitVec.ofNat_toNat,
          BitVec.setWidth_eq]
    refine ⟨?_, ⟨_, hunderscore, ?_⟩, ?_⟩
    · rintro t (rfl | ht)
      · rw [hconvbase]
        exact hread hplain
      · rw [hunderscore] at ht
        cases ht
        exact hread htext
    · rw [filter_append, hfilter, hconvbase]
      congr 1
      apply List.filter_eq_self.mpr
      intro c hc
      simpa using (front_plain cbases host.octalZeroes n hlow hhigh c hc).2
    · rw [hprinted]
      exact fun hsome ↦ ⟨_, hunderscore, hbuffer hsome⟩

/-- A shell without parameters, whose only number that is no integer is zero. -/
def plainHost (octalZeroes : Bool) : Host Unit Unit Unit where
  numerics := {
    ofInt := fun _ ↦ (), toInt := fun _ ↦ 0, zero := (), one := (), add := fun _ _ ↦ (),
    sub := fun _ _ ↦ (), mul := fun _ _ ↦ (), div := fun _ _ ↦ (), fmod := fun _ _ ↦ (),
    pow := fun _ _ ↦ (), neg := fun _ ↦ (), lt := fun _ _ ↦ false, le := fun _ _ ↦ true,
    eq := fun _ _ ↦ true, shiftLeft := fun a b ↦ a <<< b.toNat,
    shiftRight := fun a b ↦ a.sshiftRight b.toNat }
  cPrecedences := false
  octalZeroes := octalZeroes
  forceFloat := false
  unsetIsZero := true
  emulateSh := false
  mypid := 1
  lastval := fun _ ↦ 0
  poundgetfn := fun _ ↦ 0
  itypeEnd := fun _ ↦ 0
  strtod := fun _ ↦ ((), 0)
  getkeystring := fun _ ↦ none
  getvalue := fun _ world ↦ (none, none, world)
  getnumvalue := fun _ world ↦ (.int 0, none, world)
  isCurrent := fun _ _ _ ↦ false
  setnumvalue := fun _ _ world ↦ (none, world)
  setnparam := fun _ _ world ↦ (none, none, world)
  getcvar := fun _ world ↦ (0, none, world)
  callmathfunc := fun _ world ↦ (.int 0, none, world)

def plainWorld : World Unit := ⟨(), ⟨-1, 0, 0⟩⟩

/-- `-0o377` in two groups of digits. -/
theorem integerRoundTrip_example :
    convbaseUnderscore true true (-255) 8 2 = some (ascii "-03_77") ∧
      (IntegerRoundTrip (plainHost true) plainWorld true (-255) 8 2 ↔
        (-255 : Zlong) ≠ BitVec.intMin 64 ∧ (plainHost true).forceFloat = false) :=
  ⟨by decide, integerRoundTrip_iff (plainHost true) plainWorld true (-255) (by decide) (by decide) 2⟩

/-- The lowest number loses its last digit. -/
theorem intMin_truncated :
    convbase false false (BitVec.intMin 64) 10 = ascii "-9223372036854775808" ∧
      constantWarnings false (ascii "-9223372036854775808") =
        [(18, ascii "9223372036854775808")] ∧
      ¬ IntegerRoundTrip (plainHost false) plainWorld false (BitVec.intMin 64) 10 0 := by
  have htext : convbase false false (BitVec.intMin 64) 10 = ascii "-9223372036854775808" := by decide
  have hwarning : constantWarnings false (ascii "-9223372036854775808") =
      [(18, ascii "9223372036854775808")] := by decide
  refine ⟨htext, hwarning, fun h ↦ ?_⟩
  have hquiet := (h.read _ (.inl htext.symm)).1
  cases hquiet

end Bsh.Shell.Arith
