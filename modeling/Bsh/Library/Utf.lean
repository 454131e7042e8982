import Mathlib.Tactic.IntervalCases
import Bsh.Library.Bytes

/-!
# UTF-16 strings and their UTF-8 encoding

A JavaScript string is a list of UTF-16 code units, in which surrogates need not be paired.
`utf8Encode` is the conversion of `Buffer.from(s, 'utf8')`: a surrogate pair becomes one four-byte
sequence and a lone surrogate becomes U+FFFD.  `utf8Decode` is the conversion of
`buf.toString('utf8')`: every maximal ill-formed part becomes one U+FFFD.
-/

namespace Bsh.Library

open List

/-- A JavaScript string: UTF-16 code units. -/
abbrev JsString := List UInt16

namespace Utf

/-- The code units of an ASCII literal. -/
def js (text : String) : JsString := text.toList.map fun c ↦ UInt16.ofNat c.toNat

/-- The string with one code unit for each byte (the `latin1` view of a byte string). -/
def latin1 (bytes : Bytes) : JsString := bytes.map UInt8.toUInt16

def isHighSurrogate (c : UInt16) : Bool := 0xD800 ≤ c && c ≤ 0xDBFF

def isLowSurrogate (c : UInt16) : Bool := 0xDC00 ≤ c && c ≤ 0xDFFF

/-- U+FFFD in UTF-8. -/
def replacementBytes : Bytes := [0xEF, 0xBF, 0xBD]

/-- The bytes of one code unit that is not the first of a surrogate pair. -/
def encodeUnit (c : UInt16) : Bytes :=
  if c < 0x80 then [c.toUInt8]
  else if c < 0x800 then [UInt8.ofNat (0xC0 + c.toNat / 64), UInt8.ofNat (0x80 + c.toNat % 64)]
  else if isHighSurrogate c || isLowSurrogate c then replacementBytes
  else [UInt8.ofNat (0xE0 + c.toNat / 4096), UInt8.ofNat (0x80 + c.toNat / 64 % 64),
    UInt8.ofNat (0x80 + c.toNat % 64)]

/-- The four bytes of a surrogate pair. -/
def encodePair (high low : UInt16) : Bytes :=
  let scalar := 0x10000 + (high.toNat - 0xD800) * 0x400 + (low.toNat - 0xDC00)
  [UInt8.ofNat (0xF0 + scalar / 262144), UInt8.ofNat (0x80 + scalar / 4096 % 64),
    UInt8.ofNat (0x80 + scalar / 64 % 64), UInt8.ofNat (0x80 + scalar % 64)]

/-- `Buffer.from(s, 'utf8')`. -/
def utf8Encode : JsString → Bytes
  | [] => []
  | [c] => encodeUnit c
  | c :: d :: rest =>
    if isHighSurrogate c && isLowSurrogate d then encodePair c d ++ utf8Encode rest
    else encodeUnit c ++ utf8Encode (d :: rest)

/-- What a decoder still expects: the number of continuation bytes, the bits read so far and the
range of the next byte. -/
structure Pending where
  needed : ℕ
  bits : ℕ
  lower : UInt8
  upper : UInt8

def Pending.none : Pending := ⟨0, 0, 0x80, 0xBF⟩

/-- Read the first byte of a sequence: the units already decided, and what is expected next. -/
def decodeLead (b : UInt8) : JsString × Pending :=
  if b < 0x80 then ([b.toUInt16], .none)
  else if 0xC2 ≤ b && b ≤ 0xDF then ([], ⟨1, b.toNat % 32, 0x80, 0xBF⟩)
  else if b == 0xE0 then ([], ⟨2, b.toNat % 16, 0xA0, 0xBF⟩)
  else if b == 0xED then ([], ⟨2, b.toNat % 16, 0x80, 0x9F⟩)
  else if 0xE1 ≤ b && b ≤ 0xEF then ([], ⟨2, b.toNat % 16, 0x80, 0xBF⟩)
  else if b == 0xF0 then ([], ⟨3, b.toNat % 8, 0x90, 0xBF⟩)
  else if b == 0xF4 then ([], ⟨3, b.toNat % 8, 0x80, 0x8F⟩)
  else if 0xF1 ≤ b && b ≤ 0xF3 then ([], ⟨3, b.toNat % 8, 0x80, 0xBF⟩)
  else ([0xFFFD], .none)

/-- The code units of a scalar value. -/
def scalarUnits (scalar : ℕ) : JsString :=
  if scalar < 0x10000 then [UInt16.ofNat scalar]
  else [UInt16.ofNat (0xD800 + (scalar - 0x10000) / 0x400),
    UInt16.ofNat (0xDC00 + (scalar - 0x10000) % 0x400)]

def decodeFrom : Pending → Bytes → JsString
  | pending, [] => if pending.needed = 0 then [] else [0xFFFD]
  | pending, b :: rest =>
    if pending.needed = 0 then
      (decodeLead b).1 ++ decodeFrom (decodeLead b).2 rest
    else if pending.lower ≤ b ∧ b ≤ pending.upper then
      let bits := pending.bits * 64 + b.toNat % 64
      if pending.needed = 1 then scalarUnits bits ++ decodeFrom .none rest
      else decodeFrom ⟨pending.needed - 1, bits, 0x80, 0xBF⟩ rest
    else
      -- The byte that breaks a sequence starts the next one.
      0xFFFD :: (decodeLead b).1 ++ decodeFrom (decodeLead b).2 rest

/-- `buf.toString('utf8')`. -/
def utf8Decode (bytes : Bytes) : JsString := decodeFrom .none bytes

/-! ## Bytes of units beyond ASCII -/

/-! ## ASCII -/

/-- All bytes are below `0x80`. -/
def IsAscii (bytes : Bytes) : Prop := ∀ b ∈ bytes, b < 0x80

instance (bytes : Bytes) : Decidable (IsAscii bytes) :=
  inferInstanceAs (Decidable (∀ b ∈ bytes, b < 0x80))

theorem utf8Decode_ascii {bytes : Bytes} (h : IsAscii bytes) :
    utf8Decode bytes = latin1 bytes := by
  unfold utf8Decode
  induction bytes with
  | nil => rfl
  | cons b rest ih =>
    have hb : b < 0x80 := h b (by simp)
    have hlead : decodeLead b = ([b.toUInt16], .none) := by
      rw [decodeLead, if_pos hb]
    have hnone : Pending.none.needed = 0 := rfl
    rw [decodeFrom, if_pos hnone, hlead, ih fun c hc ↦ h c (mem_cons_of_mem b hc)]
    rfl

theorem encodeUnit_of_lt {c : UInt16} (h : c < 0x80) : encodeUnit c = [c.toUInt8] := if_pos h

/-- A unit that is not a high surrogate is encoded on its own. -/
theorem utf8Encode_cons {c : UInt16} (h : isHighSurrogate c = false) (rest : JsString) :
    utf8Encode (c :: rest) = encodeUnit c ++ utf8Encode rest := by
  cases rest with
  | nil => simp [utf8Encode]
  | cons d rest => simp [utf8Encode, h]

theorem not_isHighSurrogate_of_lt {c : UInt16} (h : c < 0xD800) : isHighSurrogate c = false := by
  have hle : ¬ 0xD800 ≤ c := UInt16.not_le.mpr h
  simp [isHighSurrogate, hle]

theorem utf8Encode_append_ascii {text : JsString} (h : ∀ c ∈ text, c < 0x80)
    (rest : JsString) :
    utf8Encode (text ++ rest) = text.map UInt16.toUInt8 ++ utf8Encode rest := by
  induction text with
  | nil => rfl
  | cons c text ih =>
    have hc : c < 0x80 := h c (by simp)
    have hsurrogate : isHighSurrogate c = false :=
      not_isHighSurrogate_of_lt (UInt16.lt_trans hc (by decide))
    rw [cons_append, utf8Encode_cons hsurrogate, encodeUnit_of_lt hc,
      ih fun d hd ↦ h d (mem_cons_of_mem c hd)]
    rfl

theorem utf8Encode_ascii {text : JsString} (h : ∀ c ∈ text, c < 0x80) :
    utf8Encode text = text.map UInt16.toUInt8 := by
  have happend := utf8Encode_append_ascii h []
  rwa [append_nil, utf8Encode, append_nil] at happend

theorem latin1_lt {bytes : Bytes} (h : IsAscii bytes) : ∀ c ∈ latin1 bytes, c < 0x80 := by
  intro c hc
  obtain ⟨b, hb, rfl⟩ := List.mem_map.mp hc
  have hlt := UInt8.lt_iff_toNat_lt.mp (h b hb)
  exact UInt16.lt_iff_toNat_lt.mpr (by simpa using hlt)

@[simp]
theorem toUInt8_latin1 (bytes : Bytes) : (latin1 bytes).map UInt16.toUInt8 = bytes := by
  simp [latin1, Function.comp_def]

/-- A byte of `0x80` or more takes two bytes once it has been read as a code unit. -/
theorem encodeUnit_toUInt16_length (b : UInt8) :
    (encodeUnit b.toUInt16).length = if b < 0x80 then 1 else 2 := by
  have hlt := b.toNat_lt
  have hunit : b.toUInt16 < 0x80 ↔ b < 0x80 := by
    rw [UInt16.lt_iff_toNat_lt, UInt8.lt_iff_toNat_lt]
    simp
  have hsmall : b.toUInt16 < 0x800 := by
    exact Nat.lt_of_lt_of_le hlt (by decide)
  by_cases hb : b < 0x80
  · simp [encodeUnit, hunit, hb]
  · simp [encodeUnit, hunit, hb, hsmall]

theorem utf8Encode_latin1_length (bytes : Bytes) :
    (utf8Encode (latin1 bytes)).length =
      bytes.length + bytes.countP (fun b ↦ decide (¬ b < 0x80)) := by
  induction bytes with
  | nil => rfl
  | cons b rest ih =>
    have hsurrogate : isHighSurrogate b.toUInt16 = false := by
      apply not_isHighSurrogate_of_lt
      exact Nat.lt_of_lt_of_le b.toNat_lt (by decide)
    have hcons : latin1 (b :: rest) = b.toUInt16 :: latin1 rest := rfl
    rw [hcons, utf8Encode_cons hsurrogate, length_append, encodeUnit_toUInt16_length, ih,
      length_cons, countP_cons]
    by_cases hb : b < 0x80
    · simp [hb]
      omega
    · simp [hb]
      omega

/-- Reading bytes as code units and encoding them again is the identity exactly on ASCII. -/
theorem utf8Encode_latin1_eq_iff (bytes : Bytes) :
    utf8Encode (latin1 bytes) = bytes ↔ IsAscii bytes := by
  constructor
  · intro h
    have hlen := utf8Encode_latin1_length bytes
    rw [h] at hlen
    have hcount : bytes.countP (fun b ↦ decide (¬ b < 0x80)) = 0 := by omega
    rw [countP_eq_zero] at hcount
    intro b hb
    simpa using hcount b hb
  · intro h
    rw [utf8Encode_ascii (latin1_lt h), toUInt8_latin1]

end Utf

end Bsh.Library

/-!
# Wide characters and UTF-8

`wcrtomb` and `mbrtowc` of a UTF-8 locale.  The shift state of `mbrtowc` is what has been read of a
character whose end has not been seen; a call that ends inside a character leaves that state, and
the next call goes on from it.
-/

namespace Bsh.Library

open List

namespace Utf8

open Utf

/-- `wcrtomb`: the bytes of a scalar value. -/
def wcrtomb (wc : ℕ) : Option Bytes :=
  if wc < 0x80 then some [UInt8.ofNat wc]
  else if wc < 0x800 then some [UInt8.ofNat (0xC0 + wc / 64), UInt8.ofNat (0x80 + wc % 64)]
  else if 0xD800 ≤ wc ∧ wc < 0xE000 then none
  else if wc < 0x10000 then
    some [UInt8.ofNat (0xE0 + wc / 4096), UInt8.ofNat (0x80 + wc / 64 % 64),
      UInt8.ofNat (0x80 + wc % 64)]
  else if wc < 0x110000 then
    some [UInt8.ofNat (0xF0 + wc / 262144), UInt8.ofNat (0x80 + wc / 4096 % 64),
      UInt8.ofNat (0x80 + wc / 64 % 64), UInt8.ofNat (0x80 + wc % 64)]
  else none

/-- The results of `mbrtowc`: a character and how many bytes end it, `MB_INCOMPLETE` or
`MB_INVALID`. -/
inductive Reading where
  | char (wc cnt : ℕ)
  | incomplete
  | invalid
  deriving DecidableEq

/-- Read on from a state, `cnt` bytes into the call. -/
def readFrom : ℕ → Pending → Bytes → Reading × Pending
  | _, mbs, [] => (.incomplete, mbs)
  | cnt, mbs, b :: rest =>
    if mbs.needed = 0 then
      if b < 0x80 then (.char b.toNat (cnt + 1), .none)
      else if (decodeLead b).2.needed = 0 then (.invalid, .none)
      else readFrom (cnt + 1) (decodeLead b).2 rest
    else if mbs.lower ≤ b ∧ b ≤ mbs.upper then
      if mbs.needed = 1 then (.char (mbs.bits * 64 + b.toNat % 64) (cnt + 1), .none)
      else readFrom (cnt + 1) ⟨mbs.needed - 1, mbs.bits * 64 + b.toNat % 64, 0x80, 0xBF⟩ rest
    else (.invalid, .none)

/-- `mbrtowc`: NUL is reported with the length 0. -/
def mbrtowc (bytes : Bytes) (mbs : Pending) : Reading × Pending :=
  match readFrom 0 mbs bytes with
  | (.char 0 _, mbs) => (.char 0 0, mbs)
  | reading => reading

/-! ## Lead bytes -/

/-- A byte that goes on with a character. -/
def IsTail (b : UInt8) : Prop := 0x80 ≤ b ∧ b ≤ 0xBF

instance (b : UInt8) : Decidable (IsTail b) := inferInstanceAs (Decidable (_ ∧ _))

set_option maxRecDepth 4000 in
theorem decodeLead_spec (b : UInt8) : (decodeLead b).2.needed ≤ 3 ∧
    ((decodeLead b).2.needed ≠ 0 →
      ¬ b < 0x80 ∧ ¬ IsTail b ∧ 0x80 ≤ (decodeLead b).2.lower ∧ (decodeLead b).2.upper ≤ 0xBF) ∧
    ((decodeLead b).2.needed = 3 →
      16 ≤ (decodeLead b).2.bits * 64 + (decodeLead b).2.lower.toNat % 64) := by
  revert b
  exact Bytes.forall_byte (by decide)

/-! ## Reading what was written -/

variable {after mbs : Pending} {b lower upper : UInt8} {bits cnt k n wc : ℕ} {enc : Bytes}

theorem toNat_ofNat_add {base : ℕ} (h : base + n < 256) :
    (UInt8.ofNat (base + n)).toNat = base + n := UInt8.toNat_ofNat_of_lt' h

set_option maxRecDepth 4000 in
theorem decodeLead_two (hlow : 2 ≤ k) (hhigh : k < 32) :
    (decodeLead (UInt8.ofNat (0xC0 + k))).2 = ⟨1, k, 0x80, 0xBF⟩ := by
  interval_cases k <;> rfl

set_option maxRecDepth 4000 in
theorem decodeLead_three (h : k < 16) :
    (decodeLead (UInt8.ofNat (0xE0 + k))).2 =
      ⟨2, k, if k = 0 then 0xA0 else 0x80, if k = 13 then 0x9F else 0xBF⟩ := by
  interval_cases k <;> rfl

set_option maxRecDepth 4000 in
theorem decodeLead_four (h : k < 5) :
    (decodeLead (UInt8.ofNat (0xF0 + k))).2 =
      ⟨3, k, if k = 0 then 0x90 else 0x80, if k = 4 then 0x8F else 0xBF⟩ := by
  interval_cases k <;> rfl

theorem readFrom_last (hk : k < 64)
    (hlower : lower.toNat ≤ 0x80 + k) (hupper : 0x80 + k ≤ upper.toNat) (rest : Bytes) :
    readFrom cnt ⟨1, bits, lower, upper⟩ (UInt8.ofNat (0x80 + k) :: rest) =
      (.char (bits * 64 + k) (cnt + 1), .none) := by
  have hbyte : (UInt8.ofNat (0x80 + k)).toNat = 0x80 + k := toNat_ofNat_add (by omega)
  have hbits : (0x80 + k) % 64 = k := by omega
  have hin : lower ≤ UInt8.ofNat (0x80 + k) ∧ UInt8.ofNat (0x80 + k) ≤ upper := by
    rw [UInt8.le_iff_toNat_le, UInt8.le_iff_toNat_le, hbyte]
    exact ⟨hlower, hupper⟩
  have hone : (Pending.mk 1 bits lower upper).needed ≠ 0 := Nat.one_ne_zero
  rw [readFrom, if_neg hone, if_pos hin, if_pos rfl, hbyte, hbits]

theorem readFrom_more (hk : k < 64)
    (hlower : lower.toNat ≤ 0x80 + k) (hupper : 0x80 + k ≤ upper.toNat) (rest : Bytes) :
    readFrom cnt ⟨n + 2, bits, lower, upper⟩ (UInt8.ofNat (0x80 + k) :: rest) =
      readFrom (cnt + 1) ⟨n + 1, bits * 64 + k, 0x80, 0xBF⟩ rest := by
  have hbyte : (UInt8.ofNat (0x80 + k)).toNat = 0x80 + k := toNat_ofNat_add (by omega)
  have hbits : (0x80 + k) % 64 = k := by omega
  have hin : lower ≤ UInt8.ofNat (0x80 + k) ∧ UInt8.ofNat (0x80 + k) ≤ upper := by
    rw [UInt8.le_iff_toNat_le, UInt8.le_iff_toNat_le, hbyte]
    exact ⟨hlower, hupper⟩
  have hzero : (Pending.mk (n + 2) bits lower upper).needed ≠ 0 := Nat.succ_ne_zero _
  have hone : (Pending.mk (n + 2) bits lower upper).needed ≠ 1 := by
    dsimp only
    omega
  rw [readFrom, if_neg hzero, if_pos hin, if_neg hone, hbyte, hbits]
  rfl

theorem readFrom_lead (hlead : (decodeLead b).2 = mbs)
    (hneeded : mbs.needed ≠ 0) (cnt : ℕ) (rest : Bytes) :
    readFrom cnt .none (b :: rest) = readFrom (cnt + 1) mbs rest := by
  have hnone : Pending.none.needed = 0 := rfl
  rw [← hlead] at hneeded ⊢
  have hascii := ((decodeLead_spec b).2.1 hneeded).1
  rw [readFrom, if_pos hnone, if_neg hascii, if_neg hneeded]

/-- What `wcrtomb` wrote is read back. -/
theorem readFrom_wcrtomb (h : wcrtomb wc = some enc) (cnt : ℕ)
    (rest : Bytes) : readFrom cnt .none (enc ++ rest) = (.char wc (cnt + enc.length), .none) := by
  have hnone : Pending.none.needed = 0 := rfl
  have htail : (0x80 : UInt8).toNat = 128 := rfl
  have hend : (0xBF : UInt8).toNat = 191 := rfl
  unfold wcrtomb at h
  split at h
  case isTrue hone =>
    cases h
    have hascii : UInt8.ofNat wc < 0x80 := by
      rw [UInt8.lt_iff_toNat_lt, UInt8.toNat_ofNat_of_lt' (Nat.lt_trans hone (by decide))]
      exact hone
    rw [singleton_append, readFrom, if_pos hnone, if_pos hascii,
      UInt8.toNat_ofNat_of_lt' (Nat.lt_trans hone (by decide))]
    rfl
  case isFalse hone =>
  split at h
  case isTrue htwo =>
    cases h
    have hvalue : wc / 64 * 64 + wc % 64 = wc := Nat.div_add_mod' wc 64
    rw [cons_append, cons_append,
      readFrom_lead (decodeLead_two (by omega) (by omega)) Nat.one_ne_zero,
      readFrom_last (Nat.mod_lt _ (by decide)) (by omega) (by omega), hvalue]
    rfl
  case isFalse htwo =>
  split at h
  case isTrue => cases h
  case isFalse hsurrogate =>
  split at h
  case isTrue hthree =>
    cases h
    have hvalue : (wc / 4096 * 64 + wc / 64 % 64) * 64 + wc % 64 = wc := by omega
    rw [cons_append, cons_append, cons_append,
      readFrom_lead (decodeLead_three (by omega)) (Nat.succ_ne_zero 1),
      readFrom_more (Nat.mod_lt _ (by decide)) ?_ ?_,
      readFrom_last (Nat.mod_lt _ (by decide)) (by omega) (by omega), hvalue]
    · rfl
    · split
      · have hlow : (0xA0 : UInt8).toNat = 160 := rfl
        omega
      · omega
    · split
      · have hhigh : (0x9F : UInt8).toNat = 159 := rfl
        omega
      · omega
  case isFalse hthree =>
  split at h
  case isTrue hfour =>
    cases h
    have hvalue : ((wc / 262144 * 64 + wc / 4096 % 64) * 64 + wc / 64 % 64) * 64 + wc % 64 = wc := by
      omega
    rw [cons_append, cons_append, cons_append, cons_append,
      readFrom_lead (decodeLead_four (by omega)) (Nat.succ_ne_zero 2),
      readFrom_more (Nat.mod_lt _ (by decide)) ?_ ?_,
      readFrom_more (Nat.mod_lt _ (by decide)) (by omega) (by omega),
      readFrom_last (Nat.mod_lt _ (by decide)) (by omega) (by omega), hvalue]
    · rfl
    · split
      · have hlow : (0x90 : UInt8).toNat = 144 := rfl
        omega
      · omega
    · split
      · have hhigh : (0x8F : UInt8).toNat = 143 := rfl
        omega
      · omega
  case isFalse => cases h

/-- A character starts with no byte that goes on with one. -/
theorem wcrtomb_head (h : wcrtomb wc = some enc) :
    ∃ b rest, enc = b :: rest ∧ ¬ IsTail b := by
  have hnot {n : ℕ} (hn : n < 256) (hrange : n < 0x80 ∨ 0xBF < n) : ¬ IsTail (UInt8.ofNat n) := by
    unfold IsTail
    rw [UInt8.le_iff_toNat_le, UInt8.le_iff_toNat_le, UInt8.toNat_ofNat_of_lt' hn]
    intro htail
    have hlow : 128 ≤ n := htail.1
    have hhigh : n ≤ 191 := htail.2
    omega
  unfold wcrtomb at h
  split at h
  case isTrue => exact ⟨_, _, (Option.some.inj h).symm, hnot (by omega) (by omega)⟩
  case isFalse =>
  split at h
  case isTrue => exact ⟨_, _, (Option.some.inj h).symm, hnot (by omega) (by omega)⟩
  case isFalse =>
  split at h
  case isTrue => cases h
  case isFalse =>
  split at h
  case isTrue => exact ⟨_, _, (Option.some.inj h).symm, hnot (by omega) (by omega)⟩
  case isFalse =>
  split at h
  case isTrue => exact ⟨_, _, (Option.some.inj h).symm, hnot (by omega) (by omega)⟩
  case isFalse => cases h

theorem mbrtowc_wcrtomb (h : wcrtomb wc = some enc) (rest : Bytes) :
    mbrtowc (enc ++ rest) .none = (.char wc (if wc = 0 then 0 else enc.length), .none) := by
  unfold mbrtowc
  rw [readFrom_wcrtomb h]
  cases wc with
  | zero => rfl
  | succ wc =>
    rw [if_neg (Nat.succ_ne_zero wc), Nat.zero_add]
    rfl

/-! ## Reading what is no character -/

theorem readFrom_eq_mbrtowc {bytes : Bytes}
    (h : (mbrtowc bytes mbs).1 = .invalid ∨ (mbrtowc bytes mbs).1 = .incomplete) :
    readFrom 0 mbs bytes = mbrtowc bytes mbs := by
  unfold mbrtowc at h ⊢
  generalize readFrom 0 mbs bytes = read at h ⊢
  rcases read with ⟨⟨wc, cnt⟩ | _ | _, after⟩
  · cases wc with
    | zero => rcases h with h | h <;> cases h
    | succ wc => rcases h with h | h <;> cases h
  · rfl
  · rfl

theorem readFrom_invalid {bytes : Bytes}
    (h : readFrom cnt mbs bytes = (.invalid, after)) : after = .none := by
  induction bytes generalizing cnt mbs with
  | nil => cases h
  | cons b rest ih =>
    rw [readFrom] at h
    split at h
    · split at h
      · cases h
      · split at h
        · cases h
          rfl
        · exact ih h
    · split at h
      · split at h
        · cases h
        · exact ih h
      · cases h
        rfl

theorem readFrom_tail (hb : IsTail b) (rest : Bytes) :
    readFrom cnt ⟨1, bits, 0x80, 0xBF⟩ (b :: rest) =
      (.char (bits * 64 + b.toNat % 64) (cnt + 1), .none) := by
  have hone : (Pending.mk 1 bits 0x80 0xBF).needed ≠ 0 := Nat.one_ne_zero
  have hin : (Pending.mk 1 bits 0x80 0xBF).lower ≤ b ∧ b ≤ (Pending.mk 1 bits 0x80 0xBF).upper := hb
  rw [readFrom, if_neg hone, if_pos hin, if_pos rfl]

/-- A read that goes on behind the end of the bytes has taken all of them. -/
theorem readFrom_incomplete
    {rest : Bytes}
    (h : readFrom cnt ⟨n + 1, bits, lower, upper⟩ (b :: rest) = (.incomplete, after)) :
    n ≠ 0 ∧ lower ≤ b ∧ b ≤ upper ∧
      readFrom (cnt + 1) ⟨n, bits * 64 + b.toNat % 64, 0x80, 0xBF⟩ rest = (.incomplete, after) := by
  have hzero : (Pending.mk (n + 1) bits lower upper).needed ≠ 0 := Nat.succ_ne_zero n
  rw [readFrom, if_neg hzero] at h
  split at h
  case isTrue hin =>
    split at h
    case isTrue => cases h
    case isFalse hone =>
      have hn : n ≠ 0 := fun hn ↦ hone (congrArg (· + 1) hn)
      exact ⟨hn, hin.1, hin.2, h⟩
  case isFalse => cases h

/-- The parts of a character that can stand at the end of the bytes. -/
inductive CutOff (b : UInt8) : Bytes → Pending → Prop where
  | lead : CutOff b [] (decodeLead b).2
  | three {c : UInt8} (hc : IsTail c) (hneeded : (decodeLead b).2.needed = 2) :
    CutOff b [c] ⟨1, (decodeLead b).2.bits * 64 + c.toNat % 64, 0x80, 0xBF⟩
  | fourEarly {c : UInt8} (hc : IsTail c) (hneeded : (decodeLead b).2.needed = 3) :
    CutOff b [c] ⟨2, (decodeLead b).2.bits * 64 + c.toNat % 64, 0x80, 0xBF⟩
  | four {c d : UInt8} (hc : IsTail c) (hd : IsTail d) (hneeded : (decodeLead b).2.needed = 3)
      (hbits : 16 ≤ (decodeLead b).2.bits * 64 + c.toNat % 64) :
    CutOff b [c, d]
      ⟨1, ((decodeLead b).2.bits * 64 + c.toNat % 64) * 64 + d.toNat % 64, 0x80, 0xBF⟩

theorem cutOff_of_incomplete {rest : Bytes}
    (h : readFrom cnt .none (b :: rest) = (.incomplete, after)) : CutOff b rest after := by
  have hnone : Pending.none.needed = 0 := rfl
  rw [readFrom, if_pos hnone] at h
  split at h
  case isTrue => cases h
  case isFalse =>
  split at h
  case isTrue => cases h
  case isFalse hneeded =>
  obtain ⟨hle, hrange, hbits⟩ := decodeLead_spec b
  obtain ⟨-, -, hlower, hupper⟩ := hrange hneeded
  obtain ⟨n, hn⟩ : ∃ n, (decodeLead b).2.needed = n + 1 := Nat.exists_eq_succ_of_ne_zero hneeded
  cases rest with
  | nil =>
    cases h
    exact .lead
  | cons c rest =>
    have hmore : readFrom (cnt + 1) ⟨n + 1, (decodeLead b).2.bits, (decodeLead b).2.lower,
        (decodeLead b).2.upper⟩ (c :: rest) = (.incomplete, after) := by
      rw [← hn]
      exact h
    obtain ⟨hn₀, hlow, hhigh, hrest⟩ := readFrom_incomplete hmore
    have hc : IsTail c := ⟨UInt8.le_trans hlower hlow, UInt8.le_trans hhigh hupper⟩
    obtain ⟨m, rfl⟩ := Nat.exists_eq_succ_of_ne_zero hn₀
    cases rest with
    | nil =>
      cases hrest
      have hm : m = 0 ∨ m = 1 := by omega
      rcases hm with rfl | rfl
      · exact .three hc hn
      · exact .fourEarly hc hn
    | cons d rest =>
      obtain ⟨hm₀, hlow', hhigh', hrest⟩ := readFrom_incomplete hrest
      have hm : m = 1 := by omega
      subst hm
      have hfirst : 16 ≤ (decodeLead b).2.bits * 64 + c.toNat % 64 := by
        have hle : (decodeLead b).2.lower.toNat ≤ c.toNat := UInt8.le_iff_toNat_le.mp hlow
        have hlow₀ : 128 ≤ (decodeLead b).2.lower.toNat := UInt8.le_iff_toNat_le.mp hlower
        have hhigh₀ : c.toNat ≤ 191 := UInt8.le_iff_toNat_le.mp hc.2
        omega
      cases rest with
      | nil =>
        cases hrest
        exact .four hc ⟨hlow', hhigh'⟩ hn hfirst
      | cons e rest => exact absurd rfl (readFrom_incomplete hrest).1

end Utf8

end Bsh.Library
