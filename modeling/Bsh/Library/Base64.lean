import Bsh.Library.Utf
import Mathlib.Tactic.NormNum
import Mathlib.Tactic.IntervalCases

/-!
# Base64

`encode` is the padded encoding of both ends of the protocol.  There are two decoders.
`evpDecodeBlock` is `EVP_DecodeBlock`: white space at the ends is dropped, the rest must consist of
groups of four alphabet characters, and `=` counts as a zero sextet, so that the padding is decoded
as zero bytes.  `nodeDecode` is `Buffer.from(s, 'base64')`: it stops at the first `=`, reads the
URL-safe alphabet as well, and skips every other character.
-/

namespace Bsh.Library.Base64

open List

/-- The padding character. -/
abbrev pad : UInt8 := 0x3D

/-- The alphabet character of a sextet. -/
def encodeSextet (v : ℕ) : UInt8 :=
  if v < 26 then UInt8.ofNat (0x41 + v)
  else if v < 52 then UInt8.ofNat (0x61 + (v - 26))
  else if v < 62 then UInt8.ofNat (0x30 + (v - 52))
  else if v = 62 then 0x2B else 0x2F

/-- The sextet of an alphabet character, given by its code. -/
def decodeSextet (code : ℕ) : Option ℕ :=
  if 0x41 ≤ code ∧ code ≤ 0x5A then some (code - 0x41)
  else if 0x61 ≤ code ∧ code ≤ 0x7A then some (code - 0x61 + 26)
  else if 0x30 ≤ code ∧ code ≤ 0x39 then some (code - 0x30 + 52)
  else if code = 0x2B then some 62
  else if code = 0x2F then some 63
  else none

/-- The sextets of a byte string, the last one filled up with zero bits. -/
def sextets : Bytes → List ℕ
  | [] => []
  | [a] => [a.toNat / 4, a.toNat % 4 * 16]
  | [a, b] => [a.toNat / 4, a.toNat % 4 * 16 + b.toNat / 16, b.toNat % 16 * 4]
  | a :: b :: c :: rest =>
    a.toNat / 4 :: (a.toNat % 4 * 16 + b.toNat / 16) :: (b.toNat % 16 * 4 + c.toNat / 64) ::
      c.toNat % 64 :: sextets rest

/-- The number of padding characters of an encoding. -/
def padding (bytes : Bytes) : ℕ := (3 - bytes.length % 3) % 3

/-- `EVP_EncodeBlock` and `buf.toString('base64')`. -/
def encode (bytes : Bytes) : Bytes :=
  (sextets bytes).map encodeSextet ++ List.replicate (padding bytes) pad

/-- The three bytes of four sextets. -/
def groupBytes (p q r s : ℕ) : Bytes :=
  [UInt8.ofNat (p * 4 + q / 16), UInt8.ofNat (q % 16 * 16 + r / 4), UInt8.ofNat (r % 4 * 64 + s)]

/-- The whole bytes contained in a sequence of sextets. -/
def ofSextets : List ℕ → Bytes
  | p :: q :: r :: s :: rest => groupBytes p q r s ++ ofSextets rest
  | [p, q, r] => (groupBytes p q r 0).take 2
  | [p, q] => (groupBytes p q 0 0).take 1
  | _ => []

/-! ## The two decoders -/

def evpSextet (c : UInt8) : Option ℕ := if c = pad then some 0 else decodeSextet c.toNat

def isEvpBlank (c : UInt8) : Bool := c == 0x20 || c == 0x09

/-- What `EVP_DecodeBlock` drops at the end: white space, line ends and the end mark `-`. -/
def isEvpTrailer (c : UInt8) : Bool := isEvpBlank c || c == 0x0A || c == 0x0D || c == 0x2D

def evpGroups : Bytes → Option Bytes
  | [] => some []
  | a :: b :: c :: d :: rest =>
    match evpSextet a, evpSextet b, evpSextet c, evpSextet d, evpGroups rest with
    | some p, some q, some r, some s, some bytes => some (groupBytes p q r s ++ bytes)
    | _, _, _, _, _ => none
  | _ => none

/-- `EVP_DecodeBlock`, with `none` for the result `-1`. -/
def evpDecodeBlock (text : Bytes) : Option Bytes :=
  evpGroups ((text.dropWhile isEvpBlank).reverse.dropWhile isEvpTrailer).reverse

/-- A character of either alphabet. -/
def nodeSextet (c : UInt16) : Option ℕ :=
  if c = 0x2D then some 62 else if c = 0x5F then some 63 else decodeSextet c.toNat

/-- `Buffer.from(s, 'base64')`. -/
def nodeDecode (text : JsString) : Bytes :=
  ofSextets ((text.takeWhile (· ≠ 0x3D)).filterMap nodeSextet)

/-! ## Round trips -/

theorem encodeSextet_cases {v : ℕ} (hv : v < 64) :
    decodeSextet (encodeSextet v).toNat = some v ∧ encodeSextet v ≠ pad ∧
      encodeSextet v < 0x80 ∧ encodeSextet v ≠ 0x22 ∧ encodeSextet v ≠ 0x5C ∧
      encodeSextet v ≠ 0x7D ∧ encodeSextet v ≠ 0x7B ∧ 0x20 < encodeSextet v ∧
      encodeSextet v ≠ 0x2D ∧ encodeSextet v ≠ 0x5F := by
  interval_cases v <;> decide

theorem sextets_lt {bytes : Bytes} : ∀ v ∈ sextets bytes, v < 64 := by
  induction bytes using sextets.induct with
  | case1 => simp [sextets]
  | case2 a =>
    have ha := a.toNat_lt
    simp only [sextets, mem_cons, not_mem_nil, or_false]
    rintro v (rfl | rfl) <;> omega
  | case3 a b =>
    have ha := a.toNat_lt
    have hb := b.toNat_lt
    simp only [sextets, mem_cons, not_mem_nil, or_false]
    rintro v (rfl | rfl | rfl) <;> omega
  | case4 a b c rest ih =>
    have ha := a.toNat_lt
    have hb := b.toNat_lt
    have hc := c.toNat_lt
    simp only [sextets, mem_cons]
    rintro v (rfl | rfl | rfl | rfl | h)
    · omega
    · omega
    · omega
    · omega
    · exact ih v h

theorem groupBytes_eq {p q r s : ℕ} {a b c : UInt8} (ha : p * 4 + q / 16 = a.toNat)
    (hb : q % 16 * 16 + r / 4 = b.toNat) (hc : r % 4 * 64 + s = c.toNat) :
    groupBytes p q r s = [a, b, c] := by
  simp only [groupBytes, ha, hb, hc, UInt8.ofNat_toNat]

theorem groupBytes_one (a : UInt8) :
    groupBytes (a.toNat / 4) (a.toNat % 4 * 16) 0 0 = [a, 0, 0] := by
  refine groupBytes_eq (by omega) ?_ rfl
  rw [UInt8.toNat_zero]
  omega

theorem groupBytes_two (a b : UInt8) :
    groupBytes (a.toNat / 4) (a.toNat % 4 * 16 + b.toNat / 16) (b.toNat % 16 * 4) 0 =
      [a, b, 0] := by
  have hb := b.toNat_lt
  refine groupBytes_eq (by omega) (by omega) ?_
  rw [UInt8.toNat_zero]
  omega

theorem groupBytes_three (a b c : UInt8) :
    groupBytes (a.toNat / 4) (a.toNat % 4 * 16 + b.toNat / 16) (b.toNat % 16 * 4 + c.toNat / 64)
      (c.toNat % 64) = [a, b, c] := by
  have hb := b.toNat_lt
  have hc := c.toNat_lt
  exact groupBytes_eq (by omega) (by omega) (by omega)

theorem encode_length (bytes : Bytes) : (encode bytes).length = 4 * ((bytes.length + 2) / 3) := by
  have hsextets : (sextets bytes).length + padding bytes = 4 * ((bytes.length + 2) / 3) := by
    induction bytes using sextets.induct with
    | case1 => rfl
    | case2 a => simp [sextets, padding]
    | case3 a b => simp [sextets, padding]
    | case4 a b c rest ih =>
      simp only [sextets, padding, length_cons] at ih ⊢
      omega
  rw [encode, length_append, length_map, List.length_replicate, hsextets]

/-- `EVP_DecodeBlock` decodes the padding as zero bytes. -/
theorem evpGroups_encode (bytes : Bytes) :
    evpGroups (encode bytes) = some (bytes ++ List.replicate (padding bytes) 0) := by
  have hsextet {v : ℕ} (hv : v < 64) : evpSextet (encodeSextet v) = some v := by
    obtain ⟨hdecode, hpad, -⟩ := encodeSextet_cases hv
    rw [evpSextet, if_neg hpad, hdecode]
  have hpad : evpSextet pad = some 0 := rfl
  induction bytes using sextets.induct with
  | case1 => rfl
  | case2 a =>
    have ha := a.toNat_lt
    have h1 : a.toNat / 4 < 64 := by omega
    have h2 : a.toNat % 4 * 16 < 64 := by omega
    have hsplit : encode [a] =
        [encodeSextet (a.toNat / 4), encodeSextet (a.toNat % 4 * 16), pad, pad] := rfl
    rw [hsplit, evpGroups, hsextet h1, hsextet h2, hpad, evpGroups]
    simp only [groupBytes_one]
    rfl
  | case3 a b =>
    have ha := a.toNat_lt
    have hb := b.toNat_lt
    have h1 : a.toNat / 4 < 64 := by omega
    have h2 : a.toNat % 4 * 16 + b.toNat / 16 < 64 := by omega
    have h3 : b.toNat % 16 * 4 < 64 := by omega
    have hsplit : encode [a, b] =
        [encodeSextet (a.toNat / 4), encodeSextet (a.toNat % 4 * 16 + b.toNat / 16),
          encodeSextet (b.toNat % 16 * 4), pad] := rfl
    rw [hsplit, evpGroups, hsextet h1, hsextet h2, hsextet h3, hpad, evpGroups]
    simp only [groupBytes_two]
    rfl
  | case4 a b c rest ih =>
    have ha := a.toNat_lt
    have hb := b.toNat_lt
    have hc := c.toNat_lt
    have h1 : a.toNat / 4 < 64 := by omega
    have h2 : a.toNat % 4 * 16 + b.toNat / 16 < 64 := by omega
    have h3 : b.toNat % 16 * 4 + c.toNat / 64 < 64 := by omega
    have h4 : c.toNat % 64 < 64 := by omega
    have hpadding : padding (a :: b :: c :: rest) = padding rest := by
      simp only [padding, length_cons]
      omega
    have hsplit : encode (a :: b :: c :: rest) =
        encodeSextet (a.toNat / 4) :: encodeSextet (a.toNat % 4 * 16 + b.toNat / 16) ::
          encodeSextet (b.toNat % 16 * 4 + c.toNat / 64) :: encodeSextet (c.toNat % 64) ::
            encode rest := by
      simp only [encode, sextets, hpadding, map_cons, cons_append]
    rw [hsplit, evpGroups, hsextet h1, hsextet h2, hsextet h3, hsextet h4, ih, hpadding]
    simp only [groupBytes_three, cons_append, nil_append]

/-! ## The characters of an encoding -/

/-- A character that may stand in an encoding. -/
def IsTextByte (c : UInt8) : Prop :=
  c < 0x80 ∧ c ≠ 0x22 ∧ c ≠ 0x5C ∧ c ≠ 0x7D ∧ c ≠ 0x7B ∧ 0x20 < c ∧ c ≠ 0x2D

theorem isTextByte_of_mem_encode {bytes : Bytes} {c : UInt8} (h : c ∈ encode bytes) :
    IsTextByte c := by
  rcases List.mem_append.mp h with h | h
  · obtain ⟨v, hv, rfl⟩ := List.mem_map.mp h
    obtain ⟨-, -, h1, h2, h3, h4, h5, h6, h7, -⟩ := encodeSextet_cases (sextets_lt v hv)
    exact ⟨h1, h2, h3, h4, h5, h6, h7⟩
  · rw [(List.mem_replicate.mp h).2]
    exact ⟨by decide, by decide, by decide, by decide, by decide, by decide, by decide⟩

theorem IsTextByte.not_isEvpTrailer {c : UInt8} (h : IsTextByte c) : isEvpTrailer c = false := by
  obtain ⟨-, -, -, -, -, hblank, hminus⟩ := h
  have hne {b : UInt8} (hb : b ≤ 0x20) : c ≠ b := by
    rintro rfl
    exact absurd hb (UInt8.not_le.mpr hblank)
  simp [isEvpTrailer, isEvpBlank, hminus, hne (b := 0x20) (by decide), hne (b := 0x09) (by decide),
    hne (b := 0x0A) (by decide), hne (b := 0x0D) (by decide)]

theorem evpDecodeBlock_encode (bytes : Bytes) :
    evpDecodeBlock (encode bytes) = some (bytes ++ List.replicate (padding bytes) 0) := by
  have htrailer : ∀ c ∈ encode bytes, isEvpTrailer c = false :=
    fun c hc ↦ (isTextByte_of_mem_encode hc).not_isEvpTrailer
  have hdrop {text : Bytes} {p : UInt8 → Bool} (h : ∀ c ∈ text, p c = false) :
      text.dropWhile p = text := by
    cases text with
    | nil => rfl
    | cons c rest => rw [dropWhile_cons, h c (by simp), if_neg Bool.false_ne_true]
  have hblank : ∀ c ∈ encode bytes, isEvpBlank c = false := by
    intro c hc
    have h := htrailer c hc
    simp only [isEvpTrailer, Bool.or_eq_false_iff] at h
    exact h.1.1.1
  rw [evpDecodeBlock, hdrop hblank, hdrop fun c hc ↦ htrailer c (List.mem_reverse.mp hc),
    reverse_reverse, evpGroups_encode]

end Bsh.Library.Base64
