import Bsh.Bridge.Handlers
import Bsh.Client.Text

/-!
# Do both ends authenticate the same data?

The client seals a packet with additional data that it builds from the bytes of type and context.
The bridge cuts the request at the first closing brace, parses it, encodes the strings it finds as
UTF-8 and builds the additional data again.  The two agree exactly for ASCII strings without a
closing brace, and for counters that survive the conversion to a binary64 number: a brace inside a
string ends the message too early, and a byte beyond ASCII is sent as one code unit, which takes
two bytes when it is encoded again.
-/

namespace Bsh.Link

open Bsh.Library Bsh.BrightLink Bsh.Client Bsh.Bridge Utf Json Bytes Framing List

/-! ## The property -/

/-- The additional data that the bridge rebuilds from a message. -/
def receivedAad (double : ℚ → Number) (message : Bytes) : Option Bytes :=
  match parse double (utf8Decode message) with
  | none => none
  | some req =>
    match deliverFields req with
    | .error _ => none
    | .ok fields =>
      match rebuiltAad fields with
      | .ok aad => some aad
      | .error _ => none

/-- The bridge obtains exactly one message and rebuilds what the client authenticated. -/
def AadAgrees (counter : UInt64) (type context iv ciphertext tag : Bytes) : Prop :=
  ∃ aad, deliverAad counter type context = some aad ∧
    ∃ message, cut ebp1MessageTerminator (deliverRequest counter type context iv ciphertext tag) =
      ([message], []) ∧ receivedAad Binary64.round message = some aad

/-! ## The escaped strings -/

theorem hexDigitByte_cases {d : ℕ} (hd : d < 16) :
    hexDigit (hexDigitByte d).toUInt16 = some d ∧ hexDigitByte d ≠ 0x7D ∧
      hexDigitByte d < 0x80 := by
  interval_cases d <;> decide

variable {key : String} (c : UInt8) (n : ℕ) (text : Bytes)

theorem readsUnits_escapeByte : ReadsUnits (latin1 (escapeByte c)) [c.toUInt16] := by
  unfold escapeByte
  split
  · next h =>
    rcases h with rfl | rfl
    · exact readsUnits_escape (by decide) rfl
    · exact readsUnits_escape (by decide) rfl
  split
  · next h hprint =>
    rw [not_or] at h
    apply plainKey_latin1
    intro b hb
    rw [List.mem_singleton.mp hb]
    exact ⟨h.1, h.2, UInt8.not_lt.mpr hprint.1⟩
  · have hlt := c.toNat_lt
    have hhigh := hexDigitByte_cases (d := c.toNat / 16) (by omega)
    have hlow := hexDigitByte_cases (d := c.toNat % 16) (by omega)
    have hzero : hexDigit 0x30 = some 0 := rfl
    have hhex := readsUnits_hex hzero hzero hhigh.1 hlow.1
    have hvalue : UInt16.ofNat (((0 * 16 + 0) * 16 + c.toNat / 16) * 16 + c.toNat % 16) =
        c.toUInt16 := by
      apply UInt16.toNat_inj.mp
      rw [UInt16.toNat_ofNat', UInt8.toNat_toUInt16]
      omega
    rwa [hvalue] at hhex

/-- A string literal printed by the client is read as one code unit for each byte. -/
theorem readsUnits_escapeText :
    ReadsUnits (latin1 (escapeText text)) (latin1 text) := by
  induction text with
  | nil => exact readsUnits_nil
  | cons c rest ih =>
    have happend := (readsUnits_escapeByte c).append ih
    rwa [← latin1_append] at happend

theorem isAscii_escapeByte : IsAscii (escapeByte c) := by
  have hlt := c.toNat_lt
  have hhigh := hexDigitByte_cases (d := c.toNat / 16) (by omega)
  have hlow := hexDigitByte_cases (d := c.toNat % 16) (by omega)
  unfold escapeByte
  split
  · next h => rcases h with rfl | rfl <;> decide
  split
  · next h hprint =>
    intro b hb
    rw [List.mem_singleton.mp hb]
    exact UInt8.lt_trans hprint.2 (by decide)
  · intro b hb
    simp only [mem_cons, not_mem_nil, or_false] at hb
    rcases hb with rfl | rfl | rfl | rfl | rfl | rfl
    · decide
    · decide
    · decide
    · decide
    · exact hhigh.2.2
    · exact hlow.2.2

theorem isAscii_escapeText : IsAscii (escapeText text) := by
  intro b hb
  obtain ⟨c, -, hmem⟩ := List.mem_flatMap.mp hb
  exact isAscii_escapeByte c b hmem

theorem brace_mem_escapeByte : 0x7D ∈ escapeByte c ↔ c = 0x7D := by
  have hlt := c.toNat_lt
  have hhigh := hexDigitByte_cases (d := c.toNat / 16) (by omega)
  have hlow := hexDigitByte_cases (d := c.toNat % 16) (by omega)
  unfold escapeByte
  split
  · next h => rcases h with rfl | rfl <;> decide
  split
  · rw [mem_singleton, eq_comm]
  · next hprint =>
    constructor
    · intro h
      simp only [mem_cons, not_mem_nil, or_false] at h
      rcases h with h | h | h | h | h | h
      · exact absurd h (by decide)
      · exact absurd h (by decide)
      · exact absurd h (by decide)
      · exact absurd h (by decide)
      · exact absurd h.symm hhigh.2.1
      · exact absurd h.symm hlow.2.1
    · rintro rfl
      exact absurd (by decide) hprint

theorem brace_mem_escapeText : 0x7D ∈ escapeText text ↔ 0x7D ∈ text := by
  simp [escapeText, brace_mem_escapeByte]

/-! ## The request -/

/-- The printed members of a request. -/
def deliverPieces (counter : UInt64) (type context iv ciphertext tag : Bytes) :
    List (Bytes × Bytes) :=
  [(ascii "cmd", quoted (ascii "LINK_DELIVER")),
    (ascii "counter", Decimal.decimal counter.toNat),
    (ascii "type", quoted (escapeText type)),
    (ascii "context", quoted (escapeText context)),
    (ascii "iv", quoted (Base64.encode iv)),
    (ascii "ciphertext", quoted (Base64.encode ciphertext)),
    (ascii "authTag", quoted (Base64.encode tag))]

/-- What the bridge reads of a request. -/
def deliverMembers (double : ℚ → Number) (counter : UInt64)
    (type context iv ciphertext tag : Bytes) : Members :=
  [(js "cmd", .str (js "LINK_DELIVER")), (js "counter", .num (double counter.toNat)),
    (js "type", .str (latin1 type)), (js "context", .str (latin1 context)),
    (js "iv", .str (latin1 (Base64.encode iv))),
    (js "ciphertext", .str (latin1 (Base64.encode ciphertext))),
    (js "authTag", .str (latin1 (Base64.encode tag)))]

variable {double : ℚ → Number} {counter : UInt64} {type context iv ciphertext tag : Bytes}

theorem not_mem_quoted {text : Bytes} (h : 0x7D ∉ text) : 0x7D ∉ quoted text := by
  simp [quoted, quote, h]

theorem not_mem_decimal : 0x7D ∉ Decimal.decimal n := by
  intro h
  obtain ⟨code, hcode, heq⟩ := List.mem_map.mp h
  have hdigit := Decimal.isDigitCode_of_mem_decimalCodes hcode
  simp only [Decimal.isDigitCode, Bool.and_eq_true, decide_eq_true_eq] at hdigit
  have hnat := congrArg UInt8.toNat heq
  rw [UInt8.toNat_ofNat'] at hnat
  have hbrace : (0x7D : UInt8).toNat = 125 := rfl
  omega

theorem cut_deliverRequest (htype : 0x7D ∉ type) (hcontext : 0x7D ∉ context) :
    cut ebp1MessageTerminator (deliverRequest counter type context iv ciphertext tag) =
      ([deliverRequest counter type context iv ciphertext tag], []) := by
  have hmember {key : String} (hkey : 0x7D ∉ ascii key) {value : Bytes} (hvalue : 0x7D ∉ value) :
      0x7D ∉ (ascii key, value).1 ∧ 0x7D ∉ (ascii key, value).2 := ⟨hkey, hvalue⟩
  apply cut_objectBytes
  intro m hm
  simp only [mem_cons, not_mem_nil, or_false] at hm
  rcases hm with rfl | rfl | rfl | rfl | rfl | rfl | rfl
  · exact hmember (by decide) (by decide)
  · exact hmember (by decide) (not_mem_decimal _)
  · exact hmember (by decide) (not_mem_quoted (by rwa [brace_mem_escapeText]))
  · exact hmember (by decide) (not_mem_quoted (by rwa [brace_mem_escapeText]))
  · exact hmember (by decide) (not_mem_quoted (not_mem_encode_brace _))
  · exact hmember (by decide) (not_mem_quoted (not_mem_encode_brace _))
  · exact hmember (by decide) (not_mem_quoted (not_mem_encode_brace _))

theorem not_mem_of_cut_deliverRequest {message : Bytes}
    (hcut : cut ebp1MessageTerminator (deliverRequest counter type context iv ciphertext tag) =
      ([message], [])) : 0x7D ∉ type ∧ 0x7D ∉ context := by
  have hvalue {m : Bytes × Bytes}
      (hm : m ∈ deliverPieces counter type context iv ciphertext tag) : 0x7D ∉ m.2 := by
    intro hbrace
    have hmore := cut_objectBytes_length hm hbrace
    have hsame : cut 0x7D (objectBytes (deliverPieces counter type context iv ciphertext tag)) =
        ([message], []) := hcut
    rw [hsame] at hmore
    exact absurd hmore (lt_irrefl 1)
  have htype := hvalue (m := (ascii "type", quoted (escapeText type))) (by simp [deliverPieces])
  have hcontext := hvalue (m := (ascii "context", quoted (escapeText context)))
    (by simp [deliverPieces])
  simp only [quoted, mem_append, mem_cons, not_or, brace_mem_escapeText] at htype hcontext
  exact ⟨htype.1.2, hcontext.1.2⟩

theorem isAscii_quoted {text : Bytes} (h : IsAscii text) : IsAscii (quoted text) := by
  intro c hc
  simp only [quoted, mem_append, mem_cons, not_mem_nil, or_false] at hc
  rcases hc with (rfl | hc) | rfl
  · decide
  · exact h c hc
  · decide

theorem isAscii_decimal : IsAscii (Decimal.decimal n) := by
  intro c hc
  obtain ⟨code, hcode, rfl⟩ := List.mem_map.mp hc
  have hdigit := Decimal.isDigitCode_of_mem_decimalCodes hcode
  simp only [Decimal.isDigitCode, Bool.and_eq_true, decide_eq_true_eq] at hdigit
  rw [UInt8.lt_iff_toNat_lt, UInt8.toNat_ofNat']
  have hlimit : (0x80 : UInt8).toNat = 128 := rfl
  omega

theorem readsMember_string {text : Bytes} {units : JsString}
    (hkey : PlainWord (ascii key)) (hsame : latin1 (ascii key) = js key) (hascii : IsAscii text)
    (h : ReadsUnits (latin1 text) units) :
    ReadsMember double (ascii key, quoted text) (js key, .str units) :=
  ⟨hsame, hkey, isAscii_quoted hascii, reads_quoted h⟩

theorem readsMember_base64 (bytes : Bytes) (hkey : PlainWord (ascii key))
    (hsame : latin1 (ascii key) = js key) :
    ReadsMember double (ascii key, quoted (Base64.encode bytes))
      (js key, .str (latin1 (Base64.encode bytes))) :=
  readsMember_string hkey hsame (plainWord_encode bytes).isAscii (plainWord_encode bytes).plainKey

theorem readsMember_decimal (hkey : PlainWord (ascii key))
    (hsame : latin1 (ascii key) = js key) :
    ReadsMember double (ascii key, Decimal.decimal n) (js key, .num (double n)) :=
  ⟨hsame, hkey, isAscii_decimal n, reads_decimal n⟩

/-- The bridge reads back what the client printed. -/
theorem parse_deliverRequest :
    parse double (utf8Decode (deliverRequest counter type context iv ciphertext tag)) =
      some (.obj (deliverMembers double counter type context iv ciphertext tag)) := by
  apply parse_objectBytes
  · refine .cons ?_ (.cons ?_ (.cons ?_ (.cons ?_ (.cons ?_ (.cons ?_ (.cons ?_ .nil))))))
    · exact readsMember_string (by decide) (by decide) (by decide)
        (PlainWord.plainKey (by decide))
    · exact readsMember_decimal _ (by decide) (by decide)
    · exact readsMember_string (by decide) (by decide) (isAscii_escapeText _)
        (readsUnits_escapeText _)
    · exact readsMember_string (by decide) (by decide) (isAscii_escapeText _)
        (readsUnits_escapeText _)
    · exact readsMember_base64 _ (by decide) (by decide)
    · exact readsMember_base64 _ (by decide) (by decide)
    · exact readsMember_base64 _ (by decide) (by decide)
  · exact cons_ne_nil _ _
  · simp only [deliverMembers, map_cons, map_nil]
    decide

/-! ## The additional data -/

/-- The client's layout is that of the specification. -/
theorem linkBuildDeliverAad_eq (dirTag : LinkDirTag) {counter type context : Bytes} {cap : ℕ}
    (hfits : 17 + counter.length + type.length + context.length ≤ cap) :
    linkBuildDeliverAad dirTag.byte counter type context cap =
      some (lenPrefixed [dirTag.byte] ++ lenPrefixed counter ++ lenPrefixed type ++
        lenPrefixed context) := by
  have hneed : ¬ cap < 4 + 1 + 4 + counter.length + 4 + type.length + 4 + context.length := by omega
  simp only [linkBuildDeliverAad, if_neg hneed]
  simp [lenPrefixed, linkLe32]

theorem deliverAad_eq (hfits : 25 + type.length + context.length ≤ 2048) :
    deliverAad counter type context =
      some (lenPrefixed [0x01] ++ lenPrefixed (bigEndian 8 counter.toNat) ++ lenPrefixed type ++
        lenPrefixed context) :=
  linkBuildDeliverAad_eq .shellToAgent (by simp only [linkBe64, bigEndian_length]; omega)

/-- The bridge finds every field; only the counter may not be what was sent. -/
theorem deliverFields_members :
    deliverFields (.obj (deliverMembers double counter type context iv ciphertext tag)) =
      (do
        let k ← bigIntOf (.num (double counter.toNat))
        if k < 0 ∨ 2 ^ 64 ≤ k then .error (malformed "Counter out of u64 range")
        else return ⟨k, latin1 type, latin1 context, latin1 (Base64.encode iv),
          latin1 (Base64.encode ciphertext), latin1 (Base64.encode tag)⟩) := rfl

/-- The additional data that the bridge rebuilds for a counter `k`. -/
theorem receivedAad_deliverRequest (aad : Bytes) :
    receivedAad double (deliverRequest counter type context iv ciphertext tag) = some aad ↔
      ∃ k : ℕ, k < 2 ^ 64 ∧ double counter.toNat = .finite k ∧
        aad = lenPrefixed [0x01] ++ lenPrefixed (bigEndian 8 k) ++
          lenPrefixed (utf8Encode (latin1 type)) ++ lenPrefixed (utf8Encode (latin1 context)) := by
  rw [receivedAad, parse_deliverRequest]
  simp only [deliverFields_members, bigIntOf]
  cases hvalue : integerValue _ with
  | none =>
    simp only [bind, Except.bind, reduceCtorEq, false_iff, not_exists, not_and]
    intro k _ hk
    rw [hk] at hvalue
    simp [integerValue] at hvalue
  | some k =>
    have hdouble : double counter.toNat = .finite k := by
      unfold integerValue at hvalue
      split at hvalue
      · next q hq =>
        split at hvalue
        · next hden =>
          rw [Option.some.injEq] at hvalue
          rw [hq, ← hvalue, (Rat.den_eq_one_iff q).mp hden]
        · exact absurd hvalue (by simp)
      · exact absurd hvalue (by simp)
    simp only [bind, Except.bind]
    by_cases hrange : k < 0 ∨ 2 ^ 64 ≤ k
    · rw [if_pos hrange]
      simp only [reduceCtorEq, false_iff, not_exists, not_and]
      intro n hn heq
      rw [hdouble, Number.finite.injEq] at heq
      have hkn : k = n := by exact_mod_cast heq
      omega
    · obtain ⟨n, rfl⟩ := Int.eq_ofNat_of_zero_le (by omega : 0 ≤ k)
      have hcheck : ¬ ((n : ℤ) < 0 ∨ 2 ^ 64 ≤ (n : ℤ)) := by omega
      simp only [pure, Except.pure, rebuiltAad, buildDeliverAad, if_neg hcheck,
        LinkDirTag.byte, Int.toNat_natCast, Option.some.injEq]
      constructor
      · rintro rfl
        exact ⟨n, by omega, by exact_mod_cast hdouble, rfl⟩
      · rintro ⟨m, -, hm, rfl⟩
        rw [hdouble, Number.finite.injEq] at hm
        have hnm : n = m := by exact_mod_cast hm
        rw [hnm]

/-! ## Where the two ends agree -/

/-- A string that reaches the bridge as it was authenticated. -/
def Faithful (text : Bytes) : Prop := IsAscii text ∧ 0x7D ∉ text

/-- What was authenticated is rebuilt only from strings and counters that arrive unchanged. -/
theorem faithful_of_aadAgrees (hfits : 25 + type.length + context.length ≤ 2048)
    (h : AadAgrees counter type context iv ciphertext tag) :
    Faithful type ∧ Faithful context ∧
      Binary64.round counter.toNat = .finite counter.toNat := by
  have hsmall {text : Bytes} (h : text.length ≤ 2048) :
      (utf8Encode (latin1 text)).length < 256 ^ 4 := by
    have hcount := countP_le_length (p := fun b ↦ decide (¬ b < (0x80 : UInt8))) (l := text)
    rw [utf8Encode_latin1_length]
    omega
  obtain ⟨aad, haad, message, hcut, hreceived⟩ := h
  obtain ⟨htype, hcontext⟩ := not_mem_of_cut_deliverRequest hcut
  have hmessage : message = deliverRequest counter type context iv ciphertext tag := by
    have hflat (text : Bytes) : (cut ebp1MessageTerminator text).1.flatten ++
        (cut ebp1MessageTerminator text).2 = text := flatten_cut text
    specialize hflat (deliverRequest counter type context iv ciphertext tag)
    rw [hcut] at hflat
    simpa using hflat
  rw [hmessage, receivedAad_deliverRequest] at hreceived
  obtain ⟨k, hk, hround, rfl⟩ := hreceived
  -- The fields are length-prefixed, so that equal data has equal fields.
  rw [deliverAad_eq hfits, Option.some.injEq, append_assoc, append_assoc,
    append_assoc, append_assoc] at haad
  have htail := (lenPrefixed_append_inj (by simp) (by simp) haad).2
  obtain ⟨hcounter, htail⟩ := lenPrefixed_append_inj (by simp) (by simp) htail
  obtain ⟨hsameType, hlast⟩ := lenPrefixed_append_inj (by omega) (hsmall (by omega)) htail
  rw [← append_nil (lenPrefixed context),
    ← append_nil (lenPrefixed (utf8Encode _))] at hlast
  have hsameContext := (lenPrefixed_append_inj (by omega) (hsmall (by omega)) hlast).1
  refine ⟨⟨(utf8Encode_latin1_eq_iff type).mp hsameType.symm, htype⟩,
    ⟨(utf8Encode_latin1_eq_iff context).mp hsameContext.symm, hcontext⟩, ?_⟩
  rw [hround, bigEndian_injective counter.toNat_lt hk hcounter]

theorem aadAgrees_of_faithful (hfits : 25 + type.length + context.length ≤ 2048)
    (htype : Faithful type) (hcontext : Faithful context)
    (hround : Binary64.round counter.toNat = .finite counter.toNat) :
    AadAgrees counter type context iv ciphertext tag := by
  refine ⟨_, deliverAad_eq hfits, _, cut_deliverRequest htype.2 hcontext.2, ?_⟩
  rw [receivedAad_deliverRequest]
  refine ⟨counter.toNat, counter.toNat_lt, hround, ?_⟩
  rw [(utf8Encode_latin1_eq_iff type).mpr htype.1,
    (utf8Encode_latin1_eq_iff context).mpr hcontext.1]

/-- Both ends authenticate the same data exactly for ASCII strings without a closing brace and for
counters that are binary64 numbers. -/
theorem aadAgrees_iff (counter : UInt64) (type context iv ciphertext tag : Bytes)
    (hfits : 25 + type.length + context.length ≤ 2048) :
    AadAgrees counter type context iv ciphertext tag ↔
      Faithful type ∧ Faithful context ∧
        Binary64.round counter.toNat = .finite counter.toNat := by
  constructor
  · exact faithful_of_aadAgrees hfits
  · rintro ⟨htype, hcontext, hround⟩
    exact aadAgrees_of_faithful hfits htype hcontext hround

/-- A context that is delivered intact. -/
theorem aadAgrees_iff_plain : 25 + (ascii "plaintext").length + (ascii "a/b").length ≤ 2048 ∧
    (AadAgrees 1 (ascii "plaintext") (ascii "a/b") [] [] [] ↔
      Faithful (ascii "plaintext") ∧ Faithful (ascii "a/b") ∧
        Binary64.round (1 : UInt64).toNat = .finite (1 : UInt64).toNat) :=
  ⟨by decide, aadAgrees_iff 1 (ascii "plaintext") (ascii "a/b") [] [] [] (by decide)⟩

/-- A context with `é` in UTF-8, and one with a closing brace. -/
theorem aadAgrees_fails :
    utf8Encode (utf8Decode [0xC3, 0xA9]) = [0xC3, 0xA9] ∧
      ¬ AadAgrees 1 (ascii "plaintext") [0xC3, 0xA9] [] [] [] ∧
      ¬ AadAgrees 1 (ascii "plaintext") (ascii "a" ++ [0x7D]) [] [] [] := by
  refine ⟨by decide, ?_, ?_⟩
  · intro h
    have hfaithful := (faithful_of_aadAgrees (by decide) h).2.1.1
    exact absurd (hfaithful 0xC3 (by simp)) (by decide)
  · intro h
    have hfaithful := (faithful_of_aadAgrees (by decide) h).2.1.2
    exact hfaithful (by simp)

end Bsh.Link

/-!
# The fields behind additional data

A packet is authenticated together with its direction, its counter, its type and its context.  The
client and the bridge write the four fields with their lengths in front, and a pushed event is
written as a packet of the other direction without a context.  The fields can be read back from the
bytes, so that two packets with the same additional data agree in all of them.
-/

namespace Bsh.Link

open Bsh.Library Bsh.BrightLink Bsh.Client Bsh.Bridge Utf Bytes List

/-- The layout of the specification. -/
def aadLayout (dirTag : UInt8) (counter type context : Bytes) : Bytes :=
  lenPrefixed [dirTag] ++ lenPrefixed counter ++ lenPrefixed type ++ lenPrefixed context

section Layout

variable {dirTag dirTag' : UInt8} {counter counter' type type' context context' : Bytes}

/-- The direction is found without any bound on the other fields. -/
theorem aadLayout_dirTag
    (h : aadLayout dirTag counter type context = aadLayout dirTag' counter' type' context') :
    dirTag = dirTag' := by
  have htag : [dirTag] = [dirTag'] := (lenPrefixed_append_inj (by simp) (by simp) h).1
  exact List.singleton_inj.mp htag

/-- No byte of a field can pass for a byte of another one. -/
theorem aadLayout_injective (hcounter : counter.length < 256 ^ 4)
    (hcounter' : counter'.length < 256 ^ 4) (htype : type.length < 256 ^ 4)
    (htype' : type'.length < 256 ^ 4) (hcontext : context.length < 256 ^ 4)
    (hcontext' : context'.length < 256 ^ 4)
    (h : aadLayout dirTag counter type context = aadLayout dirTag' counter' type' context') :
    dirTag = dirTag' ∧ counter = counter' ∧ type = type' ∧ context = context' := by
  have htag := aadLayout_dirTag h
  simp only [aadLayout, append_assoc] at h
  have hbehind := (lenPrefixed_append_inj (by simp) (by simp) h).2
  obtain ⟨hcounters, hbehind⟩ := lenPrefixed_append_inj hcounter hcounter' hbehind
  obtain ⟨htypes, hbehind⟩ := lenPrefixed_append_inj htype htype' hbehind
  have hlast : lenPrefixed context ++ [] = lenPrefixed context' ++ [] := by
    rw [hbehind]
  have hcontexts := (lenPrefixed_append_inj hcontext hcontext' hlast).1
  exact ⟨htag, hcounters, htypes, hcontexts⟩

end Layout

/-! ## The three writers -/

theorem linkBuildDeliverAad_layout (dirTag : UInt8) (counter type context : Bytes) (cap : ℕ) :
    linkBuildDeliverAad dirTag counter type context cap =
      if cap < 17 + counter.length + type.length + context.length then none
      else some (aadLayout dirTag counter type context) := by
  have hneed : 4 + 1 + 4 + counter.length + 4 + type.length + 4 + context.length =
      17 + counter.length + type.length + context.length := by omega
  have hlayout : linkLe32 1 ++ [dirTag] ++ linkLe32 counter.length ++ counter ++
      linkLe32 type.length ++ type ++ linkLe32 context.length ++ context =
        aadLayout dirTag counter type context := by
    simp [aadLayout, lenPrefixed, linkLe32]
  simp only [linkBuildDeliverAad, hneed, hlayout]

variable {aad context : Bytes} {cap : ℕ} {counter counter' : ℤ} {dirTag : LinkDirTag}
  {type : JsString}

theorem linkBuildDeliverAad_eq_some {dirTag : UInt8} {counter type : Bytes}
    (h : linkBuildDeliverAad dirTag counter type context cap = some aad) :
    aad = aadLayout dirTag counter type context := by
  rw [linkBuildDeliverAad_layout] at h
  split at h
  · cases h
  · exact (Option.some.inj h).symm

theorem buildDeliverAad_eq_ok :
    buildDeliverAad dirTag counter type context = .ok aad ↔
      (0 ≤ counter ∧ counter < 2 ^ 64) ∧
        aadLayout dirTag.byte (bigEndian 8 counter.toNat) (utf8Encode type) context = aad := by
  unfold buildDeliverAad aadLayout
  split
  · next hrange => exact iff_of_false (by simp) (fun h ↦ by omega)
  · next hrange =>
    rw [Except.ok.injEq]
    exact (and_iff_right (by omega)).symm

/-- A pushed event is a packet to the shell without a context. -/
theorem buildPushAad_eq (counter : ℤ) (event : JsString) :
    buildPushAad counter event = buildDeliverAad .agentToShell counter event [] := rfl

theorem dirTag_byte_injective {dirTag' : LinkDirTag}
    (h : dirTag.byte = dirTag'.byte) : dirTag = dirTag' := by
  cases dirTag <;> cases dirTag' <;> first | rfl | exact absurd h (by decide)

/-- The packets of the bridge can be told apart by their additional data. -/
theorem buildDeliverAad_injective {dirTag' : LinkDirTag}
    {type' : JsString} {context' : Bytes}
    (htype : (utf8Encode type).length < 2 ^ 32) (htype' : (utf8Encode type').length < 2 ^ 32)
    (hcontext : context.length < 2 ^ 32) (hcontext' : context'.length < 2 ^ 32)
    (h : buildDeliverAad dirTag counter type context = .ok aad)
    (h' : buildDeliverAad dirTag' counter' type' context' = .ok aad) :
    dirTag = dirTag' ∧ counter = counter' ∧ utf8Encode type = utf8Encode type' ∧
      context = context' := by
  obtain ⟨hrange, haad⟩ := buildDeliverAad_eq_ok.mp h
  obtain ⟨hrange', haad'⟩ := buildDeliverAad_eq_ok.mp h'
  obtain ⟨htag, hcounter, hfields⟩ := aadLayout_injective (by simp) (by simp) htype htype' hcontext
    hcontext' (haad.trans haad'.symm)
  have hnat : counter.toNat = counter'.toNat := by
    apply bigEndian_injective _ _ hcounter <;> omega
  exact ⟨dirTag_byte_injective htag, by omega, hfields⟩

theorem linkBuildDeliverAad_injective {dirTag dirTag' : UInt8} {counter counter' : UInt64}
    {type type' context' : Bytes} {cap' : ℕ}
    (htype : type.length < 2 ^ 32) (htype' : type'.length < 2 ^ 32)
    (hcontext : context.length < 2 ^ 32) (hcontext' : context'.length < 2 ^ 32)
    (h : linkBuildDeliverAad dirTag (linkBe64 counter) type context cap = some aad)
    (h' : linkBuildDeliverAad dirTag' (linkBe64 counter') type' context' cap' = some aad) :
    dirTag = dirTag' ∧ counter = counter' ∧ type = type' ∧ context = context' := by
  have haad := linkBuildDeliverAad_eq_some h
  have haad' := linkBuildDeliverAad_eq_some h'
  obtain ⟨htag, hcounter, hfields⟩ := aadLayout_injective (by simp [linkBe64]) (by simp [linkBe64])
    htype htype' hcontext hcontext' (haad.symm.trans haad')
  have hnat : counter.toNat = counter'.toNat :=
    bigEndian_injective counter.toNat_lt counter'.toNat_lt hcounter
  exact ⟨htag, UInt64.toNat_inj.mp hnat, hfields⟩

/-- The client and the bridge write the same bytes. -/
theorem buildDeliverAad_agrees (dirTag : LinkDirTag) (counter : UInt64) (type : JsString)
    (context : Bytes)
    (hcap : 25 + (utf8Encode type).length + context.length ≤ cap) :
    ∃ aad, linkBuildDeliverAad dirTag.byte (linkBe64 counter) (utf8Encode type) context cap =
        some aad ∧
      buildDeliverAad dirTag counter.toNat type context = .ok aad := by
  have hlt := counter.toNat_lt
  have hlength : (linkBe64 counter).length = 8 := by simp [linkBe64]
  refine ⟨_, ?_, buildDeliverAad_eq_ok.mpr ⟨by omega, rfl⟩⟩
  rw [linkBuildDeliverAad_layout, if_neg (by omega)]
  rfl

theorem buildPushAad_ne {event : JsString}
    (h : buildDeliverAad .shellToAgent counter type context = .ok aad) :
    buildPushAad counter' event ≠ .ok aad := by
  intro hpush
  have hlayout := (buildDeliverAad_eq_ok.mp h).2.trans (buildDeliverAad_eq_ok.mp hpush).2.symm
  exact absurd (aadLayout_dirTag hlayout) (by decide)

theorem deliverAad_ne_push {counter : UInt64} {event : JsString}
    {type : Bytes} (h : deliverAad counter type context = some aad) :
    buildPushAad counter' event ≠ .ok aad := by
  intro hpush
  have hlayout := (linkBuildDeliverAad_eq_some h).symm.trans (buildDeliverAad_eq_ok.mp hpush).2.symm
  exact absurd (aadLayout_dirTag hlayout) (by decide)

/-- Both ends write the same bytes, a pushed event with an empty context among them; the bytes
determine all fields; and no `LINK_DELIVER` of either end has those of a `LINK_PUSH`. -/
theorem aad_determines_fields :
    (∀ (dirTag : LinkDirTag) (counter : UInt64) (type : JsString) (context : Bytes) (cap : ℕ),
      25 + (utf8Encode type).length + context.length ≤ cap →
      ∃ aad, linkBuildDeliverAad dirTag.byte (linkBe64 counter) (utf8Encode type) context cap =
          some aad ∧
        buildDeliverAad dirTag counter.toNat type context = .ok aad) ∧
    (∀ (counter : ℤ) (event : JsString),
      buildPushAad counter event = buildDeliverAad .agentToShell counter event []) ∧
    (∀ (dirTag dirTag' : UInt8) (counter counter' : UInt64) (type type' context context' : Bytes)
      (cap cap' : ℕ) (aad : Bytes), type.length < 2 ^ 32 → type'.length < 2 ^ 32 →
      context.length < 2 ^ 32 → context'.length < 2 ^ 32 →
      linkBuildDeliverAad dirTag (linkBe64 counter) type context cap = some aad →
      linkBuildDeliverAad dirTag' (linkBe64 counter') type' context' cap' = some aad →
      dirTag = dirTag' ∧ counter = counter' ∧ type = type' ∧ context = context') ∧
    (∀ (dirTag dirTag' : LinkDirTag) (counter counter' : ℤ) (type type' : JsString)
      (context context' aad : Bytes), (utf8Encode type).length < 2 ^ 32 →
      (utf8Encode type').length < 2 ^ 32 → context.length < 2 ^ 32 → context'.length < 2 ^ 32 →
      buildDeliverAad dirTag counter type context = .ok aad →
      buildDeliverAad dirTag' counter' type' context' = .ok aad →
      dirTag = dirTag' ∧ counter = counter' ∧ utf8Encode type = utf8Encode type' ∧
        context = context') ∧
    (∀ (counter : UInt64) (type context aad : Bytes) (counter' : ℤ) (event : JsString),
      deliverAad counter type context = some aad → buildPushAad counter' event ≠ .ok aad) ∧
    ∀ (fields : DeliverFields) (aad : Bytes) (counter' : ℤ) (event : JsString),
      rebuiltAad fields = .ok aad → buildPushAad counter' event ≠ .ok aad := by
  refine ⟨fun dirTag counter type context cap ↦ buildDeliverAad_agrees dirTag counter type context,
    buildPushAad_eq, ?_, ?_, ?_, ?_⟩
  · intro _ _ _ _ _ _ _ _ _ _ _ htype htype' hcontext hcontext' h h'
    exact linkBuildDeliverAad_injective htype htype' hcontext hcontext' h h'
  · intro _ _ _ _ _ _ _ _ _ htype htype' hcontext hcontext' h h'
    exact buildDeliverAad_injective htype htype' hcontext hcontext' h h'
  · intro _ _ _ _ _ _ h
    exact deliverAad_ne_push h
  · intro fields aad _ _ h
    apply buildPushAad_ne
    unfold rebuiltAad at h
    split at h
    · next haad =>
      cases h
      exact haad
    · cases h

/-- Two packets that differ only in where the type ends. -/
theorem aad_determines_fields_split :
    linkBuildDeliverAad 0x01 (linkBe64 7) (ascii "ab") (ascii "c") 2048 ≠
      linkBuildDeliverAad 0x01 (linkBe64 7) (ascii "a") (ascii "bc") 2048 := by
  intro h
  have haad := linkBuildDeliverAad_layout 0x01 (linkBe64 7) (ascii "a") (ascii "bc") 2048
  have hbuilt := haad.trans (if_neg (by decide))
  have hfields := aad_determines_fields.2.2.1 _ _ _ _ _ _ _ _ _ _ _ (by decide) (by decide)
    (by decide) (by decide) (h.trans hbuilt) hbuilt
  exact absurd hfields.2.2.1 (by decide)

end Bsh.Link
