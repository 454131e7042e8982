import Bsh.Library.JsValue

/-!
# The wire constants and encodings of the BrightLink specification

The constants, command names and error texts of `spec/brightlink.ts` and `spec/ebp1.ts`, and its
three encodings: the additional data of delivered and pushed packets, the inputs of the session
key derivation and the canonical transcript.  The encodings check their arguments and throw.
-/

namespace Bsh.BrightLink

open Bsh.Library Utf Bytes

/-! ## Constants -/

/-- `LINK_PROTOCOL_VERSION`. -/
def linkProtocolVersion : Number := .finite 1

/-- `LINK_SESSION_KEY_HKDF_INFO`. -/
def linkSessionKeyHkdfInfo : Bytes := ascii "brightlink-session-key-v1"

def linkSessionKeyLength : ℕ := 32

/-- `LINK_MAX_TTL_SECONDS`: 8 hours. -/
def linkMaxTtlSeconds : ℚ := 8 * 3600

def linkRegistrationFutureSkewToleranceSeconds : ℤ := 60

def linkClientNonceLength : ℕ := 16

def linkShareLength : ℕ := 32

def linkSessionIdLength : ℕ := 16

/-- `LINK_TRANSCRIPT_HEADER`, with its NUL. -/
def linkTranscriptHeader : Bytes := ascii "BrightLink v1 transcript" ++ [0]

/-- `LINK_DIR_TAG`. -/
inductive LinkDirTag where
  | shellToAgent
  | agentToShell
  deriving DecidableEq, Repr

def LinkDirTag.byte : LinkDirTag → UInt8
  | .shellToAgent => 0x01
  | .agentToShell => 0x02

def linkCounterReplayWindow : ℤ := 1000

def linkGcmIvLength : ℕ := 12

def linkGcmTagLength : ℕ := 16

/-- `EBP1_MESSAGE_TERMINATOR`: the framer cuts a connection's buffer after every such byte. -/
def ebp1MessageTerminator : UInt8 := 0x7D

/-- `ECIES_VERSION_BYTE`, `ECIES_CIPHER_SUITE_BYTE` and `ECIES_ENCRYPTION_TYPE`. -/
def eciesVersionByte : UInt8 := 0x01
def eciesCipherSuiteByte : UInt8 := 0x01
def eciesTypeBasic : UInt8 := 0x21
def eciesTypeWithLength : UInt8 := 0x42

/-- `ECIES_HKDF_INFO`. -/
def eciesHkdfInfo : Bytes := ascii "ecies-v2-key-derivation"

/-! ## Additional data -/

/-- A field with its length in front, as four little-endian bytes. -/
def lenPrefixed (field : Bytes) : Bytes := littleEndian 4 field.length ++ field

@[simp]
theorem lenPrefixed_length (field : Bytes) : (lenPrefixed field).length = 4 + field.length := by
  simp [lenPrefixed]

theorem lenPrefixed_append_inj {a b x y : Bytes} (ha : a.length < 256 ^ 4)
    (hb : b.length < 256 ^ 4) (h : lenPrefixed a ++ x = lenPrefixed b ++ y) : a = b ∧ x = y := by
  simp only [lenPrefixed, List.append_assoc] at h
  obtain ⟨hlength, hrest⟩ := List.append_inj h (by simp)
  exact List.append_inj hrest (littleEndian_injective ha hb hlength)

/-- The exception for a counter beyond 64 bits. -/
def counterRangeMessage (counter : ℤ) : JsString :=
  js "counter out of u64 range: " ++ Json.numberText (.finite counter)

/-- `buildDeliverAad`. -/
def buildDeliverAad (dirTag : LinkDirTag) (counter : ℤ) (type : JsString) (contextBytes : Bytes) :
    Js Bytes :=
  if counter < 0 ∨ 2 ^ 64 ≤ counter then .error (.error (counterRangeMessage counter))
  else
    .ok (lenPrefixed [dirTag.byte] ++ lenPrefixed (bigEndian 8 counter.toNat) ++
      lenPrefixed (utf8Encode type) ++ lenPrefixed contextBytes)

/-- `buildPushAad`: the context of a pushed event is empty. -/
def buildPushAad (counter : ℤ) (event : JsString) : Js Bytes :=
  if counter < 0 ∨ 2 ^ 64 ≤ counter then .error (.error (counterRangeMessage counter))
  else
    .ok (lenPrefixed [LinkDirTag.agentToShell.byte] ++ lenPrefixed (bigEndian 8 counter.toNat) ++
      lenPrefixed (utf8Encode event) ++ lenPrefixed [])

/-! ## Session key and transcript -/

/-- The inputs of the session key derivation. -/
structure HkdfInputs where
  ikm : Bytes
  salt : Bytes
  info : Bytes
  outputByteCount : ℕ
  deriving DecidableEq

/-- A field of fixed length. -/
def checkLength (message : String) (length : ℕ) (field : Bytes) : Js Unit :=
  if field.length = length then .ok () else .error (.error (js message))

/-- `buildSessionKeyHkdfInputs`. -/
def buildSessionKeyHkdfInputs (clientShare bridgeShare clientNonce sessionId : Bytes) :
    Js HkdfInputs := do
  checkLength "clientShare must be 32 bytes" linkShareLength clientShare
  checkLength "bridgeShare must be 32 bytes" linkShareLength bridgeShare
  checkLength "clientNonce must be 16 bytes" linkClientNonceLength clientNonce
  checkLength "sessionId must be 16 bytes" linkSessionIdLength sessionId
  return ⟨clientShare ++ bridgeShare, clientNonce ++ sessionId, linkSessionKeyHkdfInfo,
    linkSessionKeyLength⟩

/-- `Math.round` of a finite number. -/
def mathRound (q : ℚ) : ℤ := ⌊q + 1 / 2⌋

/-- `buf.writeBigUInt64BE` and `buf.writeUInt32BE`: a value out of range is a `RangeError`. -/
def writeUnsigned (width : ℕ) (value : ℤ) : Js Bytes :=
  if 0 ≤ value ∧ value < 256 ^ width then .ok (bigEndian width value.toNat)
  else .error (.error (js "ERR_OUT_OF_RANGE"))

/-- `Number.isInteger`, with the integer. -/
def integerValue : Number → Option ℤ
  | .finite q => if q.den = 1 then some q.num else none
  | .infinite _ => none

/-- An integer of a range. -/
def checkInteger (message : String) (inRange : ℤ → Bool) (n : Number) : Js ℤ :=
  match integerValue n with
  | some k => if inRange k then .ok k else .error (.error (js message))
  | none => .error (.error (js message))

def checkFinite (message : String) : Number → Js ℚ
  | .finite q => .ok q
  | .infinite _ => .error (.error (js message))

/-- `buildTranscript`.  The product with 86400 is rounded by `double`. -/
def buildTranscript (double : ℚ → Number) (clientNonce clientPub clientShare sessionId
    bridgeShare : Bytes) (issuedAtBd bridgeIssuedAtUnix ttlSeconds : Number) : Js Bytes := do
  checkLength "clientNonce must be 16 bytes" linkClientNonceLength clientNonce
  checkLength "clientPub must be 65 bytes (uncompressed secp256k1)" 65 clientPub
  checkLength "clientShare must be 32 bytes" linkShareLength clientShare
  checkLength "sessionId must be 16 bytes" linkSessionIdLength sessionId
  checkLength "bridgeShare must be 32 bytes" linkShareLength bridgeShare
  let issuedAtBd ← checkFinite "issuedAtBd must be finite" issuedAtBd
  let bridgeIssuedAtUnix ← checkInteger "bridgeIssuedAtUnix must be a non-negative integer"
    (0 ≤ ·) bridgeIssuedAtUnix
  let ttlSeconds ← checkInteger "ttlSeconds must be a u32" (fun n ↦ 0 ≤ n && n ≤ 0xffff_ffff)
    ttlSeconds
  -- `BigInt` of an infinite product throws.
  let issuedAtUnix ← checkFinite "RangeError" (double (issuedAtBd * 86400))
  let issuedField ← writeUnsigned 8 (mathRound issuedAtUnix)
  let bridgeIssuedField ← writeUnsigned 8 bridgeIssuedAtUnix
  let ttlField ← writeUnsigned 4 ttlSeconds
  return linkTranscriptHeader ++ lenPrefixed clientNonce ++ lenPrefixed clientPub ++
    lenPrefixed clientShare ++ lenPrefixed sessionId ++ lenPrefixed bridgeShare ++
    lenPrefixed issuedField ++ lenPrefixed bridgeIssuedField ++ lenPrefixed ttlField

end Bsh.BrightLink
