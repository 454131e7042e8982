import Bsh.BrightLink.Crypto
import Bsh.BrightLink.Commands
import Bsh.Bridge.AclDocument
import Bsh.Library.Base64

/-!
# The request handlers of the bridge

`handlers.ts`: the dispatch of a message and every handler that answers at once.  A handler works
on the parsed request, whose members may have any type, on the state that all connections share and
on the state of its own connection.  The geo commands are checked here and handed on, because they
may have to wait for the user.
-/

namespace Bsh.Bridge

open Bsh.Library Bsh.BrightLink Utf Json Bytes

/-! ## State -/

/-- An audit event, without its time. -/
structure AuditEvent where
  kind : JsString
  sessionIdHex : Option JsString
  payload : Json

structure AgentInfo where
  name : JsString
  version : JsString
  platform : JsString

/-- `LinkSession`. -/
structure LinkSession where
  sessionId : Bytes
  kSession : Bytes
  bridgeIssuedAtUnix : ℤ
  expiresAtUnix : ℚ
  ttlSeconds : ℚ
  outboundCounter : ℕ
  lastInboundCounter : ℤ
  agentInfo : AgentInfo

/-- `ConnectionState`. -/
structure ConnectionState where
  peerPublicKey : Option Bytes
  linkSession : Option LinkSession
  pushSubscribed : Bool
  attestation : PeerAttestation

/-- The persistent secp256k1 key. -/
structure EciesKey (P : Primitives) where
  priv : Bytes
  pub : Bytes
  valid : P.secpValid priv = true
  pub_eq : P.secpPub priv = some pub

/-- What is fixed for the life of a bridge.  `keyAttempts` bounds the loop that draws an ephemeral
key, which has no bound in the source. -/
structure BridgeConfig (P : Primitives) (R : Type) where
  double : ℚ → Number
  secp256k1Key : EciesKey P
  identity : BridgeIdentity P.p256Verify
  rng : R → ℕ → Bytes × R
  keyAttempts : ℕ

/-- What all connections share. -/
structure BridgeState (R : Type) where
  rng : R
  auditLog : List AuditEvent

def BridgeState.recordAudit {R : Type} (state : BridgeState R) (event : AuditEvent) :
    BridgeState R :=
  { state with auditLog := state.auditLog ++ [event] }

/-- What a handler reads of the clocks. -/
structure Clock where
  nowUnix : ℤ
  isoTimestamp : JsString
  uptimeSeconds : ℕ

/-! ## Responses and checks -/

def errorResponse (message : JsString) : Json := .obj [(js "error", .str message)]

/-- A printed JSON answer. -/
def responseBytes (response : Json) : Bytes := utf8Encode (stringify response)

/-- `tryBase64`. -/
def tryBase64 (s : JsString) : Option Bytes :=
  let b := Base64.nodeDecode s
  if s ≠ [] ∧ b = [] then none else some b

/-- `buf.toString('base64')`. -/
def base64Text (bytes : Bytes) : Json := .str (latin1 (Base64.encode bytes))

def okMember : JsString × Json := (js "ok", .bool true)

def numberOf (n : ℚ) : Json := .num (.finite n)

/-- Why a handler stops early. -/
inductive Refusal where
  | message (text : JsString)
  | exception (e : JsError)

/-- A check that may end the handler. -/
abbrev Checked (α : Type) := Except Refusal α

def checkedProperty (name : String) (v : Json) : Checked Property :=
  match property (js name) v with
  | .ok p => .ok p
  | .error e => .error (.exception e)

def requireThat (message : String) (condition : Bool) : Checked Unit :=
  if condition then .ok () else .error (.message (js message))

def requireString (message : String) : Property → Checked JsString
  | .value (.str s) => .ok s
  | _ => .error (.message (js message))

def requireBase64 (message : String) (s : JsString) : Checked Bytes :=
  match tryBase64 s with
  | some bytes => .ok bytes
  | none => .error (.message (js message))

/-- `p === n`. -/
def isNumber (n : Number) : Property → Bool
  | .value (.num m) => m = n
  | _ => false

/-! ## Envelopes -/

variable {P : Primitives} {R : Type}

/-- `buf.readBigUInt64BE`. -/
def readBigEndian (bytes : Bytes) : ℕ := bytes.foldl (fun value b ↦ value * 256 + b.toNat) 0

/-- `decryptEnvelope`, with the text of the `EciesDecryptError`. -/
def decryptEnvelope (P : Primitives) (priv envelope : Bytes) : Except JsString Bytes :=
  if envelope.length ≤ 64 then .error encryptedDataTooShort
  else if envelope[0]? ≠ some eciesVersionByte then .error decryptionFailed
  else if envelope[1]? ≠ some eciesCipherSuiteByte then .error decryptionFailed
  else if envelope[3]? ≠ some 0x02 ∧ envelope[3]? ≠ some 0x03 then
    .error invalidEphemeralPublicKeyFormat
  else
    let ephPub := (envelope.drop 3).take 33
    let iv := (envelope.drop 36).take 12
    let tag := (envelope.drop 48).take 16
    let withLength := envelope[2]? = some eciesTypeWithLength
    let dataLen := readBigEndian ((envelope.drop 64).take 8)
    if withLength ∧ envelope.length < 72 then .error missingLengthField
    else if withLength ∧ envelope.length < 72 + dataLen then .error ciphertextLengthMismatch
    else
      let ciphertext := if withLength then (envelope.drop 72).take dataLen else envelope.drop 64
      let aad := envelope.take 3 ++ ephPub
      match P.secpSharedX priv ephPub with
      | none => .error ecdhFailedEmptySharedSecret
      | some ikm =>
        match P.hkdf ikm [] eciesHkdfInfo 32 with
        | none => .error ecdhFailedEmptySharedSecret
        | some key =>
          match P.gcmOpen key iv aad ciphertext tag with
          | none => .error decryptionFailed
          | some plaintext => .ok plaintext

/-- The loop that draws an ephemeral key. -/
def drawPrivateKey (config : BridgeConfig P R) : ℕ → R → Option Bytes × R
  | 0, rng => (none, rng)
  | attempts + 1, rng =>
    let (priv, rng) := config.rng rng 32
    if P.secpValid priv then (some priv, rng) else drawPrivateKey config attempts rng

/-- `encryptBasicEnvelopeToClient`. -/
def encryptBasicEnvelopeToClient (config : BridgeConfig P R) (plaintext recipientPub : Bytes)
    (rng : R) : Js Bytes × R :=
  match drawPrivateKey config config.keyAttempts rng with
  | (none, rng) => (.error (.error (js "no valid key")), rng)
  | (some ephPriv, rng) =>
    match P.secpPubCompressed ephPriv, P.secpSharedX ephPriv recipientPub with
    | some ephPubCompressed, some x32 =>
      let (iv, rng) := config.rng rng linkGcmIvLength
      let header := [eciesVersionByte, eciesCipherSuiteByte, eciesTypeBasic] ++ ephPubCompressed
      match P.hkdf x32 [] eciesHkdfInfo 32 with
      | none => (.error (.error (js "hkdf")), rng)
      | some aesKey =>
        match P.gcmSeal aesKey iv header plaintext with
        | none => (.error (.error (js "cipher")), rng)
        | some (ct, tag) => (.ok (header ++ iv ++ tag ++ ct), rng)
    | _, _ => (.error (.error (js "invalid point")), rng)

/-! ## `LINK_REGISTER` -/

/-- The checked members of a `LINK_REGISTER` request: nonce and envelope. -/
def registerFields (req : Json) : Checked (Bytes × Bytes) := do
  let version ← checkedProperty "protocolVersion" req
  requireThat "Unsupported SDI protocol version" (isNumber linkProtocolVersion version)
  let clientNonceStr ← requireString "Missing clientNonce" (← checkedProperty "clientNonce" req)
  let clientNonce ← requireBase64 "Missing clientNonce" clientNonceStr
  requireThat "Missing clientNonce" (clientNonce.length = linkClientNonceLength)
  let envelopeStr ← requireString "Missing envelope" (← checkedProperty "envelope" req)
  let envelope ← requireBase64 "Missing envelope" envelopeStr
  return (clientNonce, envelope)

/-- The plaintext schema of the registration envelope. -/
structure EnvelopePlaintext where
  clientPub : Bytes
  clientShare : Bytes
  issuedAtBd : ℚ
  ttlSeconds : ℚ
  agentInfo : AgentInfo

/-- A string member, or `unknown`. -/
def agentField (name : String) (agent : Json) : JsString :=
  match property (js name) agent with
  | .ok (.value (.str s)) => s
  | _ => js "unknown"

/-- The agent block: any strings in an object; anything else counts as absent. -/
def agentInfoOf : Property → AgentInfo
  | .value agent => ⟨agentField "name" agent, agentField "version" agent,
    agentField "platform" agent⟩
  | _ => ⟨js "unknown", js "unknown", js "unknown"⟩

def invalidPlaintext : String := "Invalid envelope plaintext"

def requireNumber : Property → Checked ℚ
  | .value (.num (.finite q)) => .ok q
  | _ => .error (.message (js invalidPlaintext))

/-- The checks of the decrypted plaintext. -/
def envelopePlaintext (double : ℚ → Number) (plaintextBytes : Bytes) :
    Checked EnvelopePlaintext := do
  let plaintext ← match parse double (utf8Decode plaintextBytes) with
    | some plaintext => .ok plaintext
    | none => .error (.message (js invalidPlaintext))
  requireThat invalidPlaintext (isNumber linkProtocolVersion (← checkedProperty "v" plaintext))
  let clientPubStr ← requireString invalidPlaintext (← checkedProperty "clientPub" plaintext)
  let clientPub ← requireBase64 invalidPlaintext clientPubStr
  requireThat invalidPlaintext (clientPub.length = 65 ∧ clientPub.head? = some 0x04)
  let clientShareStr ← requireString invalidPlaintext (← checkedProperty "clientShare" plaintext)
  let clientShare ← requireBase64 invalidPlaintext clientShareStr
  requireThat invalidPlaintext (clientShare.length = linkShareLength)
  let issuedAtBd ← requireNumber (← checkedProperty "issuedAtBd" plaintext)
  let ttlSeconds ← requireNumber (← checkedProperty "ttlSeconds" plaintext)
  requireThat invalidPlaintext (ttlSeconds.den = 1)
  let agent ← checkedProperty "agent" plaintext
  return ⟨clientPub, clientShare, issuedAtBd, ttlSeconds, agentInfoOf agent⟩

/-- The issue time lies more than the tolerance in the future of the bridge's clock. -/
def isStale (double : ℚ → Number) (issuedAtBd : ℚ) (nowUnix : ℤ) : Bool :=
  match double (issuedAtBd * 86400) with
  | .finite issued => nowUnix + linkRegistrationFutureSkewToleranceSeconds < mathRound issued
  | .infinite negative => !negative

/-- All checks of a registration, up to the first random draw. -/
def checkRegistration (config : BridgeConfig P R) (nowUnix : ℤ) (req : Json) :
    Checked (Bytes × EnvelopePlaintext) := do
  let (clientNonce, envelope) ← registerFields req
  let plaintextBytes ← match decryptEnvelope P config.secp256k1Key.priv envelope with
    | .ok plaintext => .ok plaintext
    | .error _ => .error (.message decryptionFailed)
  let plaintext ← envelopePlaintext config.double plaintextBytes
  requireThat "Stale registration" (!isStale config.double plaintext.issuedAtBd nowUnix)
  return (clientNonce, plaintext)

/-- The granted TTL. -/
def grantedTtl (ttlSeconds : ℚ) : ℚ := min (max ttlSeconds 0) linkMaxTtlSeconds

/-- Derive the session key and sign the transcript. -/
def agreeSession (config : BridgeConfig P R) (nowUnix : ℤ) (clientNonce : Bytes)
    (plaintext : EnvelopePlaintext) (bridgeShare sessionId : Bytes) : Js (Bytes × Bytes) := do
  let inputs ← buildSessionKeyHkdfInputs plaintext.clientShare bridgeShare clientNonce sessionId
  let kSession ← match P.hkdf inputs.ikm inputs.salt inputs.info inputs.outputByteCount with
    | some key => .ok key
    | none => .error (.error (js "internal: HKDF returned wrong length"))
  checkLength "internal: HKDF returned wrong length" linkSessionKeyLength kSession
  let transcript ← buildTranscript config.double clientNonce plaintext.clientPub
    plaintext.clientShare sessionId bridgeShare (.finite plaintext.issuedAtBd) (.finite nowUnix)
    (.finite (grantedTtl plaintext.ttlSeconds))
  return (kSession, config.identity.sign transcript)

/-- `handleLinkRegister`. -/
def handleLinkRegister (config : BridgeConfig P R) (nowUnix : ℤ) (req : Json)
    (state : BridgeState R) (conn : ConnectionState) :
    Js Json × BridgeState R × ConnectionState :=
  match checkRegistration config nowUnix req with
  | .error (.message text) => (.ok (errorResponse text), state, conn)
  | .error (.exception e) => (.error e, state, conn)
  | .ok (clientNonce, plaintext) =>
    let (bridgeShare, rng) := config.rng state.rng linkShareLength
    let (sessionId, rng) := config.rng rng linkSessionIdLength
    match agreeSession config nowUnix clientNonce plaintext bridgeShare sessionId with
    | .error e => (.error e, { state with rng := rng }, conn)
    | .ok (kSession, transcriptSig) =>
      match encryptBasicEnvelopeToClient config bridgeShare plaintext.clientPub rng with
      | (.error e, rng) => (.error e, { state with rng := rng }, conn)
      | (.ok responseEnvelope, rng) =>
        let ttlSeconds := grantedTtl plaintext.ttlSeconds
        let session : LinkSession := ⟨sessionId, kSession, nowUnix, nowUnix + ttlSeconds,
          ttlSeconds, 0, 0, plaintext.agentInfo⟩
        let state := { state with rng := rng }
        -- A second registration on a connection replaces the session of the first.
        let state := match conn.linkSession with
          | some old => state.recordAudit ⟨js "session_teardown", some (hex old.sessionId),
              .obj [(js "reason", .str (js "reregister"))]⟩
          | none => state
        let state := state.recordAudit ⟨js "session_init", some (hex sessionId),
          .obj [(js "ttlSeconds", numberOf ttlSeconds),
            (js "agentName", .str plaintext.agentInfo.name),
            (js "agentVersion", .str plaintext.agentInfo.version),
            (js "agentPlatform", .str plaintext.agentInfo.platform),
            (js "transcriptSigPrefixHex", .str (hex (transcriptSig.take 16)))]⟩
        (.ok (.obj [okMember, (js "sessionId", base64Text sessionId),
            (js "bridgeIssuedAtUnix", numberOf nowUnix), (js "ttlSeconds", numberOf ttlSeconds),
            (js "responseEnvelope", base64Text responseEnvelope),
            (js "transcriptSig", base64Text transcriptSig)]),
          state, { conn with linkSession := some session })

/-! ## `LINK_DELIVER` -/

/-- `BigInt(s)`, with `none` for a `SyntaxError`. -/
def stringToBigInt (s : JsString) : Option ℤ :=
  match trim s with
  | [] => some 0
  | 0x30 :: 0x78 :: digits => (radixValue 16 digits).map (↑·)
  | 0x30 :: 0x58 :: digits => (radixValue 16 digits).map (↑·)
  | 0x30 :: 0x6F :: digits => (radixValue 8 digits).map (↑·)
  | 0x30 :: 0x4F :: digits => (radixValue 8 digits).map (↑·)
  | 0x30 :: 0x62 :: digits => (radixValue 2 digits).map (↑·)
  | 0x30 :: 0x42 :: digits => (radixValue 2 digits).map (↑·)
  | 0x2D :: digits => (radixValue 10 digits).map fun n ↦ -(n : ℤ)
  | 0x2B :: digits => (radixValue 10 digits).map (↑·)
  | digits => (radixValue 10 digits).map (↑·)

/-- Why a delivery is not accepted: the audited reason and the error text, or an exception. -/
inductive DeliverRefusal where
  | ingestFailed (reason message : JsString)
  | exception (e : JsError)

abbrev Delivered (α : Type) := Except DeliverRefusal α

def malformed (message : String) : DeliverRefusal := .ingestFailed (js "malformed") (js message)

/-- `typeof counterRaw` is `number` or `string`. -/
def requireCounter : Property → Delivered Json
  | .value (.num n) => .ok (.num n)
  | .value (.str s) => .ok (.str s)
  | _ => .error (malformed "Missing counter")

/-- `BigInt(counterRaw)`. -/
def bigIntOf : Json → Delivered ℤ
  | .num n =>
    match integerValue n with
    | some k => .ok k
    | none => .error (.exception (.error (js "RangeError")))
  | .str s =>
    match stringToBigInt s with
    | some k => .ok k
    | none => .error (.exception (.error (js "SyntaxError")))
  | _ => .error (.exception .typeError)

def deliverProperty (name : String) (req : Json) : Delivered Property :=
  match property (js name) req with
  | .ok p => .ok p
  | .error e => .error (.exception e)

def requireText (message : String) : Property → Delivered JsString
  | .value (.str s) => .ok s
  | _ => .error (malformed message)

/-- The wire fields of a delivery. -/
structure DeliverFields where
  counter : ℤ
  type : JsString
  context : JsString
  iv : JsString
  ciphertext : JsString
  authTag : JsString

/-- Parse the wire fields of a `LINK_DELIVER` request. -/
def deliverFields (req : Json) : Delivered DeliverFields := do
  let counterRaw ← requireCounter (← deliverProperty "counter" req)
  let type ← requireText "Missing type" (← deliverProperty "type" req)
  let context ← requireText "Missing context" (← deliverProperty "context" req)
  let iv ← requireText "Missing iv/ciphertext/authTag" (← deliverProperty "iv" req)
  let ciphertext ← requireText "Missing iv/ciphertext/authTag" (← deliverProperty "ciphertext" req)
  let authTag ← requireText "Missing iv/ciphertext/authTag" (← deliverProperty "authTag" req)
  let counter ← bigIntOf counterRaw
  if counter < 0 ∨ 2 ^ 64 ≤ counter then .error (malformed "Counter out of u64 range")
  else return ⟨counter, type, context, iv, ciphertext, authTag⟩

/-- The replay window. -/
def checkReplay (lastInboundCounter counter : ℤ) : Delivered Unit :=
  if counter ≤ lastInboundCounter then
    .error (.ingestFailed (js "counter_replayed") (js "Counter replayed"))
  else if lastInboundCounter + linkCounterReplayWindow < counter then
    .error (.ingestFailed (js "counter_out_of_window") (js "Counter out of replay window"))
  else .ok ()

/-- The additional data as the bridge rebuilds it. -/
def rebuiltAad (fields : DeliverFields) : Delivered Bytes :=
  match buildDeliverAad .shellToAgent fields.counter fields.type (utf8Encode fields.context) with
  | .ok aad => .ok aad
  | .error e => .error (.exception e)

/-- Decode the binary fields and open the packet. -/
def openDelivery (P : Primitives) (kSession : Bytes) (fields : DeliverFields) : Delivered Bytes :=
  match tryBase64 fields.iv, tryBase64 fields.ciphertext, tryBase64 fields.authTag with
  | some iv, some ct, some tag =>
    if iv.length ≠ linkGcmIvLength then .error (malformed "iv must be 12 bytes")
    else if tag.length ≠ linkGcmTagLength then .error (malformed "authTag must be 16 bytes")
    else do
      let aad ← rebuiltAad fields
      match P.gcmOpen kSession iv aad ct tag with
      | some plaintext => .ok plaintext
      | none =>
        .error (.ingestFailed (js "auth_failed") (js "AES-GCM authentication failed"))
  | _, _, _ => .error (malformed "iv/ciphertext/authTag not base64")

/-- All checks of a delivery, up to its plaintext. -/
def acceptDelivery (P : Primitives) (session : LinkSession) (req : Json) :
    Delivered (DeliverFields × Bytes) := do
  let fields ← deliverFields req
  checkReplay session.lastInboundCounter fields.counter
  let plaintext ← openDelivery P session.kSession fields
  return (fields, plaintext)

/-- A member of the body that overrides a wire field. -/
def overridden (name : String) (body : Option Json) (wire : JsString) : JsString :=
  match body.map (property (js name)) with
  | some (.ok (.value (.str s))) => s
  | _ => wire

/-- `recordIngestFailed`. -/
def recordIngestFailed (state : BridgeState R) (session : LinkSession) (reason : JsString) :
    BridgeState R :=
  state.recordAudit ⟨js "link_deliver_failed", some (hex session.sessionId),
    .obj [(js "reason", .str reason)]⟩

/-- `handleLinkDeliver`. -/
def handleLinkDeliver (config : BridgeConfig P R) (nowUnix : ℤ) (req : Json)
    (state : BridgeState R) (conn : ConnectionState) :
    Js Json × BridgeState R × ConnectionState :=
  match conn.linkSession with
  | none => (.ok (errorResponse (js "Session not registered on this connection")), state, conn)
  | some session =>
    if session.expiresAtUnix < nowUnix then
      (.ok (errorResponse (js "Session expired")), state, conn)
    else
      match acceptDelivery P session req with
      | .error (.exception e) => (.error e, state, conn)
      | .error (.ingestFailed reason message) =>
        (.ok (errorResponse message), recordIngestFailed state session reason, conn)
      | .ok (fields, plaintext) =>
        let body := parse config.double (utf8Decode plaintext)
        let resolvedType := overridden "type" body fields.type
        let resolvedContext := overridden "context" body fields.context
        (.ok (.obj [okMember, (js "type", .str resolvedType), (js "context", .str resolvedContext)]),
          state.recordAudit ⟨js "link_deliver_ok", some (hex session.sessionId),
            .obj [(js "type", .str resolvedType), (js "context", .str resolvedContext),
              (js "counter", .num (config.double fields.counter))]⟩,
          { conn with
            linkSession := some { session with lastInboundCounter := fields.counter } })

end Bsh.Bridge
