import Bsh.Client.Transport
import Bsh.BrightLink.Crypto
import Bsh.Library.ObjectText

/-!
# The client's side of the handshake

`link_register_if_needed` fetches the bridge's keys, sends fresh material in an envelope, checks
the signed transcript of the answer and only then pins the key and commits the session.  The values
that pass from the checks to the commit are a `Handshake`, which carries the fact that its signature
was verified.
-/

namespace Bsh.Client

open Bsh.Library Bsh.BrightLink Bytes

variable {W : Type} (P : Primitives) (host : Host W)

/-! ## Keys and envelopes -/

def rngFailed : Option Bytes := some (ascii "RNG / secp256k1 setup failed")

/-- `RAND_bytes`; a failure ends the caller with its own message. -/
def randBytes (e : Option Bytes) (n : ℕ) : LinkProgram W Bytes := do
  Program.require e (← call (host.random n))

/-- The loop of `link_secp_random_priv`. -/
def randomPrivLoop : ℕ → W → Option Bytes × W
  | 0, w => (none, w)
  | attempts + 1, w =>
    match host.random 32 w with
    | (none, w) => (none, w)
    | (some priv, w) => if P.secpValid priv then (some priv, w) else randomPrivLoop attempts w

/-- `link_secp_random_priv`. -/
def linkSecpRandomPriv (e : Option Bytes) : LinkProgram W Bytes := do
  Program.require e (← call (randomPrivLoop P host 16))

def eciesHeader (ephPub : Bytes) : Bytes :=
  [eciesVersionByte, eciesCipherSuiteByte, eciesTypeBasic] ++ ephPub

/-- `link_ecies_encrypt`. -/
def linkEciesEncrypt (e : Option Bytes) (recipientPub plaintext : Bytes) :
    LinkProgram W Bytes := do
  let ephPriv ← linkSecpRandomPriv P host e
  let ephPub ← Program.require e (P.secpPubCompressed ephPriv)
  let sharedX ← Program.require e (P.secpSharedX ephPriv recipientPub)
  let aesKey ← Program.require e (P.hkdf sharedX [] eciesHkdfInfo 32)
  let iv ← randBytes host e linkGcmIvLength
  let aad := eciesHeader ephPub
  let (ct, tag) ← Program.require e (P.gcmSeal aesKey iv aad plaintext)
  return eciesHeader ephPub ++ iv ++ tag ++ ct

/-- `link_ecies_decrypt`. -/
def linkEciesDecrypt (recipientPriv envelope : Bytes) : Option Bytes :=
  if envelope.length < 64 then none
  else if envelope[0]? ≠ some eciesVersionByte then none
  else if envelope[1]? ≠ some eciesCipherSuiteByte then none
  else if envelope[2]? ≠ some eciesTypeBasic then none
  else if envelope[3]? ≠ some 0x02 ∧ envelope[3]? ≠ some 0x03 then none
  else
    let ephPub := (envelope.drop 3).take 33
    let iv := (envelope.drop 36).take 12
    let tag := (envelope.drop 48).take 16
    let ct := envelope.drop 64
    match P.secpSharedX recipientPriv ephPub with
    | none => none
    | some sharedX =>
      match P.hkdf sharedX [] eciesHkdfInfo 32 with
      | none => none
      | some aesKey => P.gcmOpen aesKey iv (eciesHeader ephPub) ct tag

/-! ## Transcript -/

/-- `(int64_t)(issued_at_bd * 86400.0 + 0.5)`, truncated towards zero. -/
def roundToUnix (double : ℚ → ℚ) (issuedAtBd : ℚ) : ℤ :=
  let x := double (double (issuedAtBd * 86400) + 1 / 2)
  if 0 ≤ x then ⌊x⌋ else ⌈x⌉

/-- The bytes of a 64-bit or 32-bit field, from the least significant bits of a value. -/
def unsignedField (width : ℕ) (v : ℤ) : Bytes := bigEndian width (v % 256 ^ width).toNat

def le32 (v : ℕ) : Bytes := littleEndian 4 v

/-- `link_build_transcript`. -/
def linkBuildTranscript (double : ℚ → ℚ) (clientNonce clientPub65 clientShare sessionId
    bridgeShare : Bytes) (issuedAtBd : ℚ) (bridgeIssuedAtUnix ttlSeconds : ℤ) : Bytes :=
  linkTranscriptHeader ++
    le32 16 ++ clientNonce ++
    le32 65 ++ clientPub65 ++
    le32 32 ++ clientShare ++
    le32 16 ++ sessionId ++
    le32 32 ++ bridgeShare ++
    le32 8 ++ unsignedField 8 (roundToUnix double issuedAtBd) ++
    le32 8 ++ unsignedField 8 bridgeIssuedAtUnix ++
    le32 4 ++ unsignedField 4 ttlSeconds

/-- `link_verify_p256_signature`. -/
def linkVerifyP256Signature (sepPub65 transcript sigDer : Bytes) : Bool :=
  sepPub65.head? = some 0x04 && P.p256Verify sepPub65 transcript sigDer

/-! ## The bridge's keys -/

def commandRequest (cmd : String) : Bytes := Json.objectBytes [(ascii "cmd", quoted (ascii cmd))]

/-- The public key in an answer. -/
def publicKeyOf (response : Bytes) : Option Bytes :=
  match linkJsonFieldB64 response (ascii "publicKey") 65 with
  | none => none
  | some key => if key.length = 65 ∧ key.head? = some 0x04 then some key else none

/-- `link_get_bridge_pubkey` and `link_get_bridge_sep_pub`, with the message of their caller. -/
def getPublicKey (cmd : String) : LinkProgram W Bytes := do
  let e := cmd ++ " failed"
  let response ← requestOr e host (commandRequest cmd)
  Program.require (some (ascii e)) (publicKeyOf response)

/-! ## Registration -/

/-- What the client draws and computes for a registration. -/
structure ClientMaterial where
  clientNonce : Bytes
  clientShare : Bytes
  ephPriv : Bytes
  ephPub : Bytes
  issuedAtBd : ℚ

/-- The plaintext of the envelope. -/
def plaintextJson (material : ClientMaterial) : Bytes :=
  Json.objectBytes
    [(ascii "v", ascii "1"),
      (ascii "clientPub", quoted (Base64.encode material.ephPub)),
      (ascii "clientShare", quoted (Base64.encode material.clientShare)),
      (ascii "issuedAtBd", Decimal.fixed6 material.issuedAtBd),
      (ascii "ttlSeconds", Decimal.decimal 3600),
      (ascii "agent", Json.objectBytes
        [(ascii "name", quoted (ascii "bsh")), (ascii "version", quoted (ascii "5.11.2")),
          (ascii "platform", quoted (ascii "brightlink-v1-c"))])]

/-- The request. -/
def registerRequest (clientNonce envelope : Bytes) : Bytes :=
  Json.objectBytes
    [(ascii "cmd", quoted (ascii "LINK_REGISTER")),
      (ascii "protocolVersion", ascii "1"),
      (ascii "clientNonce", quoted (Base64.encode clientNonce)),
      (ascii "envelope", quoted (Base64.encode envelope))]

/-- What the client takes from the answer. -/
structure BridgeMaterial where
  sessionId : Bytes
  bridgeShare : Bytes
  bridgeIssuedAt : ℤ
  grantedTtl : ℤ

/-- The key derivation of the client. -/
def sessionKeyInputs (client : ClientMaterial) (bridge : BridgeMaterial) : HkdfInputs where
  ikm := client.clientShare ++ bridge.bridgeShare
  salt := client.clientNonce ++ bridge.sessionId
  info := linkSessionKeyHkdfInfo
  outputByteCount := 32

def transcriptOf (double : ℚ → ℚ) (client : ClientMaterial) (bridge : BridgeMaterial) : Bytes :=
  linkBuildTranscript double client.clientNonce client.ephPub client.clientShare bridge.sessionId
    bridge.bridgeShare client.issuedAtBd bridge.bridgeIssuedAt bridge.grantedTtl

/-- A registration whose signature has been verified. -/
structure Handshake (double : ℚ → ℚ) where
  client : ClientMaterial
  bridge : BridgeMaterial
  sepPub : Bytes
  kSession : Bytes
  sigDer : Bytes
  derived : P.hkdf (sessionKeyInputs client bridge).ikm (sessionKeyInputs client bridge).salt
    (sessionKeyInputs client bridge).info (sessionKeyInputs client bridge).outputByteCount =
      some kSession
  verified : linkVerifyP256Signature P sepPub (transcriptOf double client bridge) sigDer = true

/-- Steps 1 and the TOFU check: the bridge's keys. -/
def fetchKeys : LinkProgram W (Bytes × Bytes) := do
  let bridgePub ← getPublicKey host "GET_PUBLIC_KEY"
  let sepPub ← getPublicKey host "GET_ENCLAVE_PUBLIC_KEY"
  let globals ← readGlobals
  Program.check (some (ascii "SEP key changed since pinned (TOFU mismatch)"))
    (!(globals.pinnedSepPubSet && sepPub != globals.pinnedSepPub))
  return (bridgePub, sepPub)

/-- Step 2: fresh client material. -/
def drawMaterial (double : ℚ → ℚ) : LinkProgram W ClientMaterial := do
  let clientNonce ← randBytes host rngFailed linkClientNonceLength
  let clientShare ← randBytes host rngFailed linkShareLength
  let ephPriv ← linkSecpRandomPriv P host rngFailed
  let ephPub ← Program.require rngFailed (P.secpPub ephPriv)
  let t ← call host.time
  return ⟨clientNonce, clientShare, ephPriv, ephPub, double (t / 86400)⟩

/-- Step 5: the fields of the answer. -/
def parseResponse (material : ClientMaterial) (response : Bytes) :
    LinkProgram W BridgeMaterial := do
  let missing := some (ascii "LINK_REGISTER response missing fields")
  let bridgeIssuedAt ← Program.require missing
    (linkJsonFieldInt response (ascii "bridgeIssuedAtUnix"))
  let grantedTtl ← Program.require missing (linkJsonFieldInt response (ascii "ttlSeconds"))
  let badSession := some (ascii "LINK_REGISTER bad sessionId")
  let sessionId ← Program.require badSession
    (linkJsonFieldB64 response (ascii "sessionId") linkSessionIdLength)
  Program.check badSession (sessionId.length = linkSessionIdLength)
  let cap := response.length + 1
  let envelopeText ← Program.require (some (ascii "LINK_REGISTER missing responseEnvelope"))
    (linkJsonFieldStr response (ascii "responseEnvelope") cap)
  let envelope ← Program.require (some (ascii "responseEnvelope b64 decode failed"))
    (linkB64decode (cString envelopeText) cap)
  let badEnvelope := some (ascii "responseEnvelope decrypt failed")
  let bridgeShare ← Program.require badEnvelope (linkEciesDecrypt P material.ephPriv envelope)
  Program.check badEnvelope (bridgeShare.length = linkShareLength)
  return ⟨sessionId, bridgeShare, bridgeIssuedAt, grantedTtl⟩

/-- Step 7: the signature of the answer. -/
def parseSignature (response : Bytes) : LinkProgram W Bytes := do
  let sigText ← Program.require (some (ascii "missing transcriptSig"))
    (linkJsonFieldStr response (ascii "transcriptSig") 1024)
  Program.require (some (ascii "transcriptSig b64 decode failed"))
    (linkB64decode (cString sigText) 256)

/-- Steps 6 and 7: derive the session key and verify the signed transcript. -/
def verifyResponse (double : ℚ → ℚ) (sepPub : Bytes) (material : ClientMaterial)
    (bridge : BridgeMaterial) (response : Bytes) : LinkProgram W (Handshake P double) :=
  let inputs := sessionKeyInputs material bridge
  match hkey : P.hkdf inputs.ikm inputs.salt inputs.info inputs.outputByteCount with
  | none => Program.fail (some (ascii "HKDF derive failed"))
  | some kSession => do
    let sigDer ← parseSignature response
    if hverified : linkVerifyP256Signature P sepPub (transcriptOf double material bridge) sigDer then
      return ⟨material, bridge, sepPub, kSession, sigDer, hkey, hverified⟩
    else
      Program.fail (some (ascii "transcript signature verify failed"))

/-- `link_register_if_needed` up to its first change of the session. -/
def handshake (double : ℚ → ℚ) : LinkProgram W (Handshake P double) := do
  let (bridgePub, sepPub) ← fetchKeys host
  let material ← drawMaterial P host double
  let envelope ← linkEciesEncrypt P host (some (ascii "ECIES encrypt failed")) bridgePub
    (plaintextJson material)
  let response ← requestOr "LINK_REGISTER transport failed" host
    (registerRequest material.clientNonce envelope)
  let bridge ← parseResponse P material response
  verifyResponse P double sepPub material bridge response

/-- Steps 8 and 9: pin the key, commit the session. -/
def Globals.commit {double : ℚ → ℚ} (globals : Globals) (h : Handshake P double) : Globals :=
  { globals with
    pinnedSepPub := if globals.pinnedSepPubSet then globals.pinnedSepPub else h.sepPub
    pinnedSepPubSet := true
    sessionId := h.bridge.sessionId
    sessionKey := h.kSession
    sessionIdSet := true
    sessionKeySet := true
    sessionActive := true
    cShellToAgent := 0
    cAgentToShell := 0 }

/-- `link_register_if_needed`: it returns 1 exactly if the program ends without an error. -/
def linkRegisterIfNeeded (double : ℚ → ℚ) : LinkProgram W Unit := do
  let globals ← readGlobals
  if globals.sessionActive then return ()
  else
    let h ← handshake P host double
    update fun globals ↦ globals.commit P h

end Bsh.Client
