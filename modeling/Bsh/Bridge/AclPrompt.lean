import Bsh.Bridge.AclDocument

/-!
# Prompts and the grants they write

`LinkGeoEngine.gateScope` looks a peer up, and where the answer is `prompt` it captures the entry
it found and waits for the user.  `handlePromptOutcome` later writes the answer into that captured
entry, for one scope, and stores it by its id.  This module models both halves on the document of
`AclDocument`, as steps of a system in which any number of prompts may be open at a time.
-/

namespace Bsh.Bridge

open Bsh.Library Bsh.BrightLink Utf Json Decimal

/-- `PromptOutcome`. -/
inductive PromptOutcome where
  | allowOnce
  | allowAlways
  | allowSession (sshSessionId : JsString)
  | deny
  | denyAlways
  | timeout
  deriving DecidableEq

/-- `defaultDisplayName`. -/
def defaultDisplayName (attestation : PeerAttestation) : JsString :=
  let pidName := js "pid " ++ codeUnits (decimalCodes attestation.pid)
  match attestation.subjectId, attestation.executablePath with
  | some (c :: subjectId), _ => c :: subjectId
  | _, some (c :: executablePath) => c :: executablePath
  | _, _ => pidName

/-- The hash that an entry for the peer stores. -/
def storedHash (attestation : PeerAttestation) : Option JsString :=
  if attestation.attestationClass = .unsigned then
    some (sha256Prefix ++ (attestation.executableHash.map hex).getD [])
  else none

namespace LinkAcl

/-- A string or `null`. -/
def ofOption : Option JsString → Json
  | none => .null
  | some s => .str s

/-- `existing?.name ?? default`. -/
def existingOr (existing : Option Json) (name : JsString) (default : Json) : Json :=
  match existing.map (property name) with
  | some (.ok (.value .null)) => default
  | some (.ok (.value v)) => v
  | _ => default

/-- The entry that `upsertEntryForScope` builds from the entry captured before the prompt. -/
def grantedEntry (attestation : PeerAttestation) (scope : LinkGeoScope) (policy : LinkGeoPolicy)
    (existing : Option Json) (nowBd : ℚ) (generatedId : JsString)
    (sshSessionId : Option JsString) : Json :=
  let baseScopes := existingOr existing scopesKey defaultPromptScopes
  .obj ([(idKey, existingOr existing idKey (.str generatedId)),
    (js "displayName", existingOr existing (js "displayName")
      (.str (defaultDisplayName attestation))),
    (attestationClassKey, .str attestation.attestationClass.text),
    (issuerIdKey, ofOption attestation.issuerId),
    (subjectIdKey, ofOption attestation.subjectId),
    (expectedPathKey, ofOption attestation.executablePath),
    (fallbackHashKey, ofOption (storedHash attestation)),
    (scopesKey, .obj (setMember scope.text (.str policy.text) (spread baseScopes))),
    (js "addedAtBd", existingOr existing (js "addedAtBd") (.num (.finite nowBd))),
    (lastUsedBdKey, .num (.finite nowBd)),
    (expiresAtBdKey, existingOr existing expiresAtBdKey .null)] ++
    match sshSessionId with
    | some sessionId => [(js "sshSessionId", .str sessionId)]
    | none => [])

end LinkAcl

/-- A prompt that waits for its answer, with the entry captured when it was raised. -/
structure OpenPrompt where
  attestation : PeerAttestation
  scope : LinkGeoScope
  existing : Option Json

/-- An ACL and the prompts that are open. -/
structure PromptState where
  acl : LinkAcl
  prompts : List OpenPrompt

/-- What may happen to an ACL. -/
inductive AclEvent where
  | upsert (entry : Json)
  | remove (id : JsString)
  | load (canonicalJson signature : Bytes)
  /-- `gateScope` up to its prompt. -/
  | request (attestation : PeerAttestation) (scope : LinkGeoScope) (nowBd : ℚ)
  /-- `handlePromptOutcome` for one of the open prompts. -/
  | answer (prompt : ℕ) (outcome : PromptOutcome) (nowBd : ℚ) (generatedId : JsString)

variable {p256Verify : Bytes → Bytes → Bytes → Bool}

/-- `gateScope` up to its prompt: a granted access is recorded, a prompt is raised. -/
def requestScope (read : ℚ → Number) (identity : BridgeIdentity p256Verify) (state : PromptState)
    (attestation : PeerAttestation) (scope : LinkGeoScope) (nowBd : ℚ) : PromptState :=
  match state.acl.lookup read attestation scope nowBd with
  | .ok (.allow entry) =>
    match property idKey entry with
    | .ok id => { state with acl := (state.acl.recordUse identity id nowBd).1 }
    | .error _ => state
  | .ok (.prompt existing) =>
    { state with prompts := state.prompts ++ [⟨attestation, scope, existing⟩] }
  | _ => state

/-- Store a policy for the scope of a prompt; an access that the answer grants is recorded. -/
def writePolicy (identity : BridgeIdentity p256Verify) (acl : LinkAcl) (prompt : OpenPrompt)
    (policy : LinkGeoPolicy) (recordAccess : Bool) (nowBd : ℚ) (generatedId : JsString)
    (sshSessionId : Option JsString) : LinkAcl :=
  let entry := LinkAcl.grantedEntry prompt.attestation prompt.scope policy prompt.existing nowBd
    generatedId sshSessionId
  match acl.upsert identity entry, property idKey entry with
  | (acl, .ok ()), .ok id => if recordAccess then (acl.recordUse identity id nowBd).1 else acl
  | (acl, _), _ => acl

/-- `handlePromptOutcome`, as far as it concerns the ACL. -/
def applyOutcome (identity : BridgeIdentity p256Verify) (acl : LinkAcl) (prompt : OpenPrompt)
    (outcome : PromptOutcome) (nowBd : ℚ) (generatedId : JsString) : LinkAcl :=
  match outcome with
  | .allowAlways => writePolicy identity acl prompt .always true nowBd generatedId none
  | .allowSession sshSessionId =>
    writePolicy identity acl prompt .always true nowBd generatedId (some sshSessionId)
  | .denyAlways => writePolicy identity acl prompt .deny false nowBd generatedId none
  | _ => acl

def aclStep (read : ℚ → Number) (identity : BridgeIdentity p256Verify) (state : PromptState)
    (event : AclEvent) : PromptState :=
  match event with
  | .upsert entry => { state with acl := (state.acl.upsert identity entry).1 }
  | .remove id => { state with acl := (state.acl.remove identity id).1 }
  | .load bytes signature =>
    { state with acl := (state.acl.loadFromBytes read identity bytes signature).1 }
  | .request attestation scope nowBd => requestScope read identity state attestation scope nowBd
  | .answer index outcome nowBd generatedId =>
    match state.prompts[index]? with
    | none => state
    | some prompt =>
      ⟨applyOutcome identity state.acl prompt outcome nowBd generatedId,
        state.prompts.eraseIdx index⟩

/-- `new LinkAcl(identity, initial)`. -/
def LinkAcl.create (identity : BridgeIdentity p256Verify) (initial : Option Json) : LinkAcl :=
  ((⟨.null, []⟩ : LinkAcl).resign identity (initial.getD (emptyAcl identity.keyId))).1

/-- The shell itself, as the bridge attests it. -/
def builtinPeer : PeerAttestation where
  pid := 7
  uid := 501
  executablePath := some (js "/opt/bsh/bin/bsh")
  executableHash := none
  attestationClass := .bshBuiltin
  issuerId := some (js "Digital Defiance")
  subjectId := some (js "bsh")
  signatureValid := true
  sshSession := none

end Bsh.Bridge
