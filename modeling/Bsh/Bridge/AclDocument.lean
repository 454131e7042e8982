import Bsh.BrightLink.Crypto
import Bsh.Library.JsValue

/-!
# The ACL document as parsed JSON

`LinkAcl` of `acl.ts` keeps whatever `JSON.parse` made of the ACL file: the cast to
`LinkAclDocument` checks nothing.  This module models the class on that level, where an entry is
any JSON value: look-ups may throw, and so may the canonical encoding that every mutation signs.
An operation returns the object it leaves behind together with its result, because a mutation is
not undone when the signing that follows it throws.
-/

namespace Bsh.Bridge

open Bsh.Library Bsh.BrightLink Utf Json

/-! ## Canonical JSON -/

/-- The message of the exception for numbers that JSON cannot express. -/
def notFiniteMessage : JsString := js "canonical JSON forbids NaN / Infinity"

/-- `Array.prototype.sort` on keys: by code units. -/
def sortByKey (parts : List (JsString × JsString)) : List (JsString × JsString) :=
  parts.mergeSort fun a b ↦ decide (a.1 ≤ b.1)

def joinWith (separator : JsString) : List JsString → JsString
  | [] => []
  | [text] => text
  | text :: next :: rest => text ++ separator ++ joinWith separator (next :: rest)

mutual

/-- `canonicalJsonString`. -/
def canonicalJsonString : Json → Js JsString
  | .null => .ok nullName
  | .bool b => .ok (if b then trueName else falseName)
  | .num (.infinite _) => .error (.error notFiniteMessage)
  | .num (.finite q) => .ok (numberText (.finite q))
  | .str s => .ok (stringText s)
  | .arr elements =>
    match canonicalElements elements with
    | .error e => .error e
    | .ok parts => .ok (js "[" ++ joinWith (js ",") parts ++ js "]")
  | .obj members =>
    match canonicalMembers members with
    | .error e => .error e
    | .ok parts =>
      .ok (js "\x7b" ++ joinWith (js ",")
        ((sortByKey parts).map fun part ↦ stringText part.1 ++ js ":" ++ part.2) ++ js "\x7d")

def canonicalElements : List Json → Js (List JsString)
  | [] => .ok []
  | v :: rest =>
    match canonicalJsonString v, canonicalElements rest with
    | .ok text, .ok texts => .ok (text :: texts)
    | .error e, _ => .error e
    | _, .error e => .error e

def canonicalMembers : List (JsString × Json) → Js (List (JsString × JsString))
  | [] => .ok []
  | (key, v) :: rest =>
    match canonicalJsonString v, canonicalMembers rest with
    | .ok text, .ok texts => .ok ((key, text) :: texts)
    | .error e, _ => .error e
    | _, .error e => .error e

end

def canonicalJsonBytes (value : Json) : Js Bytes :=
  match canonicalJsonString value with
  | .error e => .error e
  | .ok text => .ok (utf8Encode text)

/-! ## The bridge identity -/

/-- `verifyEcdsaP256`, over the platform's signature verification. -/
def verifyEcdsaP256 (p256Verify : Bytes → Bytes → Bytes → Bool)
    (pubKey65 data signatureDer : Bytes) : Bool :=
  if pubKey65.length ≠ 65 ∨ pubKey65.head? ≠ some 0x04 then false
  else p256Verify pubKey65 data signatureDer

/-- `BridgeIdentity`: the key pair that signs the document.  What it signs verifies. -/
structure BridgeIdentity (p256Verify : Bytes → Bytes → Bytes → Bool) where
  keyId : JsString
  publicKey : Bytes
  sign : Bytes → Bytes
  verify_sign : ∀ data, verifyEcdsaP256 p256Verify publicKey data (sign data) = true

/-! ## The document -/

/-- The state of a `LinkAcl`. -/
structure LinkAcl where
  doc : Json
  signature : Bytes

def entriesKey : JsString := js "entries"
def scopesKey : JsString := js "scopes"
def bridgeKeyIdKey : JsString := js "bridgeKeyId"
def idKey : JsString := js "id"
def lastUsedBdKey : JsString := js "lastUsedBd"
def attestationClassKey : JsString := js "attestationClass"
def expectedPathKey : JsString := js "expectedPath"
def fallbackHashKey : JsString := js "fallbackHash"
def issuerIdKey : JsString := js "issuerId"
def subjectIdKey : JsString := js "subjectId"
def expiresAtBdKey : JsString := js "expiresAtBd"

/-- `emptyAcl`. -/
def emptyAcl (bridgeKeyId : JsString) : Json :=
  .obj [(js "version", .num (.finite 1)), (bridgeKeyIdKey, .str bridgeKeyId),
    (entriesKey, .arr [])]

/-- `defaultPromptScopes`. -/
def defaultPromptScopes : Json :=
  .obj (linkGeoScopes.map fun scope ↦ (scope.text, .str LinkGeoPolicy.prompt.text))

variable {p256Verify : Bytes → Bytes → Bytes → Bool}

/-- `resign`, after the document has been replaced by `doc`. -/
def LinkAcl.resign (identity : BridgeIdentity p256Verify) (acl : LinkAcl) (doc : Json) :
    LinkAcl × Js Unit :=
  match canonicalJsonBytes doc with
  | .error e => ({ acl with doc := doc }, .error e)
  | .ok canonical => (⟨doc, identity.sign canonical⟩, .ok ())

/-- `verify`. -/
def LinkAcl.verify (identity : BridgeIdentity p256Verify) (acl : LinkAcl) : Js Bool :=
  match canonicalJsonBytes acl.doc with
  | .error e => .error e
  | .ok canonical =>
    .ok (verifyEcdsaP256 p256Verify identity.publicKey canonical acl.signature)

/-! ## Look-up -/

/-- `AclLookupResult`. -/
inductive AclLookupResult where
  | allow (entry : Json)
  | deny (entry : Json)
  | prompt (entry : Option Json)
  | denyCap

/-- The lower-case hexadecimal form of a buffer. -/
def hex (bytes : Bytes) : JsString :=
  bytes.flatMap fun b ↦ [hexUnit (b.toNat / 16), hexUnit (b.toNat % 16)]

def sha256Prefix : JsString := js "sha256:"

/-- `hash.replace(/^sha256:/, '')`. -/
def stripSha256 (hash : JsString) : JsString :=
  if sha256Prefix.isPrefixOf hash then hash.drop sha256Prefix.length else hash

/-- One round of the loop of `findMatchingEntry`: whether the entry is returned. -/
def entryMatches (attestation : PeerAttestation) (entry : Json) : Js Bool :=
  match property attestationClassKey entry with
  | .error e => .error e
  | .ok attestationClass =>
    if strictEq attestationClass (some attestation.attestationClass.text) = false then .ok false
    else if attestation.attestationClass = .unsigned then
      match property expectedPathKey entry, property fallbackHashKey entry with
      | .ok expectedPath, .ok fallbackHash =>
        if strictEq expectedPath attestation.executablePath = false then .ok false
        else if isNull fallbackHash then .ok false
        else
          match attestation.executableHash, fallbackHash with
          | none, _ => .ok false
          | some executableHash, .value (.str hash) =>
            .ok (stripSha256 hash = hex executableHash)
          -- Only strings have a method `replace`.
          | some _, _ => .error .typeError
      | .error e, _ => .error e
      | _, .error e => .error e
    else
      match property issuerIdKey entry, property subjectIdKey entry with
      | .ok issuerId, .ok subjectId =>
        .ok (strictEq issuerId attestation.issuerId && strictEq subjectId attestation.subjectId)
      | .error e, _ => .error e
      | _, .error e => .error e

/-- The loop of `findMatchingEntry`. -/
def findEntry (attestation : PeerAttestation) : List Json → Js (Option Json)
  | [] => .ok none
  | entry :: rest =>
    match entryMatches attestation entry with
    | .error e => .error e
    | .ok true => .ok (some entry)
    | .ok false => findEntry attestation rest

/-- The entries of a document, as `for (const entry of this.doc.entries)` visits them. -/
def documentEntries (doc : Json) : Js (List Json) :=
  match property entriesKey doc with
  | .error e => .error e
  | .ok entries => iterate entries

def LinkAcl.findMatchingEntry (acl : LinkAcl) (attestation : PeerAttestation) :
    Js (Option Json) :=
  match documentEntries acl.doc with
  | .error e => .error e
  | .ok entries => findEntry attestation entries

/-- `entry.expiresAtBd !== null && nowBd > entry.expiresAtBd`. -/
def entryExpired (read : ℚ → Number) (nowBd : ℚ) (entry : Json) : Js Bool :=
  match property expiresAtBdKey entry with
  | .error e => .error e
  | .ok expiresAtBd =>
    if isNull expiresAtBd then .ok false
    else
      match toNumber read expiresAtBd with
      | .error e => .error e
      | .ok number => .ok (greaterThan nowBd number)

/-- `entry.scopes[scope]`. -/
def entryPolicy (scope : LinkGeoScope) (entry : Json) : Js Property :=
  match property scopesKey entry with
  | .error e => .error e
  | .ok (.value scopes) => property scope.text scopes
  | .ok .undefined => .error .typeError
  | .ok .method => .ok .undefined

/-- `lookup`. -/
def LinkAcl.lookup (read : ℚ → Number) (acl : LinkAcl) (attestation : PeerAttestation)
    (scope : LinkGeoScope) (nowBd : ℚ) : Js AclLookupResult :=
  if attestation.capped scope then .ok .denyCap
  else
    match acl.findMatchingEntry attestation with
    | .error e => .error e
    | .ok none => .ok (.prompt none)
    | .ok (some entry) =>
      match entryExpired read nowBd entry with
      | .error e => .error e
      -- An expired entry counts as no entry.
      | .ok true => .ok (.prompt none)
      | .ok false =>
        match entryPolicy scope entry with
        | .error e => .error e
        | .ok policy =>
          if strictEq policy (some LinkGeoPolicy.always.text) then .ok (.allow entry)
          else if strictEq policy (some LinkGeoPolicy.deny.text) then .ok (.deny entry)
          else .ok (.prompt (some entry))

/-! ## Mutations -/

/-- `entry.id === id`.  Ids are strings; an object or array in their place, which JavaScript
compares by reference, is compared by its content. -/
def hasId (id : Property) (entry : Json) : Js Bool :=
  match property idKey entry with
  | .error e => .error e
  | .ok own =>
    .ok (match own, id with
      | .value a, .value b => sameValue a b
      | .undefined, .undefined => true
      | _, _ => false)

/-- The index of the first entry with the given id (`findIndex`). -/
def findIndexById (id : Property) : List Json → Js (Option ℕ)
  | [] => .ok none
  | entry :: rest =>
    match hasId id entry with
    | .error e => .error e
    | .ok true => .ok (some 0)
    | .ok false =>
      match findIndexById id rest with
      | .error e => .error e
      | .ok index => .ok (index.map (· + 1))

/-- The entries that do not have the given id (`filter`). -/
def dropById (id : Property) : List Json → Js (List Json)
  | [] => .ok []
  | entry :: rest =>
    match hasId id entry, dropById id rest with
    | .ok true, .ok kept => .ok kept
    | .ok false, .ok kept => .ok (entry :: kept)
    | .error e, _ => .error e
    | _, .error e => .error e

/-- `this.doc.entries`, for the array methods that only arrays have. -/
def entryArray (doc : Json) : Js (List Json) :=
  match property entriesKey doc with
  | .error e => .error e
  | .ok (.value (.arr entries)) => .ok entries
  | .ok _ => .error .typeError

/-- The document with other entries. -/
def withEntries (doc : Json) (entries : List Json) : Json :=
  match doc with
  | .obj members => .obj (setMember entriesKey (.arr entries) members)
  | doc => doc

/-- `upsert`: replace the entry with the same id, or append. -/
def LinkAcl.upsert (identity : BridgeIdentity p256Verify) (acl : LinkAcl) (entry : Json) :
    LinkAcl × Js Unit :=
  match entryArray acl.doc, property idKey entry with
  | .ok entries, .ok id =>
    match findIndexById id entries with
    | .error e => (acl, .error e)
    | .ok (some index) => acl.resign identity (withEntries acl.doc (entries.set index entry))
    | .ok none => acl.resign identity (withEntries acl.doc (entries ++ [entry]))
  | .error e, _ => (acl, .error e)
  | _, .error e => (acl, .error e)

/-- `remove`. -/
def LinkAcl.remove (identity : BridgeIdentity p256Verify) (acl : LinkAcl) (id : JsString) :
    LinkAcl × Js Unit :=
  match entryArray acl.doc with
  | .error e => (acl, .error e)
  | .ok entries =>
    match dropById (.value (.str id)) entries with
    | .error e => (acl, .error e)
    | .ok kept => acl.resign identity (withEntries acl.doc kept)

/-- `recordUse`: mark `lastUsedBd` of the first entry with the given id. -/
def LinkAcl.recordUse (identity : BridgeIdentity p256Verify) (acl : LinkAcl) (entryId : Property)
    (nowBd : ℚ) : LinkAcl × Js Unit :=
  match entryArray acl.doc with
  | .error e => (acl, .error e)
  | .ok entries =>
    match findIndexById entryId entries with
    | .error e => (acl, .error e)
    | .ok none => (acl, .ok ())
    | .ok (some index) =>
      match entries[index]? with
      | none => (acl, .ok ())
      | some (.obj members) =>
        acl.resign identity (withEntries acl.doc (entries.set index
          (.obj (setMember lastUsedBdKey (.num (.finite nowBd)) members))))
      | some (.arr _) => acl.resign identity acl.doc
      -- `find` returned a primitive value: `if (!entry) return`, else it takes no property.
      | some entry => (acl, if truthy entry then .error .typeError else .ok ())

/-! ## Loading -/

/-- `e.scopes = defaultPromptScopes()`.  An array takes the property without showing it, a
primitive value or `null` does not take it. -/
def revertEntry : Json → Js Json
  | .obj members => .ok (.obj (setMember scopesKey defaultPromptScopes members))
  | .arr elements => .ok (.arr elements)
  | _ => .error .typeError

def revertEntries : List Json → Js (List Json)
  | [] => .ok []
  | entry :: rest =>
    match revertEntry entry, revertEntries rest with
    | .ok reverted, .ok others => .ok (reverted :: others)
    | .error e, _ => .error e
    | _, .error e => .error e

/-- `for (const e of parsed?.entries ?? []) e.scopes = defaultPromptScopes()`. -/
def revertDocument (parsed : Json) : Js Json :=
  match property entriesKey parsed with
  | .error e => .error e
  | .ok .undefined => .ok parsed
  | .ok (.value .null) => .ok parsed
  | .ok entries =>
    match iterate entries with
    | .error e => .error e
    | .ok elements =>
      match revertEntries elements with
      | .error e => .error e
      | .ok reverted =>
        match entries with
        | .value (.arr _) => .ok (withEntries parsed reverted)
        | _ => .ok parsed

/-- `this.doc = doc; this.resign(); return { tampered: true }`. -/
def LinkAcl.replaceBy (identity : BridgeIdentity p256Verify) (acl : LinkAcl) (doc : Json) :
    LinkAcl × Js Bool :=
  match acl.resign identity doc with
  | (acl, .error e) => (acl, .error e)
  | (acl, .ok ()) => (acl, .ok true)

/-- The document that replaces a tampered one. -/
def tamperedDocument (keyId : JsString) (parsed : Json) : Js Json :=
  match revertDocument parsed with
  | .error e => .error e
  | .ok reverted =>
    .ok (if truthy reverted
      then .obj (setMember bridgeKeyIdKey (.str keyId) (spread reverted))
      else emptyAcl keyId)

/-- `loadFromBytes`; the result says whether the document counts as tampered. -/
def LinkAcl.loadFromBytes (read : ℚ → Number) (identity : BridgeIdentity p256Verify)
    (acl : LinkAcl) (canonicalJson signature : Bytes) : LinkAcl × Js Bool :=
  match parse read (utf8Decode canonicalJson) with
  | none => acl.replaceBy identity (emptyAcl identity.keyId)
  | some parsed =>
    let sigOk := verifyEcdsaP256 p256Verify identity.publicKey canonicalJson signature
    match property bridgeKeyIdKey parsed with
    | .error e => (acl, .error e)
    | .ok bridgeKeyId =>
      if sigOk && strictEq bridgeKeyId (some identity.keyId) then (⟨parsed, signature⟩, .ok false)
      else
        match tamperedDocument identity.keyId parsed with
        | .error e => (acl, .error e)
        | .ok doc => acl.replaceBy identity doc

end Bsh.Bridge
