import Bsh.BrightLink.Spec
import Bsh.Library.Utf

/-!
# The cryptographic primitives

Both ends call libraries for the primitives: OpenSSL and libsecp256k1 in the client, Node and noble
in the bridge.  They are parameters of the model.  `Primitives.Correct` collects what both ends
rely on: lengths, that opening undoes sealing and that the two ends of a key agreement compute the
same secret.  Signatures that verify are the subject of `BridgeIdentity`.
-/

namespace Bsh.BrightLink

open Bsh.Library

/-- The primitives; a result `none` is a failure that the library reports. -/
structure Primitives where
  /-- HKDF-SHA256 of key material, salt and info, with the length of the output. -/
  hkdf : Bytes → Bytes → Bytes → ℕ → Option Bytes
  /-- AES-256-GCM of key, IV, additional data and plaintext: ciphertext and tag. -/
  gcmSeal : Bytes → Bytes → Bytes → Bytes → Option (Bytes × Bytes)
  /-- AES-256-GCM of key, IV, additional data, ciphertext and tag. -/
  gcmOpen : Bytes → Bytes → Bytes → Bytes → Bytes → Option Bytes
  /-- Whether 32 bytes are a secp256k1 private key. -/
  secpValid : Bytes → Bool
  /-- The public keys of a private key, with 65 and with 33 bytes. -/
  secpPub : Bytes → Option Bytes
  secpPubCompressed : Bytes → Option Bytes
  /-- The X coordinate of the shared point of a private key and an encoded public key. -/
  secpSharedX : Bytes → Bytes → Option Bytes
  /-- ECDSA with P-256 and SHA-256 of an uncompressed key, data and a DER signature. -/
  p256Verify : Bytes → Bytes → Bytes → Bool
  sha256 : Bytes → Bytes

/-- What the two ends rely on. -/
structure Primitives.Correct (P : Primitives) : Prop where
  hkdf_ok : ∀ ikm salt info, ∃ key, P.hkdf ikm salt info 32 = some key ∧ key.length = 32
  gcm_ok : ∀ key iv aad plaintext, key.length = 32 → iv.length = 12 →
    ∃ ciphertext tag, P.gcmSeal key iv aad plaintext = some (ciphertext, tag) ∧
      ciphertext.length = plaintext.length ∧ tag.length = 16 ∧
      P.gcmOpen key iv aad ciphertext tag = some plaintext
  pub_ok : ∀ priv, P.secpValid priv = true → ∃ pub, P.secpPub priv = some pub ∧
    pub.length = 65 ∧ pub.head? = some 0x04
  compressed_ok : ∀ priv, P.secpValid priv = true → ∃ pub, P.secpPubCompressed priv = some pub ∧
    pub.length = 33 ∧ (pub.head? = some 0x02 ∨ pub.head? = some 0x03)
  /-- A compressed and an uncompressed key meet in the same point. -/
  shared_ok : ∀ a b pub compressed, P.secpValid a = true → P.secpValid b = true →
    P.secpPub b = some pub → P.secpPubCompressed a = some compressed →
    ∃ x, P.secpSharedX a pub = some x ∧ P.secpSharedX b compressed = some x

/-- Whether an encoded public key is a point does not depend on the private key it meets. -/
def Primitives.PointsAgree (P : Primitives) : Prop :=
  ∀ a b pub, P.secpValid a = true → P.secpValid b = true →
    (P.secpSharedX a pub).isSome = (P.secpSharedX b pub).isSome

/-! ## Consistency -/

namespace Transparent

/-- Some bytes that depend on all of the input. -/
def digest (width : ℕ) (bytes : Bytes) : Bytes :=
  Bytes.littleEndian width (bytes.foldl (fun value b ↦ value * 257 + b.toNat + 1) 0)

def validKey (priv : Bytes) : Bool := priv.length = 32 && priv ≠ List.replicate 32 0

/-- The X coordinate of an encoded public key. -/
def pointX (pub : Bytes) : Option Bytes :=
  match pub with
  | 0x04 :: rest => if rest.length = 64 ∧ rest.drop 32 = List.replicate 32 0 then
      some (rest.take 32) else none
  | 0x02 :: rest => if rest.length = 32 then some rest else none
  | _ => none

end Transparent

open Transparent in
/-- Primitives without any secrecy that do what the two ends rely on. -/
def Primitives.transparent : Primitives where
  hkdf ikm salt info length := some (digest length (ikm ++ salt ++ info))
  gcmSeal key iv aad plaintext := some (plaintext, digest 16 (key ++ iv ++ aad ++ plaintext))
  gcmOpen key iv aad ciphertext tag :=
    if tag = digest 16 (key ++ iv ++ aad ++ ciphertext) then some ciphertext else none
  secpValid := validKey
  secpPub priv := some (0x04 :: priv ++ List.replicate 32 0)
  secpPubCompressed priv := some (0x02 :: priv)
  secpSharedX priv pub := (pointX pub).map fun x ↦ List.zipWith (· ^^^ ·) priv x
  p256Verify pub data signature := signature = digest 32 (pub ++ data)
  sha256 := digest 32

theorem Transparent.length_of_validKey {priv : Bytes} (h : validKey priv = true) :
    priv.length = 32 := by
  unfold validKey at h
  rw [Bool.and_eq_true] at h
  exact of_decide_eq_true h.1

theorem Primitives.transparent_correct : Primitives.transparent.Correct where
  hkdf_ok ikm salt info := ⟨_, rfl, by simp [Transparent.digest]⟩
  gcm_ok key iv aad plaintext _ _ := ⟨_, _, rfl, rfl, by simp [Transparent.digest], if_pos rfl⟩
  pub_ok priv h := ⟨_, rfl, by simp [Transparent.length_of_validKey h], rfl⟩
  compressed_ok priv h := ⟨_, rfl, by simp [Transparent.length_of_validKey h], .inl rfl⟩
  shared_ok a b pub compressed ha hb hpub hcompressed := by
    have hlength := Transparent.length_of_validKey ha
    have hlength' := Transparent.length_of_validKey hb
    cases hpub
    cases hcompressed
    refine ⟨List.zipWith (· ^^^ ·) a b, ?_, ?_⟩
    · simp [transparent, Transparent.pointX, hlength']
    · have hcomm : List.zipWith (· ^^^ ·) b a = List.zipWith (· ^^^ ·) a b :=
        List.zipWith_comm_of_comm UInt8.xor_comm
      simp [transparent, Transparent.pointX, hlength, hcomm]

theorem Primitives.transparent_pointsAgree : Primitives.transparent.PointsAgree := by
  intro a b pub _ _
  exact Option.isSome_map.trans Option.isSome_map.symm

end Bsh.BrightLink

/-!
# The geo vocabulary of the BrightLink specification

Scopes and their ranks, policies, attestation classes and the error texts of the geo and push
commands, as `spec/brightlink.ts` fixes them, with the peer attestation that every connection
carries.
-/

namespace Bsh.BrightLink

open Bsh.Library Utf

/-- `LINK_GEO_SCOPES`. -/
inductive LinkGeoScope where
  | status
  | proximity
  | zone
  | precise
  | trajectory
  deriving DecidableEq, Repr, Inhabited

/-- `LINK_GEO_SCOPE_RANK`: a grant for a higher rung implies grants for lower rungs. -/
def linkGeoScopeRank : LinkGeoScope → ℕ
  | .status => 0
  | .proximity => 1
  | .zone => 2
  | .precise => 3
  | .trajectory => 4

/-- `LINK_GEO_UNSIGNED_MAX_SCOPE`: the highest scope an unsigned binary may ever hold. -/
def linkGeoUnsignedMaxScope : LinkGeoScope := .proximity

def LinkGeoScope.text : LinkGeoScope → JsString
  | .status => js "geo:status"
  | .proximity => js "geo:proximity"
  | .zone => js "geo:zone"
  | .precise => js "geo:precise"
  | .trajectory => js "geo:trajectory"

/-- All scopes, in the order of the source's tables. -/
def linkGeoScopes : List LinkGeoScope := [.status, .proximity, .zone, .precise, .trajectory]

theorem LinkGeoScope.text_injective : Function.Injective LinkGeoScope.text := by
  intro a b h
  cases a <;> cases b <;> first | rfl | exact absurd h (by decide)

/-- `LINK_GEO_POLICIES`. -/
inductive LinkGeoPolicy where
  | always
  | prompt
  | deny
  deriving DecidableEq, Repr

def LinkGeoPolicy.text : LinkGeoPolicy → JsString
  | .always => js "always"
  | .prompt => js "prompt"
  | .deny => js "deny"

theorem LinkGeoPolicy.text_injective : Function.Injective LinkGeoPolicy.text := by
  intro a b h
  cases a <;> cases b <;> first | rfl | exact absurd h (by decide)

/-- `LINK_ATTESTATION_CLASSES`. -/
inductive LinkAttestationClass where
  | developerId
  | macAppStore
  | bshBuiltin
  | dpkgSigned
  | rpmSigned
  | flatpakSigned
  | unsigned
  deriving DecidableEq, Repr

def LinkAttestationClass.text : LinkAttestationClass → JsString
  | .developerId => js "DeveloperId"
  | .macAppStore => js "MacAppStore"
  | .bshBuiltin => js "BshBuiltin"
  | .dpkgSigned => js "DpkgSigned"
  | .rpmSigned => js "RpmSigned"
  | .flatpakSigned => js "FlatpakSigned"
  | .unsigned => js "Unsigned"

theorem LinkAttestationClass.text_injective : Function.Injective LinkAttestationClass.text := by
  intro a b h
  cases a <;> cases b <;> first | rfl | exact absurd h (by decide)

/-- What identifies an SSH session in an attestation. -/
structure SshSessionInfo where
  sourceUser : Option JsString
  sourceHost : Option JsString
  sshdPid : ℕ
  sessionId : JsString
  deriving DecidableEq

/-- The bridge's view of a connected peer; the display-only lineage is left out. -/
structure PeerAttestation where
  pid : ℕ
  uid : ℕ
  executablePath : Option JsString
  executableHash : Option Bytes
  attestationClass : LinkAttestationClass
  issuerId : Option JsString
  subjectId : Option JsString
  signatureValid : Bool
  sshSession : Option SshSessionInfo
  deriving DecidableEq

/-- The unsigned cap: a scope above `geo:proximity` is out of reach for an unsigned peer. -/
def PeerAttestation.capped (attestation : PeerAttestation) (scope : LinkGeoScope) : Bool :=
  attestation.attestationClass = .unsigned &&
    linkGeoScopeRank linkGeoUnsignedMaxScope < linkGeoScopeRank scope

theorem PeerAttestation.capped_mono {attestation : PeerAttestation} {low high : LinkGeoScope}
    (hrank : linkGeoScopeRank low ≤ linkGeoScopeRank high)
    (h : attestation.capped high = false) : attestation.capped low = false := by
  simp only [capped, Bool.and_eq_false_iff, decide_eq_false_iff_not, not_lt] at h ⊢
  exact h.imp id fun h ↦ hrank.trans h

/-! ## Error texts -/

/-- `LINK_GEO_ERRORS`. -/
inductive LinkGeoError where
  | sessionNotRegistered
  | scopeDeniedByPolicy
  | scopeUnavailableUnsigned
  | promptTimedOut
  | userDenied
  | engineUnavailable
  | zoneNotFound
  | formatInvalid
  | refreshTimedOut
  deriving DecidableEq, Repr

def LinkGeoError.text : LinkGeoError → JsString
  | .sessionNotRegistered => js "geo: session not registered"
  | .scopeDeniedByPolicy => js "geo: scope denied by policy"
  | .scopeUnavailableUnsigned => js "geo: scope unavailable for unsigned binary"
  | .promptTimedOut => js "geo: user prompt timed out"
  | .userDenied => js "geo: user denied"
  | .engineUnavailable => js "geo: engine unavailable"
  | .zoneNotFound => js "geo: zone not found"
  | .formatInvalid => js "geo: format invalid"
  | .refreshTimedOut => js "geo: refresh timed out"

end Bsh.BrightLink
