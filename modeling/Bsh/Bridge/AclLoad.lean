import Bsh.Bridge.AclDocument

/-!
# Loading an ACL file of any shape

`loadFromBytes` is meant to answer tampering by reverting every entry to `prompt` and signing the
result.  The reversion edits the parsed file without looking at its shape.  This module states
which files it copes with (`Loadable`) and shows that for exactly these files the call returns, no
later look-up allows or fails, and the new signature verifies.
-/

namespace Bsh.Bridge

open Bsh.Library Bsh.BrightLink Utf Json

/-! ## Which values have a canonical encoding -/

mutual

/-- All numbers in the value are finite. -/
def finiteNumbers : Json → Bool
  | .num (.infinite _) => false
  | .arr elements => finiteElements elements
  | .obj members => finiteMembers members
  | _ => true

def finiteElements : List Json → Bool
  | [] => true
  | v :: rest => finiteNumbers v && finiteElements rest

def finiteMembers : List (JsString × Json) → Bool
  | [] => true
  | (_, v) :: rest => finiteNumbers v && finiteMembers rest

end

mutual

/-- Exactly the values without infinite numbers have a canonical encoding. -/
theorem canonicalJsonString_isOk : ∀ v : Json, (canonicalJsonString v).isOk = finiteNumbers v
  | .null => rfl
  | .bool _ => rfl
  | .num (.infinite _) => rfl
  | .num (.finite _) => rfl
  | .str _ => rfl
  | .arr elements => by
    have h := canonicalElements_isOk elements
    rw [canonicalJsonString, finiteNumbers, ← h]
    cases canonicalElements elements <;> rfl
  | .obj members => by
    have h := canonicalMembers_isOk members
    rw [canonicalJsonString, finiteNumbers, ← h]
    cases canonicalMembers members <;> rfl

theorem canonicalElements_isOk : ∀ l : List Json, (canonicalElements l).isOk = finiteElements l
  | [] => rfl
  | v :: rest => by
    have hv := canonicalJsonString_isOk v
    have hrest := canonicalElements_isOk rest
    rw [canonicalElements, finiteElements, ← hv, ← hrest]
    cases canonicalJsonString v <;> cases canonicalElements rest <;> rfl

theorem canonicalMembers_isOk :
    ∀ l : List (JsString × Json), (canonicalMembers l).isOk = finiteMembers l
  | [] => rfl
  | (key, v) :: rest => by
    have hv := canonicalJsonString_isOk v
    have hrest := canonicalMembers_isOk rest
    rw [canonicalMembers, finiteMembers, ← hv, ← hrest]
    cases canonicalJsonString v <;> cases canonicalMembers rest <;> rfl

end

variable {doc entry : Json} {entries : List Json} (keyId : JsString) (members : Members)
  (attestation : PeerAttestation)

theorem finiteMembers_iff :
    finiteMembers members = true ↔ ∀ m ∈ members, finiteNumbers m.2 = true := by
  induction members with
  | nil => simp [finiteMembers]
  | cons m rest ih =>
    rw [finiteMembers, Bool.and_eq_true, ih, List.forall_mem_cons]

theorem finiteElements_iff (elements : List Json) :
    finiteElements elements = true ↔ ∀ v ∈ elements, finiteNumbers v = true := by
  induction elements with
  | nil => simp [finiteElements]
  | cons v rest ih => rw [finiteElements, Bool.and_eq_true, ih, List.forall_mem_cons]

theorem finiteMembers_setMember (key : JsString) (value : Json) (members : Members) :
    finiteMembers (setMember key value members) = true ↔
      finiteNumbers value = true ∧ finiteMembers (dropMember key members) = true := by
  rw [finiteMembers_iff, finiteMembers_iff,
    forall_setMember (fun _ v ↦ finiteNumbers v = true) key value members]

theorem canonicalJsonBytes_ok_iff (doc : Json) :
    (∃ canonical, canonicalJsonBytes doc = .ok canonical) ↔ finiteNumbers doc = true := by
  rw [← canonicalJsonString_isOk, canonicalJsonBytes]
  cases canonicalJsonString doc <;> simp [Except.isOk, Except.toBool]

/-! ## Which values convert to a number -/

mutual

/-- No object that the conversion reaches has an own member `toString`. -/
def convertible : Json → Bool
  | .arr elements => convertibleElements elements
  | .obj members => !(member (js "toString") members).isSome
  | _ => true

def convertibleElements : List Json → Bool
  | [] => true
  | v :: rest => convertible v && convertibleElements rest

end

mutual

theorem toText_isOk : ∀ v : Json, (toText v).isOk = convertible v
  | .null => rfl
  | .bool _ => rfl
  | .num (.infinite _) => rfl
  | .num (.finite _) => rfl
  | .str _ => rfl
  | .arr elements => by
    rw [toText, convertible, joinTexts_isOk elements]
  | .obj members => by
    rw [toText, convertible]
    cases (member (js "toString") members).isSome <;> rfl

theorem joinTexts_isOk : ∀ l : List Json, (joinTexts l).isOk = convertibleElements l
  | [] => rfl
  | [v] => by
    have hv := elementText_isOk v
    rw [joinTexts, convertibleElements, convertibleElements, Bool.and_true, hv]
  | v :: w :: rest => by
    have hv := elementText_isOk v
    have hrest := joinTexts_isOk (w :: rest)
    rw [joinTexts, convertibleElements, ← hv, ← hrest]
    cases (if isNullValue v then .ok [] else toText v : Js JsString) <;>
      cases joinTexts (w :: rest) <;> rfl

theorem elementText_isOk : ∀ v : Json,
    (if isNullValue v then .ok [] else toText v : Js JsString).isOk = convertible v
  | .null => rfl
  | .bool _ => rfl
  | .num (.infinite _) => rfl
  | .num (.finite _) => rfl
  | .str _ => rfl
  | .arr elements => by
    have h := joinTexts_isOk elements
    simpa [isNullValue, toText, convertible] using h
  | .obj members => by
    simp only [isNullValue, toText, convertible]
    cases (member (js "toString") members).isSome <;> rfl

end

theorem toNumber_isOk (read : ℚ → Number) (v : Json) :
    (toNumber read (.value v)).isOk = convertible v := by
  have htext := toText_isOk v
  cases v with
  | null => rfl
  | bool b => rfl
  | num n => rfl
  | str s => rfl
  | arr elements =>
    rw [← htext]
    cases h : toText (.arr elements) <;> simp [toNumber, h, Except.isOk, Except.toBool]
  | obj members =>
    rw [← htext]
    cases h : toText (.obj members) <;> simp [toNumber, h, Except.isOk, Except.toBool]

/-! ## What a look-up needs of an entry -/

/-- The entry has the given string, or `null`, under a name. -/
def holds (name : JsString) (entry : Json) (value : Option JsString) : Bool :=
  match property name entry with
  | .ok p => strictEq p value
  | .error _ => false

/-- The entry names the identity of the peer. -/
def carries (attestation : PeerAttestation) (entry : Json) : Bool :=
  holds attestationClassKey entry (some attestation.attestationClass.text) &&
    if attestation.attestationClass = .unsigned then
      holds expectedPathKey entry attestation.executablePath &&
        match attestation.executableHash, property fallbackHashKey entry with
        | some executableHash, .ok (.value (.str hash)) => stripSha256 hash = hex executableHash
        | _, _ => false
    else
      holds issuerIdKey entry attestation.issuerId && holds subjectIdKey entry attestation.subjectId

/-- The hash of an entry for an unsigned binary is a string or `null`. -/
def HashReadable (entry : Json) : Prop :=
  holds attestationClassKey entry (some LinkAttestationClass.unsigned.text) = true →
    ∀ path, holds expectedPathKey entry path = true →
      property fallbackHashKey entry = .ok (.value .null) ∨
        ∃ hash, property fallbackHashKey entry = .ok (.value (.str hash))

/-- The expiry of an entry, if there is one, converts to a number. -/
def ExpiryReadable (entry : Json) : Prop :=
  ∀ v, property expiresAtBdKey entry = .ok (.value v) → convertible v = true

/-- An object or an array. -/
def IsContainer (entry : Json) : Prop := ∃ v, revertEntry entry = .ok v

theorem isContainer_iff (entry : Json) :
    IsContainer entry ↔ (∃ members, entry = .obj members) ∨ ∃ elements, entry = .arr elements := by
  cases entry <;> simp [IsContainer, revertEntry]

theorem property_ok (h : IsContainer entry) (name : JsString) :
    ∃ p, property name entry = .ok p := by
  rcases (isContainer_iff entry).mp h with ⟨members, rfl⟩ | ⟨elements, rfl⟩
  · cases hm : member name members <;> simp [property, hm]
  · simp [property]

/-- The loop of `findMatchingEntry` decides by the identity where hashes are readable. -/
theorem entryMatches_eq (hcontainer : IsContainer entry)
    (hhash : HashReadable entry) (attestation : PeerAttestation) :
    entryMatches attestation entry = .ok (carries attestation entry) := by
  obtain ⟨attestationClass, hclass⟩ := property_ok hcontainer attestationClassKey
  obtain ⟨path, hpath⟩ := property_ok hcontainer expectedPathKey
  obtain ⟨issuer, hissuer⟩ := property_ok hcontainer issuerIdKey
  obtain ⟨subject, hsubject⟩ := property_ok hcontainer subjectIdKey
  obtain ⟨fallback, hfallback⟩ := property_ok hcontainer fallbackHashKey
  simp only [HashReadable, holds, hclass, hpath, hfallback] at hhash
  simp only [entryMatches, carries, holds, hclass, hpath, hissuer, hsubject, hfallback]
  cases hsame : strictEq attestationClass (some _) with
  | false => simp
  | true =>
    by_cases hunsigned : attestation.attestationClass = .unsigned
    · rw [hunsigned] at hsame
      simp only [hunsigned, if_true, Bool.true_and, Bool.true_eq_false, if_false]
      cases hp : strictEq path _ with
      | false => simp
      | true =>
        rcases hhash hsame _ hp with h | ⟨hash, h⟩
        · rw [Except.ok.inj h]
          cases attestation.executableHash <;> simp [isNull, strictEq]
        · rw [Except.ok.inj h]
          cases attestation.executableHash <;> simp [isNull, strictEq]
    · simp [hunsigned]

theorem findEntry_eq (hcontainer : ∀ e ∈ entries, IsContainer e)
    (hhash : ∀ e ∈ entries, HashReadable e) (attestation : PeerAttestation) :
    findEntry attestation entries = .ok (entries.find? (carries attestation)) := by
  induction entries with
  | nil => rfl
  | cons entry rest ih =>
    have hentry := entryMatches_eq (hcontainer entry (by simp)) (hhash entry (by simp)) attestation
    have hrest := ih (fun e he ↦ hcontainer e (List.mem_cons_of_mem entry he))
      fun e he ↦ hhash e (List.mem_cons_of_mem entry he)
    rw [findEntry, hentry, List.find?_cons]
    cases carries attestation entry with
    | true => rfl
    | false => exact hrest

theorem carries_obj {attestation : PeerAttestation}
    (h : carries attestation entry = true) : ∃ members, entry = .obj members := by
  have hclass := (Bool.and_eq_true_iff.mp h).1
  cases entry with
  | obj members => exact ⟨members, rfl⟩
  | arr elements => simp [holds, property, strictEq, attestationClassKey, js] at hclass
  | _ => simp [holds, property, strictEq] at hclass

theorem entryExpired_isOk (read : ℚ → Number) (nowBd : ℚ)
    (hcontainer : IsContainer entry) :
    (∃ b, entryExpired read nowBd entry = .ok b) ↔ ExpiryReadable entry := by
  have hexpiry : ∀ v, (toNumber read (.value v)).isOk = convertible v := toNumber_isOk read
  have hproperty : property expiresAtBdKey entry = .ok .undefined ∨
      ∃ v, property expiresAtBdKey entry = .ok (.value v) := by
    rcases (isContainer_iff entry).mp hcontainer with ⟨members, rfl⟩ | ⟨elements, rfl⟩
    · cases h : member expiresAtBdKey members with
      | none => exact .inl (by simp [property, h])
      | some v => exact .inr ⟨v, by simp [property, h]⟩
    · exact .inl rfl
  rcases hproperty with h | ⟨v, h⟩
  · simp [entryExpired, ExpiryReadable, h, isNull, strictEq, toNumber]
  · have hconvert := hexpiry v
    simp only [entryExpired, ExpiryReadable, h]
    constructor
    · rintro ⟨b, hb⟩ w hw
      cases Property.value.inj (Except.ok.inj hw)
      split at hb
      · next hnull =>
        cases v <;> simp_all [isNull, strictEq, convertible]
      · next hnull =>
        rw [← hconvert]
        cases hn : toNumber read (.value v) with
        | error e => simp [hn] at hb
        | ok n => rfl
    · intro hread
      rw [hread v rfl] at hconvert
      split
      · exact ⟨_, rfl⟩
      · cases hn : toNumber read (.value v) with
        | error e => simp [hn, Except.isOk, Except.toBool] at hconvert
        | ok n => exact ⟨_, rfl⟩

/-! ## Reversion -/

/-- The entry after the tamper path has edited it. -/
def reverted : Json → Json
  | .obj members => .obj (setMember scopesKey defaultPromptScopes members)
  | entry => entry

theorem revertEntry_eq (h : IsContainer entry) :
    revertEntry entry = .ok (reverted entry) := by
  rcases (isContainer_iff entry).mp h with ⟨members, rfl⟩ | ⟨elements, rfl⟩ <;> rfl

theorem revertEntries_ok_iff (entries : List Json) :
    (∃ l, revertEntries entries = .ok l) ↔ ∀ e ∈ entries, IsContainer e := by
  induction entries with
  | nil => simp [revertEntries]
  | cons entry rest ih =>
    rw [List.forall_mem_cons, ← ih, revertEntries]
    cases hentry : revertEntry entry with
    | error e => simp [IsContainer, hentry]
    | ok v =>
      cases revertEntries rest <;> simp [IsContainer, hentry]

theorem revertEntries_eq (h : ∀ e ∈ entries, IsContainer e) :
    revertEntries entries = .ok (entries.map reverted) := by
  induction entries with
  | nil => rfl
  | cons entry rest ih =>
    rw [revertEntries, revertEntry_eq (h entry (by simp)),
      ih fun e he ↦ h e (List.mem_cons_of_mem entry he)]
    rfl

/-- The reversion shows only in the member `scopes`. -/
theorem property_reverted {name : JsString} (hne : name ≠ scopesKey) (entry : Json) :
    property name (reverted entry) = property name entry := by
  cases entry with
  | obj members => simp only [reverted, property, member_setMember_other hne]
  | _ => rfl

theorem carries_reverted (entry : Json) :
    carries attestation (reverted entry) = carries attestation entry := by
  simp only [carries, holds,
    property_reverted (show attestationClassKey ≠ scopesKey by decide),
    property_reverted (show expectedPathKey ≠ scopesKey by decide),
    property_reverted (show fallbackHashKey ≠ scopesKey by decide),
    property_reverted (show issuerIdKey ≠ scopesKey by decide),
    property_reverted (show subjectIdKey ≠ scopesKey by decide)]

theorem hashReadable_reverted (entry : Json) :
    HashReadable (reverted entry) ↔ HashReadable entry := by
  simp only [HashReadable, holds,
    property_reverted (show attestationClassKey ≠ scopesKey by decide),
    property_reverted (show expectedPathKey ≠ scopesKey by decide),
    property_reverted (show fallbackHashKey ≠ scopesKey by decide)]

theorem expiryReadable_reverted (entry : Json) :
    ExpiryReadable (reverted entry) ↔ ExpiryReadable entry := by
  simp only [ExpiryReadable, property_reverted (show expiresAtBdKey ≠ scopesKey by decide)]

theorem isContainer_reverted (h : IsContainer entry) :
    IsContainer (reverted entry) := by
  rcases (isContainer_iff entry).mp h with ⟨members, rfl⟩ | ⟨elements, rfl⟩
  · exact ⟨_, rfl⟩
  · exact ⟨_, rfl⟩

theorem find_reverted (entries : List Json) :
    (entries.map reverted).find? (carries attestation) =
      (entries.find? (carries attestation)).map reverted := by
  rw [List.find?_map]
  congr 2
  funext entry
  exact carries_reverted attestation entry

theorem entryPolicy_reverted (scope : LinkGeoScope) (members : Members) :
    entryPolicy scope (reverted (.obj members)) =
      .ok (.value (.str LinkGeoPolicy.prompt.text)) := by
  have hscopes : property scopesKey (reverted (.obj members)) =
      .ok (.value defaultPromptScopes) := by
    simp [reverted, property]
  simp only [entryPolicy, hscopes]
  cases scope <;> rfl

/-! ## Loadable files -/

/-- The parts of an entry that survive the reversion contain no infinite number. -/
def finiteEntry : Json → Bool
  | .obj members => finiteMembers (dropMember scopesKey members)
  | entry => finiteNumbers entry

/-- Entries the tamper path and all later look-ups cope with. -/
structure EntriesLoadable (entries : List Json) : Prop where
  container : ∀ e ∈ entries, IsContainer e
  finite : ∀ e ∈ entries, finiteEntry e = true
  hash : ∀ e ∈ entries, HashReadable e
  /-- The first entry of every identity has a readable expiry. -/
  expiry : ∀ attestation e, entries.find? (carries attestation) = some e → ExpiryReadable e

/-- The members of a file that counts as tampered are edited without an exception. -/
def MembersLoadable (members : Members) : Prop :=
  (member entriesKey members = some (.str []) ∧
    finiteMembers (dropMember bridgeKeyIdKey members) = true) ∨
  ∃ entries, member entriesKey members = some (.arr entries) ∧
    finiteMembers (dropMember bridgeKeyIdKey (dropMember entriesKey members)) = true ∧
    EntriesLoadable entries

/-- A tampered file the bridge copes with: a value that counts as false, or an object with an
array of well-behaved entries. -/
def TamperLoadable (parsed : Json) : Prop :=
  truthy parsed = false ∨ ∃ members, parsed = .obj members ∧ MembersLoadable members

variable {p256Verify : Bytes → Bytes → Bytes → Bool} (read : ℚ → Number)
  (identity : BridgeIdentity p256Verify)

/-- The detached signature is one of the bridge's over these bytes. -/
def SignatureOk (bytes signature : Bytes) : Prop :=
  verifyEcdsaP256 p256Verify identity.publicKey bytes signature = true

/-- The bytes are a document pinned to the bridge. -/
def KeyIdOk (bytes : Bytes) : Prop :=
  ∃ parsed, parse read (utf8Decode bytes) = some parsed ∧
    holds bridgeKeyIdKey parsed (some identity.keyId) = true

/-- The file is not `null`, and if it counts as tampered then the reversion copes with it. -/
def Loadable (bytes signature : Bytes) : Prop :=
  ∀ parsed, parse read (utf8Decode bytes) = some parsed → parsed ≠ .null ∧
    (¬ (SignatureOk identity bytes signature ∧ KeyIdOk read identity bytes) →
      TamperLoadable parsed)

def AclLookupResult.isAllow : AclLookupResult → Bool
  | .allow _ => true
  | _ => false

/-- No look-up fails or allows, and the signature verifies. -/
structure Reverted (acl : LinkAcl) : Prop where
  lookup : ∀ attestation scope nowBd, ∃ result,
    acl.lookup read attestation scope nowBd = .ok result ∧ result.isAllow = false
  verify : acl.verify identity = .ok true

/-- What loading a file promises. -/
structure LoadSound (acl : LinkAcl) (bytes signature : Bytes) : Prop where
  returns : ∃ tampered, (acl.loadFromBytes read identity bytes signature).2 = .ok tampered
  reverts : ¬ (SignatureOk identity bytes signature ∧ KeyIdOk read identity bytes) →
    Reverted read identity (acl.loadFromBytes read identity bytes signature).1

/-! ## The look-ups after a reversion -/

variable {read identity}

theorem resign_ok (identity : BridgeIdentity p256Verify) (acl : LinkAcl)
    (hfinite : finiteNumbers doc = true) :
    ∃ signature, acl.resign identity doc = (⟨doc, signature⟩, .ok ()) ∧
      (⟨doc, signature⟩ : LinkAcl).verify identity = .ok true := by
  obtain ⟨canonical, hcanonical⟩ := (canonicalJsonBytes_ok_iff doc).mpr hfinite
  refine ⟨identity.sign canonical, by simp [LinkAcl.resign, hcanonical], ?_⟩
  simp [LinkAcl.verify, hcanonical, identity.verify_sign]

theorem resign_error (identity : BridgeIdentity p256Verify) (acl : LinkAcl)
    (hfinite : finiteNumbers doc = false) :
    ∃ e, acl.resign identity doc = ({ acl with doc := doc }, .error e) := by
  cases h : canonicalJsonBytes doc with
  | error e => exact ⟨e, by simp [LinkAcl.resign, h]⟩
  | ok canonical =>
    have hok := (canonicalJsonBytes_ok_iff doc).mp ⟨canonical, h⟩
    rw [hfinite] at hok
    exact absurd hok Bool.false_ne_true

theorem lookup_of_reverted (hentries : EntriesLoadable entries)
    (acl : LinkAcl) (hdoc : documentEntries acl.doc = .ok (entries.map reverted))
    (attestation : PeerAttestation) (scope : LinkGeoScope) (nowBd : ℚ) :
    ∃ result, acl.lookup read attestation scope nowBd = .ok result ∧ result.isAllow = false := by
  have hfind : acl.findMatchingEntry attestation =
      .ok ((entries.find? (carries attestation)).map reverted) := by
    rw [LinkAcl.findMatchingEntry, hdoc, ← find_reverted]
    refine findEntry_eq ?_ ?_ attestation
    · intro e he
      obtain ⟨entry, hentry, rfl⟩ := List.mem_map.mp he
      exact isContainer_reverted (hentries.container entry hentry)
    · intro e he
      obtain ⟨entry, hentry, rfl⟩ := List.mem_map.mp he
      exact (hashReadable_reverted entry).mpr (hentries.hash entry hentry)
  unfold LinkAcl.lookup
  cases attestation.capped scope with
  | true => exact ⟨.denyCap, rfl, rfl⟩
  | false =>
    rw [hfind]
    cases hmatch : entries.find? _ with
    | none => exact ⟨.prompt none, rfl, rfl⟩
    | some entry =>
      have hmem := List.mem_of_find?_eq_some hmatch
      obtain ⟨members, rfl⟩ := carries_obj (List.find?_some hmatch)
      have hexpiry := (expiryReadable_reverted _).mpr (hentries.expiry attestation _ hmatch)
      have hcontainer := isContainer_reverted (hentries.container _ hmem)
      obtain ⟨expired, hexpired⟩ := (entryExpired_isOk read nowBd hcontainer).mpr hexpiry
      cases expired with
      | true => exact ⟨.prompt none, by simp [hexpired], rfl⟩
      | false =>
        refine ⟨.prompt (some (reverted (.obj members))), ?_, rfl⟩
        have hprompt : strictEq (.value (.str LinkGeoPolicy.prompt.text))
            (some LinkGeoPolicy.always.text) = false := by decide
        have hprompt' : strictEq (.value (.str LinkGeoPolicy.prompt.text))
            (some LinkGeoPolicy.deny.text) = false := by decide
        simp [hexpired, entryPolicy_reverted, hprompt, hprompt']

/-- A buffer longer than every hash in the entries is the hash of none of them. -/
theorem exists_unlisted_hash (entries : List Json) :
    ∃ buffer : Bytes, ∀ e ∈ entries, ∀ hash, property fallbackHashKey e = .ok (.value (.str hash)) →
      stripSha256 hash ≠ hex buffer := by
  have hhex : ∀ buffer : Bytes, (hex buffer).length = 2 * buffer.length := by
    intro buffer
    induction buffer with
    | nil => rfl
    | cons b rest ih =>
      rw [hex] at ih ⊢
      rw [List.flatMap_cons, List.length_append, ih]
      simp only [List.length_cons, List.length_nil]
      omega
  have hbound : ∃ n, ∀ e ∈ entries, ∀ hash,
      property fallbackHashKey e = .ok (.value (.str hash)) → (stripSha256 hash).length < n := by
    induction entries with
    | nil => exact ⟨0, by simp⟩
    | cons entry rest ih =>
      obtain ⟨n, hn⟩ := ih
      cases h : property fallbackHashKey entry with
      | error e =>
        refine ⟨n, List.forall_mem_cons.mpr ⟨?_, hn⟩⟩
        simp [h]
      | ok p =>
        by_cases hstr : ∃ hash, p = .value (.str hash)
        · obtain ⟨hash, rfl⟩ := hstr
          refine ⟨n + (stripSha256 hash).length + 1, List.forall_mem_cons.mpr ⟨?_, ?_⟩⟩
          · intro hash' h'
            cases h.symm.trans h'
            omega
          · intro e he hash' h'
            have := hn e he hash' h'
            omega
        · refine ⟨n, List.forall_mem_cons.mpr ⟨?_, hn⟩⟩
          intro hash h'
          exact absurd ⟨hash, Except.ok.inj (h.symm.trans h')⟩ hstr
  obtain ⟨n, hn⟩ := hbound
  refine ⟨List.replicate n 0, fun e he hash h heq ↦ ?_⟩
  have hlt := hn e he hash h
  have hlen := congrArg List.length heq
  rw [hhex, List.length_replicate] at hlen
  omega

theorem entryMatches_unsigned {peer : PeerAttestation} {buffer : Bytes} {b : Bool}
    (hunsigned : peer.attestationClass = .unsigned) (hbuffer : peer.executableHash = some buffer)
    (hcontainer : IsContainer entry) (h : entryMatches peer entry = .ok b) :
    (b = true → ∃ hash, property fallbackHashKey entry = .ok (.value (.str hash)) ∧
      stripSha256 hash = hex buffer) ∧
    (holds attestationClassKey entry (some LinkAttestationClass.unsigned.text) = true →
      holds expectedPathKey entry peer.executablePath = true →
        property fallbackHashKey entry = .ok (.value .null) ∨
          ∃ hash, property fallbackHashKey entry = .ok (.value (.str hash))) := by
  obtain ⟨c, hc⟩ := property_ok hcontainer attestationClassKey
  obtain ⟨p, hp⟩ := property_ok hcontainer expectedPathKey
  obtain ⟨f, hf⟩ := property_ok hcontainer fallbackHashKey
  simp only [entryMatches, hc, hp, hf, hunsigned, hbuffer, if_true] at h
  simp only [holds, hc, hp, hf]
  cases hclass : strictEq c (some _) with
  | false =>
    simp only [hclass, if_true, Except.ok.injEq] at h
    simp [← h]
  | true =>
    simp only [hclass, Bool.true_eq_false, if_false] at h
    cases hpath : strictEq p peer.executablePath with
    | false =>
      simp only [hpath, if_true, Except.ok.injEq] at h
      simp [← h]
    | true =>
      simp only [hpath, Bool.true_eq_false, if_false] at h
      cases f with
      | undefined => simp [isNull, strictEq] at h
      | method => simp [isNull, strictEq] at h
      | value v =>
        cases v with
        | null =>
          simp only [isNull, strictEq, if_true, Except.ok.injEq] at h
          simp [← h]
        | str hash =>
          simp only [isNull, strictEq, Bool.false_eq_true, if_false, Except.ok.injEq] at h
          simp [← h]
        | _ => simp [isNull, strictEq] at h

theorem hashReadable_of_findEntry
    (hcontainer : ∀ e ∈ entries, IsContainer e)
    (hfind : ∀ attestation, attestation.attestationClass = .unsigned →
      ∃ result, findEntry attestation entries = .ok result) :
    ∀ e ∈ entries, HashReadable e := by
  intro e he hclass path hpath
  obtain ⟨buffer, hbuffer⟩ := exists_unlisted_hash entries
  let peer : PeerAttestation :=
    { pid := 0, uid := 0, executablePath := path, executableHash := some buffer,
      attestationClass := .unsigned, issuerId := none, subjectId := none, signatureValid := false,
      sshSession := none }
  -- The loop visits every entry, since the peer's hash is listed nowhere.
  have hvisit : ∀ l : List Json, (∀ x ∈ l, x ∈ entries) → e ∈ l →
      (∃ result, findEntry peer l = .ok result) → ∃ b, entryMatches peer e = .ok b := by
    intro l
    induction l with
    | nil => intro _ h; simp at h
    | cons entry rest ih =>
      intro hsub hmem hok
      obtain ⟨result, hresult⟩ := hok
      rw [findEntry] at hresult
      have hentry := hsub entry (by simp)
      cases hm : entryMatches peer entry with
      | error err => simp [hm] at hresult
      | ok b =>
        rcases List.mem_cons.mp hmem with rfl | hmem
        · exact ⟨b, hm⟩
        cases b with
        | true =>
          obtain ⟨hash, hhash, heq⟩ :=
            (entryMatches_unsigned rfl rfl (hcontainer entry hentry) hm).1 rfl
          exact absurd heq (hbuffer entry hentry hash hhash)
        | false =>
          rw [hm] at hresult
          exact ih (fun x hx ↦ hsub x (List.mem_cons_of_mem entry hx)) hmem ⟨result, hresult⟩
  obtain ⟨b, hb⟩ := hvisit entries (fun x hx ↦ hx) he (hfind peer rfl)
  exact (entryMatches_unsigned rfl rfl (hcontainer e he) hb).2 hclass hpath

/-! ## The edited document -/

/-- No look-up in the document fails or allows. -/
def LookupsRevert (read : ℚ → Number) (doc : Json) : Prop :=
  ∀ signature attestation scope nowBd, ∃ result,
    (⟨doc, signature⟩ : LinkAcl).lookup read attestation scope nowBd = .ok result ∧
      result.isAllow = false

theorem documentEntries_pinned :
    documentEntries (.obj (setMember bridgeKeyIdKey (.str keyId) members)) =
      documentEntries (.obj members) := by
  simp only [documentEntries, property,
    member_setMember_other (by decide : entriesKey ≠ bridgeKeyIdKey)]

theorem documentEntries_emptyAcl :
    documentEntries (emptyAcl keyId) = .ok [] := rfl

theorem finiteNumbers_emptyAcl : finiteNumbers (emptyAcl keyId) = true := rfl

theorem lookupsRevert_empty (h : documentEntries doc = .ok []) :
    LookupsRevert read doc := by
  intro signature attestation scope nowBd
  have hempty : EntriesLoadable [] :=
    ⟨by simp, by simp, by simp, by simp⟩
  exact lookup_of_reverted hempty _ h attestation scope nowBd

theorem codePoints_cons (c : UInt16) (rest : JsString) :
    ∃ head tail, codePoints (c :: rest) = head :: tail := by
  cases rest with
  | nil => exact ⟨_, _, rfl⟩
  | cons d rest =>
    rw [codePoints]
    split <;> exact ⟨_, _, rfl⟩

/-- The members that a value other than an object spreads into are numbered. -/
theorem member_spread {key : JsString} {c : UInt16} (hkey : key.head? = some c)
    (hc : Decimal.isDigitCode c.toNat = false) {v : Json} (hv : ∀ members, v ≠ .obj members) :
    member key (spread v) = none := by
  have hindex : ∀ i, key ≠ codeUnits (Decimal.decimalCodes i) := by
    rintro i rfl
    rw [codeUnits, List.head?_map, Option.map_eq_some_iff] at hkey
    obtain ⟨code, hcode, rfl⟩ := hkey
    have hdigit := Decimal.isDigitCode_of_mem_decimalCodes (List.mem_of_mem_head? hcode)
    have hrange := hdigit
    simp only [Decimal.isDigitCode, Bool.and_eq_true, decide_eq_true_eq] at hrange
    rw [UInt16.toNat_ofNat_of_lt' (lt_of_le_of_lt hrange.2 (by decide)), hdigit] at hc
    exact absurd hc Bool.noConfusion
  rw [member, List.lookup_eq_none_iff]
  intro m hm
  rw [bne_iff_ne]
  cases v with
  | obj members => exact absurd rfl (hv members)
  | arr elements =>
    obtain ⟨⟨w, i⟩, -, rfl⟩ := List.mem_map.mp hm
    exact hindex i
  | str s =>
    obtain ⟨⟨w, i⟩, -, rfl⟩ := List.mem_map.mp hm
    exact hindex i
  | _ => simp [spread] at hm

theorem capped_status : attestation.capped .status = false := by
  simp [PeerAttestation.capped, linkGeoScopeRank]

theorem LookupsRevert.findEntry (h : LookupsRevert read doc) :
    ∃ entries, documentEntries doc = .ok entries ∧
      ∀ attestation, ∃ result, findEntry attestation entries = .ok result ∧
        ∀ e, result = some e → ∃ b, entryExpired read 0 e = .ok b := by
  have hlookup : ∀ attestation, ∃ result, (⟨doc, []⟩ : LinkAcl).findMatchingEntry attestation =
      .ok result ∧ ∀ e, result = some e → ∃ b, entryExpired read 0 e = .ok b := by
    intro attestation
    obtain ⟨result, hresult, -⟩ := h [] attestation .status 0
    rw [LinkAcl.lookup, capped_status] at hresult
    cases hfind : (⟨doc, []⟩ : LinkAcl).findMatchingEntry attestation with
    | error e => simp [hfind] at hresult
    | ok found =>
      refine ⟨found, rfl, ?_⟩
      rintro e rfl
      cases hexpired : entryExpired read 0 e with
      | error err => simp [hfind, hexpired] at hresult
      | ok b => exact ⟨b, rfl⟩
  cases hentries : documentEntries doc with
  | error e =>
    obtain ⟨result, hresult, -⟩ := hlookup
      { pid := 0, uid := 0, executablePath := none, executableHash := none,
        attestationClass := .bshBuiltin, issuerId := none, subjectId := none,
        signatureValid := false, sshSession := none }
    simp [LinkAcl.findMatchingEntry, hentries] at hresult
  | ok entries =>
    refine ⟨entries, rfl, fun attestation ↦ ?_⟩
    obtain ⟨result, hresult, hexpiry⟩ := hlookup attestation
    rw [LinkAcl.findMatchingEntry, hentries] at hresult
    exact ⟨result, hresult, hexpiry⟩

theorem entriesLoadable_of_lookups
    (hcontainer : ∀ e ∈ entries, IsContainer e) (hfinite : ∀ e ∈ entries, finiteEntry e = true)
    (hdoc : documentEntries doc = .ok (entries.map reverted)) (hlookups : LookupsRevert read doc) :
    EntriesLoadable entries := by
  obtain ⟨found, hfound, hfind⟩ := hlookups.findEntry
  cases hdoc.symm.trans hfound
  have hcontainer' : ∀ e ∈ entries.map reverted, IsContainer e := by
    intro e he
    obtain ⟨entry, hentry, rfl⟩ := List.mem_map.mp he
    exact isContainer_reverted (hcontainer entry hentry)
  have hhash' : ∀ e ∈ entries.map reverted, HashReadable e := by
    refine hashReadable_of_findEntry hcontainer' fun attestation _ ↦ ?_
    obtain ⟨result, hresult, -⟩ := hfind attestation
    exact ⟨result, hresult⟩
  refine ⟨hcontainer, hfinite, ?_, ?_⟩
  · intro e he
    exact (hashReadable_reverted e).mp (hhash' _ (List.mem_map_of_mem he))
  · intro attestation e he
    obtain ⟨result, hresult, hexpiry⟩ := hfind attestation
    rw [findEntry_eq hcontainer' hhash', find_reverted, he] at hresult
    have hmem := List.mem_of_find?_eq_some he
    have hread := hexpiry (reverted e) (Except.ok.inj hresult).symm
    rw [entryExpired_isOk read 0 (isContainer_reverted (hcontainer e hmem))] at hread
    exact (expiryReadable_reverted e).mp hread

theorem finiteEntry_reverted (hcontainer : IsContainer entry) :
    finiteNumbers (reverted entry) = finiteEntry entry := by
  rcases (isContainer_iff entry).mp hcontainer with ⟨members, rfl⟩ | ⟨elements, rfl⟩
  · have hscopes : finiteNumbers defaultPromptScopes = true := rfl
    rw [Bool.eq_iff_iff, reverted, finiteNumbers, finiteMembers_setMember, finiteEntry]
    simp [hscopes]
  · rfl

/-- The document with reverted entries and the bridge's key id is free of infinite numbers exactly
if the surviving parts are. -/
theorem finiteNumbers_pinned
    (hcontainer : ∀ e ∈ entries, IsContainer e) :
    finiteNumbers (.obj (setMember bridgeKeyIdKey (.str keyId)
      (setMember entriesKey (.arr (entries.map reverted)) members))) = true ↔
      (∀ e ∈ entries, finiteEntry e = true) ∧
        finiteMembers (dropMember bridgeKeyIdKey (dropMember entriesKey members)) = true := by
  have hentries : finiteNumbers (.arr (entries.map reverted)) = true ↔
      ∀ e ∈ entries, finiteEntry e = true := by
    rw [finiteNumbers, finiteElements_iff, List.forall_mem_map]
    exact forall₂_congr fun e he ↦ by rw [finiteEntry_reverted (hcontainer e he)]
  have hne : bridgeKeyIdKey ≠ entriesKey := by decide
  rw [finiteNumbers, finiteMembers_setMember,
    dropMember_setMember hne, finiteMembers_setMember, hentries, dropMember_comm hne]
  simp [finiteNumbers]

theorem tamperedDocument_array {keyId : JsString} {members : Members}
    (hmember : member entriesKey members = some (.arr entries))
    (hcontainer : ∀ e ∈ entries, IsContainer e) :
    tamperedDocument keyId (.obj members) = .ok (.obj (setMember bridgeKeyIdKey (.str keyId)
      (setMember entriesKey (.arr (entries.map reverted)) members))) := by
  simp [tamperedDocument, revertDocument, property, hmember, iterate, revertEntries_eq hcontainer,
    withEntries, truthy, spread]

theorem documentEntries_pinned_array
    (entries : List Json) :
    documentEntries (.obj (setMember bridgeKeyIdKey (.str keyId)
      (setMember entriesKey (.arr entries) members))) = .ok entries := by
  rw [documentEntries_pinned]
  simp [documentEntries, property, iterate]

/-- The four outcomes of a reversion that does not throw: the empty document, a document without
entries to iterate over, and the two shapes of an object file. -/
theorem tamperedDocument_cases {keyId : JsString} {parsed : Json}
    (h : tamperedDocument keyId parsed = .ok doc) :
    (truthy parsed = false ∧ doc = emptyAcl keyId) ∨
    (∃ e, documentEntries doc = .error e) ∨
    (∃ members, parsed = .obj members ∧ member entriesKey members = some (.str []) ∧
      doc = .obj (setMember bridgeKeyIdKey (.str keyId) members)) ∨
    (∃ members entries, parsed = .obj members ∧ member entriesKey members = some (.arr entries) ∧
      (∀ e ∈ entries, IsContainer e) ∧
      doc = .obj (setMember bridgeKeyIdKey (.str keyId)
        (setMember entriesKey (.arr (entries.map reverted)) members))) := by
  have hnoEntries : ∀ members, member entriesKey members = none ∨
      member entriesKey members = some .null →
        ∃ e, documentEntries (.obj (setMember bridgeKeyIdKey (.str keyId) members)) =
          .error e := by
    intro members hmember
    rw [documentEntries_pinned]
    rcases hmember with hmember | hmember <;> simp [documentEntries, property, hmember, iterate]
  by_cases htruthy : truthy parsed = false
  · refine .inl ⟨htruthy, ?_⟩
    cases parsed with
    | null => simp [tamperedDocument, revertDocument, property] at h
    | arr elements => simp [truthy] at htruthy
    | obj members => simp [truthy] at htruthy
    | _ => simpa [tamperedDocument, revertDocument, property, htruthy] using h.symm
  right
  cases parsed with
  | null => simp [truthy] at htruthy
  | bool b =>
    simp only [tamperedDocument, revertDocument, property, htruthy, if_true,
      Except.ok.injEq] at h
    exact .inl (h ▸ hnoEntries _ (.inl rfl))
  | num n =>
    simp only [tamperedDocument, revertDocument, property, htruthy, if_true,
      Except.ok.injEq] at h
    exact .inl (h ▸ hnoEntries _ (.inl rfl))
  | str s =>
    simp only [tamperedDocument, revertDocument, property, htruthy, if_true,
      Except.ok.injEq] at h
    exact .inl (h ▸ hnoEntries _ (.inl (member_spread rfl rfl (by simp))))
  | arr elements => simp [tamperedDocument, revertDocument, property, entriesKey, iterate] at h
  | obj members =>
    cases hmember : member entriesKey members with
    | none =>
      simp only [tamperedDocument, revertDocument, property, hmember, truthy, if_true, spread,
        Except.ok.injEq] at h
      exact .inl (h ▸ hnoEntries members (.inl hmember))
    | some v =>
      cases v with
      | null =>
        simp only [tamperedDocument, revertDocument, property, hmember, truthy, if_true, spread,
          Except.ok.injEq] at h
        exact .inl (h ▸ hnoEntries members (.inr hmember))
      | bool b => simp [tamperedDocument, revertDocument, property, hmember, iterate] at h
      | num n => simp [tamperedDocument, revertDocument, property, hmember, iterate] at h
      | obj inner => simp [tamperedDocument, revertDocument, property, hmember, iterate] at h
      | str s =>
        cases s with
        | nil =>
          simp only [tamperedDocument, revertDocument, property, hmember, iterate, codePoints,
            List.map_nil, revertEntries, truthy, if_true, spread, Except.ok.injEq] at h
          exact .inr (.inl ⟨members, rfl, hmember, h.symm⟩)
        | cons c rest =>
          obtain ⟨head, tail, hpoints⟩ := codePoints_cons c rest
          simp [tamperedDocument, revertDocument, property, hmember, iterate, hpoints,
            revertEntries, revertEntry] at h
      | arr entries =>
        have hcontainer : ∀ e ∈ entries, IsContainer e := by
          rw [← revertEntries_ok_iff]
          cases hrevert : revertEntries entries with
          | error e =>
            simp [tamperedDocument, revertDocument, property, hmember, iterate, hrevert] at h
          | ok l => exact ⟨l, rfl⟩
        cases (tamperedDocument_array hmember hcontainer).symm.trans h
        exact .inr (.inr ⟨members, entries, rfl, hmember, hcontainer, rfl⟩)

/-- The reversion succeeds, with a document that can be signed and searched, exactly on the
loadable files. -/
theorem tamperLoadable_iff (read : ℚ → Number) (keyId : JsString) {parsed : Json}
    (hne : parsed ≠ .null) :
    TamperLoadable parsed ↔ ∃ doc, tamperedDocument keyId parsed = .ok doc ∧
      finiteNumbers doc = true ∧ LookupsRevert read doc := by
  constructor
  · rintro (hfalse | ⟨members, rfl, hmembers⟩)
    · have hplain : tamperedDocument keyId parsed = .ok (emptyAcl keyId) := by
        cases parsed with
        | null => exact absurd rfl hne
        | arr elements => simp [truthy] at hfalse
        | obj members => simp [truthy] at hfalse
        | _ => simp [tamperedDocument, revertDocument, property, hfalse]
      exact ⟨_, hplain, finiteNumbers_emptyAcl keyId, lookupsRevert_empty rfl⟩
    · rcases hmembers with ⟨hmember, hfinite⟩ | ⟨entries, hmember, hfinite, hentries⟩
      · refine ⟨.obj (setMember bridgeKeyIdKey (.str keyId) members), ?_, ?_, ?_⟩
        · simp [tamperedDocument, revertDocument, property, hmember, iterate, codePoints,
            revertEntries, truthy, spread]
        · rw [finiteNumbers, finiteMembers_setMember]
          exact ⟨rfl, hfinite⟩
        · apply lookupsRevert_empty
          rw [documentEntries_pinned]
          simp [documentEntries, property, hmember, iterate, codePoints]
      · refine ⟨_, tamperedDocument_array hmember hentries.container, ?_, ?_⟩
        · exact (finiteNumbers_pinned keyId members hentries.container).mpr
            ⟨hentries.finite, hfinite⟩
        · intro signature attestation scope nowBd
          exact lookup_of_reverted hentries ⟨_, signature⟩
            (documentEntries_pinned_array keyId members _) attestation scope nowBd
  · rintro ⟨doc, hdoc, hfinite, hlookups⟩
    obtain ⟨found, hfound, -⟩ := hlookups.findEntry
    rcases tamperedDocument_cases hdoc with ⟨hfalse, -⟩ | ⟨e, herror⟩ |
      ⟨members, rfl, hmember, rfl⟩ | ⟨members, entries, rfl, hmember, hcontainer, rfl⟩
    · exact .inl hfalse
    · cases herror.symm.trans hfound
    · rw [finiteNumbers, finiteMembers_setMember] at hfinite
      exact .inr ⟨members, rfl, .inl ⟨hmember, hfinite.2⟩⟩
    · obtain ⟨hentries, houter⟩ := (finiteNumbers_pinned keyId members hcontainer).mp hfinite
      have hloadable := entriesLoadable_of_lookups hcontainer hentries
        (documentEntries_pinned_array keyId members _) hlookups
      exact .inr ⟨members, rfl, .inr ⟨entries, hmember, houter, hloadable⟩⟩

/-! ## The result -/

theorem replaceBy_sound (read : ℚ → Number) (identity : BridgeIdentity p256Verify)
    (acl : LinkAcl) (doc : Json) :
    ((∃ tampered, (acl.replaceBy identity doc).2 = .ok tampered) ∧
      Reverted read identity (acl.replaceBy identity doc).1) ↔
        finiteNumbers doc = true ∧ LookupsRevert read doc := by
  cases hfinite : finiteNumbers doc with
  | false =>
    obtain ⟨e, he⟩ := resign_error identity acl hfinite
    simp [LinkAcl.replaceBy, he]
  | true =>
    obtain ⟨signature, hresign, hverify⟩ := resign_ok identity acl hfinite
    have hreplace : acl.replaceBy identity doc = (⟨doc, signature⟩, .ok true) := by
      simp [LinkAcl.replaceBy, hresign]
    rw [hreplace]
    constructor
    · rintro ⟨-, hlookup, -⟩
      exact ⟨rfl, fun _ attestation scope nowBd ↦ hlookup attestation scope nowBd⟩
    · rintro ⟨-, hlookup⟩
      exact ⟨⟨true, rfl⟩, hlookup signature, hverify⟩

/-- Loading keeps its promises exactly on the loadable files: the call returns, and after
tampering no look-up fails or allows and the new signature verifies. -/
theorem loadFromBytes_sound_iff (read : ℚ → Number) (identity : BridgeIdentity p256Verify)
    (acl : LinkAcl) (bytes signature : Bytes) :
    LoadSound read identity acl bytes signature ↔ Loadable read identity bytes signature := by
  cases hparse : parse read (utf8Decode bytes) with
  | none =>
    have hload : acl.loadFromBytes read identity bytes signature =
        acl.replaceBy identity (emptyAcl identity.keyId) := by
      simp [LinkAcl.loadFromBytes, hparse]
    obtain ⟨hreturns, hreverts⟩ := (replaceBy_sound read identity acl
      _).mpr ⟨finiteNumbers_emptyAcl _, lookupsRevert_empty rfl⟩
    constructor
    · intro _ parsed hparsed
      rw [hparse] at hparsed
      cases hparsed
    · intro _
      exact ⟨hload ▸ hreturns, fun _ ↦ hload ▸ hreverts⟩
  | some parsed =>
    have hloadable : Loadable read identity bytes signature ↔ parsed ≠ .null ∧
        (¬ (SignatureOk identity bytes signature ∧ KeyIdOk read identity bytes) →
          TamperLoadable parsed) := by
      constructor
      · intro h
        exact h parsed hparse
      · intro h other hother
        cases hparse.symm.trans hother
        exact h
    rw [hloadable]
    have hkey : KeyIdOk read identity bytes ↔
        holds bridgeKeyIdKey parsed (some identity.keyId) = true := by
      constructor
      · rintro ⟨other, hother, h⟩
        cases hparse.symm.trans hother
        exact h
      · exact fun h ↦ ⟨parsed, hparse, h⟩
    by_cases hnull : parsed = .null
    · subst hnull
      constructor
      · rintro ⟨⟨tampered, hreturns⟩, -⟩
        simp [LinkAcl.loadFromBytes, hparse, property] at hreturns
      · rintro ⟨hne, -⟩
        exact absurd rfl hne
    have hproperty : ∃ p, property bridgeKeyIdKey parsed = .ok p := by
      cases parsed with
      | null => exact absurd rfl hnull
      | obj members => cases h : member bridgeKeyIdKey members <;> simp [property, h]
      | _ => exact ⟨_, rfl⟩
    obtain ⟨p, hp⟩ := hproperty
    have hkey' : KeyIdOk read identity bytes ↔ strictEq p (some identity.keyId) = true := by
      rw [hkey]
      simp [holds, hp]
    by_cases htampered : SignatureOk identity bytes signature ∧ KeyIdOk read identity bytes
    · have hload : acl.loadFromBytes read identity bytes signature =
          (⟨parsed, signature⟩, .ok false) := by
        have hsig : verifyEcdsaP256 p256Verify identity.publicKey bytes signature = true :=
          htampered.1
        simp [LinkAcl.loadFromBytes, hparse, hp, hsig, hkey'.mp htampered.2]
      constructor
      · exact fun _ ↦ ⟨hnull, fun h ↦ absurd htampered h⟩
      · exact fun _ ↦ ⟨⟨false, by rw [hload]⟩, fun h ↦ absurd htampered h⟩
    · have hboth : (verifyEcdsaP256 p256Verify identity.publicKey bytes signature &&
          strictEq p (some identity.keyId)) = false := by
        rw [Bool.eq_false_iff, ne_eq, Bool.and_eq_true]
        rintro ⟨hsig, hkeyId⟩
        exact htampered ⟨hsig, hkey'.mpr hkeyId⟩
      rw [tamperLoadable_iff read identity.keyId hnull]
      constructor
      · rintro ⟨hreturns, hreverts⟩
        refine ⟨hnull, fun _ ↦ ?_⟩
        cases hdoc : tamperedDocument identity.keyId parsed with
        | error e => simp [LinkAcl.loadFromBytes, hparse, hp, hboth, hdoc] at hreturns
        | ok doc =>
          have hload : acl.loadFromBytes read identity bytes signature =
              acl.replaceBy identity doc := by
            simp [LinkAcl.loadFromBytes, hparse, hp, hboth, hdoc]
          rw [hload] at hreturns hreverts
          exact ⟨doc, rfl,
            (replaceBy_sound read identity acl doc).mp ⟨hreturns, hreverts htampered⟩⟩
      · rintro ⟨-, h⟩
        obtain ⟨doc, hdoc, hsound⟩ := h htampered
        have hload : acl.loadFromBytes read identity bytes signature =
            acl.replaceBy identity doc := by
          simp [LinkAcl.loadFromBytes, hparse, hp, hboth, hdoc]
        obtain ⟨hreturns, hreverts⟩ :=
          (replaceBy_sound read identity acl doc).mpr hsound
        exact ⟨hload ▸ hreturns, fun _ ↦ hload ▸ hreverts⟩

/-! ## A file that is not loadable -/

/-- An identity whose platform accepts every signature. -/
def permissiveIdentity : BridgeIdentity fun _ _ _ ↦ true where
  keyId := js "p256:AAAA"
  publicKey := 0x04 :: List.replicate 64 0
  sign := id
  verify_sign _ := rfl

/-- The file `null` makes the call throw. -/
theorem loadFromBytes_null :
    (LinkAcl.loadFromBytes Binary64.round permissiveIdentity ⟨emptyAcl (js "p256:AAAA"), []⟩
      (Bytes.ascii "null") []).2 = .error .typeError ∧
    ¬ ∀ acl bytes signature,
      LoadSound Binary64.round permissiveIdentity acl bytes signature := by
  have hthrows : (LinkAcl.loadFromBytes Binary64.round permissiveIdentity
      ⟨emptyAcl (js "p256:AAAA"), []⟩ (Bytes.ascii "null") []).2 = .error .typeError := rfl
  refine ⟨hthrows, fun h ↦ ?_⟩
  obtain ⟨tampered, hreturns⟩ := (h ⟨emptyAcl (js "p256:AAAA"), []⟩ (Bytes.ascii "null") []).returns
  cases hreturns

end Bsh.Bridge
