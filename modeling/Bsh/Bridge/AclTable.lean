import Bsh.Bridge.GrantedEntry
import Bsh.Library.FirstMatch

/-!
# The entries of an ACL as a table

What `upsert`, `remove` and `recordUse` do to the array of entries, and which parts of an entry the
look-ups read.
-/

namespace Bsh.Bridge

open Bsh.Library Bsh.BrightLink Utf Json

/-- The id of the entry that an answer writes. -/
def writtenId (prompt : OpenPrompt) (generatedId : JsString) : Property :=
  .value (LinkAcl.existingOr prompt.existing idKey (.str generatedId))

section Documents

variable {p256Verify : Bytes → Bytes → Bytes → Bool} {identity : BridgeIdentity p256Verify}
  {acl : LinkAcl}

theorem resign_doc (identity : BridgeIdentity p256Verify) (acl : LinkAcl) (doc : Json) :
    (acl.resign identity doc).1.doc = doc := by
  unfold LinkAcl.resign
  cases canonicalJsonBytes doc <;> rfl

theorem replaceBy_doc (doc : Json) : (acl.replaceBy identity doc).1.doc = doc := by
  have h := resign_doc identity acl doc
  unfold LinkAcl.replaceBy
  generalize acl.resign identity doc = result at h ⊢
  obtain ⟨acl', _ | _⟩ := result <;> exact h

variable {doc entry : Json} {entries : List Json}

theorem documentEntries_of_entryArray
    (h : entryArray doc = .ok entries) :
    ∃ members, doc = .obj members ∧ member entriesKey members = some (.arr entries) := by
  unfold entryArray at h
  cases doc with
  | obj members =>
    cases hm : member entriesKey members with
    | none => simp [property, hm] at h
    | some v =>
      cases v with
      | arr elements =>
        simp only [property, hm, Except.ok.injEq] at h
        exact ⟨members, rfl, by rw [hm, h]⟩
      | _ => simp [property, hm] at h
  | null => simp [property] at h
  | arr elements => simp [property, entriesKey, Utf.js] at h
  | _ => simp [property] at h

theorem documentEntries_withEntries
    (h : entryArray doc = .ok entries) (entries' : List Json) :
    documentEntries doc = .ok entries ∧
      documentEntries (withEntries doc entries') = .ok entries' := by
  obtain ⟨members, rfl, hmember⟩ := documentEntries_of_entryArray h
  simp [documentEntries, withEntries, property, hmember, iterate]

theorem entryArray_withEntries
    (h : entryArray doc = .ok entries) (entries' : List Json) :
    entryArray (withEntries doc entries') = .ok entries' := by
  obtain ⟨members, rfl, -⟩ := documentEntries_of_entryArray h
  simp [entryArray, withEntries, property]

theorem documentEntries_of_array
    (h : entryArray doc = .ok entries) : documentEntries doc = .ok entries :=
  (documentEntries_withEntries h []).1

/-! ## Entries by id -/

/-- The entry has the id. -/
def bears (id : Property) (entry : Json) : Bool :=
  match hasId id entry with
  | .ok b => b
  | .error _ => false

theorem hasId_eq (h : IsContainer entry) (id : Property) :
    hasId id entry = .ok (bears id entry) := by
  obtain ⟨own, hown⟩ := property_ok h idKey
  simp [bears, hasId, hown]

theorem findIndexById_eq (h : ∀ e ∈ entries, IsContainer e)
    (id : Property) : findIndexById id entries = .ok (entries.findIdx? (bears id)) := by
  induction entries with
  | nil => rfl
  | cons entry rest ih =>
    rw [findIndexById, hasId_eq (h entry (by simp)), List.findIdx?_cons,
      ih fun e he ↦ h e (List.mem_cons_of_mem entry he)]
    cases bears id entry <;> simp

theorem dropById_eq (h : ∀ e ∈ entries, IsContainer e) (id : Property) :
    dropById id entries = .ok (entries.filter fun e ↦ !bears id e) := by
  induction entries with
  | nil => rfl
  | cons entry rest ih =>
    rw [dropById, hasId_eq (h entry (by simp)), List.filter_cons,
      ih fun e he ↦ h e (List.mem_cons_of_mem entry he)]
    cases bears id entry <;> simp

/-- Replace the row with an index, or append a row. -/
def place {Row : Type} (found : Option ℕ) (rows : List Row) (row : Row) : List Row :=
  match found with
  | some index => rows.set index row
  | none => rows ++ [row]

/-- The array after an `upsert`, which does nothing if the search for the id throws. -/
theorem upsert_array (identity : BridgeIdentity p256Verify)
    (harray : entryArray acl.doc = .ok entries) {id : Property}
    (hid : property idKey entry = .ok id) :
    entryArray (acl.upsert identity entry).1.doc =
      .ok (match findIndexById id entries with
        | .ok found => place found entries entry
        | .error _ => entries) := by
  unfold LinkAcl.upsert
  simp only [harray, hid]
  cases findIndexById id entries with
  | error e => exact harray
  | ok found =>
    cases found with
    | none =>
      simp only [resign_doc]
      exact entryArray_withEntries harray _
    | some index =>
      simp only [resign_doc]
      exact entryArray_withEntries harray _

theorem upsert_table (identity : BridgeIdentity p256Verify)
    (harray : entryArray acl.doc = .ok entries) (hentries : ∀ e ∈ entries, IsContainer e) {id : Property} (hid : property idKey entry = .ok id) :
    entryArray (acl.upsert identity entry).1.doc =
      .ok (place (entries.findIdx? (bears id)) entries entry) := by
  rw [upsert_array identity harray hid, findIndexById_eq hentries]

theorem remove_table (identity : BridgeIdentity p256Verify)
    (harray : entryArray acl.doc = .ok entries) (hentries : ∀ e ∈ entries, IsContainer e)
    (id : JsString) :
    entryArray (acl.remove identity id).1.doc =
      .ok (entries.filter fun e ↦ !bears (.value (.str id)) e) := by
  unfold LinkAcl.remove
  simp only [harray, dropById_eq hentries, resign_doc]
  exact entryArray_withEntries harray _

/-- `entry.lastUsedBd = nowBd`. -/
def touch (nowBd : ℚ) : Json → Json
  | .obj members => .obj (setMember lastUsedBdKey (.num (.finite nowBd)) members)
  | entry => entry

theorem recordUse_table (identity : BridgeIdentity p256Verify)
    (harray : entryArray acl.doc = .ok entries) (id : Property) (nowBd : ℚ) :
    ∃ index, entryArray (acl.recordUse identity id nowBd).1.doc =
      .ok (entries.modify index (touch nowBd)) := by
  have hsame : ∃ index, entryArray acl.doc = .ok (entries.modify index (touch nowBd)) :=
    ⟨entries.length, by rw [List.modify_eq_self le_rfl, harray]⟩
  unfold LinkAcl.recordUse
  simp only [harray]
  cases findIndexById id entries with
  | error e => exact hsame
  | ok found =>
    cases found with
    | none => exact hsame
    | some index =>
      simp only
      cases hentry : entries[index]? with
      | none => exact hsame
      | some entry =>
        have hmodify : entries.modify index (touch nowBd) =
            entries.set index (touch nowBd entry) := by
          rw [List.modify_eq_set_getElem?, hentry]
          rfl
        cases entry with
        | obj members =>
          simp only [resign_doc]
          refine ⟨index, ?_⟩
          rw [hmodify]
          exact entryArray_withEntries harray _
        | arr elements =>
          simp only [resign_doc]
          exact hsame
        | _ => exact hsame

theorem writePolicy_array (identity : BridgeIdentity p256Verify)
    (harray : entryArray acl.doc = .ok entries) (prompt : OpenPrompt) (policy : LinkGeoPolicy)
    (recordAccess : Bool) (nowBd : ℚ) (generatedId : JsString) (ssh : Option JsString) :
    ∃ index, entryArray (writePolicy identity acl prompt policy recordAccess nowBd generatedId
      ssh).doc = .ok ((match findIndexById (writtenId prompt generatedId) entries with
        | .ok found => place found entries (LinkAcl.grantedEntry prompt.attestation prompt.scope
            policy prompt.existing nowBd generatedId ssh)
        | .error _ => entries).modify index (touch nowBd)) := by
  have hid : property idKey (LinkAcl.grantedEntry prompt.attestation prompt.scope policy
      prompt.existing nowBd generatedId ssh) = .ok (writtenId prompt generatedId) :=
    property_id_granted ..
  have hupsert := upsert_array identity harray hid
  generalize (match findIndexById _ entries with
    | .ok found => place found entries _
    | .error _ => entries) = placed at hupsert ⊢
  have hsame : placed = placed.modify placed.length (touch nowBd) :=
    (List.modify_eq_self le_rfl).symm
  unfold writePolicy
  simp only [hid]
  generalize hresult : acl.upsert identity _ = result at hupsert ⊢
  obtain ⟨acl', _ | _⟩ := result
  · exact ⟨placed.length, hsame ▸ hupsert⟩
  · cases recordAccess with
    | false => exact ⟨placed.length, hsame ▸ hupsert⟩
    | true => exact recordUse_table identity hupsert _ nowBd

theorem writePolicy_of_error (identity : BridgeIdentity p256Verify) {e : JsError}
    (harray : entryArray acl.doc = .error e) (prompt : OpenPrompt) (policy : LinkGeoPolicy)
    (recordAccess : Bool) (nowBd : ℚ) (generatedId : JsString) (ssh : Option JsString) :
    writePolicy identity acl prompt policy recordAccess nowBd generatedId ssh = acl := by
  simp [writePolicy, LinkAcl.upsert, harray]

end Documents

/-! ## What an answer writes -/

/-- The policy and the session tag that an outcome writes. -/
def writtenPolicy : PromptOutcome → Option (LinkGeoPolicy × Option JsString)
  | .allowAlways => some (.always, none)
  | .allowSession sshSessionId => some (.always, some sshSessionId)
  | .denyAlways => some (.deny, none)
  | _ => none

section Outcomes

variable {p256Verify : Bytes → Bytes → Bytes → Bool} {identity : BridgeIdentity p256Verify}
  {acl : LinkAcl} {prompt : OpenPrompt} {outcome : PromptOutcome}

theorem applyOutcome_eq (identity : BridgeIdentity p256Verify) (acl : LinkAcl)
    (prompt : OpenPrompt) {policy : LinkGeoPolicy} {ssh : Option JsString}
    (h : writtenPolicy outcome = some (policy, ssh)) (nowBd : ℚ) (generatedId : JsString) :
    ∃ recordAccess, applyOutcome identity acl prompt outcome nowBd generatedId =
      writePolicy identity acl prompt policy recordAccess nowBd generatedId ssh := by
  cases outcome <;> cases h <;> exact ⟨_, rfl⟩

theorem applyOutcome_of_none (h : writtenPolicy outcome = none) (nowBd : ℚ)
    (generatedId : JsString) : applyOutcome identity acl prompt outcome nowBd generatedId = acl := by
  cases outcome <;> cases h <;> rfl

end Outcomes

/-! ## What the look-ups read of an entry -/

/-- Two entries differ in the record of their use at most. -/
def SameGrant (a b : Json) : Prop := ∀ name, name ≠ lastUsedBdKey → property name a = property name b

theorem sameGrant_touch (nowBd : ℚ) (entry : Json) : SameGrant (touch nowBd entry) entry := by
  intro name hname
  cases entry with
  | obj members => simp only [touch, property, member_setMember_other hname]
  | _ => rfl

section SameGrant

variable {a b : Json}

theorem SameGrant.carries (h : SameGrant a b) (peer : PeerAttestation) :
    carries peer a = carries peer b := by
  simp only [Bsh.Bridge.carries, holds, h attestationClassKey (by decide),
    h expectedPathKey (by decide), h fallbackHashKey (by decide), h issuerIdKey (by decide),
    h subjectIdKey (by decide)]

theorem SameGrant.entryMatches (h : SameGrant a b) (peer : PeerAttestation) :
    entryMatches peer a = entryMatches peer b := by
  simp only [Bsh.Bridge.entryMatches, h attestationClassKey (by decide),
    h expectedPathKey (by decide), h fallbackHashKey (by decide), h issuerIdKey (by decide),
    h subjectIdKey (by decide)]

theorem SameGrant.hashReadable (h : SameGrant a b) : HashReadable a ↔ HashReadable b := by
  simp only [HashReadable, holds, h attestationClassKey (by decide), h expectedPathKey (by decide),
    h fallbackHashKey (by decide)]

theorem SameGrant.hasPolicy (h : SameGrant a b) (policy : LinkGeoPolicy) (scope : LinkGeoScope) :
    hasPolicy policy scope a = hasPolicy policy scope b := by
  simp only [Bsh.Bridge.hasPolicy, entryPolicy, h scopesKey (by decide)]

theorem SameGrant.entryExpired (h : SameGrant a b) (read : ℚ → Number) (time : ℚ) :
    entryExpired read time a = entryExpired read time b := by
  simp only [Bsh.Bridge.entryExpired, h expiresAtBdKey (by decide)]

end SameGrant

theorem isContainer_touch {entry : Json} (h : IsContainer entry) (nowBd : ℚ) :
    IsContainer (touch nowBd entry) := by
  rcases (isContainer_iff entry).mp h with ⟨members, rfl⟩ | ⟨elements, rfl⟩
  · exact (isContainer_iff _).mpr (.inl ⟨_, rfl⟩)
  · exact h

/-- Which policy of an unexpired entry decides a look-up, and how. -/
def decision (policy : LinkGeoPolicy) (entry : Json) : AclLookupResult :=
  match policy with
  | .always => .allow entry
  | .prompt => .prompt (some entry)
  | .deny => .deny entry

theorem lookup_of_find {read : ℚ → Number} {acl : LinkAcl} {entries : List Json}
    (harray : entryArray acl.doc = .ok entries) (hcontainer : ∀ e ∈ entries, IsContainer e)
    (hhash : ∀ e ∈ entries, HashReadable e) {peer : PeerAttestation} {scope : LinkGeoScope}
    (hcap : peer.capped scope = false) {entry : Json}
    (hfind : entries.find? (carries peer) = some entry) {time : ℚ}
    (hexpired : entryExpired read time entry = .ok false) {policy : LinkGeoPolicy}
    (hpolicy : hasPolicy policy scope entry = true) :
    acl.lookup read peer scope time = .ok (decision policy entry) := by
  have hmatching : acl.findMatchingEntry peer = .ok (some entry) := by
    rw [LinkAcl.findMatchingEntry, documentEntries_of_array harray]
    simp only
    rw [findEntry_eq hcontainer hhash, hfind]
  have hstored := hasPolicy_iff.mp hpolicy
  simp only [LinkAcl.lookup, hcap, hmatching, hexpired, hstored, strictEq, Bool.false_eq_true,
    if_false]
  cases policy <;> rfl

theorem lookup_prompt {read : ℚ → Number} {acl : LinkAcl} {attestation : PeerAttestation} {scope : LinkGeoScope}
    {nowBd : ℚ} {existing : Option Json}
    (h : acl.lookup read attestation scope nowBd = .ok (.prompt existing)) :
    attestation.capped scope = false ∧ ∀ e, existing = some e →
      acl.findMatchingEntry attestation = .ok (some e) := by
  unfold LinkAcl.lookup at h
  cases hcap : attestation.capped scope with
  | true => simp [hcap] at h
  | false =>
    refine ⟨rfl, ?_⟩
    rintro e rfl
    cases hfind : acl.findMatchingEntry attestation with
    | error err => simp [hcap, hfind] at h
    | ok found =>
      cases found with
      | none => simp [hcap, hfind] at h
      | some entry =>
        cases hexpired : entryExpired read nowBd entry with
        | error err => simp [hcap, hfind, hexpired] at h
        | ok expired =>
          cases expired with
          | true => simp [hcap, hfind, hexpired] at h
          | false =>
            cases hpolicy : entryPolicy scope entry with
            | error err => simp [hcap, hfind, hexpired, hpolicy] at h
            | ok p =>
              simp only [hcap, hfind, hexpired, hpolicy, Bool.false_eq_true, if_false] at h
              split at h
              · simp at h
              · split at h
                · simp at h
                · cases h
                  rfl

end Bsh.Bridge
