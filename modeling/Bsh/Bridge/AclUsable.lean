import Bsh.Bridge.AclTable
import Bsh.Bridge.GeoEngine

/-!
# Documents that no operation fails on

The ACL document is whatever was parsed, and the operations on it throw where it is not what its
type says.  A usable document has entries that can be looked up and written; requests and answers
keep it usable and do not throw.
-/

namespace Bsh.Bridge

open Bsh.Library Bsh.BrightLink Utf Json List

/-- An entry that every operation can read and write. -/
structure UsableEntry (entry : Json) : Prop where
  isObject : ∃ members, entry = .obj members
  hash : HashReadable entry
  expiry : ExpiryReadable entry
  scopes : ∃ v, property scopesKey entry = .ok (.value v) ∧ isNullValue v = false
  finite : finiteNumbers entry = true

variable {bridge : GeoBridge R} {entry : Json} (config : BridgeConfig P R)
  (identity : BridgeIdentity p256Verify)

theorem UsableEntry.isContainer (h : UsableEntry entry) : IsContainer entry :=
  (isContainer_iff entry).mpr (.inl h.isObject)

/-- A document that every operation can read and write. -/
structure AclUsable (acl : LinkAcl) : Prop where
  entries : ∃ entries, entryArray acl.doc = .ok entries ∧ ∀ e ∈ entries, UsableEntry e
  finite : finiteNumbers acl.doc = true

/-! ## Finite numbers -/

theorem finite_member {members : Members} (h : finiteMembers members = true) {key : JsString}
    {v : Json} (hm : member key members = some v) : finiteNumbers v = true := by
  obtain ⟨k, hmem⟩ : ∃ k, (k, v) ∈ members := by
    induction members with
    | nil => cases hm
    | cons m rest ih =>
      obtain ⟨k, w⟩ := m
      rw [member, lookup_cons] at hm
      split at hm
      · cases hm
        exact ⟨k, mem_cons_self⟩
      · rw [finiteMembers, Bool.and_eq_true] at h
        obtain ⟨k', hk'⟩ := ih h.2 hm
        exact ⟨k', mem_cons_of_mem _ hk'⟩
  exact (finiteMembers_iff members).mp h (k, v) hmem

theorem finiteMembers_set {key : JsString} {value : Json} {members : Members}
    (hvalue : finiteNumbers value = true) (h : finiteMembers members = true) :
    finiteMembers (setMember key value members) = true := by
  rw [finiteMembers_setMember]
  refine ⟨hvalue, (finiteMembers_iff _).mpr fun m hm ↦ ?_⟩
  exact (finiteMembers_iff members).mp h m (mem_of_mem_eraseP hm)

theorem finiteMembers_spread {v : Json} (h : finiteNumbers v = true) :
    finiteMembers (spread v) = true := by
  rw [finiteMembers_iff]
  intro m hm
  cases v with
  | obj members => exact (finiteMembers_iff members).mp h m hm
  | arr elements =>
    obtain ⟨⟨w, i⟩, hw, rfl⟩ := List.mem_map.mp hm
    exact (finiteElements_iff elements).mp h w (fst_mem_of_mem_zipIdx hw)
  | str s =>
    obtain ⟨⟨c, i⟩, -, rfl⟩ := List.mem_map.mp hm
    rfl
  | _ => cases hm

theorem finite_withEntries {doc : Json} {entries : List Json} (hdoc : finiteNumbers doc = true)
    (hentries : ∀ e ∈ entries, finiteNumbers e = true) :
    finiteNumbers (withEntries doc entries) = true := by
  cases doc with
  | obj members => exact finiteMembers_set ((finiteElements_iff entries).mpr hentries) hdoc
  | _ => exact hdoc

/-! ## Entries -/

theorem usableEntry_touch (h : UsableEntry entry) (nowBd : ℚ) :
    UsableEntry (touch nowBd entry) where
  isObject := by
    obtain ⟨members, rfl⟩ := h.isObject
    exact ⟨_, rfl⟩
  hash := (sameGrant_touch nowBd entry).hashReadable.mpr h.hash
  expiry v hv := h.expiry v ((sameGrant_touch nowBd entry expiresAtBdKey (by decide)).symm.trans hv)
  scopes := by
    obtain ⟨v, hv, hnull⟩ := h.scopes
    exact ⟨v, (sameGrant_touch nowBd entry scopesKey (by decide)).trans hv, hnull⟩
  finite := by
    obtain ⟨members, rfl⟩ := h.isObject
    exact finiteMembers_set rfl h.finite

section Granted

variable {existing : Option Json} (hexisting : ∀ e, existing = some e → UsableEntry e)

include hexisting

theorem existingOr_cases (name : JsString) (default : Json) :
    LinkAcl.existingOr existing name default = default ∨
      ∃ members v, existing = some (.obj members) ∧ member name members = some v ∧
        LinkAcl.existingOr existing name default = v ∧ isNullValue v = false := by
  cases existing with
  | none => exact .inl rfl
  | some e =>
    obtain ⟨members, rfl⟩ := (hexisting e rfl).isObject
    cases hm : member name members with
    | none => exact .inl (by simp [LinkAcl.existingOr, property, hm])
    | some v =>
      cases v with
      | null => exact .inl (by simp [LinkAcl.existingOr, property, hm])
      | _ => exact .inr ⟨members, _, rfl, hm, by simp [LinkAcl.existingOr, property, hm], rfl⟩

theorem finite_existingOr (name : JsString) {default : Json}
    (hdefault : finiteNumbers default = true) :
    finiteNumbers (LinkAcl.existingOr existing name default) = true := by
  rcases existingOr_cases hexisting name default with h | ⟨members, v, hsome, hm, hv, -⟩
  · rw [h]
    exact hdefault
  · rw [hv]
    exact finite_member (hexisting _ hsome).finite hm

theorem usableEntry_granted (attestation : PeerAttestation) (scope : LinkGeoScope)
    (policy : LinkGeoPolicy) (nowBd : ℚ) (generatedId : JsString) (ssh : Option JsString) :
    UsableEntry (LinkAcl.grantedEntry attestation scope policy existing nowBd generatedId ssh) where
  isObject := ⟨_, rfl⟩
  hash := hashReadable_granted attestation scope policy existing nowBd generatedId ssh
  expiry v hv := by
    cases hv
    rcases existingOr_cases hexisting expiresAtBdKey .null with h | ⟨members, v, hsome, hm, hv, -⟩
    · rw [h]
      rfl
    · rw [hv]
      exact (hexisting _ hsome).expiry v (by simp [property, hm])
  scopes := ⟨_, by cases ssh <;> rfl, rfl⟩
  finite := by
    have hoption (s : Option JsString) : finiteNumbers (LinkAcl.ofOption s) = true := by
      cases s <;> rfl
    have hscopes : finiteMembers (setMember scope.text (.str policy.text)
        (spread (LinkAcl.existingOr existing scopesKey defaultPromptScopes))) = true :=
      finiteMembers_set rfl (finiteMembers_spread (finite_existingOr hexisting _ rfl))
    unfold LinkAcl.grantedEntry
    rw [finiteNumbers, finiteMembers_iff]
    intro m hm
    rcases List.mem_append.mp hm with hm | hm
    · simp only [mem_cons, not_mem_nil, or_false] at hm
      rcases hm with rfl | rfl | rfl | rfl | rfl | rfl | rfl | rfl | rfl | rfl | rfl
      · exact finite_existingOr hexisting _ rfl
      · exact finite_existingOr hexisting _ rfl
      · rfl
      · exact hoption _
      · exact hoption _
      · exact hoption _
      · exact hoption _
      · exact hscopes
      · exact finite_existingOr hexisting _ rfl
      · rfl
      · exact finite_existingOr hexisting _ rfl
    · cases ssh with
      | none => cases hm
      | some sessionId =>
        rw [List.mem_singleton.mp hm]
        rfl

end Granted

/-! ## Operations -/

variable {p256Verify : Bytes → Bytes → Bytes → Bool} {acl : LinkAcl}

theorem resign_usable (h : AclUsable acl)
    {entries entries' : List Json} (harray : entryArray acl.doc = .ok entries)
    (hentries : ∀ e ∈ entries', UsableEntry e) : ∃ acl',
      acl.resign identity (withEntries acl.doc entries') = (acl', .ok ()) ∧ AclUsable acl' := by
  have hfinite : finiteNumbers (withEntries acl.doc entries') = true :=
    finite_withEntries h.finite fun e he ↦ (hentries e he).finite
  obtain ⟨signature, hresign, -⟩ := resign_ok identity acl hfinite
  exact ⟨_, hresign, ⟨entries', entryArray_withEntries harray entries', hentries⟩, hfinite⟩

theorem recordUse_usable (h : AclUsable acl)
    (id : Property) (nowBd : ℚ) :
    ∃ acl', acl.recordUse identity id nowBd = (acl', .ok ()) ∧ AclUsable acl' := by
  obtain ⟨entries, harray, hentries⟩ := h.entries
  unfold LinkAcl.recordUse
  simp only [harray, findIndexById_eq fun e he ↦ (hentries e he).isContainer]
  cases entries.findIdx? (bears id) with
  | none => exact ⟨acl, rfl, h⟩
  | some index =>
    dsimp only
    cases hentry : entries[index]? with
    | none => exact ⟨acl, rfl, h⟩
    | some entry =>
      have husable := hentries entry (mem_of_getElem? hentry)
      obtain ⟨members, rfl⟩ := husable.isObject
      apply resign_usable identity h harray
      intro e he
      rcases mem_or_eq_of_mem_set he with he | rfl
      · exact hentries e he
      · exact usableEntry_touch husable nowBd

theorem upsert_usable (h : AclUsable acl)
    (hentry : UsableEntry entry) :
    ∃ acl', acl.upsert identity entry = (acl', .ok ()) ∧ AclUsable acl' := by
  obtain ⟨entries, harray, hentries⟩ := h.entries
  obtain ⟨id, hid⟩ := property_ok hentry.isContainer idKey
  unfold LinkAcl.upsert
  simp only [harray, hid, findIndexById_eq fun e he ↦ (hentries e he).isContainer]
  cases entries.findIdx? (bears id) with
  | none =>
    apply resign_usable identity h harray
    intro e he
    rcases List.mem_append.mp he with he | he
    · exact hentries e he
    · rw [List.mem_singleton.mp he]
      exact hentry
  | some index =>
    apply resign_usable identity h harray
    intro e he
    rcases mem_or_eq_of_mem_set he with he | rfl
    · exact hentries e he
    · exact hentry

theorem remove_usable (h : AclUsable acl)
    (id : JsString) :
    ∃ acl', acl.remove identity id = (acl', .ok ()) ∧ AclUsable acl' := by
  obtain ⟨entries, harray, hentries⟩ := h.entries
  unfold LinkAcl.remove
  simp only [harray, dropById_eq fun e he ↦ (hentries e he).isContainer]
  apply resign_usable identity h harray
  intro e he
  exact hentries e (List.mem_filter.mp he).1

/-- What a look-up may return of a usable document. -/
def UsableResult : AclLookupResult → Prop
  | .allow entry => UsableEntry entry
  | .prompt existing => ∀ e, existing = some e → UsableEntry e
  | _ => True

theorem entryPolicy_usable (h : UsableEntry entry) (scope : LinkGeoScope) :
    ∃ p, entryPolicy scope entry = .ok p := by
  obtain ⟨v, hv, hnull⟩ := h.scopes
  unfold entryPolicy
  rw [hv]
  cases v with
  | null => cases hnull
  | obj members => cases hm : member scope.text members <;> simp [property, hm]
  | _ => exact ⟨_, rfl⟩

theorem lookup_usable (h : AclUsable acl) (read : ℚ → Number) (attestation : PeerAttestation)
    (scope : LinkGeoScope) (nowBd : ℚ) :
    ∃ result, acl.lookup read attestation scope nowBd = .ok result ∧ UsableResult result := by
  obtain ⟨entries, harray, hentries⟩ := h.entries
  have hfind : acl.findMatchingEntry attestation =
      .ok (entries.find? (carries attestation)) := by
    unfold LinkAcl.findMatchingEntry
    rw [documentEntries_of_array harray]
    exact findEntry_eq (fun e he ↦ (hentries e he).isContainer)
      (fun e he ↦ (hentries e he).hash) attestation
  unfold LinkAcl.lookup
  split
  · exact ⟨_, rfl, trivial⟩
  · rw [hfind]
    cases hfound : entries.find? _ with
    | none => exact ⟨_, rfl, fun e he ↦ by cases he⟩
    | some entry =>
      have husable := hentries entry (mem_of_find?_eq_some hfound)
      obtain ⟨expired, hexpired⟩ :=
        (entryExpired_isOk read nowBd husable.isContainer).mpr husable.expiry
      obtain ⟨policy, hpolicy⟩ := entryPolicy_usable husable scope
      dsimp only
      rw [hexpired]
      cases expired with
      | true => exact ⟨_, rfl, fun e he ↦ by cases he⟩
      | false =>
        rw [hpolicy]
        dsimp only
        split
        · exact ⟨_, rfl, husable⟩
        · split
          · exact ⟨_, rfl, trivial⟩
          · refine ⟨_, rfl, fun e he ↦ ?_⟩
            cases he
            exact husable

/-! ## The gate -/

variable {P : Primitives} {R : Type}

/-- A prompt holds an entry that can be written. -/
def UsableGate : Gate → Prop
  | .prompting existing => ∀ e, existing = some e → UsableEntry e
  | _ => True

theorem gateScope_usable
    (h : AclUsable bridge.acl) (nowBd : ℚ) (attestation : PeerAttestation) (request : GeoRequest) :
    ∃ gate bridge', gateScope config nowBd attestation request bridge = (.ok gate, bridge') ∧
      AclUsable bridge'.acl ∧ UsableGate gate := by
  obtain ⟨result, hresult, husable⟩ :=
    lookup_usable h config.double attestation request.scope nowBd
  unfold gateScope
  rw [hresult]
  cases result with
  | allow entry =>
    obtain ⟨id, hid⟩ := property_ok (UsableEntry.isContainer husable) idKey
    obtain ⟨acl, hrecord, hacl⟩ := recordUse_usable config.identity h id nowBd
    dsimp only
    rw [hid]
    dsimp only
    rw [hrecord]
    exact ⟨_, _, rfl, hacl, trivial⟩
  | deny entry => exact ⟨_, _, rfl, h, trivial⟩
  | denyCap => exact ⟨_, _, rfl, h, trivial⟩
  | prompt existing => exact ⟨_, _, rfl, h, husable⟩

theorem storeAnswer_usable (identity : BridgeIdentity P.p256Verify) (h : AclUsable acl)
    {prompt : OpenPrompt} (hprompt : ∀ e, prompt.existing = some e → UsableEntry e)
    (policy : LinkGeoPolicy) (recordAccess : Bool) (nowBd : ℚ) (generatedId : JsString)
    (ssh : Option JsString) : ∃ acl',
      storeAnswer identity acl prompt policy recordAccess nowBd generatedId ssh = (acl', .ok ()) ∧
        AclUsable acl' := by
  obtain ⟨acl₁, hupsert, hacl₁⟩ := upsert_usable identity h
    (usableEntry_granted hprompt prompt.attestation prompt.scope policy nowBd generatedId ssh)
  unfold storeAnswer
  dsimp only
  rw [hupsert]
  cases recordAccess with
  | false => exact ⟨acl₁, rfl, hacl₁⟩
  | true =>
    exact recordUse_usable identity hacl₁ _ nowBd

theorem settle_usable
    (h : AclUsable bridge.acl) (nowBd : ℚ) (request : GeoRequest) (prompt : OpenPrompt)
    (hprompt : ∀ e, prompt.existing = some e → UsableEntry e) (policy : LinkGeoPolicy)
    (generatedId : JsString) (ssh : Option JsString) (decision : String)
    (policyAtDecision : JsString) (more : Members) (gate : Gate) : ∃ bridge',
      bridge.settle config nowBd request prompt policy generatedId ssh decision policyAtDecision
        more gate = (.ok gate, bridge') ∧ AclUsable bridge'.acl := by
  obtain ⟨acl, hstore, hacl⟩ := storeAnswer_usable config.identity h hprompt policy
    (policy = .always) nowBd generatedId ssh
  unfold GeoBridge.settle
  rw [hstore]
  exact ⟨_, rfl, hacl⟩

/-- An answer grants or refuses; it neither throws nor asks again. -/
theorem handlePromptOutcome_usable
    (h : AclUsable bridge.acl) (nowBd : ℚ) (attestation : PeerAttestation) (request : GeoRequest)
    {existing : Option Json} (hexisting : ∀ e, existing = some e → UsableEntry e)
    (outcome : PromptOutcome) (generatedId : JsString) : ∃ gate bridge',
      handlePromptOutcome config nowBd attestation request existing outcome generatedId bridge =
        (.ok gate, bridge') ∧ AclUsable bridge'.acl ∧
          (gate = .granted ∨ ∃ error, gate = .refused error) := by
  cases outcome with
  | allowOnce => exact ⟨_, _, rfl, h, .inl rfl⟩
  | allowAlways =>
    obtain ⟨bridge', hsettle, hbridge⟩ := settle_usable config h nowBd request
      ⟨attestation, request.scope, existing⟩ hexisting .always generatedId none _ _ _ _
    exact ⟨_, bridge', hsettle, hbridge, .inl rfl⟩
  | allowSession sshSessionId =>
    obtain ⟨bridge', hsettle, hbridge⟩ := settle_usable config h nowBd request
      ⟨attestation, request.scope, existing⟩ hexisting .always generatedId (some sshSessionId)
      _ _ _ _
    exact ⟨_, bridge', hsettle, hbridge, .inl rfl⟩
  | deny => exact ⟨_, _, rfl, h, .inr ⟨_, rfl⟩⟩
  | denyAlways =>
    obtain ⟨bridge', hsettle, hbridge⟩ := settle_usable config h nowBd request
      ⟨attestation, request.scope, existing⟩ hexisting .deny generatedId none _ _ _ _
    exact ⟨_, bridge', hsettle, hbridge, .inr ⟨_, rfl⟩⟩
  | timeout => exact ⟨_, _, rfl, h, .inr ⟨_, rfl⟩⟩

theorem aclUsable_create :
    AclUsable (LinkAcl.create identity none) := by
  exact ⟨⟨[], rfl, fun e he ↦ by cases he⟩, rfl⟩

end Bsh.Bridge
