import Bsh.Bridge.AclLoad
import Bsh.Bridge.AclPrompt

/-!
# The entry that an answer writes

`upsertEntryForScope` builds an entry from the attestation of the peer and from the entry captured
before the prompt.  The identity of the new entry is the peer's, its policy for the prompt's scope
is the answer, and its other policies and its expiry are the captured ones.
-/

namespace Bsh.Bridge

open Bsh.Library Bsh.BrightLink Utf Json List

/-! ## Callers -/

/-- An entry stored for one peer is found for another: both present the same canonical identity.
An unsigned peer whose binary was not hashed is found for nobody. -/
def SameCaller (stored peer : PeerAttestation) : Prop :=
  stored.attestationClass = peer.attestationClass ∧
    if peer.attestationClass = .unsigned then
      stored.executablePath = peer.executablePath ∧
        peer.executableHash = some (stored.executableHash.getD [])
    else stored.issuerId = peer.issuerId ∧ stored.subjectId = peer.subjectId

instance (stored peer : PeerAttestation) : Decidable (SameCaller stored peer) := by
  unfold SameCaller
  infer_instance

variable {a b : PeerAttestation} {entry : Json}

theorem SameCaller.trans {c : PeerAttestation} (hab : SameCaller a b) (hbc : SameCaller b c) :
    SameCaller a c := by
  refine ⟨hab.1.trans hbc.1, ?_⟩
  obtain ⟨hclass, hab⟩ := hab
  obtain ⟨hclass', hbc⟩ := hbc
  rw [hclass'] at hab
  split
  · next h =>
    rw [if_pos h] at hab hbc
    refine ⟨hab.1.trans hbc.1, ?_⟩
    rw [hbc.2, hab.2]
    rfl
  · next h =>
    rw [if_neg h] at hab hbc
    exact ⟨hab.1.trans hbc.1, hab.2.trans hbc.2⟩

theorem SameCaller.symm (ha : SameCaller a a) (h : SameCaller a b) :
    SameCaller b a := by
  obtain ⟨hclass, h⟩ := h
  obtain ⟨-, ha⟩ := ha
  refine ⟨hclass.symm, ?_⟩
  rw [hclass] at ha ⊢
  split
  · next hunsigned =>
    rw [if_pos hunsigned] at h ha
    exact ⟨h.1.symm, by rw [h.2]; exact ha.2⟩
  · next hsigned =>
    rw [if_neg hsigned] at h
    exact ⟨h.1.symm, h.2.symm⟩

theorem hexUnit_injective {m n : ℕ} (hm : m < 16) (hn : n < 16) (h : hexUnit m = hexUnit n) :
    m = n := by
  interval_cases m <;> interval_cases n <;> first | rfl | exact absurd h (by decide)

theorem hex_injective : Function.Injective hex := by
  intro a
  induction a with
  | nil =>
    intro b h
    cases b with
    | nil => rfl
    | cons c rest => simp [hex] at h
  | cons c rest ih =>
    intro b h
    cases b with
    | nil => simp [hex] at h
    | cons d others =>
      simp only [hex, flatMap_cons, cons_append, nil_append,
        List.cons.injEq] at h
      obtain ⟨hhigh, hlow, hrest⟩ := h
      have hc := c.toNat_lt
      have hd := d.toNat_lt
      have hquot := hexUnit_injective (by omega) (by omega) hhigh
      have hmod := hexUnit_injective (by omega) (by omega) hlow
      have hcd : c = d := UInt8.toNat_inj.mp (by omega)
      rw [hcd, ih hrest]

theorem stripSha256_prefixed (hash : JsString) : stripSha256 (sha256Prefix ++ hash) = hash := by
  have h : sha256Prefix.isPrefixOf (sha256Prefix ++ hash) = true :=
    List.isPrefixOf_iff_prefix.mpr (prefix_append _ _)
  rw [stripSha256, if_pos h, drop_left]

theorem carries_iff {peer : PeerAttestation} : carries peer entry = true ↔
    holds attestationClassKey entry (some peer.attestationClass.text) = true ∧
      if peer.attestationClass = .unsigned then
        holds expectedPathKey entry peer.executablePath = true ∧
          ∃ executableHash hash, peer.executableHash = some executableHash ∧
            property fallbackHashKey entry = .ok (.value (.str hash)) ∧
              stripSha256 hash = hex executableHash
      else holds issuerIdKey entry peer.issuerId = true ∧
        holds subjectIdKey entry peer.subjectId = true := by
  unfold carries
  rw [Bool.and_eq_true]
  split
  · cases peer.executableHash with
    | none => simp
    | some executableHash =>
      cases property fallbackHashKey entry with
      | error e => simp
      | ok p =>
        cases p with
        | undefined => simp
        | method => simp
        | value v => cases v <;> simp
  · rw [Bool.and_eq_true]

/-- A member holds one string or `null` at most. -/
theorem holds_unique {name : JsString} {a b : Option JsString}
    (ha : holds name entry a = true) (hb : holds name entry b = true) : a = b := by
  unfold holds at ha hb
  cases hp : property name entry with
  | error e => simp [hp] at ha
  | ok p =>
    simp only [hp] at ha hb
    cases p with
    | undefined => simp [strictEq] at ha
    | method => simp [strictEq] at ha
    | value v =>
      cases v with
      | null => cases a <;> cases b <;> simp_all [strictEq]
      | str s => cases a <;> cases b <;> simp_all [strictEq]
      | _ => simp [strictEq] at ha

theorem sameCaller_of_carries
    (ha : carries a entry = true) (hb : carries b entry = true) : SameCaller a b := by
  obtain ⟨hclassA, ha⟩ := carries_iff.mp ha
  obtain ⟨hclassB, hb⟩ := carries_iff.mp hb
  have hclass : a.attestationClass = b.attestationClass :=
    LinkAttestationClass.text_injective (Option.some.inj (holds_unique hclassA hclassB))
  refine ⟨hclass, ?_⟩
  rw [hclass] at ha
  split
  · next h =>
    rw [if_pos h] at ha hb
    obtain ⟨hpathA, hashA, textA, hhashA, hpropA, hstripA⟩ := ha
    obtain ⟨hpathB, hashB, textB, hhashB, hpropB, hstripB⟩ := hb
    refine ⟨holds_unique hpathA hpathB, ?_⟩
    cases hpropA.symm.trans hpropB
    rw [hhashA, hhashB, hex_injective (hstripA.symm.trans hstripB)]
    rfl
  · next h =>
    rw [if_neg h] at ha hb
    exact ⟨holds_unique ha.1 hb.1, holds_unique ha.2 hb.2⟩

theorem SameCaller.carries (h : SameCaller a b)
    (ha : carries a entry = true) : carries b entry = true := by
  obtain ⟨hclass, h⟩ := h
  rw [carries_iff, hclass] at ha
  refine carries_iff.mpr ⟨ha.1, ?_⟩
  obtain ⟨-, ha⟩ := ha
  split
  · next hunsigned =>
    rw [if_pos hunsigned] at h ha
    obtain ⟨hpath, executableHash, hash, hhash, hproperty, hstrip⟩ := ha
    rw [hhash] at h
    exact ⟨h.1 ▸ hpath, executableHash, hash, h.2, hproperty, hstrip⟩
  · next hsigned =>
    rw [if_neg hsigned] at h ha
    exact ⟨h.1 ▸ ha.1, h.2 ▸ ha.2⟩

/-! ## The identity, the policies and the expiry of a granted entry -/

section Granted

variable (stored : PeerAttestation) (scope : LinkGeoScope) (policy : LinkGeoPolicy)
  (existing : Option Json) (nowBd : ℚ) (generatedId : JsString) (ssh : Option JsString)

theorem property_attestationClass_granted : property attestationClassKey
    (LinkAcl.grantedEntry stored scope policy existing nowBd generatedId ssh) =
      .ok (.value (.str stored.attestationClass.text)) := by
  cases ssh <;> rfl

theorem property_fallbackHash_granted : property fallbackHashKey
    (LinkAcl.grantedEntry stored scope policy existing nowBd generatedId ssh) =
      .ok (.value (LinkAcl.ofOption (storedHash stored))) := by
  cases ssh <;> rfl

theorem property_id_granted : property idKey
    (LinkAcl.grantedEntry stored scope policy existing nowBd generatedId ssh) =
      .ok (.value (LinkAcl.existingOr existing idKey (.str generatedId))) := by
  cases ssh <;> rfl

theorem property_expiresAtBd_granted : property expiresAtBdKey
    (LinkAcl.grantedEntry stored scope policy existing nowBd generatedId ssh) =
      .ok (.value (LinkAcl.existingOr existing expiresAtBdKey .null)) := by
  cases ssh <;> rfl

theorem entryPolicy_granted (other : LinkGeoScope) : entryPolicy other
    (LinkAcl.grantedEntry stored scope policy existing nowBd generatedId ssh) =
      property other.text (.obj (setMember scope.text (.str policy.text)
        (spread (LinkAcl.existingOr existing scopesKey defaultPromptScopes)))) := by
  cases ssh <;> rfl

theorem holds_ofOption_iff {name : JsString} {entry : Json} {a b : Option JsString}
    (h : property name entry = .ok (.value (LinkAcl.ofOption a))) :
    holds name entry b = true ↔ a = b := by
  simp only [holds, h]
  cases a <;> cases b <;> simp [LinkAcl.ofOption, strictEq]

theorem carries_granted (peer : PeerAttestation) : carries peer
    (LinkAcl.grantedEntry stored scope policy existing nowBd generatedId ssh) = true ↔
      SameCaller stored peer := by
  set entry := LinkAcl.grantedEntry stored scope policy existing nowBd generatedId ssh with hentry
  have hclass : holds attestationClassKey entry (some peer.attestationClass.text) = true ↔
      stored.attestationClass = peer.attestationClass := by
    rw [holds_ofOption_iff (a := some _)
      (property_attestationClass_granted ..), Option.some.injEq,
      LinkAttestationClass.text_injective.eq_iff]
  have hpath : holds expectedPathKey entry peer.executablePath = true ↔
      stored.executablePath = peer.executablePath :=
    holds_ofOption_iff (by cases ssh <;> rfl)
  have hissuer : holds issuerIdKey entry peer.issuerId = true ↔
      stored.issuerId = peer.issuerId := holds_ofOption_iff (by cases ssh <;> rfl)
  have hsubject : holds subjectIdKey entry peer.subjectId = true ↔
      stored.subjectId = peer.subjectId := holds_ofOption_iff (by cases ssh <;> rfl)
  rw [carries_iff, hclass, hpath, hissuer, hsubject]
  refine and_congr_right fun hsame ↦ ?_
  split
  · next hunsigned =>
    refine and_congr_right fun _ ↦ ?_
    rw [property_fallbackHash_granted, storedHash, if_pos (hsame.trans hunsigned)]
    have hhex : (stored.executableHash.map hex).getD [] =
        hex (stored.executableHash.getD []) := by
      cases stored.executableHash <;> rfl
    rw [hhex]
    constructor
    · rintro ⟨executableHash, hash, hhash, hproperty, hstrip⟩
      cases hproperty
      rw [hhash, hex_injective hstrip]
    · intro hhash
      exact ⟨_, _, hhash, rfl, stripSha256_prefixed _⟩
  · rfl

theorem isContainer_granted : IsContainer
    (LinkAcl.grantedEntry stored scope policy existing nowBd generatedId ssh) :=
  (isContainer_iff _).mpr (.inl ⟨_, rfl⟩)

theorem hashReadable_granted : HashReadable
    (LinkAcl.grantedEntry stored scope policy existing nowBd generatedId ssh) := by
  intro _ _ _
  rw [property_fallbackHash_granted]
  cases storedHash stored with
  | none => exact .inl rfl
  | some hash => exact .inr ⟨hash, rfl⟩

end Granted

/-- `entry.scopes[scope] === policy`. -/
def hasPolicy (policy : LinkGeoPolicy) (scope : LinkGeoScope) (entry : Json) : Bool :=
  match entryPolicy scope entry with
  | .ok stored => strictEq stored (some policy.text)
  | .error _ => false

theorem strictEq_str_iff {p : Property} {s : JsString} :
    strictEq p (some s) = true ↔ p = .value (.str s) := by
  cases p with
  | undefined => simp [strictEq]
  | method => simp [strictEq]
  | value v => cases v <;> simp [strictEq]

theorem hasPolicy_iff {policy : LinkGeoPolicy} {scope : LinkGeoScope} :
    hasPolicy policy scope entry = true ↔
      entryPolicy scope entry = .ok (.value (.str policy.text)) := by
  unfold hasPolicy
  cases entryPolicy scope entry with
  | error e => simp
  | ok p => simp [strictEq_str_iff]

/-- A spread value has the strings of the value under the names of scopes. -/
theorem member_spread_scope (scope : LinkGeoScope) (policy : JsString) {v : Json}
    (hv : v ≠ .null) : member scope.text (spread v) = some (.str policy) ↔
      property scope.text v = .ok (.value (.str policy)) := by
  have hhead : scope.text.head? = some 0x67 := by cases scope <;> rfl
  have hentries : scope.text ≠ js "entries" := by cases scope <;> decide
  cases v with
  | null => exact absurd rfl hv
  | obj members =>
    cases hm : member scope.text members with
    | none => simp [spread, property, hm]
    | some w => simp [spread, property, hm]
  | arr elements =>
    rw [member_spread hhead rfl (by simp)]
    simp [property, hentries]
  | _ =>
    rw [member_spread hhead rfl (by simp)]
    simp [property]

/-- The policy that an entry captured before a prompt has for a scope, with `prompt` for none. -/
def policyBefore (policy : LinkGeoPolicy) (scope : LinkGeoScope) : Option Json → Bool
  | some entry => hasPolicy policy scope entry
  | none => false

/-- An answer changes the policy of its own scope only. -/
theorem hasPolicy_granted {existing : Option Json}
    (hexisting : ∀ e, existing = some e → ∃ members, e = .obj members) (stored : PeerAttestation)
    (scope : LinkGeoScope) (policy : LinkGeoPolicy) (nowBd : ℚ) (generatedId : JsString)
    (ssh : Option JsString) {wanted : LinkGeoPolicy} (hwanted : wanted ≠ .prompt)
    (other : LinkGeoScope) :
    hasPolicy wanted other
      (LinkAcl.grantedEntry stored scope policy existing nowBd generatedId ssh) =
        if other = scope then decide (policy = wanted) else policyBefore wanted other existing := by
  rw [Bool.eq_iff_iff, hasPolicy_iff, entryPolicy_granted]
  by_cases hscope : other = scope
  · subst hscope
    simp [property, LinkGeoPolicy.text_injective.eq_iff]
  · have hne : other.text ≠ scope.text := fun h ↦ hscope (LinkGeoScope.text_injective h)
    rw [if_neg hscope]
    have hdefault : member other.text (spread defaultPromptScopes) ≠
        some (.str wanted.text) := by
      have hprompt : member other.text (spread defaultPromptScopes) =
          some (.str LinkGeoPolicy.prompt.text) := by cases other <;> rfl
      rw [hprompt]
      intro h
      exact hwanted (LinkGeoPolicy.text_injective (Json.str.inj (Option.some.inj h))).symm
    have hread : property other.text (.obj (setMember scope.text (.str policy.text)
        (spread (LinkAcl.existingOr existing scopesKey defaultPromptScopes)))) =
          .ok (.value (.str wanted.text)) ↔ member other.text
            (spread (LinkAcl.existingOr existing scopesKey defaultPromptScopes)) =
              some (.str wanted.text) := by
      simp only [property, member_setMember_other hne]
      cases member other.text
        (spread _) <;> simp
    rw [hread]
    cases existing with
    | none => simpa [LinkAcl.existingOr, policyBefore] using hdefault
    | some e =>
      obtain ⟨members, rfl⟩ := hexisting e rfl
      rw [policyBefore, hasPolicy_iff, entryPolicy]
      cases hm : member scopesKey members with
      | none =>
        have hbase : LinkAcl.existingOr (some (.obj members)) scopesKey defaultPromptScopes =
            defaultPromptScopes := by simp [LinkAcl.existingOr, property, hm]
        rw [hbase]
        simpa [property, hm] using hdefault
      | some v =>
        by_cases hnull : v = .null
        · subst hnull
          have hbase : LinkAcl.existingOr (some (.obj members)) scopesKey defaultPromptScopes =
              defaultPromptScopes := by simp [LinkAcl.existingOr, property, hm]
          rw [hbase]
          simpa [property, hm] using hdefault
        · have hbase : LinkAcl.existingOr (some (.obj members)) scopesKey defaultPromptScopes =
              v := by
            cases v with
            | null => exact absurd rfl hnull
            | _ => simp [LinkAcl.existingOr, property, hm]
          rw [hbase, member_spread_scope other wanted.text hnull]
          simp only [property, hm]

/-- Whether the entry captured before a prompt has expired. -/
def expiredBefore (read : ℚ → Number) (time : ℚ) : Option Json → Js Bool
  | some entry => entryExpired read time entry
  | none => .ok false

/-- The expiry of a granted entry is that of the captured one. -/
theorem entryExpired_granted (read : ℚ → Number) (time : ℚ) {existing : Option Json}
    (hexisting : ∀ e, existing = some e → ∃ members, e = .obj members) (stored : PeerAttestation)
    (scope : LinkGeoScope) (policy : LinkGeoPolicy) (nowBd : ℚ) (generatedId : JsString)
    (ssh : Option JsString) :
    entryExpired read time
      (LinkAcl.grantedEntry stored scope policy existing nowBd generatedId ssh) =
        expiredBefore read time existing := by
  rw [entryExpired, property_expiresAtBd_granted]
  cases existing with
  | none => rfl
  | some e =>
    obtain ⟨members, rfl⟩ := hexisting e rfl
    cases hm : member expiresAtBdKey members with
    | none =>
      simp [LinkAcl.existingOr, expiredBefore, entryExpired, property, hm, isNull, strictEq,
        toNumber, greaterThan]
    | some v =>
      cases v <;> simp [LinkAcl.existingOr, expiredBefore, entryExpired, property, hm, isNull, strictEq]

end Bsh.Bridge
