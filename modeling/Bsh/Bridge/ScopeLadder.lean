import Bsh.Bridge.AclTable
import Bsh.Library.Run

/-!
# The scope ladder

A grant for a higher rung of the ladder implies grants for the lower rungs, but `lookup` reads the
policy of the requested scope alone.  The ladder therefore holds only as long as every stored entry
is closed downwards.  Removals, recorded uses and reversions keep entries closed; what an `upsert`,
an accepted file or a stored answer writes has to be closed by itself.  An answer writes a single
scope: an allowance closes the entry only over scopes that are allowed already, a denial only under
scopes that are not.
-/

namespace Bsh.Bridge

open Bsh.Library Bsh.BrightLink Utf Json

/-- `entry.scopes[scope] === 'always'`. -/
def grants (scope : LinkGeoScope) (entry : Json) : Bool := hasPolicy .always scope entry

/-- The entry is one for unsigned binaries. -/
def isUnsigned (entry : Json) : Bool :=
  holds attestationClassKey entry (some LinkAttestationClass.unsigned.text)

/-- The scope lies above the cap for unsigned binaries. -/
def aboveCap (scope : LinkGeoScope) : Bool :=
  linkGeoScopeRank linkGeoUnsignedMaxScope < linkGeoScopeRank scope

/-- Below a granted scope that the cap leaves within reach, every scope is granted. -/
def ClosedEntry (entry : Json) : Prop :=
  ∀ low high, linkGeoScopeRank low ≤ linkGeoScopeRank high →
    (isUnsigned entry && aboveCap high) = false → grants high entry = true →
      grants low entry = true

/-- Every entry of the document is closed. -/
def ClosedDocument (doc : Json) : Prop :=
  ∀ entries, documentEntries doc = .ok entries → ∀ e ∈ entries, ClosedEntry e

/-- An allowed scope entails the scopes below it, for every peer and time. -/
def Ladder (read : ℚ → Number) (acl : LinkAcl) : Prop :=
  ∀ attestation nowBd low high entry, linkGeoScopeRank low ≤ linkGeoScopeRank high →
    acl.lookup read attestation high nowBd = .ok (.allow entry) →
      acl.lookup read attestation low nowBd = .ok (.allow entry)

/-! ## Closed documents and look-ups -/

variable {attestation : PeerAttestation} {entry : Json}

theorem mem_of_findEntry {entries : List Json}
    (h : findEntry attestation entries = .ok (some entry)) :
    entry ∈ entries ∧ entryMatches attestation entry = .ok true := by
  induction entries with
  | nil => simp [findEntry] at h
  | cons first rest ih =>
    rw [findEntry] at h
    cases hm : entryMatches attestation first with
    | error e => simp [hm] at h
    | ok b =>
      cases b with
      | true =>
        rw [hm] at h
        cases h
        exact ⟨by simp, hm⟩
      | false =>
        rw [hm] at h
        obtain ⟨hmem, hmatch⟩ := ih h
        exact ⟨List.mem_cons_of_mem first hmem, hmatch⟩

/-- An entry is returned only to peers of its attestation class. -/
theorem class_of_entryMatches
    (h : entryMatches attestation entry = .ok true) :
    holds attestationClassKey entry (some attestation.attestationClass.text) = true := by
  unfold entryMatches at h
  cases hc : property attestationClassKey entry with
  | error e => simp [hc] at h
  | ok c =>
    simp only [hc] at h
    simp only [holds, hc]
    cases hs : strictEq c (some _) with
    | true => rfl
    | false => simp [hs] at h

theorem isUnsigned_of_class
    (h : holds attestationClassKey entry (some attestation.attestationClass.text) = true) :
    isUnsigned entry = decide (attestation.attestationClass = .unsigned) := by
  unfold isUnsigned
  by_cases hclass : attestation.attestationClass = .unsigned
  · rw [← hclass, h]
    simp [hclass]
  · rw [decide_eq_false hclass]
    unfold holds at h ⊢
    cases hp : property attestationClassKey entry with
    | error e => rfl
    | ok p =>
      simp only [hp] at h ⊢
      cases p with
      | undefined => rfl
      | method => rfl
      | value v =>
        cases v with
        | str s =>
          simp only [strictEq, decide_eq_true_eq] at h
          simp only [strictEq, decide_eq_false_iff_not, h]
          exact fun heq ↦ hclass (LinkAttestationClass.text_injective heq)
        | _ => rfl

theorem lookup_allow_iff {read : ℚ → Number} {acl : LinkAcl}
    {scope : LinkGeoScope} {nowBd : ℚ} :
    acl.lookup read attestation scope nowBd = .ok (.allow entry) ↔
      attestation.capped scope = false ∧ acl.findMatchingEntry attestation = .ok (some entry) ∧
        entryExpired read nowBd entry = .ok false ∧ grants scope entry = true := by
  unfold LinkAcl.lookup grants hasPolicy
  cases attestation.capped scope with
  | true => simp
  | false =>
    cases acl.findMatchingEntry attestation with
    | error e => simp
    | ok found =>
      cases found with
      | none => simp
      | some e =>
        cases hexpired : entryExpired read nowBd e with
        | error err =>
          simp only [hexpired, Bool.false_eq_true, if_false, reduceCtorEq, Except.ok.injEq,
            Option.some.injEq, true_and, false_iff, not_and]
          rintro rfl
          simp [hexpired]
        | ok expired =>
          cases expired with
          | true =>
            simp only [hexpired, Bool.false_eq_true, if_false, reduceCtorEq, Except.ok.injEq,
              Option.some.injEq, true_and, false_iff, not_and]
            rintro rfl
            simp [hexpired]
          | false =>
            cases hpolicy : entryPolicy scope e with
            | error err =>
              simp only [hexpired, hpolicy, Bool.false_eq_true, if_false, reduceCtorEq,
                Except.ok.injEq, Option.some.injEq, true_and, false_iff, not_and]
              rintro rfl
              simp [hpolicy]
            | ok p =>
              by_cases halways : strictEq p (some LinkGeoPolicy.always.text) = true
              · simp only [hexpired, hpolicy, halways, Bool.false_eq_true, if_false, if_true,
                  Except.ok.injEq, AclLookupResult.allow.injEq, Option.some.injEq, true_and]
                constructor
                · rintro rfl
                  exact ⟨rfl, hexpired, by rw [hpolicy]; exact halways⟩
                · exact And.left
              · simp only [hexpired, hpolicy, halways, Bool.false_eq_true, if_false,
                  Except.ok.injEq, Option.some.injEq, true_and]
                constructor
                · intro h
                  split at h <;> simp at h
                · rintro ⟨rfl, -, h⟩
                  rw [hpolicy] at h
                  exact absurd h halways

theorem ladder_of_closed {read : ℚ → Number} {acl : LinkAcl} (h : ClosedDocument acl.doc) :
    Ladder read acl := by
  intro attestation nowBd low high entry hrank hallow
  obtain ⟨hcap, hfind, hexpired, hgrants⟩ := lookup_allow_iff.mp hallow
  refine lookup_allow_iff.mpr
    ⟨PeerAttestation.capped_mono hrank hcap, hfind, hexpired, ?_⟩
  unfold LinkAcl.findMatchingEntry at hfind
  cases hentries : documentEntries acl.doc with
  | error e => simp [hentries] at hfind
  | ok entries =>
    rw [hentries] at hfind
    obtain ⟨hmem, hmatch⟩ := mem_of_findEntry hfind
    refine h entries hentries entry hmem low high hrank ?_ hgrants
    rw [isUnsigned_of_class (class_of_entryMatches hmatch)]
    exact hcap

/-! ## What the mutations leave of a document -/

section Mutations

variable {p256Verify : Bytes → Bytes → Bytes → Bool} {identity : BridgeIdentity p256Verify}
  {acl : LinkAcl}

/-- A property of entries that holds of all old ones and of the entry written holds of all. -/
theorem forall_entries_withEntries {P : Json → Prop} {doc : Json} {entries entries' : List Json}
    (harray : entryArray doc = .ok entries)
    (hold : ∀ l, documentEntries doc = .ok l → ∀ e ∈ l, P e)
    (hnew : ∀ e ∈ entries', e ∈ entries ∨ P e) :
    ∀ l, documentEntries (withEntries doc entries') = .ok l → ∀ e ∈ l, P e := by
  obtain ⟨hbefore, hafter⟩ := documentEntries_withEntries harray entries'
  intro l hl e he
  cases hafter.symm.trans hl
  rcases hnew e he with h | h
  · exact hold entries hbefore e h
  · exact h

theorem upsert_entries (identity : BridgeIdentity p256Verify) {P : Json → Prop} {entry : Json}
    (hold : ∀ l, documentEntries acl.doc = .ok l → ∀ e ∈ l, P e) (hentry : P entry) :
    ∀ l, documentEntries (acl.upsert identity entry).1.doc = .ok l → ∀ e ∈ l, P e := by
  unfold LinkAcl.upsert
  cases harray : entryArray acl.doc with
  | error e => exact hold
  | ok entries =>
    cases property idKey entry with
    | error e => exact hold
    | ok id =>
      simp only
      cases findIndexById id entries with
      | error e => exact hold
      | ok found =>
        cases found with
        | none =>
          simp only [resign_doc]
          refine forall_entries_withEntries harray hold fun e he ↦ ?_
          rcases List.mem_append.mp he with h | h
          · exact .inl h
          · exact .inr (List.mem_singleton.mp h ▸ hentry)
        | some index =>
          simp only [resign_doc]
          refine forall_entries_withEntries harray hold fun e he ↦ ?_
          rcases List.mem_or_eq_of_mem_set he with h | rfl
          · exact .inl h
          · exact .inr hentry

theorem mem_of_dropById {id : Property} {entries kept : List Json}
    (h : dropById id entries = .ok kept) : ∀ e ∈ kept, e ∈ entries := by
  induction entries generalizing kept with
  | nil =>
    cases h
    simp
  | cons first rest ih =>
    rw [dropById] at h
    cases hid : hasId id first with
    | error e => simp [hid] at h
    | ok b =>
      cases hrest : dropById id rest with
      | error e => cases b <;> simp [hid, hrest] at h
      | ok others =>
        intro e he
        cases b with
        | true =>
          simp only [hid, hrest, Except.ok.injEq] at h
          exact List.mem_cons_of_mem first (ih hrest e (h ▸ he))
        | false =>
          simp only [hid, hrest, Except.ok.injEq] at h
          rcases List.mem_cons.mp (h ▸ he) with rfl | he'
          · simp
          · exact List.mem_cons_of_mem first (ih hrest e he')

theorem remove_entries {P : Json → Prop} {id : JsString}
    (hold : ∀ l, documentEntries acl.doc = .ok l → ∀ e ∈ l, P e) :
    ∀ l, documentEntries (acl.remove identity id).1.doc = .ok l → ∀ e ∈ l, P e := by
  unfold LinkAcl.remove
  cases harray : entryArray acl.doc with
  | error e => exact hold
  | ok entries =>
    simp only
    cases hdrop : dropById (.value (.str id)) entries with
    | error e => exact hold
    | ok kept =>
      simp only [resign_doc]
      exact forall_entries_withEntries harray hold fun e he ↦ .inl (mem_of_dropById hdrop e he)

theorem recordUse_entries {P : Json → Prop} {id : Property} {nowBd : ℚ}
    (hold : ∀ l, documentEntries acl.doc = .ok l → ∀ e ∈ l, P e)
    (hupdate : ∀ members, P (.obj members) →
      P (.obj (setMember lastUsedBdKey (.num (.finite nowBd)) members))) :
    ∀ l, documentEntries (acl.recordUse identity id nowBd).1.doc = .ok l → ∀ e ∈ l, P e := by
  unfold LinkAcl.recordUse
  cases harray : entryArray acl.doc with
  | error e => exact hold
  | ok entries =>
    obtain ⟨hbefore, -⟩ := documentEntries_withEntries harray []
    simp only
    cases findIndexById id entries with
    | error e => exact hold
    | ok found =>
      cases found with
      | none => exact hold
      | some index =>
        simp only
        cases hentry : entries[index]? with
        | none => exact hold
        | some entry =>
          have hP := hold entries hbefore entry (List.mem_of_getElem? hentry)
          cases entry with
          | obj members =>
            simp only [resign_doc]
            refine forall_entries_withEntries harray hold fun e he ↦ ?_
            rcases List.mem_or_eq_of_mem_set he with h | rfl
            · exact .inl h
            · exact .inr (hupdate members hP)
          | arr elements =>
            simp only [resign_doc]
            exact hold
          | _ => exact hold

/-- After a load the entries are those of the accepted file, or reverted ones, or the old ones. -/
theorem load_entries {P : Json → Prop} {read : ℚ → Number} {bytes signature : Bytes}
    (hold : ∀ l, documentEntries acl.doc = .ok l → ∀ e ∈ l, P e)
    (hreverted : ∀ e, IsContainer e → P (reverted e))
    (haccepted : SignatureOk identity bytes signature → KeyIdOk read identity bytes →
      ∀ parsed, parse read (utf8Decode bytes) = some parsed →
        ∀ l, documentEntries parsed = .ok l → ∀ e ∈ l, P e) :
    ∀ l, documentEntries (acl.loadFromBytes read identity bytes signature).1.doc = .ok l →
      ∀ e ∈ l, P e := by
  have hempty : ∀ l, documentEntries (emptyAcl identity.keyId) = .ok l → ∀ e ∈ l, P e := by
    intro l hl
    cases (documentEntries_emptyAcl identity.keyId).symm.trans hl
    simp
  unfold LinkAcl.loadFromBytes
  cases hparse : parse read (utf8Decode bytes) with
  | none => simpa only [replaceBy_doc] using hempty
  | some parsed =>
    simp only
    cases hkey : property bridgeKeyIdKey parsed with
    | error e => exact hold
    | ok bridgeKeyId =>
      simp only
      split
      · next h =>
        rw [Bool.and_eq_true] at h
        exact haccepted h.1 ⟨parsed, hparse, by simp [holds, hkey, h.2]⟩ parsed hparse
      · cases hdoc : tamperedDocument identity.keyId parsed with
        | error e => exact hold
        | ok doc =>
          simp only [replaceBy_doc]
          intro l hl
          rcases tamperedDocument_cases hdoc with ⟨-, rfl⟩ | ⟨e, herror⟩ |
            ⟨members, -, hmember, rfl⟩ | ⟨members, entries, -, -, hcontainer, rfl⟩
          · exact hempty l hl
          · cases herror.symm.trans hl
          · rw [documentEntries_pinned] at hl
            simp only [documentEntries, property, hmember, iterate, codePoints, List.map_nil,
              Except.ok.injEq] at hl
            simp [← hl]
          · cases (documentEntries_pinned_array identity.keyId members _).symm.trans hl
            intro e he
            obtain ⟨entry, hentry, rfl⟩ := List.mem_map.mp he
            exact hreverted entry (hcontainer entry hentry)

end Mutations

/-! ## Closed entries -/

theorem linkGeoScopeRank_injective : Function.Injective linkGeoScopeRank := by
  intro a b h
  cases a <;> cases b <;> first | rfl | exact absurd h (by decide)

theorem grants_reverted (h : IsContainer entry) (scope : LinkGeoScope) :
    grants scope (reverted entry) = false := by
  rcases (isContainer_iff entry).mp h with ⟨members, rfl⟩ | ⟨elements, rfl⟩
  · rw [grants, hasPolicy, entryPolicy_reverted]
    decide
  · rfl

theorem closedEntry_reverted (h : IsContainer entry) :
    ClosedEntry (reverted entry) := by
  intro low high _ _ hgrants
  rw [grants_reverted h] at hgrants
  exact absurd hgrants Bool.false_ne_true

/-- Only the members `scopes` and `attestationClass` matter. -/
theorem closedEntry_setMember {key : JsString} (hscopes : scopesKey ≠ key)
    (hclass : attestationClassKey ≠ key) (value : Json) {members : Members}
    (h : ClosedEntry (.obj members)) : ClosedEntry (.obj (setMember key value members)) := by
  have hgrants : ∀ scope, grants scope (.obj (setMember key value members)) =
      grants scope (.obj members) := by
    intro scope
    simp only [grants, hasPolicy, entryPolicy, property, member_setMember_other hscopes]
  have hunsigned : isUnsigned (.obj (setMember key value members)) =
      isUnsigned (.obj members) := by
    simp only [isUnsigned, holds, property, member_setMember_other hclass]
  intro low high hrank hcap hhigh
  rw [hgrants] at hhigh ⊢
  rw [hunsigned] at hcap
  exact h low high hrank hcap hhigh

/-- The captured entry allows a scope. -/
def OpenPrompt.grantedBefore (prompt : OpenPrompt) (scope : LinkGeoScope) : Bool :=
  policyBefore .always scope prompt.existing

theorem grants_grantedEntry (prompt : OpenPrompt)
    (hexisting : ∀ e, prompt.existing = some e → ∃ members, e = .obj members)
    (policy : LinkGeoPolicy) (nowBd : ℚ) (generatedId : JsString) (ssh : Option JsString)
    (scope : LinkGeoScope) :
    grants scope (LinkAcl.grantedEntry prompt.attestation prompt.scope policy prompt.existing nowBd
      generatedId ssh) =
      if scope = prompt.scope then decide (policy = .always) else prompt.grantedBefore scope :=
  hasPolicy_granted hexisting _ _ _ _ _ _ (by decide) scope

/-- An allowance that closes the captured entry: every lower scope is allowed already.  A denial:
no higher scope within reach is allowed. -/
def OpenPrompt.KeepsClosed (prompt : OpenPrompt) : LinkGeoPolicy → Prop
  | .always => ∀ low, linkGeoScopeRank low < linkGeoScopeRank prompt.scope →
    prompt.grantedBefore low = true
  | .prompt => True
  | .deny => ∀ high, linkGeoScopeRank prompt.scope < linkGeoScopeRank high →
    prompt.attestation.capped high = false → prompt.grantedBefore high = false

/-- What is known of the entry a prompt has captured. -/
structure OpenPrompt.Sound (prompt : OpenPrompt) : Prop where
  reachable : prompt.attestation.capped prompt.scope = false
  object : ∀ e, prompt.existing = some e → ∃ members, e = .obj members
  closed : ∀ low high, linkGeoScopeRank low ≤ linkGeoScopeRank high →
    prompt.attestation.capped high = false → prompt.grantedBefore high = true →
      prompt.grantedBefore low = true

theorem isUnsigned_grantedEntry (attestation : PeerAttestation) (scope : LinkGeoScope)
    (policy : LinkGeoPolicy) (existing : Option Json) (nowBd : ℚ) (generatedId : JsString)
    (ssh : Option JsString) :
    isUnsigned (LinkAcl.grantedEntry attestation scope policy existing nowBd generatedId ssh) =
      decide (attestation.attestationClass = .unsigned) := by
  refine isUnsigned_of_class ?_
  have hproperty : property attestationClassKey (LinkAcl.grantedEntry attestation scope policy
      existing nowBd generatedId ssh) = .ok (.value (.str attestation.attestationClass.text)) := by
    cases ssh <;> rfl
  simp [holds, hproperty, strictEq]

/-- The entry an allowance writes is closed exactly if all lower scopes were allowed. -/
theorem closedEntry_always_iff {prompt : OpenPrompt} (h : prompt.Sound) (nowBd : ℚ)
    (generatedId : JsString) (ssh : Option JsString) :
    ClosedEntry (LinkAcl.grantedEntry prompt.attestation prompt.scope .always prompt.existing nowBd
      generatedId ssh) ↔ prompt.KeepsClosed .always := by
  unfold ClosedEntry
  simp only [isUnsigned_grantedEntry, grants_grantedEntry prompt h.object, decide_true]
  constructor
  · intro hclosed low hlow
    have hlow' := hclosed low prompt.scope hlow.le h.reachable (if_pos rfl)
    rwa [if_neg fun heq ↦ absurd (heq ▸ hlow) (lt_irrefl _)] at hlow'
  · intro hkeeps low high hrank hcap hhigh
    by_cases hscope : low = prompt.scope
    · rw [if_pos hscope]
    · rw [if_neg hscope]
      rcases lt_or_ge (linkGeoScopeRank low) _ with hlt | hge
      · exact hkeeps low hlt
      · have hgt : linkGeoScopeRank prompt.scope < linkGeoScopeRank low :=
          lt_of_le_of_ne hge fun heq ↦ hscope (linkGeoScopeRank_injective heq.symm)
        have hhigh' : high ≠ prompt.scope := by
          rintro rfl
          exact absurd hrank (not_le.mpr hgt)
        rw [if_neg hhigh'] at hhigh
        exact h.closed low high hrank hcap hhigh

/-- The entry a denial writes is closed exactly if no higher scope was allowed. -/
theorem closedEntry_deny_iff {prompt : OpenPrompt} (h : prompt.Sound) (nowBd : ℚ)
    (generatedId : JsString) (ssh : Option JsString) :
    ClosedEntry (LinkAcl.grantedEntry prompt.attestation prompt.scope .deny prompt.existing nowBd
      generatedId ssh) ↔ prompt.KeepsClosed .deny := by
  have hdeny : decide (LinkGeoPolicy.deny = .always) = false := rfl
  unfold ClosedEntry
  simp only [isUnsigned_grantedEntry, grants_grantedEntry prompt h.object, hdeny]
  constructor
  · intro hclosed high hhigh hcap
    rw [Bool.eq_false_iff]
    intro hgranted
    have hne : high ≠ prompt.scope := by
      rintro rfl
      exact absurd hhigh (lt_irrefl _)
    have hlow := hclosed prompt.scope high hhigh.le hcap (by rw [if_neg hne, hgranted])
    rw [if_pos rfl] at hlow
    exact absurd hlow Bool.false_ne_true
  · intro hkeeps low high hrank hcap hhigh
    by_cases hhighScope : high = prompt.scope
    · rw [if_pos hhighScope] at hhigh
      exact absurd hhigh Bool.false_ne_true
    · rw [if_neg hhighScope] at hhigh
      have hbelow : linkGeoScopeRank high < linkGeoScopeRank prompt.scope := by
        rcases lt_trichotomy (linkGeoScopeRank high) _ with
          hlt | heq | hgt
        · exact hlt
        · exact absurd (linkGeoScopeRank_injective heq) hhighScope
        · rw [hkeeps high hgt hcap] at hhigh
          exact absurd hhigh Bool.false_ne_true
      have hne : low ≠ prompt.scope := by
        rintro rfl
        exact absurd (hrank.trans_lt hbelow) (lt_irrefl _)
      rw [if_neg hne]
      exact h.closed low high hrank hcap hhigh

/-! ## Runs -/

section Runs

variable {p256Verify : Bytes → Bytes → Bytes → Bool} (read : ℚ → Number)
  (identity : BridgeIdentity p256Verify)

/-- Whatever the event writes is closed. -/
def KeepsLadder (state : PromptState) : AclEvent → Prop
  | .upsert entry => ClosedEntry entry
  | .remove _ => True
  | .load bytes signature => SignatureOk identity bytes signature → KeyIdOk read identity bytes →
    ∀ parsed, parse read (utf8Decode bytes) = some parsed → ClosedDocument parsed
  | .request _ _ _ => True
  | .answer index outcome _ _ => ∀ prompt, state.prompts[index]? = some prompt →
    match outcome with
    | .allowAlways => prompt.KeepsClosed .always
    | .allowSession _ => prompt.KeepsClosed .always
    | .denyAlways => prompt.KeepsClosed .deny
    | _ => True

/-- The document is closed, and so is every entry that an open prompt has captured. -/
structure LadderInv (state : PromptState) : Prop where
  document : ClosedDocument state.acl.doc
  prompts : ∀ prompt ∈ state.prompts, prompt.Sound

variable {read identity}

theorem sound_of_lookup {acl : LinkAcl} (hclosed : ClosedDocument acl.doc)
    {attestation : PeerAttestation} {scope : LinkGeoScope} {nowBd : ℚ} {existing : Option Json}
    (h : acl.lookup read attestation scope nowBd = .ok (.prompt existing)) :
    OpenPrompt.Sound ⟨attestation, scope, existing⟩ := by
  obtain ⟨hcap, hfind⟩ := lookup_prompt h
  have hentry : ∀ e, existing = some e → ClosedEntry e ∧ entryMatches attestation e = .ok true := by
    intro e he
    have hfound := hfind e he
    unfold LinkAcl.findMatchingEntry at hfound
    cases hentries : documentEntries acl.doc with
    | error err => simp [hentries] at hfound
    | ok entries =>
      rw [hentries] at hfound
      obtain ⟨hmem, hmatch⟩ := mem_of_findEntry hfound
      exact ⟨hclosed entries hentries e hmem, hmatch⟩
  refine ⟨hcap, ?_, ?_⟩
  · intro e he
    have hclass := class_of_entryMatches (hentry e he).2
    cases e with
    | obj members => exact ⟨members, rfl⟩
    | arr elements => simp [holds, property, strictEq, attestationClassKey, js] at hclass
    | _ => simp [holds, property, strictEq] at hclass
  · intro low high hrank hcap hhigh
    unfold OpenPrompt.grantedBefore at hhigh ⊢
    cases he : existing with
    | none => simp [he, policyBefore] at hhigh
    | some e =>
      rw [he] at hhigh
      obtain ⟨hclosedEntry, hmatch⟩ := hentry e he
      refine hclosedEntry low high hrank ?_ hhigh
      rw [isUnsigned_of_class (class_of_entryMatches hmatch)]
      exact hcap

theorem writePolicy_closed {acl : LinkAcl} (hclosed : ClosedDocument acl.doc)
    {prompt : OpenPrompt} {policy : LinkGeoPolicy} {recordAccess : Bool} {nowBd : ℚ}
    {generatedId : JsString} {ssh : Option JsString}
    (hentry : ClosedEntry (LinkAcl.grantedEntry prompt.attestation prompt.scope policy
      prompt.existing nowBd generatedId ssh)) :
    ClosedDocument (writePolicy identity acl prompt policy recordAccess nowBd generatedId
      ssh).doc := by
  have hupsert := upsert_entries identity hclosed hentry
  unfold writePolicy
  simp only
  split
  · next acl' id heq hid =>
    rw [heq] at hupsert
    split
    · exact recordUse_entries hupsert fun members h ↦
        closedEntry_setMember (by decide) (by decide) _ h
    · exact hupsert
  · next acl' result id heq hne =>
    rw [heq] at hupsert
    exact hupsert

theorem ladderInv_step {state : PromptState} {event : AclEvent} (h : LadderInv state)
    (hkeeps : KeepsLadder read identity state event) :
    LadderInv (aclStep read identity state event) := by
  cases event with
  | upsert entry => exact ⟨upsert_entries identity h.document hkeeps, h.prompts⟩
  | remove id => exact ⟨remove_entries h.document, h.prompts⟩
  | load bytes signature =>
    refine ⟨load_entries h.document (fun e he ↦ closedEntry_reverted he) ?_, h.prompts⟩
    intro hsig hkey parsed hparsed
    exact hkeeps hsig hkey parsed hparsed
  | request attestation scope nowBd =>
    unfold aclStep requestScope
    simp only
    split
    · next entry hlookup =>
      split
      · exact ⟨recordUse_entries h.document fun members hm ↦
          closedEntry_setMember (by decide) (by decide) _ hm, h.prompts⟩
      · exact h
    · next existing hlookup =>
      refine ⟨h.document, fun prompt hprompt ↦ ?_⟩
      rcases List.mem_append.mp hprompt with hold | hnew
      · exact h.prompts prompt hold
      · rw [List.mem_singleton.mp hnew]
        exact sound_of_lookup h.document hlookup
    · exact h
  | answer index outcome nowBd generatedId =>
    unfold aclStep
    simp only
    cases hprompt : state.prompts[index]? with
    | none => exact h
    | some prompt =>
      have hsound := h.prompts prompt (List.mem_of_getElem? hprompt)
      have hwrites := hkeeps prompt hprompt
      refine ⟨?_, fun other hother ↦ h.prompts other (List.mem_of_mem_eraseIdx hother)⟩
      cases outcome with
      | allowAlways =>
        exact writePolicy_closed h.document ((closedEntry_always_iff hsound _ _ _).mpr hwrites)
      | allowSession sshSessionId =>
        exact writePolicy_closed h.document ((closedEntry_always_iff hsound _ _ _).mpr hwrites)
      | denyAlways =>
        exact writePolicy_closed h.document ((closedEntry_deny_iff hsound _ _ _).mpr hwrites)
      | allowOnce => exact h.document
      | deny => exact h.document
      | timeout => exact h.document

end Runs

/-! ## A grant that skips a rung -/

/-- One request and its answer. -/
def grantRun (scope : LinkGeoScope) : List AclEvent :=
  [.request builtinPeer scope 1, .answer 0 .allowAlways 1 (js "entry-1")]

end Bsh.Bridge
