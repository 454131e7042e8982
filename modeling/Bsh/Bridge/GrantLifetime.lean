import Bsh.Bridge.AclTable
import Bsh.Library.Run

/-!
# How long a stored answer lasts

`allow_always` and `deny_always` store an answer for one caller and one scope.  Every later look-up
of the pair should decide as answered, until the pair is answered or edited again.  The code stores
the answer in the entry that was captured when the prompt was raised, under that entry's id.  While
the prompt was open the caller's entry may have been created, changed or replaced: then the write
loses other answers, or adds a second entry behind the first, which no look-up sees.  Answers last
as long as every write finds the caller's entry as it was captured.
-/

namespace Bsh.Bridge

open Bsh.Library Bsh.BrightLink Utf Json List

/-! ## The property -/

/-- The policy that an outcome stores for good. -/
def lastingPolicy : PromptOutcome → Option LinkGeoPolicy
  | .allowAlways => some .always
  | .denyAlways => some .deny
  | _ => none

/-- The event answers or edits the pair of a caller and a scope. -/
def Concerns (stored : PeerAttestation) (scope : LinkGeoScope) (state : PromptState) :
    AclEvent → Prop
  | .upsert entry => carries stored entry = true ∨
    ∃ entries id, entryArray state.acl.doc = .ok entries ∧ property idKey entry = .ok id ∧
      ∃ e ∈ entries, bears id e = true ∧ carries stored e = true
  | .remove id => ∃ entries, entryArray state.acl.doc = .ok entries ∧
      ∃ e ∈ entries, bears (.value (.str id)) e = true ∧ carries stored e = true
  | .load _ _ => True
  | .request _ _ _ => False
  | .answer index _ _ _ => ∃ prompt, state.prompts[index]? = some prompt ∧
      SameCaller stored prompt.attestation ∧ prompt.scope = scope

variable {p256Verify : Bytes → Bytes → Bytes → Bool}

/-- After a lasting answer, and until its pair is answered or edited again, the caller's look-ups
decide as answered, as long as the expiry that the written entry took over has not passed. -/
def AnswersLast (read : ℚ → Number) (identity : BridgeIdentity p256Verify) (start : PromptState)
    (events : List AclEvent) : Prop :=
  ∀ before index outcome nowBd generatedId after prompt policy,
    events = before ++ .answer index outcome nowBd generatedId :: after →
    (run (aclStep read identity) start before).prompts[index]? = some prompt →
    lastingPolicy outcome = some policy →
    Meets (aclStep read identity)
      (fun state event ↦ ¬ Concerns prompt.attestation prompt.scope state event)
      (run (aclStep read identity) start (before ++ [.answer index outcome nowBd generatedId]))
      after →
    ∀ peer time, SameCaller prompt.attestation peer →
      expiredBefore read time prompt.existing = .ok false →
      ∃ entry, (run (aclStep read identity) start events).acl.lookup read peer prompt.scope time =
        .ok (decision policy entry)

/-- The entry names the caller and has not expired. -/
def isLive (read : ℚ → Number) (peer : PeerAttestation) (time : ℚ) (entry : Json) : Bool :=
  carries peer entry && match entryExpired read time entry with
    | .ok expired => !expired
    | .error _ => false

/-- The document holds at most one live entry of every caller. -/
def OneLiveEntry (read : ℚ → Number) (acl : LinkAcl) : Prop :=
  ∀ entries, documentEntries acl.doc = .ok entries → ∀ peer time,
    (entries.filter (isLive read peer time)).length ≤ 1

/-! ## The condition -/

/-- A document with well-formed entries of distinct callers. -/
structure OrderlyEntries (entries : List Json) : Prop where
  container : ∀ e ∈ entries, IsContainer e
  hash : ∀ e ∈ entries, HashReadable e
  exclusive : Exclusive carries entries

def OrderlyDocument (doc : Json) : Prop :=
  ∃ entries, entryArray doc = .ok entries ∧ OrderlyEntries entries

/-- When the answer is written, the caller has an identity to store, the written id is that of the
caller's entry and of no other, and the caller's entry, if there is one, is as it was captured. -/
structure UpToDate (acl : LinkAcl) (prompt : OpenPrompt) (generatedId : JsString) : Prop where
  presentable : SameCaller prompt.attestation prompt.attestation
  ids : ∀ entries, entryArray acl.doc = .ok entries → ∀ e ∈ entries,
    bears (writtenId prompt generatedId) e = carries prompt.attestation e
  captured : ∀ entries, entryArray acl.doc = .ok entries → ∀ e ∈ entries,
    carries prompt.attestation e = true →
      ∃ existing, prompt.existing = some existing ∧ SameGrant existing e

/-- Edits keep the callers of the entries distinct, and answers are written up to date. -/
def KeepsGrants (read : ℚ → Number) (state : PromptState) : AclEvent → Prop
  | .upsert entry => IsContainer entry ∧ HashReadable entry ∧
    ∀ entries id, entryArray state.acl.doc = .ok entries → property idKey entry = .ok id →
      ∀ j e, entries[j]? = some e → entries.findIdx? (bears id) ≠ some j →
        ∀ peer, carries peer entry = true → carries peer e = false
  | .remove _ => True
  | .load bytes _ => ∀ parsed, parse read (utf8Decode bytes) = some parsed → OrderlyDocument parsed
  | .request _ _ _ => True
  | .answer index outcome _ generatedId => ∀ prompt, state.prompts[index]? = some prompt →
    writtenPolicy outcome ≠ none → UpToDate state.acl prompt generatedId

/-! ## Orderly documents -/

section Orderly

variable {read : ℚ → Number} {identity : BridgeIdentity p256Verify} {acl : LinkAcl}
  {entries : List Json}

theorem OrderlyEntries.placed {entries : List Json} (h : OrderlyEntries entries) {entry : Json}
    (hcontainer : IsContainer entry) (hhash : HashReadable entry) {found : Option ℕ}
    (hfound : ∀ i, found = some i → i < entries.length)
    (hnew : ∀ (j : ℕ) e, entries[j]? = some e → found ≠ some j → ∀ peer,
      carries peer entry = true → carries peer e = false) :
    OrderlyEntries (place found entries entry) := by
  cases found with
  | none =>
    have hmem {P : Json → Prop} (hold : ∀ e ∈ entries, P e) (hentry : P entry) :
        ∀ e ∈ entries ++ [entry], P e := by
      intro e he
      rcases List.mem_append.mp he with he | he
      · exact hold e he
      · exact List.mem_singleton.mp he ▸ hentry
    refine ⟨hmem h.container hcontainer, hmem h.hash hhash, h.exclusive.append ?_⟩
    intro e he peer hpeer
    obtain ⟨j, hj⟩ := List.mem_iff_getElem?.mp he
    cases hfit : carries peer entry with
    | false => rfl
    | true =>
      rw [hnew j e hj (by simp) peer hfit] at hpeer
      exact absurd hpeer Bool.false_ne_true
  | some i =>
    have hmem {P : Json → Prop} (hold : ∀ e ∈ entries, P e) (hentry : P entry) :
        ∀ e ∈ entries.set i entry, P e := by
      intro e he
      rcases mem_or_eq_of_mem_set he with he | rfl
      · exact hold e he
      · exact hentry
    refine ⟨hmem h.container hcontainer, hmem h.hash hhash, h.exclusive.set ?_⟩
    intro j e hj hne peer hpeer
    exact hnew j e hj (by simpa using hne) peer hpeer

theorem OrderlyEntries.touched (h : OrderlyEntries entries) (index : ℕ) (nowBd : ℚ) :
    OrderlyEntries (entries.modify index (touch nowBd)) := by
  have hmem {P : Json → Prop} (hold : ∀ e ∈ entries, P e) (htouch : ∀ e, P e → P (touch nowBd e)) :
      ∀ e ∈ entries.modify index (touch nowBd), P e := by
    intro e he
    obtain ⟨j, hj⟩ := List.mem_iff_getElem?.mp he
    rw [List.getElem?_modify] at hj
    obtain ⟨e', he', rfl⟩ := Option.map_eq_some_iff.mp hj
    have hP := hold e' (mem_of_getElem? he')
    split
    · exact htouch e' hP
    · exact hP
  refine ⟨hmem h.container fun e he ↦ isContainer_touch he nowBd, hmem h.hash fun e he ↦
    (sameGrant_touch nowBd e).hashReadable.mpr he, h.exclusive.modify ?_ index⟩
  intro peer e
  exact (sameGrant_touch nowBd e).carries peer

theorem OrderlyEntries.filter (h : OrderlyEntries entries) (keep : Json → Bool) :
    OrderlyEntries (entries.filter keep) :=
  ⟨fun e he ↦ h.container e (List.mem_filter.mp he).1, fun e he ↦ h.hash e (List.mem_filter.mp he).1,
    h.exclusive.sublist filter_sublist⟩

theorem OrderlyEntries.revertedAll (h : OrderlyEntries entries) :
    OrderlyEntries (entries.map reverted) := by
  refine ⟨?_, ?_, ?_⟩
  · intro e he
    obtain ⟨e', he', rfl⟩ := List.mem_map.mp he
    exact isContainer_reverted (h.container e' he')
  · intro e he
    obtain ⟨e', he', rfl⟩ := List.mem_map.mp he
    exact (hashReadable_reverted e').mpr (h.hash e' he')
  · refine List.pairwise_map.mpr (h.exclusive.imp ?_)
    intro a b hab peer hpeer
    rw [carries_reverted] at hpeer ⊢
    exact hab peer hpeer

theorem orderly_emptyAcl (keyId : JsString) : OrderlyDocument (emptyAcl keyId) :=
  ⟨[], rfl, by simp, by simp, List.Pairwise.nil⟩

theorem orderly_recordUse (h : OrderlyDocument acl.doc) (id : Property) (nowBd : ℚ) :
    OrderlyDocument (acl.recordUse identity id nowBd).1.doc := by
  obtain ⟨entries, harray, hentries⟩ := h
  obtain ⟨index, hindex⟩ := recordUse_table identity harray id nowBd
  exact ⟨_, hindex, hentries.touched index nowBd⟩

theorem orderly_load (h : OrderlyDocument acl.doc) {bytes signature : Bytes}
    (hload : ∀ parsed, parse read (utf8Decode bytes) = some parsed → OrderlyDocument parsed) :
    OrderlyDocument (acl.loadFromBytes read identity bytes signature).1.doc := by
  unfold LinkAcl.loadFromBytes
  cases hparse : parse read (utf8Decode bytes) with
  | none =>
    exact orderly_emptyAcl identity.keyId
  | some parsed =>
    obtain ⟨entries, harray, hentries⟩ := hload parsed hparse
    obtain ⟨members, rfl, hmember⟩ := documentEntries_of_entryArray harray
    simp only
    cases property bridgeKeyIdKey (.obj members) with
    | error e => exact h
    | ok bridgeKeyId =>
      simp only
      split
      · exact ⟨entries, harray, hentries⟩
      · rw [tamperedDocument_array hmember hentries.container]
        simp only [replaceBy_doc]
        refine ⟨entries.map reverted, ?_, hentries.revertedAll⟩
        simp [entryArray, property,
          member_setMember_other (by decide : entriesKey ≠ bridgeKeyIdKey)]

end Orderly

/-! ## Runs -/

section Runs

variable {read : ℚ → Number} {identity : BridgeIdentity p256Verify}

/-- The document is orderly, and an entry captured by an open prompt names the prompt's caller. -/
structure GrantInv (state : PromptState) : Prop where
  document : OrderlyDocument state.acl.doc
  reachable : ∀ prompt ∈ state.prompts, prompt.attestation.capped prompt.scope = false
  captured : ∀ prompt ∈ state.prompts, ∀ e, prompt.existing = some e →
    carries prompt.attestation e = true

/-- The caller's entry holds the policy, with the expiry of a captured entry. -/
def Settled (read : ℚ → Number) (stored : PeerAttestation) (scope : LinkGeoScope)
    (policy : LinkGeoPolicy) (existing : Option Json) (acl : LinkAcl) : Prop :=
  ∃ entries e, entryArray acl.doc = .ok entries ∧ entries.find? (carries stored) = some e ∧
    hasPolicy policy scope e = true ∧
    ∀ time, entryExpired read time e = expiredBefore read time existing

variable {acl : LinkAcl} {generatedId : JsString} {nowBd : ℚ} {outcome : PromptOutcome}
  {peer : PeerAttestation} {policy : LinkGeoPolicy} {prompt : OpenPrompt} {scope : LinkGeoScope}

theorem lookup_prompt_carries (h : OrderlyDocument acl.doc) {existing : Option Json}
    (hlookup : acl.lookup read peer scope nowBd = .ok (.prompt existing)) :
    ∀ e, existing = some e → carries peer e = true := by
  obtain ⟨entries, harray, hentries⟩ := h
  intro e he
  have hfind := (lookup_prompt hlookup).2 e he
  rw [LinkAcl.findMatchingEntry, documentEntries_of_array harray] at hfind
  simp only at hfind
  rw [findEntry_eq hentries.container hentries.hash, Except.ok.injEq] at hfind
  exact List.find?_some hfind

theorem writePolicy_table (identity : BridgeIdentity p256Verify)
    {entries : List Json}
    (harray : entryArray acl.doc = .ok entries) (hentries : ∀ e ∈ entries, IsContainer e)
    (prompt : OpenPrompt) (policy : LinkGeoPolicy) (recordAccess : Bool) (nowBd : ℚ)
    (generatedId : JsString) (ssh : Option JsString) :
    ∃ index, entryArray (writePolicy identity acl prompt policy recordAccess nowBd generatedId
      ssh).doc = .ok ((place (entries.findIdx? (bears (writtenId prompt generatedId))) entries
        (LinkAcl.grantedEntry prompt.attestation prompt.scope policy prompt.existing nowBd
          generatedId ssh)).modify index (touch nowBd)) := by
  have h := writePolicy_array identity harray prompt policy recordAccess nowBd generatedId ssh
  rwa [findIndexById_eq hentries] at h

section Write

variable {acl : LinkAcl} {entries : List Json} {prompt : OpenPrompt} {generatedId : JsString}

/-- An answer that is written up to date keeps the callers of the entries distinct. -/
theorem OrderlyEntries.written (h : OrderlyEntries entries)
    (harray : entryArray acl.doc = .ok entries) (hcurrent : UpToDate acl prompt generatedId)
    (policy : LinkGeoPolicy) (nowBd : ℚ) (ssh : Option JsString) :
    OrderlyEntries (place (entries.findIdx? (bears (writtenId prompt generatedId))) entries
      (LinkAcl.grantedEntry prompt.attestation prompt.scope policy prompt.existing nowBd
        generatedId ssh)) := by
  refine h.placed (isContainer_granted ..) (hashReadable_granted _ _ _ _ _ _ _) ?_ ?_
  · intro i hi
    exact (List.findIdx?_eq_some_iff_getElem.mp hi).1
  · intro j e hj hne peer hpeer
    have hcaller := (carries_granted ..).mp hpeer
    cases hfit : carries peer e with
    | false => rfl
    | true =>
      -- Another entry of the caller would bear the written id, and the first such is replaced.
      have hown : carries prompt.attestation e = true :=
        (SameCaller.symm hcurrent.presentable hcaller).carries hfit
      have hbears := (hcurrent.ids entries harray e (mem_of_getElem? hj)).trans hown
      cases hfound : entries.findIdx? (bears _) with
      | none =>
        have hnone := List.findIdx?_eq_none_iff.mp hfound e (mem_of_getElem? hj)
        rw [hbears] at hnone
        exact absurd hnone.symm Bool.false_ne_true
      | some i =>
        obtain ⟨hi, hbearsFirst, -⟩ := List.findIdx?_eq_some_iff_getElem.mp hfound
        have hfirst := hcurrent.ids entries harray entries[i] (getElem_mem hi)
        have hij : i ≠ j := fun heq ↦ hne (by rw [hfound, heq])
        have hother := exclusive_iff.mp h.exclusive i j _ e (List.getElem?_eq_getElem hi) hj hij
          prompt.attestation (hfirst.symm.trans hbearsFirst)
        rw [hown] at hother
        exact absurd hother.symm Bool.false_ne_true

theorem granted_mem_place (found : Option ℕ) (entry : Json)
    (hfound : ∀ i, found = some i → i < entries.length) :
    entry ∈ place found entries entry := by
  cases found with
  | none => exact mem_append_right _ (mem_singleton_self _)
  | some i => exact mem_set (hfound i rfl) entry

theorem find?_written (h : OrderlyEntries entries) (harray : entryArray acl.doc = .ok entries)
    (hcurrent : UpToDate acl prompt generatedId) (policy : LinkGeoPolicy) (nowBd : ℚ)
    (ssh : Option JsString) {peer : PeerAttestation}
    (hpeer : SameCaller prompt.attestation peer) :
    (place (entries.findIdx? (bears (writtenId prompt generatedId))) entries
      (LinkAcl.grantedEntry prompt.attestation prompt.scope policy prompt.existing nowBd
        generatedId ssh)).find? (carries peer) =
      some (LinkAcl.grantedEntry prompt.attestation prompt.scope policy prompt.existing nowBd
        generatedId ssh) := by
  refine (h.written harray hcurrent policy nowBd ssh).exclusive.find?
    (granted_mem_place _ _ fun i hi ↦ ?_) ((carries_granted ..).mpr hpeer)
  exact (List.findIdx?_eq_some_iff_getElem.mp hi).1

/-- The search for another caller does not notice the write. -/
theorem find?_written_other (harray : entryArray acl.doc = .ok entries)
    (hcurrent : UpToDate acl prompt generatedId) (policy : LinkGeoPolicy) (nowBd : ℚ)
    (ssh : Option JsString) {peer : PeerAttestation}
    (hpeer : ¬ SameCaller prompt.attestation peer) :
    (place (entries.findIdx? (bears (writtenId prompt generatedId))) entries
      (LinkAcl.grantedEntry prompt.attestation prompt.scope policy prompt.existing nowBd
        generatedId ssh)).find? (carries peer) = entries.find? (carries peer) := by
  have hnew : carries peer (LinkAcl.grantedEntry prompt.attestation prompt.scope policy
      prompt.existing nowBd generatedId ssh) = false := by
    rw [Bool.eq_false_iff, ne_eq, carries_granted]
    exact hpeer
  cases hfound : entries.findIdx? (bears _) with
  | none => exact find?_append_of_not hnew entries
  | some i =>
    obtain ⟨hi, hbears, -⟩ := List.findIdx?_eq_some_iff_getElem.mp hfound
    refine find?_set_of_not (List.getElem?_eq_getElem hi) ?_ hnew
    have hown := (hcurrent.ids entries harray entries[i] (getElem_mem hi)).symm.trans hbears
    rw [Bool.eq_false_iff]
    intro hfit
    exact hpeer (sameCaller_of_carries hown hfit)

end Write

theorem settled_touched {stored : PeerAttestation}
    {existing : Option Json} {entries : List Json} {e : Json} {index : ℕ}
    (harray : entryArray acl.doc = .ok (entries.modify index (touch nowBd)))
    (hfind : entries.find? (carries stored) = some e) (hpolicy : hasPolicy policy scope e = true)
    (hexpiry : ∀ time, entryExpired read time e = expiredBefore read time existing) :
    Settled read stored scope policy existing acl := by
  obtain ⟨found, hfound, hcases⟩ :=
    find?_modify (fun row ↦ (sameGrant_touch nowBd row).carries stored) hfind index
  have hsame : SameGrant found e := by
    rcases hcases with rfl | rfl
    · exact fun _ _ ↦ rfl
    · exact sameGrant_touch nowBd e
  refine ⟨_, found, harray, hfound, ?_, fun time ↦ ?_⟩
  · rw [hsame.hasPolicy, hpolicy]
  · rw [hsame.entryExpired, hexpiry]

theorem orderly_answer (h : OrderlyDocument acl.doc)
    (hcurrent : writtenPolicy outcome ≠ none → UpToDate acl prompt generatedId) :
    OrderlyDocument (applyOutcome identity acl prompt outcome nowBd generatedId).doc := by
  cases hwritten : writtenPolicy outcome with
  | none =>
    rw [applyOutcome_of_none hwritten]
    exact h
  | some write =>
    obtain ⟨entries, harray, hentries⟩ := h
    obtain ⟨recordAccess, hanswer⟩ := applyOutcome_eq identity acl prompt hwritten nowBd generatedId
    obtain ⟨index, htable⟩ := writePolicy_table identity harray hentries.container
      prompt write.1 recordAccess nowBd generatedId write.2
    rw [hanswer]
    exact ⟨_, htable, (hentries.written harray (hcurrent (by simp [hwritten])) _ _ _).touched
      index nowBd⟩

theorem grantInv_step {state : PromptState} {event : AclEvent} (h : GrantInv state)
    (hkeeps : KeepsGrants read state event) : GrantInv (aclStep read identity state event) := by
  cases event with
  | upsert entry =>
    obtain ⟨hcontainer, hhash, hdistinct⟩ := hkeeps
    refine ⟨?_, h.reachable, h.captured⟩
    obtain ⟨entries, harray, hentries⟩ := h.document
    obtain ⟨id, hid⟩ := property_ok hcontainer idKey
    refine ⟨_, upsert_table identity harray hentries.container hid,
      hentries.placed hcontainer hhash ?_ (hdistinct entries id harray hid)⟩
    intro i hi
    exact (List.findIdx?_eq_some_iff_getElem.mp hi).1
  | remove id =>
    refine ⟨?_, h.reachable, h.captured⟩
    obtain ⟨entries, harray, hentries⟩ := h.document
    exact ⟨_, remove_table identity harray hentries.container id, hentries.filter _⟩
  | load bytes signature => exact ⟨orderly_load h.document hkeeps, h.reachable, h.captured⟩
  | request peer scope nowBd =>
    unfold aclStep requestScope
    simp only
    split
    · next entry hlookup =>
      split
      · exact ⟨orderly_recordUse h.document _ nowBd, h.reachable, h.captured⟩
      · exact h
    · next existing hlookup =>
      refine ⟨h.document, ?_, ?_⟩
      · intro prompt hprompt
        rcases List.mem_append.mp hprompt with hold | hnew
        · exact h.reachable prompt hold
        · rw [List.mem_singleton.mp hnew]
          exact (lookup_prompt hlookup).1
      · intro prompt hprompt
        rcases List.mem_append.mp hprompt with hold | hnew
        · exact h.captured prompt hold
        · rw [List.mem_singleton.mp hnew]
          exact lookup_prompt_carries h.document hlookup
    · exact h
  | answer index outcome nowBd generatedId =>
    unfold aclStep
    simp only
    cases hprompt : state.prompts[index]? with
    | none => exact h
    | some prompt =>
      exact ⟨orderly_answer h.document (hkeeps prompt hprompt),
        fun other hother ↦ h.reachable other (mem_of_mem_eraseIdx hother),
        fun other hother ↦ h.captured other (mem_of_mem_eraseIdx hother)⟩

theorem settled_answer (h : OrderlyDocument acl.doc)
    (hcaptured : ∀ e, prompt.existing = some e → carries prompt.attestation e = true) (hpolicy : lastingPolicy outcome = some policy) (hcurrent : UpToDate acl prompt generatedId) (hpeer : SameCaller prompt.attestation peer) :
    Settled read peer prompt.scope policy prompt.existing
      (applyOutcome identity acl prompt outcome nowBd generatedId) := by
  obtain ⟨entries, harray, hentries⟩ := h
  have hwritten : writtenPolicy outcome = some (policy, none) := by
    cases outcome <;> cases hpolicy <;> rfl
  have hne : policy ≠ .prompt := by
    cases outcome <;> cases hpolicy <;> decide
  obtain ⟨recordAccess, hanswer⟩ := applyOutcome_eq identity acl prompt hwritten nowBd generatedId
  obtain ⟨index, htable⟩ := writePolicy_table identity harray hentries.container
    prompt policy recordAccess nowBd generatedId none
  rw [hanswer]
  have hobject : ∀ x, prompt.existing = some x → ∃ members, x = .obj members :=
    fun x hx ↦ carries_obj (hcaptured x hx)
  refine settled_touched htable (find?_written hentries harray hcurrent _ _ _ hpeer) ?_
    fun time ↦ entryExpired_granted read time hobject _ _ _ _ _ _
  rw [hasPolicy_granted hobject _ _ _ _ _ _ hne, if_pos rfl]
  exact decide_eq_true rfl

theorem settled_other (h : OrderlyDocument acl.doc)
    (hcaptured : ∀ e, prompt.existing = some e → carries prompt.attestation e = true)
    (hcurrent : writtenPolicy outcome ≠ none → UpToDate acl prompt generatedId) {captured : Option Json}
    (hpolicy : policy ≠ .prompt) (hsettled : Settled read peer scope policy captured acl)
    (hother : ¬ (SameCaller peer prompt.attestation ∧ prompt.scope = scope)) :
    Settled read peer scope policy captured
      (applyOutcome identity acl prompt outcome nowBd generatedId) := by
  cases hwrite : writtenPolicy outcome with
  | none =>
    rw [applyOutcome_of_none hwrite]
    exact hsettled
  | some write =>
    obtain ⟨entries, harray, hentries⟩ := h
    obtain ⟨entries', e, harray', hfind, hhas, hexpiry⟩ := hsettled
    cases harray.symm.trans harray'
    have hcurrent := hcurrent (by simp [hwrite])
    obtain ⟨recordAccess, hanswer⟩ := applyOutcome_eq identity acl prompt hwrite nowBd generatedId
    obtain ⟨index, htable⟩ := writePolicy_table identity harray hentries.container
      prompt write.1 recordAccess nowBd generatedId write.2
    rw [hanswer]
    by_cases hcaller : SameCaller prompt.attestation peer
    · -- The same caller's entry is written again, from a capture that still holds the answer.
      have hscope : scope ≠ prompt.scope := fun heq ↦
        hother ⟨SameCaller.symm hcurrent.presentable hcaller, heq.symm⟩
      have hown : carries prompt.attestation e = true :=
        (SameCaller.symm hcurrent.presentable hcaller).carries (List.find?_some hfind)
      obtain ⟨existing, hexisting, hsame⟩ :=
        hcurrent.captured entries harray e (mem_of_find?_eq_some hfind) hown
      have hobject : ∀ x, prompt.existing = some x → ∃ members, x = .obj members :=
        fun x hx ↦ carries_obj (hcaptured x hx)
      refine settled_touched htable (find?_written hentries harray hcurrent _ _ _ hcaller) ?_
        fun time ↦ ?_
      · rw [hasPolicy_granted hobject _ _ _ _ _ _ hpolicy, if_neg hscope, hexisting, policyBefore,
          hsame.hasPolicy]
        exact hhas
      · rw [entryExpired_granted read time hobject, hexisting, ← hexpiry time]
        exact hsame.entryExpired read time
    · refine settled_touched htable ?_ hhas hexpiry
      rw [find?_written_other harray hcurrent _ _ _ hcaller]
      exact hfind

/-- An event that does not concern a settled pair leaves it settled. -/
theorem settled_step {state : PromptState} {event : AclEvent} (h : GrantInv state)
    (hkeeps : KeepsGrants read state event) {stored : PeerAttestation}
    (hpeer : SameCaller stored peer) (hstored : SameCaller stored stored) {captured : Option Json} (hpolicy : policy ≠ .prompt)
    (hsettled : Settled read peer scope policy captured state.acl)
    (hother : ¬ Concerns stored scope state event) :
    Settled read peer scope policy captured (aclStep read identity state event).acl := by
  have hback : ∀ e, carries peer e = true → carries stored e = true :=
    fun _ he ↦ (SameCaller.symm hstored hpeer).carries he
  cases event with
  | upsert entry =>
    obtain ⟨hcontainer, -, -⟩ := hkeeps
    obtain ⟨entries, harray, hentries⟩ := h.document
    obtain ⟨entries', e, harray', hfind, hhas, hexpiry⟩ := hsettled
    cases harray.symm.trans harray'
    obtain ⟨id, hid⟩ := property_ok hcontainer idKey
    rw [Concerns, not_or] at hother
    have hnew : carries peer entry = false := by
      rw [Bool.eq_false_iff]
      exact fun hfit ↦ hother.1 (hback entry hfit)
    refine ⟨_, e, upsert_table identity harray hentries.container hid, ?_, hhas, hexpiry⟩
    cases hfound : entries.findIdx? (bears id) with
    | none =>
      rw [place, find?_append_of_not hnew]
      exact hfind
    | some i =>
      obtain ⟨hi, hbears, -⟩ := List.findIdx?_eq_some_iff_getElem.mp hfound
      have hold : carries peer entries[i] = false := by
        rw [Bool.eq_false_iff]
        exact fun hfit ↦ hother.2 ⟨entries, id, harray, hid, entries[i], getElem_mem hi,
          hbears, hback _ hfit⟩
      rw [place, find?_set_of_not (List.getElem?_eq_getElem hi) hold hnew]
      exact hfind
  | remove id =>
    obtain ⟨entries, harray, hentries⟩ := h.document
    obtain ⟨entries', e, harray', hfind, hhas, hexpiry⟩ := hsettled
    cases harray.symm.trans harray'
    refine ⟨_, e, remove_table identity harray hentries.container id, ?_, hhas, hexpiry⟩
    refine (hentries.filter _).exclusive.find? (List.mem_filter.mpr
      ⟨mem_of_find?_eq_some hfind, ?_⟩) (List.find?_some hfind)
    rw [Bool.not_eq_true', Bool.eq_false_iff]
    exact fun hbears ↦ hother ⟨entries, harray, e, mem_of_find?_eq_some hfind, hbears,
      hback e (List.find?_some hfind)⟩
  | load bytes signature => exact absurd trivial hother
  | request att requested nowBd =>
    unfold aclStep requestScope
    simp only
    split
    · next entry hlookup =>
      split
      · next id hid =>
        obtain ⟨entries, harray, hentries⟩ := h.document
        obtain ⟨entries', e, harray', hfind, hhas, hexpiry⟩ := hsettled
        cases harray.symm.trans harray'
        obtain ⟨index, hindex⟩ := recordUse_table identity harray id nowBd
        exact settled_touched hindex hfind hhas hexpiry
      · exact hsettled
    · exact hsettled
    · exact hsettled
  | answer index outcome nowBd generatedId =>
    unfold aclStep
    simp only
    cases hprompt : state.prompts[index]? with
    | none => exact hsettled
    | some prompt =>
      have hmem := mem_of_getElem? hprompt
      refine settled_other h.document (h.captured prompt hmem) (hkeeps prompt hprompt) hpolicy
        hsettled fun hboth ↦ hother ⟨prompt, hprompt, ?_, hboth.2⟩
      exact hpeer.trans hboth.1

/-- In every run whose edits keep the callers of the entries distinct and whose answers are written
up to date, answers last and the document holds at most one live entry of every caller. -/
theorem answersLast_of_run (read : ℚ → Number) (identity : BridgeIdentity p256Verify)
    (initial : Option Json)
    (hinitial : OrderlyDocument (initial.getD (emptyAcl identity.keyId))) (events : List AclEvent)
    (h : Meets (aclStep read identity) (KeepsGrants read)
      ⟨LinkAcl.create identity initial, []⟩ events) :
    AnswersLast read identity ⟨LinkAcl.create identity initial, []⟩ events ∧
      OneLiveEntry read
        (run (aclStep read identity) ⟨LinkAcl.create identity initial, []⟩ events).acl := by
  have hstart : GrantInv ⟨LinkAcl.create identity initial, []⟩ := by
    refine ⟨?_, by simp, by simp⟩
    rw [LinkAcl.create, resign_doc]
    exact hinitial
  have hstep : ∀ state event, GrantInv state → KeepsGrants read state event →
      GrantInv (aclStep read identity state event) := fun _ _ ↦ grantInv_step
  constructor
  · intro before index outcome nowBd generatedId after prompt policy hevents hprompt hpolicy
      hquiet peer time hpeer hexpired
    subst hevents
    obtain ⟨hbefore, hanswer, hafter⟩ := meets_append.mp h
    set state := run _ _ before
      with hstate
    have hinv : GrantInv state := hbefore.invariant GrantInv hstep hstart
    have hmem := mem_of_getElem? hprompt
    have hwrites : writtenPolicy outcome ≠ none := by
      cases outcome <;> cases hpolicy <;> simp [writtenPolicy]
    have hcurrent := hanswer prompt hprompt hwrites
    have hne : policy ≠ .prompt := by
      cases outcome <;> cases hpolicy <;> decide
    set answered := aclStep read identity state _
      with hanswered
    have hsettled : Settled read peer prompt.scope policy prompt.existing answered.acl := by
      rw [hanswered, aclStep, hprompt]
      exact settled_answer hinv.document (hinv.captured prompt hmem) hpolicy hcurrent hpeer
    have hquiet' : Meets (aclStep read identity) (fun state event ↦
        ¬ Concerns prompt.attestation prompt.scope state event) answered after := by
      rwa [run_append] at hquiet
    have hfinal : GrantInv (run (aclStep read identity) answered after) ∧
        Settled read peer prompt.scope policy prompt.existing
          (run (aclStep read identity) answered after).acl :=
      (hafter.and hquiet').invariant (fun state ↦ GrantInv state ∧
        Settled read peer prompt.scope policy prompt.existing state.acl)
        (fun _ _ hinv hkeeps ↦ ⟨grantInv_step hinv.1 hkeeps.1, settled_step hinv.1 hkeeps.1 hpeer
          hcurrent.presentable hne hinv.2 hkeeps.2⟩)
        ⟨grantInv_step hinv hanswer, hsettled⟩
    rw [run_append, run_cons, ← hstate, ← hanswered]
    obtain ⟨⟨⟨entries, harray, hentries⟩, -, -⟩, entries', e, harray', hfind, hhas, hexpiry⟩ :=
      hfinal
    cases harray.symm.trans harray'
    have hcap : peer.capped prompt.scope = false := by
      have hreachable := hinv.reachable prompt hmem
      rwa [PeerAttestation.capped, hpeer.1] at hreachable
    exact ⟨e, lookup_of_find harray hentries.container hentries.hash hcap hfind
      ((hexpiry time).trans hexpired) hhas⟩
  · obtain ⟨entries, harray, hentries⟩ := (h.invariant GrantInv hstep hstart).document
    intro entries' hentries' peer time
    cases (documentEntries_of_array harray).symm.trans hentries'
    refine hentries.exclusive.filter_length_le peer fun row hrow ↦ ?_
    exact (Bool.and_eq_true_iff.mp hrow).1

end Runs

/-! ## Two prompts at a time -/

/-- One request and its lasting answer. -/
def answeredRequest : List AclEvent :=
  [.request builtinPeer .zone 1, .answer 0 .allowAlways 1 (js "entry-1")]

/-- Two prompts for one caller, both raised before the first is answered. -/
def overlappingRequests : List AclEvent :=
  [.request builtinPeer .zone 1, .request builtinPeer .precise 1,
    .answer 0 .allowAlways 1 (js "entry-1"), .answer 0 .allowAlways 1 (js "entry-2")]

/-- A prompt that is answered before the next one meets the condition. -/
theorem answersLast_of_run_single :
    AnswersLast Binary64.round permissiveIdentity ⟨LinkAcl.create permissiveIdentity none, []⟩
        answeredRequest ∧
      OneLiveEntry Binary64.round (run (aclStep Binary64.round permissiveIdentity)
        ⟨LinkAcl.create permissiveIdentity none, []⟩ answeredRequest).acl := by
  refine answersLast_of_run Binary64.round permissiveIdentity none (orderly_emptyAcl _)
    answeredRequest ⟨trivial, fun prompt hprompt _ ↦ ?_, trivial⟩
  have hpeer : prompt.attestation = builtinPeer := by
    cases hprompt
    rfl
  have hempty : entryArray (aclStep Binary64.round permissiveIdentity
      ⟨LinkAcl.create permissiveIdentity none, []⟩ (.request builtinPeer .zone 1)).acl.doc =
        .ok [] := rfl
  refine ⟨by rw [hpeer]; decide, ?_, ?_⟩
  · intro entries hentries
    cases hempty.symm.trans hentries
    simp
  · intro entries hentries
    cases hempty.symm.trans hentries
    simp

/-- The second answer is appended behind the first as a new entry, and no look-up sees it. -/
theorem answersLast_fails_overlapping :
    ¬ AnswersLast Binary64.round permissiveIdentity ⟨LinkAcl.create permissiveIdentity none, []⟩
        overlappingRequests ∧
      ¬ OneLiveEntry Binary64.round (run (aclStep Binary64.round permissiveIdentity)
        ⟨LinkAcl.create permissiveIdentity none, []⟩ overlappingRequests).acl := by
  constructor
  · intro h
    obtain ⟨entry, hallow⟩ := h [.request builtinPeer .zone 1, .request builtinPeer .precise 1,
      .answer 0 .allowAlways 1 (js "entry-1")] 0 .allowAlways 1 (js "entry-2") []
      _ .always rfl rfl rfl trivial builtinPeer 1 (by decide) rfl
    have hprompt : ∃ found, (run (aclStep Binary64.round permissiveIdentity)
        ⟨LinkAcl.create permissiveIdentity none, []⟩ overlappingRequests).acl.lookup Binary64.round
          builtinPeer .precise 1 = .ok (.prompt found) := ⟨_, rfl⟩
    obtain ⟨found, hfound⟩ := hprompt
    cases hfound.symm.trans hallow
  · intro h
    have htwo : ∃ entries, documentEntries (run (aclStep Binary64.round permissiveIdentity)
        ⟨LinkAcl.create permissiveIdentity none, []⟩ overlappingRequests).acl.doc = .ok entries ∧
          (entries.filter (isLive Binary64.round builtinPeer 1)).length = 2 := ⟨_, rfl, rfl⟩
    obtain ⟨entries, hentries, hlength⟩ := htwo
    have hone := h entries hentries builtinPeer 1
    omega

end Bsh.Bridge
