import Bsh.Bridge.AclTable
import Bsh.Library.Run

/-!
# Where an allowance comes from

`allow_session` stores an allowance with the id of an SSH session in the same list as the durable
ones.  No look-up reads that id, so a request from elsewhere passes as well.  To state what a session
grant may allow, the system is run together with a record of origins: for every entry and every
open prompt, which of its scopes owe their policy to a session answer, and to which session.  The
code never reads the record.
-/

namespace Bsh.Bridge

open Bsh.Library Bsh.BrightLink Utf Json

/-- Requests and prompt answers. -/
inductive PromptEvent where
  | request (attestation : PeerAttestation) (scope : LinkGeoScope) (nowBd : ℚ)
  | answer (prompt : ℕ) (outcome : PromptOutcome) (nowBd : ℚ) (generatedId : JsString)

def PromptEvent.toAcl : PromptEvent → AclEvent
  | .request attestation scope nowBd => .request attestation scope nowBd
  | .answer prompt outcome nowBd generatedId => .answer prompt outcome nowBd generatedId

/-- The session to whose answer each scope of an entry owes its policy. -/
abbrev Origin := LinkGeoScope → Option JsString

def durable : Origin := fun _ ↦ none

/-- A prompt of this peer for this scope was answered with `allow_session`. -/
structure SessionAnswer where
  attestation : PeerAttestation
  scope : LinkGeoScope
  sshSessionId : JsString

/-- The state with the origins of its entries, in their order, those that the open prompts have
captured, and all session answers so far. -/
structure SessionState where
  base : PromptState
  origins : List Origin
  captured : List Origin
  answered : List SessionAnswer

/-- The origins of the entry that `findMatchingEntry` returns. -/
def originFound (attestation : PeerAttestation) : List Json → List Origin → Origin
  | entry :: rest, origin :: others =>
    match entryMatches attestation entry with
    | .ok true => origin
    | _ => originFound attestation rest others
  | _, _ => durable

def SessionState.originFor (state : SessionState) (attestation : PeerAttestation) : Origin :=
  match entryArray state.base.acl.doc with
  | .ok entries => originFound attestation entries state.origins
  | .error _ => durable

variable {p256Verify : Bytes → Bytes → Bytes → Bool}

/-- A prompt captures the origins of the entry it captures. -/
def captureOrigin (read : ℚ → Number) (state : SessionState) (attestation : PeerAttestation)
    (scope : LinkGeoScope) (nowBd : ℚ) : List Origin :=
  match state.base.acl.lookup read attestation scope nowBd with
  | .ok (.prompt (some _)) => state.captured ++ [state.originFor attestation]
  | .ok (.prompt none) => state.captured ++ [durable]
  | _ => state.captured

/-- A stored answer is the origin of the scope it answers. -/
def answerOrigin (captured : Origin) (scope : LinkGeoScope) (session : Option JsString) : Origin :=
  fun other ↦ if other = scope then session else captured other

/-- The origins of the entries after an answer. -/
def writeOrigin (state : SessionState) (prompt : OpenPrompt) (generatedId : JsString)
    (origin : Origin) : List Origin :=
  match entryArray state.base.acl.doc with
  | .error _ => state.origins
  | .ok entries =>
    match findIndexById (writtenId prompt generatedId) entries with
    | .ok found => place found state.origins origin
    | .error _ => state.origins

/-- The session answers after another stored answer. -/
def recordAnswer (answered : List SessionAnswer) (prompt : OpenPrompt) :
    Option JsString → List SessionAnswer
  | some s => ⟨prompt.attestation, prompt.scope, s⟩ :: answered
  | none => answered

def sessionStep (read : ℚ → Number) (identity : BridgeIdentity p256Verify) (state : SessionState)
    (event : PromptEvent) : SessionState :=
  let base := aclStep read identity state.base event.toAcl
  match event with
  | .request attestation scope nowBd =>
    { state with base, captured := captureOrigin read state attestation scope nowBd }
  | .answer index outcome _ generatedId =>
    match state.base.prompts[index]? with
    | none => { state with base }
    | some prompt =>
      match writtenPolicy outcome with
      | none => { state with base, captured := state.captured.eraseIdx index }
      | some (_, session) =>
        { base
          origins := writeOrigin state prompt generatedId
            (answerOrigin (state.captured.getD index durable) prompt.scope session)
          captured := state.captured.eraseIdx index
          answered := recordAnswer state.answered prompt session }

/-- A fresh bridge: what an initial document grants comes from no session. -/
def SessionState.create (identity : BridgeIdentity p256Verify) (initial : Option Json) :
    SessionState where
  base := ⟨LinkAcl.create identity initial, []⟩
  origins := match entryArray (LinkAcl.create identity initial).doc with
    | .ok entries => entries.map fun _ ↦ durable
    | .error _ => []
  captured := []
  answered := []

/-- A request that an allowance of session `s` passes comes from session `s`. -/
def Confined (read : ℚ → Number) (state : SessionState) (attestation : PeerAttestation)
    (scope : LinkGeoScope) (nowBd : ℚ) : Prop :=
  ∀ entry s, state.base.acl.lookup read attestation scope nowBd = .ok (.allow entry) →
    state.originFor attestation scope = some s →
      attestation.sshSession.map SshSessionInfo.sessionId = some s

/-- Every request of the run is confined. -/
def GrantsConfined (read : ℚ → Number) (identity : BridgeIdentity p256Verify)
    (start : SessionState) (events : List PromptEvent) : Prop :=
  ∀ before attestation scope nowBd after,
    events = before ++ .request attestation scope nowBd :: after →
      Confined read (run (sessionStep read identity) start before) attestation scope nowBd

/-- Once a caller's prompt for a scope was answered for session `s`, the caller asks for that scope
from session `s` only. -/
def StaysInSession (state : SessionState) : PromptEvent → Prop
  | .request attestation scope _ => ∀ answer ∈ state.answered,
    SameCaller answer.attestation attestation → answer.scope = scope →
      attestation.sshSession.map SshSessionInfo.sessionId = some answer.sshSessionId
  | .answer _ _ _ _ => True

/-! ## Origins are session answers -/

/-- The origins were recorded by answers to prompts of the peer. -/
def Recorded (answered : List SessionAnswer) (peer : PeerAttestation) (origin : Origin) : Prop :=
  ∀ scope s, origin scope = some s → ∃ answer ∈ answered,
    SameCaller answer.attestation peer ∧ answer.scope = scope ∧ answer.sshSessionId = s

/-- The origins of an entry were recorded by answers to prompts of every peer it is found for. -/
def Covers (answered : List SessionAnswer) (entry : Json) (origin : Origin) : Prop :=
  ∀ peer, entryMatches peer entry = .ok true → Recorded answered peer origin

structure OriginInv (state : SessionState) : Prop where
  entries : ∀ entries, entryArray state.base.acl.doc = .ok entries →
    List.Forall₂ (Covers state.answered) entries state.origins
  prompts : List.Forall₂ (fun prompt origin ↦ Recorded state.answered prompt.attestation origin)
    state.base.prompts state.captured

theorem recorded_durable (answered : List SessionAnswer) (peer : PeerAttestation) :
    Recorded answered peer durable := by
  intro scope s h
  cases h

theorem Recorded.mono {answered answered' : List SessionAnswer} {peer : PeerAttestation}
    {origin : Origin} (h : Recorded answered peer origin) (hsub : answered ⊆ answered') :
    Recorded answered' peer origin := by
  intro scope s hs
  obtain ⟨answer, hmem, hanswer⟩ := h scope s hs
  exact ⟨answer, hsub hmem, hanswer⟩

theorem recorded_originFound {answered : List SessionAnswer} {peer : PeerAttestation}
    {entries : List Json} {origins : List Origin}
    (h : List.Forall₂ (Covers answered) entries origins) :
    Recorded answered peer (originFound peer entries origins) := by
  induction h with
  | nil => exact recorded_durable answered peer
  | cons hfirst _ ih =>
    rw [originFound]
    split
    · next hmatch => exact hfirst peer hmatch
    · exact ih

theorem recorded_originFor {state : SessionState} (h : OriginInv state) (peer : PeerAttestation) :
    Recorded state.answered peer (state.originFor peer) := by
  unfold SessionState.originFor
  split
  · next entries harray => exact recorded_originFound (h.entries entries harray)
  · exact recorded_durable state.answered peer

/-- What an answer writes is covered by the answers so far and itself. -/
theorem covers_granted {answered answered' : List SessionAnswer} (hsub : answered ⊆ answered')
    {prompt : OpenPrompt} {captured : Origin} {session : Option JsString}
    (hcaptured : Recorded answered prompt.attestation captured)
    (hsession : ∀ s, session = some s → ⟨prompt.attestation, prompt.scope, s⟩ ∈ answered')
    (policy : LinkGeoPolicy) (nowBd : ℚ) (generatedId : JsString) (ssh : Option JsString) :
    Covers answered' (LinkAcl.grantedEntry prompt.attestation prompt.scope policy prompt.existing
      nowBd generatedId ssh) (answerOrigin captured prompt.scope session) := by
  intro peer hmatch scope s hs
  rw [entryMatches_eq (isContainer_granted ..) (hashReadable_granted _ _ _ _ _ _ _),
    Except.ok.injEq, carries_granted] at hmatch
  unfold answerOrigin at hs
  split at hs
  · next hscope => exact ⟨_, hsession s hs, hmatch, hscope.symm, rfl⟩
  · obtain ⟨answer, hmem, hcaller, hrest⟩ := hcaptured scope s hs
    exact ⟨answer, hsub hmem, hcaller.trans hmatch, hrest⟩

theorem covers_touch {answered : List SessionAnswer} {entry : Json} {origin : Origin}
    (h : Covers answered entry origin) (nowBd : ℚ) : Covers answered (touch nowBd entry) origin := by
  intro peer hmatch
  rw [(sameGrant_touch nowBd entry).entryMatches] at hmatch
  exact h peer hmatch

/-! ## Runs -/

section Runs

variable {read : ℚ → Number} {identity : BridgeIdentity p256Verify}

theorem originInv_request {state : SessionState} (h : OriginInv state)
    (attestation : PeerAttestation) (scope : LinkGeoScope) (nowBd : ℚ) :
    OriginInv (sessionStep read identity state (.request attestation scope nowBd)) := by
  constructor
  · show ∀ entries, entryArray (requestScope read identity state.base attestation scope
      nowBd).acl.doc = .ok entries → List.Forall₂ _ entries state.origins
    unfold requestScope
    split
    · split
      · next id hid =>
        intro entries hentries
        cases harray : entryArray state.base.acl.doc with
        | error e =>
          have hfails : state.base.acl.recordUse identity id nowBd = (state.base.acl, .error e) := by
            rw [LinkAcl.recordUse, harray]
          rw [hfails] at hentries
          exact h.entries entries hentries
        | ok old =>
          obtain ⟨index, hindex⟩ := recordUse_table identity harray id nowBd
          cases hindex.symm.trans hentries
          exact forall₂_modify_left (h.entries old harray) (fun _ _ hab ↦ covers_touch hab nowBd)
            index
      · exact h.entries
    · exact h.entries
    · exact h.entries
  · show List.Forall₂ _
      (requestScope read identity state.base attestation scope nowBd).prompts
      (captureOrigin read state attestation scope nowBd)
    unfold requestScope captureOrigin
    cases state.base.acl.lookup read attestation scope nowBd with
    | error e => exact h.prompts
    | ok result =>
      cases result with
      | allow entry =>
        simp only
        cases property idKey entry <;> exact h.prompts
      | deny entry => exact h.prompts
      | denyCap => exact h.prompts
      | prompt existing =>
        cases existing with
        | none => exact forall₂_concat h.prompts (recorded_durable _ _)
        | some e => exact forall₂_concat h.prompts (recorded_originFor h attestation)

theorem originInv_answer {state : SessionState} (h : OriginInv state) (index : ℕ)
    (outcome : PromptOutcome) (nowBd : ℚ) (generatedId : JsString) :
    OriginInv (sessionStep read identity state (.answer index outcome nowBd generatedId)) := by
  unfold sessionStep
  simp only [PromptEvent.toAcl, aclStep]
  cases hprompt : state.base.prompts[index]? with
  | none => exact ⟨h.entries, h.prompts⟩
  | some prompt =>
    obtain ⟨captured, hcaptured, hrecorded⟩ := forall₂_getElem? h.prompts hprompt
    cases hwrite : writtenPolicy outcome with
    | none =>
      simp only [applyOutcome_of_none hwrite]
      exact ⟨h.entries, forall₂_eraseIdx h.prompts index⟩
    | some write =>
      obtain ⟨policy, session⟩ := write
      set answered := recordAnswer state.answered prompt session with hanswered
      have hsub : state.answered ⊆ answered := by
        cases session with
        | none => exact List.Subset.refl _
        | some s => exact List.subset_cons_self _ _
      have hsession : ∀ s, session = some s →
          (⟨prompt.attestation, prompt.scope, s⟩ : SessionAnswer) ∈ answered := by
        rintro s rfl
        exact List.mem_cons_self
      have hmono : ∀ e origin, Covers state.answered e origin → Covers answered e origin :=
        fun e origin hcovers peer hmatch ↦ (hcovers peer hmatch).mono hsub
      have hprompts := forall₂_eraseIdx (h.prompts.imp fun p origin hp ↦ hp.mono hsub) index
      refine ⟨fun entries hentries ↦ ?_, hprompts⟩
      obtain ⟨recordAccess, hanswer⟩ := applyOutcome_eq identity state.base.acl prompt
        hwrite nowBd generatedId
      simp only [hanswer] at hentries
      simp only [hcaptured, List.getD_eq_getElem?_getD, Option.getD_some]
      cases harray : entryArray state.base.acl.doc with
      | error e =>
        rw [writePolicy_of_error identity harray] at hentries
        cases harray.symm.trans hentries
      | ok old =>
        obtain ⟨touched, htable⟩ := writePolicy_array identity harray prompt policy recordAccess
          nowBd generatedId session
        cases htable.symm.trans hentries
        refine forall₂_modify_left ?_ (fun _ _ hab ↦ covers_touch hab nowBd) touched
        have hold := (h.entries old harray).imp hmono
        have hnew : Covers answered (LinkAcl.grantedEntry prompt.attestation prompt.scope policy
            prompt.existing nowBd generatedId session)
            (answerOrigin captured prompt.scope session) :=
          covers_granted hsub hrecorded hsession policy nowBd generatedId session
        unfold writeOrigin
        simp only [harray]
        cases findIndexById _ old with
        | error e => exact hold
        | ok found =>
          cases found with
          | none => exact forall₂_concat hold hnew
          | some i => exact forall₂_set hold hnew i

theorem originInv_step {state : SessionState} (h : OriginInv state) (event : PromptEvent) :
    OriginInv (sessionStep read identity state event) := by
  cases event with
  | request attestation scope nowBd => exact originInv_request h attestation scope nowBd
  | answer index outcome nowBd generatedId =>
    exact originInv_answer h index outcome nowBd generatedId

theorem originInv_create (identity : BridgeIdentity p256Verify) (initial : Option Json) :
    OriginInv (SessionState.create identity initial) := by
  refine ⟨fun entries hentries ↦ ?_, List.Forall₂.nil⟩
  have horigins : (SessionState.create identity initial).origins =
      entries.map fun _ ↦ durable := by
    have harray : entryArray (LinkAcl.create identity initial).doc = .ok entries := hentries
    rw [SessionState.create, harray]
  rw [horigins, List.forall₂_map_right_iff, List.forall₂_same]
  intro e _ peer _
  exact recorded_durable _ peer

/-- In every run in which callers with session grants stay in their sessions, no grant of a session
lets a request from elsewhere pass. -/
theorem grantsConfined_of_run (read : ℚ → Number) (identity : BridgeIdentity p256Verify)
    (initial : Option Json) (events : List PromptEvent)
    (h : Meets (sessionStep read identity) StaysInSession (SessionState.create identity initial)
      events) :
    GrantsConfined read identity (SessionState.create identity initial) events := by
  intro before attestation scope nowBd after hevents entry s _ horigin
  subst hevents
  obtain ⟨-, hrequest, -⟩ := meets_append.mp h
  have hinv : OriginInv (run (sessionStep read identity) (SessionState.create identity initial)
      before) :=
    run_invariant OriginInv (fun _ event hstate ↦ originInv_step hstate event)
      (originInv_create identity initial) before
  obtain ⟨answer, hmem, hcaller, hscope, hsession⟩ :=
    recorded_originFor hinv attestation scope s horigin
  rw [hrequest answer hmem hcaller hscope, hsession]

end Runs

/-! ## A grant outside its session -/

/-- The shell in an SSH session. -/
def sessionPeer : PeerAttestation :=
  { builtinPeer with
    sshSession := some ⟨none, none, 4310, js "sshd:4310:1779461500"⟩ }

/-- A session answer, and a second request by the same program. -/
def sessionRequests (second : PeerAttestation) : List PromptEvent :=
  [.request sessionPeer .zone 1,
    .answer 0 (.allowSession (js "sshd:4310:1779461500")) 1 (js "entry-1"),
    .request second .zone 2]

/-- A second request from the session itself meets the condition. -/
theorem grantsConfined_of_run_same :
    GrantsConfined Binary64.round permissiveIdentity (SessionState.create permissiveIdentity none)
      (sessionRequests sessionPeer) := by
  refine grantsConfined_of_run Binary64.round permissiveIdentity none _
    ⟨fun answer hanswer ↦ ?_, trivial, fun answer hanswer _ _ ↦ ?_, trivial⟩
  · exact absurd hanswer (List.not_mem_nil)
  · have hsession : answer.sshSessionId = js "sshd:4310:1779461500" := by
      cases List.mem_singleton.mp hanswer
      rfl
    rw [hsession]
    rfl

/-- The same program outside of any SSH session passes by the grant of the session. -/
theorem grantsConfined_fails_elsewhere :
    ¬ GrantsConfined Binary64.round permissiveIdentity
      (SessionState.create permissiveIdentity none) (sessionRequests builtinPeer) := by
  intro h
  have hallow : ∃ entry, (run (sessionStep Binary64.round permissiveIdentity)
      (SessionState.create permissiveIdentity none)
      ((sessionRequests builtinPeer).take 2)).base.acl.lookup Binary64.round builtinPeer .zone 2 =
        .ok (.allow entry) := ⟨_, rfl⟩
  obtain ⟨entry, hentry⟩ := hallow
  have hsession := h _ builtinPeer .zone 2 [] rfl entry
    (js _) hentry rfl
  cases hsession

end Bsh.Bridge
