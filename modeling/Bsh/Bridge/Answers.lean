import Bsh.Bridge.AclUsable
import Bsh.Bridge.Refusals
import Bsh.Bridge.Dispatch
import Bsh.Library.Run

/-!
# Answers

`handleMessage` answers every request with a success or an error object, and an error leaves the
session as it was.  Where a request makes a handler throw, there is no answer; the theorem says
for every request object, connection and reachable bridge which requests these are.
-/

namespace Bsh.Bridge

open Bsh.Library Bsh.BrightLink Utf Json

variable {P : Primitives} {R : Type}

/-! ## Answers -/

def IsError (v : Json) : Prop := ∃ text, v = errorResponse text

/-- An error object, or an object without the member `error`. -/
def IsReply (v : Json) : Prop :=
  IsError v ∨ ∃ members, v = .obj members ∧ member (js "error") members = none

theorem isReply_error (text : JsString) : IsReply (errorResponse text) := .inl ⟨text, rfl⟩

theorem isReply_obj {members : Members} (h : member (js "error") members = none) :
    IsReply (.obj members) := .inr ⟨members, rfl, h⟩

theorem not_isError_obj {members : Members} (h : member (js "error") members = none) :
    ¬ IsError (.obj members) := by
  rintro ⟨text, htext⟩
  cases htext
  revert h
  simp [member]

/-- What a handler computes instead of throwing. -/
def Answers (response : Js Json) : Prop := ∃ v, response = .ok v ∧ IsReply v

/-- A waiting geo request is answered in the end, whatever happens to the bridge meanwhile. -/
def GeoAnswered (config : BridgeConfig P R) (attestation : PeerAttestation) (request : GeoRequest)
    (gate : Gate) : Prop :=
  ∀ geodesy nowBd outcome generatedId (bridge : GeoBridge R), AclUsable bridge.acl →
    Answers (resumeGeo config geodesy nowBd attestation request gate outcome generatedId bridge).1

/-- The promise of `handleMessage` resolves with an answer. -/
def Handled.Resolves (config : BridgeConfig P R) (attestation : PeerAttestation) : Handled → Prop
  | .replied response => Answers response
  | .geo request gate => GeoAnswered config attestation request gate

theorem answers_answerOf {c : Checked Json} (htyped : c.Typed)
    (hok : ∀ v, c = .ok v → IsReply v) : Answers (answerOf c) := by
  match hc : c with
  | .ok v => exact ⟨v, rfl, hok v rfl⟩
  | .error (.message text) => exact ⟨_, rfl, isReply_error text⟩
  | .error (.exception e) => exact absurd rfl (htyped e)

variable {bridge : GeoBridge R} {req v : Json} {server : Server R} (config : BridgeConfig P R)
  (geodesy : Geodesy) (nowBd : ℚ) (clock : Clock) (members : Members)
  (attestation : PeerAttestation) (request : GeoRequest)

theorem isReply_serveGeo (bridge : GeoBridge R) :
    IsReply (serveGeo config geodesy nowBd attestation request bridge).1 := by
  unfold serveGeo
  cases request with
  | proximity zoneId =>
    dsimp only
    split
    · exact isReply_error _
    · exact isReply_error _
    · exact isReply_obj rfl
  | zone =>
    dsimp only
    split
    · exact isReply_error _
    · exact isReply_obj rfl
  | get format =>
    dsimp only
    split
    · exact isReply_error _
    · exact isReply_obj rfl
  | refresh timeoutSeconds =>
    dsimp only
    split
    · exact isReply_error _
    · exact isReply_obj rfl

theorem geoAnswered {gate : Gate} (hgate : UsableGate gate) :
    GeoAnswered config attestation request gate := by
  intro geodesy nowBd outcome generatedId bridge hacl
  unfold resumeGeo
  cases gate with
  | granted => exact ⟨_, rfl, isReply_serveGeo ..⟩
  | refused error => exact ⟨_, rfl, isReply_error _⟩
  | prompting existing =>
    obtain ⟨gate, bridge', hanswer, -, hgate'⟩ := handlePromptOutcome_usable config hacl nowBd
      attestation request hgate outcome generatedId
    dsimp only
    rw [hanswer]
    rcases hgate' with rfl | ⟨error, rfl⟩
    · exact ⟨_, rfl, isReply_serveGeo ..⟩
    · exact ⟨_, rfl, isReply_error _⟩

theorem typed_geoRequest (command : Command) (members : Members) :
    (geoRequest command (.obj members)).Typed := by
  have hmember := fun name ↦ typed_checkedProperty (v := .obj members) (by simp) name
  unfold geoRequest
  split
  · refine typed_bind (hmember _) fun zone _ ↦ ?_
    refine typed_bind (typed_requireString _ _) fun zoneId _ ↦ ?_
    refine typed_bind (typed_requireThat _ _) fun _ _ ↦ ?_
    exact typed_ok _
  · exact typed_ok _
  · refine typed_bind (hmember _) fun format _ ↦ ?_
    split
    · exact typed_ok _
    · exact typed_ok _
    · split
      · exact typed_ok _
      · split
        · exact typed_ok _
        · split
          · exact typed_ok _
          · exact typed_message _
    · exact typed_message _
  · refine typed_bind (hmember _) fun timeout _ ↦ ?_
    split
    · exact typed_ok _
    · exact typed_ok _

/-- A gated handler answers, and keeps the ACL document usable. -/
theorem startGeo_resolves (command : Command)
    (members : Members) (hacl : AclUsable bridge.acl)
    (conn : ConnectionState) :
    (startGeo config nowBd command (.obj members) bridge conn).1.Resolves config
      conn.attestation := by
  unfold startGeo
  split
  · exact ⟨_, rfl, isReply_error _⟩
  · cases hrequest : geoRequest command (.obj members) with
    | error refusal =>
      cases refusal with
      | message text => exact ⟨_, rfl, isReply_error text⟩
      | exception e => exact absurd hrequest (typed_geoRequest command members e)
    | ok request =>
      obtain ⟨gate, bridge', hgate, -, husable⟩ :=
        gateScope_usable config hacl nowBd conn.attestation request
      dsimp only
      rw [hgate]
      exact geoAnswered config conn.attestation request husable

/-! ## Sessions -/

theorem handleLinkRegister_answers_iff (hP : P.Correct) (hpoints : P.PointsAgree)
    (config : BridgeConfig P R) (hrng : config.RngOk) (nowUnix : ℤ) (members : Members)
    (state : BridgeState R) (conn : ConnectionState) :
    Answers (handleLinkRegister config nowUnix (.obj members) state conn).1 ↔
      RegistrationEncodable config nowUnix (.obj members) := by
  unfold RegistrationEncodable
  rw [← typed_checkRegistration_iff config nowUnix]
  unfold handleLinkRegister
  cases hcheck : checkRegistration config nowUnix (.obj members) with
  | error refusal =>
    cases refusal with
    | message text =>
      refine iff_of_true ⟨_, rfl, isReply_error text⟩ ⟨typed_message text, ?_⟩
      intro nonce plaintext h
      cases h
    | exception e =>
      refine iff_of_false ?_ fun h ↦ h.1 e rfl
      rintro ⟨v, hv, -⟩
      cases hv
  | ok checked =>
    obtain ⟨nonce, plaintext⟩ := checked
    obtain ⟨hnonce, hpub, hshare, httl⟩ := checkRegistration_lengths hcheck
    have hagree := agreeSession_isOk hP config nowUnix hnonce hpub hshare
      (hrng.length (config.rng state.rng linkShareLength).2 linkSessionIdLength)
      (hrng.length state.rng linkShareLength) httl
    have hencrypt := encryptBasicEnvelope_isOk hP hpoints config hrng
      (config.rng state.rng linkShareLength).1 plaintext.clientPub
      (config.rng (config.rng state.rng linkShareLength).2 linkSessionIdLength).2
    have hcondition : (Checked.Typed (.ok (nonce, plaintext)) ∧ ∀ nonce' plaintext',
        (.ok (nonce, plaintext) : Checked _) = .ok (nonce', plaintext') →
          TimesEncodable config.double plaintext'.issuedAtBd nowUnix ∧
            (P.secpSharedX config.secp256k1Key.priv plaintext'.clientPub).isSome = true) ↔
        TimesEncodable config.double plaintext.issuedAtBd nowUnix ∧
          (P.secpSharedX config.secp256k1Key.priv plaintext.clientPub).isSome = true := by
      constructor
      · exact fun h ↦ h.2 nonce plaintext rfl
      · intro h
        refine ⟨typed_ok _, fun nonce' plaintext' heq ↦ ?_⟩
        cases heq
        exact h
    rw [hcondition, ← hagree, ← hencrypt]
    dsimp only
    generalize agreeSession config nowUnix nonce plaintext _ _ = agreed
    generalize encryptBasicEnvelopeToClient config _ plaintext.clientPub _ = sealed
    cases agreed with
    | error e =>
      refine iff_of_false ?_ ?_
      · rintro ⟨v, hv, -⟩
        cases hv
      · rintro ⟨⟨keys, hkeys⟩, -⟩
        cases hkeys
    | ok keys =>
      obtain ⟨envelope, rng⟩ := sealed
      cases envelope with
      | error e =>
        refine iff_of_false ?_ ?_
        · rintro ⟨v, hv, -⟩
          cases hv
        · rintro ⟨-, envelope, henvelope⟩
          cases henvelope
      | ok envelope => exact iff_of_true ⟨_, rfl, isReply_obj rfl⟩ ⟨⟨_, rfl⟩, _, rfl⟩

theorem handleLinkRegister_error {config : BridgeConfig P R} {nowUnix : ℤ}
    {state : BridgeState R} {conn : ConnectionState}
    (h : (handleLinkRegister config nowUnix req state conn).1 = .ok v) (herror : IsError v) :
    (handleLinkRegister config nowUnix req state conn).2.2 = conn := by
  unfold handleLinkRegister at h ⊢
  split
  · rfl
  · rfl
  · next hcheck =>
    rw [hcheck] at h
    dsimp only at h ⊢
    split
    · rfl
    · next hagree =>
      rw [hagree] at h
      split
      · rfl
      · next hsealed =>
        rw [hsealed] at h
        cases h
        exact absurd herror (not_isError_obj rfl)

/-- The session of a connection that has not expired. -/
def LiveSession (conn : ConnectionState) (nowUnix : ℤ) (session : LinkSession) : Prop :=
  conn.linkSession = some session ∧ ¬ session.expiresAtUnix < nowUnix

theorem handleLinkDeliver_answers_iff (nowUnix : ℤ)
    (members : Members) (state : BridgeState R) (conn : ConnectionState) :
    Answers (handleLinkDeliver config nowUnix (.obj members) state conn).1 ↔
      ∀ session, LiveSession conn nowUnix session → CounterReadable members := by
  unfold handleLinkDeliver
  cases hsession : conn.linkSession with
  | none =>
    refine iff_of_true ⟨_, rfl, isReply_error _⟩ ?_
    rintro session ⟨h, -⟩
    cases hsession.symm.trans h
  | some session =>
    dsimp only
    by_cases hexpired : session.expiresAtUnix < nowUnix
    · rw [if_pos hexpired]
      refine iff_of_true ⟨_, rfl, isReply_error _⟩ ?_
      rintro session' ⟨h, hlive⟩
      cases hsession.symm.trans h
      exact absurd hexpired hlive
    · rw [if_neg hexpired]
      have hreadable : (∀ session', LiveSession conn nowUnix session' → CounterReadable members) ↔
          CounterReadable members :=
        ⟨fun h ↦ h session ⟨hsession, hexpired⟩, fun h _ _ ↦ h⟩
      rw [hreadable, ← not_iff_not, ← acceptDelivery_throws_iff P session members]
      match haccept : acceptDelivery P session (.obj members) with
      | .error (.exception e) =>
        refine iff_of_true ?_ ⟨e, rfl⟩
        rintro ⟨v, hv, -⟩
        cases hv
      | .error (.ingestFailed reason message) =>
        refine iff_of_false (not_not.mpr ⟨_, rfl, isReply_error message⟩) ?_
        rintro ⟨e, he⟩
        cases he
      | .ok (fields, plaintext) =>
        refine iff_of_false (not_not.mpr ⟨_, rfl, isReply_obj rfl⟩) ?_
        rintro ⟨e, he⟩
        cases he

/-- The audit record of a delivery that is refused. -/
def ingestFailedEvent (session : LinkSession) (reason : JsString) : AuditEvent :=
  ⟨js "link_deliver_failed", some (hex session.sessionId), .obj [(js "reason", .str reason)]⟩

/-- A refused delivery changes nothing but the audit log, and that for a live session only. -/
theorem handleLinkDeliver_error {config : BridgeConfig P R} {nowUnix : ℤ}
    {state : BridgeState R} {conn : ConnectionState}
    (h : (handleLinkDeliver config nowUnix req state conn).1 = .ok v) (herror : IsError v) :
    (handleLinkDeliver config nowUnix req state conn).2.2 = conn ∧
      ∀ session, LiveSession conn nowUnix session → ∃ reason,
        (handleLinkDeliver config nowUnix req state conn).2.1.auditLog =
          state.auditLog ++ [ingestFailedEvent session reason] := by
  unfold handleLinkDeliver at h ⊢
  cases hsession : conn.linkSession with
  | none =>
    refine ⟨rfl, ?_⟩
    rintro session ⟨hlive, -⟩
    cases hsession.symm.trans hlive
  | some session =>
    rw [hsession] at h
    dsimp only at h ⊢
    by_cases hexpired : session.expiresAtUnix < nowUnix
    · rw [if_pos hexpired]
      refine ⟨rfl, ?_⟩
      rintro session' ⟨hlive, hfuture⟩
      cases hsession.symm.trans hlive
      exact absurd hexpired hfuture
    · rw [if_neg hexpired] at h ⊢
      match haccept : acceptDelivery P session req with
      | .error (.exception e) =>
        rw [haccept] at h
        cases h
      | .error (.ingestFailed reason message) =>
        refine ⟨rfl, ?_⟩
        rintro session' ⟨hlive, -⟩
        cases hsession.symm.trans hlive
        exact ⟨reason, rfl⟩
      | .ok (fields, plaintext) =>
        rw [haccept] at h
        cases h
        exact absurd herror (not_isError_obj rfl)

/-! ## Messages -/

/-- The command that a request names. -/
def requested (members : Members) : Option Command :=
  match member (js "cmd") members with
  | some (.str cmd) => commandOf cmd
  | _ => none

/-- What `handleMessage` promises: an answer, and after a refusal the session as it was; a refused
delivery is audited if the session is live. -/
def AnswersSoundly (config : BridgeConfig P R) (clock : Clock) (data : Bytes) (members : Members)
    (bridge : GeoBridge R) (conn : ConnectionState) : Prop :=
  (handleMessage config clock data bridge conn).1.Resolves config conn.attestation ∧
    ∀ v, (handleMessage config clock data bridge conn).1 = .replied (.ok v) → IsError v →
      (requested members = some .linkDeliver →
        (handleMessage config clock data bridge conn).2.2 = conn ∧
          ∀ session, LiveSession conn clock.nowUnix session → ∃ reason,
            (handleMessage config clock data bridge conn).2.1.auditLog =
              bridge.auditLog ++ [ingestFailedEvent session reason]) ∧
        (requested members = some .linkRegister →
          (handleMessage config clock data bridge conn).2.2 = conn)

/-- The values that the two session handlers convert without a check convert. -/
def Convertible (config : BridgeConfig P R) (nowUnix : ℤ) (members : Members)
    (conn : ConnectionState) : Prop :=
  (requested members = some .linkRegister →
    RegistrationEncodable config nowUnix (.obj members)) ∧
    (requested members = some .linkDeliver →
      ∀ session, LiveSession conn nowUnix session → CounterReadable members)

theorem typed_handleEnclaveSign :
    (handleEnclaveSign config (.obj members)).Typed :=
  typed_bind (typed_requireBytes _ _ members) fun _ _ ↦ typed_ok _

theorem typed_handleEnclaveDecrypt :
    (handleEnclaveDecrypt config (.obj members)).Typed := by
  refine typed_bind (typed_requireBytes _ _ members) fun envelope _ ↦ ?_
  split
  · exact typed_ok _
  · exact typed_message _

theorem typed_handleExportKey :
    (handleExportKey config (.obj members)).Typed := by
  refine typed_bind (typed_checkedProperty (by simp) _) fun p _ ↦ ?_
  refine typed_bind (typed_requireString _ _) fun keyId _ ↦ ?_
  split
  · exact typed_ok _
  · split
    · exact typed_ok _
    · exact typed_message _

theorem isReply_handleEnclaveSign {config : BridgeConfig P R}
    (h : handleEnclaveSign config req = .ok v) : IsReply v := by
  obtain ⟨data, -, h⟩ := bind_eq_ok.mp h
  cases h
  exact isReply_obj rfl

theorem isReply_handleEnclaveDecrypt {config : BridgeConfig P R}
    (h : handleEnclaveDecrypt config req = .ok v) : IsReply v := by
  obtain ⟨envelope, -, h⟩ := bind_eq_ok.mp h
  split at h
  · cases h
    exact isReply_obj rfl
  · cases h

theorem isReply_handleExportKey {config : BridgeConfig P R}
    (h : handleExportKey config req = .ok v) : IsReply v := by
  obtain ⟨p, -, h⟩ := bind_eq_ok.mp h
  obtain ⟨keyId, -, h⟩ := bind_eq_ok.mp h
  split at h
  · cases h
    exact isReply_obj rfl
  · split at h
    · cases h
      exact isReply_obj rfl
    · cases h

theorem answers_handleSetPeerPublicKey (conn : ConnectionState) :
    Answers (handleSetPeerPublicKey (.obj members) conn).1 := by
  unfold handleSetPeerPublicKey
  have htyped := typed_requireBytes "publicKey" "Missing or invalid publicKey" members
  match hkey : requireBytes "publicKey" _ (.obj members) with
  | .ok key => exact ⟨_, rfl, isReply_obj rfl⟩
  | .error (.message text) => exact ⟨_, rfl, isReply_error text⟩
  | .error (.exception e) => exact absurd hkey (htyped e)

theorem dispatch_resolves {command : Command}
    (hregister : command ≠ .linkRegister) (hdeliver : command ≠ .linkDeliver) (members : Members) (hacl : AclUsable bridge.acl) (conn : ConnectionState) :
    (dispatch config clock command (.obj members) bridge conn).1.Resolves config
      conn.attestation := by
  cases command with
  | linkRegister => exact absurd rfl hregister
  | linkDeliver => exact absurd rfl hdeliver
  | setPeerPublicKey => exact answers_handleSetPeerPublicKey members conn
  | enclaveSign =>
    exact answers_answerOf (typed_handleEnclaveSign config members)
      fun v ↦ isReply_handleEnclaveSign
  | enclaveDecrypt =>
    exact answers_answerOf (typed_handleEnclaveDecrypt config members)
      fun v ↦ isReply_handleEnclaveDecrypt
  | exportKey =>
    exact answers_answerOf (typed_handleExportKey config members)
      fun v ↦ isReply_handleExportKey
  | linkGeoStatus =>
    refine ⟨_, rfl, ?_⟩
    split
    · exact isReply_error _
    · exact isReply_obj rfl
  | linkGeoProximity => exact startGeo_resolves config _ .linkGeoProximity members hacl conn
  | linkGeoZone => exact startGeo_resolves config _ .linkGeoZone members hacl conn
  | linkGeoGet => exact startGeo_resolves config _ .linkGeoGet members hacl conn
  | linkGeoRefresh => exact startGeo_resolves config _ .linkGeoRefresh members hacl conn
  | enclaveGenerateKey => exact ⟨_, rfl, isReply_error _⟩
  | enclaveRotateKey => exact ⟨_, rfl, isReply_error _⟩
  | enableTotp => exact ⟨_, rfl, isReply_error _⟩
  | linkPush => exact ⟨_, rfl, isReply_error _⟩
  | linkAuditEmit => exact ⟨_, rfl, isReply_error _⟩
  | _ => exact ⟨_, rfl, isReply_obj rfl⟩

/-- A request object is answered soundly exactly if what it asks for converts. -/
theorem handleMessage_answersSoundly_iff (hP : P.Correct) (hpoints : P.PointsAgree)
    (config : BridgeConfig P R) (hrng : config.RngOk) (clock : Clock) {data : Bytes}
    {members : Members} (hparse : parse config.double (utf8Decode data) = some (.obj members)) (hacl : AclUsable bridge.acl) (conn : ConnectionState) :
    AnswersSoundly config clock data members bridge conn ↔
      Convertible config clock.nowUnix members conn := by
  cases hcommand : requested members with
  | none =>
    obtain ⟨text, hreply⟩ : ∃ text, handleMessage config clock data bridge conn =
        (.replied (.ok (errorResponse text)), bridge, conn) := by
      unfold requested at hcommand
      unfold handleMessage handleRequest
      rw [hparse]
      cases hmember : member (js "cmd") members with
      | none => exact ⟨invalidRequestFormat, by simp only [property, hmember]⟩
      | some cmd =>
        rw [hmember] at hcommand
        cases cmd with
        | str text =>
          exact ⟨unknownCommandPrefix ++ text, by simp only [property, hmember, hcommand]⟩
        | _ => exact ⟨invalidRequestFormat, by simp only [property, hmember]⟩
    unfold AnswersSoundly Convertible
    rw [hreply, hcommand]
    refine iff_of_true ⟨⟨_, rfl, isReply_error text⟩, fun v _ _ ↦ ⟨?_, ?_⟩⟩ ⟨?_, ?_⟩
    all_goals intro h; cases h
  | some command =>
    have hdispatch : handleMessage config clock data bridge conn =
        dispatch config clock command (.obj members) bridge conn := by
      unfold requested at hcommand
      unfold handleMessage handleRequest
      rw [hparse]
      cases hmember : member (js "cmd") members with
      | none =>
        rw [hmember] at hcommand
        cases hcommand
      | some cmd =>
        rw [hmember] at hcommand
        cases cmd with
        | str text => simp only [property, hmember, hcommand]
        | _ => cases hcommand
    unfold AnswersSoundly Convertible
    rw [hdispatch, hcommand]
    by_cases hregister : command = .linkRegister
    · subst hregister
      have hiff := handleLinkRegister_answers_iff hP hpoints config hrng clock.nowUnix members
        bridge.toBridgeState conn
      constructor
      · exact fun h ↦ ⟨fun _ ↦ hiff.mp h.1, fun h' ↦ (by cases h')⟩
      · intro h
        refine ⟨hiff.mpr (h.1 rfl), fun v hv herror ↦ ⟨fun h' ↦ (by cases h'), fun _ ↦ ?_⟩⟩
        exact handleLinkRegister_error (Handled.replied.inj hv) herror
    · by_cases hdeliver : command = .linkDeliver
      · subst hdeliver
        have hiff := handleLinkDeliver_answers_iff config clock.nowUnix members
          bridge.toBridgeState conn
        constructor
        · exact fun h ↦ ⟨fun h' ↦ (by cases h'), fun _ ↦ hiff.mp h.1⟩
        · intro h
          refine ⟨hiff.mpr (h.2 rfl), fun v hv herror ↦ ⟨fun _ ↦ ?_, fun h' ↦ (by cases h')⟩⟩
          exact handleLinkDeliver_error (Handled.replied.inj hv) herror
      · refine iff_of_true ⟨dispatch_resolves config clock hregister hdeliver members hacl conn,
          fun v _ _ ↦ ⟨?_, ?_⟩⟩ ⟨?_, ?_⟩
        · exact fun h ↦ absurd (Option.some.inj h) hdeliver
        · exact fun h ↦ absurd (Option.some.inj h) hregister
        · exact fun h ↦ absurd (Option.some.inj h) hregister
        · exact fun h ↦ absurd (Option.some.inj h) hdeliver

/-! ## Runs -/

/-- A server whose document can be read and written, and whose prompts hold usable entries. -/
structure UsableServer (server : Server R) : Prop where
  acl : AclUsable server.bridge.acl
  jobs : ∀ job ∈ server.jobs, UsableGate job.gate

def UsableHandled : Handled → Prop
  | .replied _ => True
  | .geo _ gate => UsableGate gate

theorem startGeo_usable (command : Command) (req : Json) (hacl : AclUsable bridge.acl) (conn : ConnectionState) :
    AclUsable (startGeo config nowBd command req bridge conn).2.acl ∧
      UsableHandled (startGeo config nowBd command req bridge conn).1 := by
  unfold startGeo
  split
  · exact ⟨hacl, trivial⟩
  · split
    · exact ⟨hacl, trivial⟩
    · next request _ =>
      obtain ⟨gate, bridge', hgate, hacl', husable⟩ :=
        gateScope_usable config hacl nowBd conn.attestation request
      rw [hgate]
      exact ⟨hacl', husable⟩

theorem handleMessage_usable (data : Bytes) (hacl : AclUsable bridge.acl) (conn : ConnectionState) :
    AclUsable (handleMessage config clock data bridge conn).2.1.acl ∧
      UsableHandled (handleMessage config clock data bridge conn).1 := by
  unfold handleMessage
  split
  · exact ⟨hacl, trivial⟩
  · unfold handleRequest
    split
    · exact ⟨hacl, trivial⟩
    · split
      · next req _ _ _ _ _ command _ =>
        cases command with
        | linkGeoProximity => exact startGeo_usable config _ .linkGeoProximity req hacl conn
        | linkGeoZone => exact startGeo_usable config _ .linkGeoZone req hacl conn
        | linkGeoGet => exact startGeo_usable config _ .linkGeoGet req hacl conn
        | linkGeoRefresh => exact startGeo_usable config _ .linkGeoRefresh req hacl conn
        | _ => exact ⟨hacl, trivial⟩
      · exact ⟨hacl, trivial⟩
    · exact ⟨hacl, trivial⟩

/-- Neither the document nor the waiting requests change. -/
structure SameRequests (server server' : Server R) : Prop where
  acl : server'.bridge.acl = server.bridge.acl
  jobs : server'.jobs = server.jobs

namespace SameRequests

theorem trans {a b c : Server R} (hab : SameRequests a b) (hbc : SameRequests b c) :
    SameRequests a c :=
  ⟨hbc.acl.trans hab.acl, hbc.jobs.trans hab.jobs⟩

theorem usable {server server' : Server R} (h : SameRequests server server')
    (husable : UsableServer server) : UsableServer server' := by
  refine ⟨?_, ?_⟩
  · rw [h.acl]
    exact husable.acl
  · rw [h.jobs]
    exact husable.jobs

theorem write (server : Server R) (socket : ℕ) (bytes : Bytes) :
    SameRequests server (server.write socket bytes) := by
  unfold Server.write
  split
  · exact ⟨rfl, rfl⟩
  · exact ⟨rfl, rfl⟩

theorem writeAll (socket : ℕ) (replies : List Bytes) (server : Server R) :
    SameRequests server (replies.foldl (fun server reply ↦ server.write socket reply) server) := by
  induction replies generalizing server with
  | nil => exact ⟨rfl, rfl⟩
  | cons reply replies ih => exact (write server socket reply).trans (ih _)

theorem auditReply (server : Server R) (response : Js Json) :
    SameRequests server (server.auditReply response) := by
  cases response <;> exact ⟨rfl, rfl⟩

theorem handleLinkPush (socket : ℕ) (req : Json) (conn : ConnectionState) (server : Server R) :
    SameRequests server (Server.handleLinkPush socket req conn server) := by
  unfold Server.handleLinkPush
  dsimp only
  split
  · next session events _ _ =>
    have hsame : SameRequests server (server.subscribe socket conn session events) := ⟨rfl, rfl⟩
    exact hsame.trans (write ..)
  · exact write ..

theorem pushTo (config : BridgeConfig P R) (event : JsString) (body : Bytes)
    (sub : PushSubscription) (server : Server R) :
    SameRequests server (Server.pushTo config event body sub server).2 := by
  unfold Server.pushTo
  split
  · exact ⟨rfl, rfl⟩
  · split
    · split
      · exact ⟨rfl, rfl⟩
      · next peer _ _ _ session _ =>
        dsimp only
        split
        · exact ⟨rfl, rfl⟩
        · split
          · exact ⟨rfl, rfl⟩
          · have hsame : SameRequests server
                (server.countFrame config sub.socket peer.conn session).2 := ⟨rfl, rfl⟩
            exact hsame.trans (write ..)
    · exact ⟨rfl, rfl⟩

theorem broadcastTo (config : BridgeConfig P R) (event : JsString) (body : Bytes)
    (subs : List PushSubscription) (server : Server R) :
    SameRequests server (Server.broadcastTo config event body subs server) := by
  induction subs generalizing server with
  | nil => exact ⟨rfl, rfl⟩
  | cons sub subs ih =>
    have hpush := pushTo config event body sub server
    unfold Server.broadcastTo
    split
    · next h =>
      rw [h] at hpush
      exact hpush
    · next h =>
      rw [h] at hpush
      exact hpush.trans (ih _)

theorem broadcastZoneTransition (config : BridgeConfig P R) (transition : Option ZoneTransition)
    (server : Server R) : SameRequests server (server.broadcastZoneTransition config transition) := by
  unfold Server.broadcastZoneTransition
  split
  · exact ⟨rfl, rfl⟩
  · exact broadcastTo ..

end SameRequests

theorem usable_processMessage (h : UsableServer server)
    (config : BridgeConfig P R) (clock : Clock) (socket : ℕ) (message : Bytes) :
    UsableServer (Server.processMessage config clock socket message server).1 := by
  unfold Server.processMessage
  split
  · exact h
  · next peer _ =>
    obtain ⟨hacl, hhandled⟩ := handleMessage_usable config clock message h.acl peer.conn
    have hafter : UsableServer (Server.afterMessage server socket
        (handleMessage config clock message server.bridge peer.conn).1
        (handleMessage config clock message server.bridge peer.conn).2.1
        (handleMessage config clock message server.bridge peer.conn).2.2).1 := by
      generalize handleMessage config clock message server.bridge peer.conn = result at *
      obtain ⟨handled, bridge, conn⟩ := result
      cases handled with
      | replied response =>
        exact (SameRequests.auditReply _ response).usable ⟨hacl, h.jobs⟩
      | geo request gate =>
        refine ⟨hacl, fun job hjob ↦ ?_⟩
        rcases List.mem_append.mp hjob with hjob | hjob
        · exact h.jobs job hjob
        · rw [List.mem_singleton.mp hjob]
          exact hhandled
    split
    · exact hafter
    · split
      · exact h
      · split
        · exact (SameRequests.handleLinkPush ..).usable h
        · exact hafter

theorem usable_processMessages (socket : ℕ)
    (messages : List Bytes) (h : UsableServer server) :
    UsableServer (Server.processMessages config clock socket messages server).1 := by
  induction messages generalizing server with
  | nil => exact h
  | cons message messages ih => exact ih (usable_processMessage h config clock socket message)

theorem evaluateZoneTransition_acl (bridge : GeoBridge R) :
    (evaluateZoneTransition geodesy bridge).2.acl = bridge.acl := by
  unfold evaluateZoneTransition
  split
  · rfl
  · dsimp only
    split <;> rfl

theorem serveGeo_acl (bridge : GeoBridge R) :
    (serveGeo config geodesy nowBd attestation request bridge).2.1.acl = bridge.acl := by
  unfold serveGeo
  cases request with
  | proximity zoneId =>
    dsimp only
    split <;> rfl
  | zone =>
    dsimp only
    split
    · rfl
    · exact evaluateZoneTransition_acl geodesy bridge
  | get format =>
    dsimp only
    split <;> rfl
  | refresh timeoutSeconds =>
    dsimp only
    split <;> rfl

theorem resumeGeo_usable {gate : Gate}
    (hgate : UsableGate gate) (outcome : PromptOutcome) (generatedId : JsString) (hacl : AclUsable bridge.acl) :
    AclUsable (resumeGeo config geodesy nowBd attestation request gate outcome generatedId
      bridge).2.1.acl := by
  unfold resumeGeo
  cases gate with
  | granted => exact (serveGeo_acl config geodesy nowBd attestation request bridge).symm ▸ hacl
  | refused error => exact hacl
  | prompting existing =>
    obtain ⟨gate, bridge', hanswer, hacl', hgate'⟩ := handlePromptOutcome_usable config hacl nowBd
      attestation request hgate outcome generatedId
    dsimp only
    rw [hanswer]
    rcases hgate' with rfl | ⟨error, rfl⟩
    · exact (serveGeo_acl config geodesy nowBd attestation request bridge').symm ▸ hacl'
    · exact hacl'

theorem usable_resumeJob (h : UsableServer server)
    (config : BridgeConfig P R) (geodesy : Geodesy) (clock : Clock) (index : ℕ)
    (outcome : PromptOutcome) (generatedId : JsString) :
    UsableServer (server.resumeJob config geodesy clock index outcome generatedId) := by
  unfold Server.resumeJob
  split
  · exact h
  · next job hjob =>
    split
    · exact h
    · next peer _ =>
      have hacl := resumeGeo_usable config geodesy
        (nowBrightDate config.double clock.nowUnix) peer.conn.attestation job.request
        (h.jobs job (List.mem_of_getElem? hjob)) outcome generatedId h.acl
      generalize resumeGeo config geodesy _ _ job.request job.gate outcome
        generatedId server.bridge = resumed at *
      obtain ⟨response, bridge, transition⟩ := resumed
      have hresumed : UsableServer
          { server with bridge := bridge, jobs := server.jobs.eraseIdx index } :=
        ⟨hacl, fun job hjob ↦ h.jobs job (List.mem_of_mem_eraseIdx hjob)⟩
      exact (((SameRequests.broadcastZoneTransition config transition _).trans
        (.auditReply _ response)).trans (.write ..)).usable hresumed

/-- The ACL is edited with entries, and loaded with documents, that every operation can use. -/
def UsableEdit (config : BridgeConfig P R) (server : Server R) : ServerEvent → Prop
  | .aclUpsert entry => UsableEntry entry
  | .aclLoad bytes signature => AclUsable
      (server.bridge.acl.loadFromBytes config.double config.identity bytes signature).1
  | _ => True

theorem usable_evaluateZone (h : UsableServer server)
    (config : BridgeConfig P R) (geodesy : Geodesy) :
    UsableServer (server.evaluateZone config geodesy) := by
  exact (SameRequests.broadcastZoneTransition ..).usable
    ⟨(evaluateZoneTransition_acl geodesy server.bridge).symm ▸ h.acl, h.jobs⟩

theorem usable_serverStep (server : Server R)
    (event : ServerEvent) (h : UsableServer server) (hedit : UsableEdit config server event) :
    UsableServer (serverStep config geodesy server event) := by
  cases event with
  | connect attestation => exact ⟨h.acl, h.jobs⟩
  | data clock socket chunk =>
    unfold serverStep Server.receiveData
    dsimp only
    split
    · exact h
    · split
      · exact (SameRequests.writeAll ..).usable
          (usable_processMessages config clock socket _ ⟨h.acl, h.jobs⟩)
      · exact h
  | close socket =>
    unfold serverStep Server.cleanupConnection
    dsimp only
    split
    · split
      · exact h
      · split
        · exact ⟨h.acl, h.jobs⟩
        · exact ⟨h.acl, h.jobs⟩
    · exact h
  | resume clock job outcome generatedId =>
    exact usable_resumeJob h config geodesy clock job outcome generatedId
  | setFix fix =>
    have hfix : UsableServer
        { server with bridge := { server.bridge with fix := some fix } } := ⟨h.acl, h.jobs⟩
    exact usable_evaluateZone hfix config geodesy
  | clearFix => exact ⟨h.acl, h.jobs⟩
  | setZones zones => exact ⟨h.acl, h.jobs⟩
  | evaluateZone => exact usable_evaluateZone h config geodesy
  | aclUpsert entry =>
    obtain ⟨acl, hupsert, hacl⟩ := upsert_usable config.identity h.acl hedit
    refine ⟨?_, h.jobs⟩
    unfold serverStep
    dsimp only
    rw [hupsert]
    exact hacl
  | aclRemove id =>
    obtain ⟨acl, hremove, hacl⟩ := remove_usable config.identity h.acl id
    refine ⟨?_, h.jobs⟩
    unfold serverStep
    dsimp only
    rw [hremove]
    exact hacl
  | aclLoad bytes signature => exact ⟨hedit, h.jobs⟩

/-- Of two consecutive draws one is a valid key. -/
theorem Transparent.config_rngOk : Transparent.config.RngOk where
  length rng n := List.length_replicate
  key rng := by
    have hvalid (seed : ℕ) (h : UInt8.ofNat (seed + 1) ≠ 0) :
        Primitives.transparent.secpValid (List.replicate 32 (UInt8.ofNat (seed + 1))) = true := by
      have hne : List.replicate 32 (UInt8.ofNat (seed + 1)) ≠ List.replicate 32 0 :=
        fun heq ↦ h (List.replicate_right_inj (by decide) |>.mp heq)
      simp only [Primitives.transparent, Transparent.validKey, List.length_replicate, hne, ne_eq,
        not_false_eq_true, decide_true, Bool.and_self]
    have hdraw : drawPrivateKey Transparent.config Transparent.config.keyAttempts rng =
        if Primitives.transparent.secpValid (List.replicate 32 (UInt8.ofNat (rng + 1))) then
          (some (List.replicate 32 (UInt8.ofNat (rng + 1))), rng + 1)
        else if Primitives.transparent.secpValid
            (List.replicate 32 (UInt8.ofNat (rng + 1 + 1))) then
          (some (List.replicate 32 (UInt8.ofNat (rng + 1 + 1))), rng + 1 + 1)
        else (none, rng + 1 + 1) := rfl
    rw [hdraw]
    by_cases hfirst : UInt8.ofNat (rng + 1) = 0
    · have hsecond : UInt8.ofNat (rng + 1 + 1) ≠ 0 := by
        rw [UInt8.ofNat_add, hfirst]
        decide
      split
      · exact ⟨_, rfl⟩
      · rw [if_pos (hvalid (rng + 1) hsecond)]
        exact ⟨_, rfl⟩
    · rw [if_pos (hvalid rng hfirst)]
      exact ⟨_, rfl⟩

/-- A server with one registered connection. -/
def registeredServer : Server ℕ :=
  run (serverStep Transparent.config Transparent.geodesy) (Server.start Transparent.bridge)
    [.connect builtinPeer, .data Transparent.clock 0 Transparent.goodRegistration]

/-- A delivery with a fraction as its counter. -/
def fractionalDelivery : Bytes := objectBytes
  [(Bytes.ascii "cmd", Bytes.quoted (Bytes.ascii "LINK_DELIVER")),
    (Bytes.ascii "counter", Bytes.ascii "1.5"), (Bytes.ascii "type", Bytes.quoted []),
    (Bytes.ascii "context", Bytes.quoted []), (Bytes.ascii "iv", Bytes.quoted []),
    (Bytes.ascii "ciphertext", Bytes.quoted []), (Bytes.ascii "authTag", Bytes.quoted [])]

/-- The members of a request object. -/
def requestMembers (config : BridgeConfig P R) (data : Bytes) : Option Members :=
  match parse config.double (utf8Decode data) with
  | some (.obj members) => some members
  | _ => none

theorem parse_of_requestMembers {config : BridgeConfig P R} {data : Bytes} {members : Members}
    (h : requestMembers config data = some members) :
    parse config.double (utf8Decode data) = some (.obj members) := by
  unfold requestMembers at h
  split at h
  · next hparse =>
    rw [hparse]
    cases h
    rfl
  · cases h

end Bsh.Bridge
