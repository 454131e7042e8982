import Bsh.Bridge.Dispatch
import Bsh.Library.Run
import Bsh.Library.Selection

/-!
# Zone transitions

The engine tracks the zone of the last evaluation and emits an event where an evaluation finds
another.  Fixes, forced evaluations and `LINK_GEO_ZONE` requests evaluate; whatever else happens to
the server leaves the fix, the zone list and the tracker alone.  So the events of a run lead from
zone to zone.  The zone of a fix does not depend on the order of the zone list.
-/

namespace Bsh.Bridge

open Bsh.Library Bsh.BrightLink Utf Json List

variable {P : Primitives} {R : Type}

/-! ## The zone of a fix -/

/-- A zone goes before another: by its priority, or by its id where the priorities are equal. -/
def GoesBefore (a b : ZoneDefinition) : Prop :=
  zonePriority b < zonePriority a ∨ zonePriority a = zonePriority b ∧ a.id < b.id

instance : DecidableRel GoesBefore := fun _ _ ↦ inferInstanceAs (Decidable (_ ∨ _ ∧ _))

instance : IsTrans ZoneDefinition GoesBefore where
  trans a b c hab hbc := by
    obtain hab | ⟨hab, hid⟩ := hab
    · obtain hbc | ⟨hbc, -⟩ := hbc
      · exact .inl (hbc.trans hab)
      · exact .inl (hbc ▸ hab)
    · obtain hbc | ⟨hbc, hid'⟩ := hbc
      · exact .inl (hab ▸ hbc)
      · exact .inr ⟨hab.trans hbc, Std.lt_trans hid hid'⟩

instance : Std.Irrefl GoesBefore where
  irrefl a h := by
    obtain h | ⟨-, h⟩ := h
    · exact lt_irrefl _ h
    · exact Std.lt_irrefl h

theorem comparable_zones {zones : List ZoneDefinition} (hids : (zones.map (·.id)).Nodup) :
    Comparable GoesBefore zones := by
  intro a ha b hb hne
  have hid : a.id ≠ b.id := fun heq ↦ hne (inj_on_of_nodup_map hids ha hb heq)
  obtain hlt | heq | hgt := lt_trichotomy (zonePriority a) (zonePriority b)
  · exact .inr (.inl hlt)
  · obtain hlt | heq' | hgt := Std.lt_trichotomy a.id b.id
    · exact .inl (.inr ⟨heq, hlt⟩)
    · exact absurd heq' hid
    · exact .inr (.inr ⟨heq.symm, hgt⟩)
  · exact .inl (.inl hgt)

/-- The zones that contain a fix. -/
def containing (geodesy : Geodesy) (fix : GeoFix) (zones : List ZoneDefinition) :
    List ZoneDefinition :=
  zones.filter (pointInZone geodesy fix)

variable (config : BridgeConfig P R) (geodesy : Geodesy) (nowBd : ℚ)
  (attestation : PeerAttestation) (request : GeoRequest) (bridge : GeoBridge R)

/-- The loop of `currentZone` picks the zone that goes before all others that contain the fix. -/
theorem currentZone_eq_select (zones : List ZoneDefinition) (fix : GeoFix) :
    currentZone geodesy zones fix = select GoesBefore (containing geodesy fix zones) := by
  rw [currentZone, select, containing, foldl_filter]
  congr 1
  funext best zone
  cases pointInZone geodesy fix zone with
  | false => rfl
  | true =>
    cases best with
    | none => rfl
    | some b =>
      have hbeats : beats (some b) zone = true ↔ GoesBefore zone b := by
        rw [beats, Bool.or_eq_true, Bool.and_eq_true, decide_eq_true_eq, decide_eq_true_eq,
          decide_eq_true_eq]
        rfl
      rw [Bool.true_and, if_pos rfl, replaceBest]
      simp only [hbeats]

section CurrentZone

variable {geodesy : Geodesy} {zones : List ZoneDefinition}

theorem containing_subset (fix : GeoFix) : containing geodesy fix zones ⊆ zones :=
  List.filter_sublist.subset

/-- The highest priority that contains the fix, and the least id where it is not the only one. -/
theorem currentZone_eq_some_iff (hids : (zones.map (·.id)).Nodup) (fix : GeoFix)
    (zone : ZoneDefinition) :
    currentZone geodesy zones fix = some zone ↔
      zone ∈ zones ∧ pointInZone geodesy fix zone = true ∧
        ∀ other ∈ zones, pointInZone geodesy fix other = true → other ≠ zone →
          GoesBefore zone other := by
  rw [currentZone_eq_select,
    select_eq_some_iff ((comparable_zones hids).subset (containing_subset fix))]
  unfold IsBest containing
  simp only [mem_filter, and_imp, and_assoc]

theorem currentZone_eq_none_iff (fix : GeoFix) :
    currentZone geodesy zones fix = none ↔
      ∀ zone ∈ zones, pointInZone geodesy fix zone = false := by
  rw [currentZone_eq_select, select_eq_none_iff]
  unfold containing
  simp only [filter_eq_nil_iff, Bool.not_eq_true]

theorem currentZone_perm (hids : (zones.map (·.id)).Nodup) {zones' : List ZoneDefinition}
    (hperm : zones.Perm zones') (fix : GeoFix) :
    currentZone geodesy zones' fix = currentZone geodesy zones fix := by
  rw [currentZone_eq_select, currentZone_eq_select]
  exact select_perm ((comparable_zones hids).subset (containing_subset fix)) (hperm.filter _)

end CurrentZone

/-! ## One evaluation -/

/-- The zone that is tracked. -/
def GeoBridge.tracked (bridge : GeoBridge R) : Option JsString := bridge.zoneTracker.zoneId

/-- The id of the zone of a fix. -/
def currentZoneId (geodesy : Geodesy) (bridge : GeoBridge R) (fix : GeoFix) : Option JsString :=
  (currentZone geodesy bridge.zones fix).map ZoneDefinition.id

theorem evaluateZoneTransition_none {geodesy : Geodesy} {bridge : GeoBridge R}
    (h : (evaluateZoneTransition geodesy bridge).1 = none) :
    (evaluateZoneTransition geodesy bridge).2 = bridge := by
  unfold evaluateZoneTransition at h ⊢
  cases hfix : bridge.fix with
  | none => rfl
  | some fix =>
    rw [hfix] at h
    dsimp only at h ⊢
    split at h
    · next heq => rw [if_pos heq]
    · cases h

theorem evaluateZoneTransition_some {geodesy : Geodesy} {bridge : GeoBridge R}
    {event : ZoneTransition} (h : (evaluateZoneTransition geodesy bridge).1 = some event) :
    event.source = bridge.tracked ∧ event.target ≠ event.source ∧
      (evaluateZoneTransition geodesy bridge).2.tracked = event.target := by
  unfold evaluateZoneTransition at h ⊢
  cases hfix : bridge.fix with
  | none =>
    rw [hfix] at h
    cases h
  | some fix =>
    rw [hfix] at h
    dsimp only at h ⊢
    split at h
    · cases h
    · next hne =>
      cases h
      rw [if_neg hne]
      exact ⟨rfl, hne, rfl⟩

theorem evaluateZoneTransition_same :
    (evaluateZoneTransition geodesy bridge).2.fix = bridge.fix ∧
      (evaluateZoneTransition geodesy bridge).2.zones = bridge.zones := by
  unfold evaluateZoneTransition
  split
  · exact ⟨rfl, rfl⟩
  · dsimp only
    split
    · exact ⟨rfl, rfl⟩
    · exact ⟨rfl, rfl⟩

theorem tracked_evaluateZoneTransition {geodesy : Geodesy} {bridge : GeoBridge R} {fix : GeoFix}
    (hfix : bridge.fix = some fix) :
    (evaluateZoneTransition geodesy bridge).2.tracked = currentZoneId geodesy bridge fix := by
  unfold evaluateZoneTransition
  rw [hfix]
  dsimp only
  split
  · next heq => exact heq.symm
  · rfl

/-! ## What leaves the zones alone -/

/-- What an evaluation depends on. -/
def GeoBridge.geo (bridge : GeoBridge R) : Option GeoFix × List ZoneDefinition × ZoneTracker :=
  (bridge.fix, bridge.zones, bridge.zoneTracker)

theorem gateScope_geo :
    (gateScope config nowBd attestation request bridge).2.geo = bridge.geo := by
  unfold gateScope
  split
  · rfl
  · split
    · rfl
    · split
      · rfl
      · rfl
  · rfl
  · rfl
  · rfl

theorem settle_geo (nowBd : ℚ)
    (request : GeoRequest) (prompt : OpenPrompt) (policy : LinkGeoPolicy) (generatedId : JsString)
    (sshSessionId : Option JsString) (decision : String) (policyAtDecision : JsString)
    (more : Members) (gate : Gate) :
    (bridge.settle config nowBd request prompt policy generatedId sshSessionId decision
      policyAtDecision more gate).2.geo = bridge.geo := by
  unfold GeoBridge.settle
  split
  · rfl
  · rfl

theorem handlePromptOutcome_geo (existing : Option Json)
    (outcome : PromptOutcome) (generatedId : JsString) (bridge : GeoBridge R) :
    (handlePromptOutcome config nowBd attestation request existing outcome generatedId
      bridge).2.geo = bridge.geo := by
  cases outcome with
  | allowOnce => rfl
  | allowAlways => exact settle_geo ..
  | allowSession sshSessionId => exact settle_geo ..
  | deny => rfl
  | denyAlways => exact settle_geo ..
  | timeout => rfl

theorem startGeo_geo (command : Command) (req : Json)
    (bridge : GeoBridge R) (conn : ConnectionState) :
    (startGeo config nowBd command req bridge conn).2.geo = bridge.geo := by
  unfold startGeo
  split
  · rfl
  · split
    · rfl
    · next request _ =>
      have hgate := gateScope_geo config nowBd conn.attestation request bridge
      split
      · next h =>
        rw [h] at hgate
        exact hgate
      · next h =>
        rw [h] at hgate
        exact hgate

theorem dispatch_geo (clock : Clock) (command : Command) (req : Json)
    (bridge : GeoBridge R) (conn : ConnectionState) :
    (dispatch config clock command req bridge conn).2.1.geo = bridge.geo := by
  have hstart := startGeo_geo config (nowBrightDate config.double clock.nowUnix) command req bridge
    conn
  cases command with
  | linkGeoProximity => exact hstart
  | linkGeoZone => exact hstart
  | linkGeoGet => exact hstart
  | linkGeoRefresh => exact hstart
  | _ => rfl

theorem handleMessage_geo (clock : Clock) (data : Bytes)
    (bridge : GeoBridge R) (conn : ConnectionState) :
    (handleMessage config clock data bridge conn).2.1.geo = bridge.geo := by
  unfold handleMessage handleRequest
  split
  · rfl
  · split
    · rfl
    · split
      · exact dispatch_geo ..
      · rfl
    · rfl

/-! ## The server around the engine -/

/-- What an evaluation of the server depends on. -/
abbrev Server.geo (server : Server R) : Option GeoFix × List ZoneDefinition × ZoneTracker :=
  server.bridge.geo

namespace Server

variable (config : BridgeConfig P R) (clock : Clock) (socket : ℕ) (server : Server R)

theorem write_geo (socket : ℕ) (bytes : Bytes) :
    (server.write socket bytes).geo = server.geo := by
  unfold write
  split
  · rfl
  · rfl

theorem writeAll_geo (replies : List Bytes) (server : Server R) :
    (replies.foldl (fun server reply ↦ server.write socket reply) server).geo = server.geo := by
  induction replies generalizing server with
  | nil => rfl
  | cons reply replies ih => exact (ih _).trans (write_geo server socket reply)

theorem auditReply_geo (response : Js Json) :
    (server.auditReply response).geo = server.geo := by
  cases response with
  | ok response => rfl
  | error e => rfl

theorem handleLinkPush_geo (req : Json) (conn : ConnectionState)
    (server : Server R) : (handleLinkPush socket req conn server).geo = server.geo := by
  unfold handleLinkPush
  dsimp only
  split
  · exact write_geo ..
  · exact write_geo ..

theorem pushTo_geo (event : JsString) (body : Bytes)
    (sub : PushSubscription) (server : Server R) :
    (pushTo config event body sub server).2.geo = server.geo := by
  unfold pushTo
  split
  · rfl
  · split
    · split
      · rfl
      · dsimp only
        split
        · rfl
        · split
          · rfl
          · exact write_geo ..
    · rfl

theorem broadcastTo_geo (event : JsString) (body : Bytes)
    (subs : List PushSubscription) (server : Server R) :
    (broadcastTo config event body subs server).geo = server.geo := by
  induction subs generalizing server with
  | nil => rfl
  | cons sub subs ih =>
    have hpush := pushTo_geo config event body sub server
    unfold broadcastTo
    split
    · next h =>
      rw [h] at hpush
      exact hpush
    · next h =>
      rw [h] at hpush
      exact (ih _).trans hpush

theorem broadcastZoneTransition_geo
    (transition : Option ZoneTransition) (server : Server R) :
    (server.broadcastZoneTransition config transition).geo = server.geo := by
  cases transition with
  | none => rfl
  | some transition => exact broadcastTo_geo ..

theorem processMessage_geo
    (message : Bytes) (server : Server R) :
    (processMessage config clock socket message server).1.geo = server.geo := by
  have hafter (peer : Peer) : (afterMessage server socket
      (handleMessage config clock message server.bridge peer.conn).1
      (handleMessage config clock message server.bridge peer.conn).2.1
      (handleMessage config clock message server.bridge peer.conn).2.2).1.geo = server.geo := by
    have hhandled := handleMessage_geo config clock message server.bridge peer.conn
    generalize handleMessage config clock message server.bridge peer.conn = result at *
    obtain ⟨handled, bridge, conn⟩ := result
    cases handled with
    | replied response => exact (auditReply_geo _ response).trans hhandled
    | geo request gate => exact hhandled
  unfold processMessage
  split
  · rfl
  · split
    · exact hafter _
    · split
      · rfl
      · split
        · exact handleLinkPush_geo ..
        · exact hafter _

theorem processMessages_geo
    (messages : List Bytes) (server : Server R) :
    (processMessages config clock socket messages server).1.geo = server.geo := by
  induction messages generalizing server with
  | nil => rfl
  | cons message messages ih =>
    exact (ih _).trans (processMessage_geo config clock socket message server)

theorem receiveData_geo (chunk : Bytes)
    (server : Server R) : (server.receiveData config clock socket chunk).geo = server.geo := by
  unfold receiveData
  split
  · rfl
  · split
    · exact (writeAll_geo ..).trans (processMessages_geo ..)
    · rfl

theorem cleanupConnection_geo :
    (server.cleanupConnection socket).geo = server.geo := by
  unfold cleanupConnection
  split
  · rfl
  · split
    · rfl
    · rfl

end Server

/-! ## Events of a run -/

/-- The decision of a gate, once a prompt is answered, and the bridge behind it. -/
def decideGate (config : BridgeConfig P R) (nowBd : ℚ) (attestation : PeerAttestation)
    (request : GeoRequest) (gate : Gate) (outcome : PromptOutcome) (generatedId : JsString)
    (bridge : GeoBridge R) : Js Gate × GeoBridge R :=
  match gate with
  | .prompting existing =>
    handlePromptOutcome config nowBd attestation request existing outcome generatedId bridge
  | gate => (.ok gate, bridge)

theorem decideGate_geo (gate : Gate) (outcome : PromptOutcome) (generatedId : JsString)
    (bridge : GeoBridge R) :
    (decideGate config nowBd attestation request gate outcome generatedId bridge).2.geo =
      bridge.geo := by
  cases gate with
  | granted => rfl
  | refused error => rfl
  | prompting existing => exact handlePromptOutcome_geo ..

/-- A granted `LINK_GEO_ZONE` request with a fix evaluates; no other request does. -/
theorem serveGeo_geo :
    (serveGeo config geodesy nowBd attestation request bridge).2.2 =
        (if request = .zone then (evaluateZoneTransition geodesy bridge).1 else none) ∧
      (serveGeo config geodesy nowBd attestation request bridge).2.1.geo =
        if request = .zone then (evaluateZoneTransition geodesy bridge).2.geo else bridge.geo := by
  cases request with
  | proximity zoneId =>
    unfold serveGeo
    dsimp only
    split
    · exact ⟨rfl, rfl⟩
    · exact ⟨rfl, rfl⟩
    · exact ⟨rfl, rfl⟩
  | zone =>
    unfold serveGeo evaluateZoneTransition
    dsimp only
    split
    · exact ⟨rfl, rfl⟩
    · exact ⟨rfl, rfl⟩
  | get format =>
    unfold serveGeo
    dsimp only
    split
    · exact ⟨rfl, rfl⟩
    · exact ⟨rfl, rfl⟩
  | refresh timeoutSeconds =>
    unfold serveGeo
    dsimp only
    split
    · exact ⟨rfl, rfl⟩
    · exact ⟨rfl, rfl⟩

/-- The bridge that an event of the server evaluates. -/
def evaluated (config : BridgeConfig P R) (server : Server R) : ServerEvent → Option (GeoBridge R)
  | .setFix fix => some { server.bridge with fix := some fix }
  | .evaluateZone => some server.bridge
  | .resume clock index outcome generatedId =>
    match server.jobs[index]? with
    | none => none
    | some job =>
      match server.peers[job.socket]? with
      | none => none
      | some peer =>
        let (decided, bridge) := decideGate config (nowBrightDate config.double clock.nowUnix)
          peer.conn.attestation job.request job.gate outcome generatedId server.bridge
        match decided with
        | .ok .granted => if job.request = .zone then some bridge else none
        | _ => none
  | _ => none

/-- The transition that an event of the server emits. -/
def emitted (config : BridgeConfig P R) (geodesy : Geodesy) (server : Server R) :
    ServerEvent → Option ZoneTransition
  | .setFix fix => (evaluateZoneTransition geodesy { server.bridge with fix := some fix }).1
  | .evaluateZone => (evaluateZoneTransition geodesy server.bridge).1
  | .resume clock index outcome generatedId =>
    match server.jobs[index]? with
    | none => none
    | some job =>
      match server.peers[job.socket]? with
      | none => none
      | some peer =>
        (resumeGeo config geodesy (nowBrightDate config.double clock.nowUnix)
          peer.conn.attestation job.request job.gate outcome generatedId server.bridge).2.2
  | _ => none

section Step

variable (config : BridgeConfig P R) (geodesy : Geodesy) (server : Server R)

theorem resumeGeo_geo (nowBd : ℚ) (attestation : PeerAttestation) (request : GeoRequest)
    (gate : Gate) (outcome : PromptOutcome) (generatedId : JsString) (bridge : GeoBridge R) :
    ((resumeGeo config geodesy nowBd attestation request gate outcome generatedId bridge).2.2,
      (resumeGeo config geodesy nowBd attestation request gate outcome generatedId
        bridge).2.1.geo) =
      match decideGate config nowBd attestation request gate outcome generatedId bridge with
      | (.ok .granted, bridge) =>
        if request = .zone then
          ((evaluateZoneTransition geodesy bridge).1, (evaluateZoneTransition geodesy bridge).2.geo)
        else (none, bridge.geo)
      | (_, bridge) => (none, bridge.geo) := by
  have hresume : resumeGeo config geodesy nowBd attestation request gate outcome generatedId bridge =
      match decideGate config nowBd attestation request gate outcome generatedId bridge with
      | (.error e, bridge) => (.error e, bridge, none)
      | (.ok .granted, bridge) =>
        (.ok (serveGeo config geodesy nowBd attestation request bridge).1,
          (serveGeo config geodesy nowBd attestation request bridge).2)
      | (.ok (.refused error), bridge) => (.ok (errorResponse error.text), bridge, none)
      | (.ok (.prompting _), bridge) => (.error .typeError, bridge, none) := by
    unfold resumeGeo decideGate
    cases gate with
    | granted => rfl
    | refused error => rfl
    | prompting existing =>
      dsimp only
      generalize handlePromptOutcome config nowBd attestation request existing outcome generatedId
        bridge = r
      obtain ⟨_ | gate, bridge⟩ := r
      · rfl
      · cases gate with
        | granted => rfl
        | refused error => rfl
        | prompting existing => rfl
  rw [hresume]
  generalize decideGate config nowBd attestation request gate outcome generatedId bridge = r
  obtain ⟨_ | gate, bridge⟩ := r
  · rfl
  · cases gate with
    | granted =>
      obtain ⟨htransition, hgeo⟩ := serveGeo_geo config geodesy nowBd attestation request bridge
      rw [htransition, hgeo]
      split
      · rfl
      · rfl
    | refused error => rfl
    | prompting existing => rfl

theorem evaluated_none {event : ServerEvent} (h : evaluated config server event = none) :
    emitted config geodesy server event = none ∧
      (serverStep config geodesy server event).bridge.tracked = server.bridge.tracked := by
  have htracked {server' : Server R} (hgeo : server'.geo = server.geo) :
      server'.bridge.tracked = server.bridge.tracked :=
    congrArg (fun geo ↦ geo.2.2.zoneId) hgeo
  cases event with
  | connect attestation => exact ⟨rfl, rfl⟩
  | data clock socket chunk => exact ⟨rfl, htracked (Server.receiveData_geo ..)⟩
  | close socket =>
    refine ⟨rfl, htracked ?_⟩
    unfold serverStep
    dsimp only
    split
    · exact Server.cleanupConnection_geo ..
    · rfl
  | resume clock index outcome generatedId =>
    unfold evaluated at h
    unfold emitted serverStep Server.resumeJob
    dsimp only at h ⊢
    cases hjob : server.jobs[index]? with
    | none => exact ⟨rfl, rfl⟩
    | some job =>
      rw [hjob] at h
      dsimp only at h ⊢
      cases hpeer : server.peers[job.socket]? with
      | none => exact ⟨rfl, rfl⟩
      | some peer =>
        rw [hpeer] at h
        dsimp only at h ⊢
        have hgeo := resumeGeo_geo config geodesy (nowBrightDate config.double clock.nowUnix)
          peer.conn.attestation job.request job.gate outcome generatedId server.bridge
        have hdecide := decideGate_geo config (nowBrightDate config.double clock.nowUnix)
          peer.conn.attestation job.request job.gate outcome generatedId server.bridge
        generalize decideGate config _
          _ job.request job.gate outcome generatedId server.bridge = r at *
        generalize resumeGeo config geodesy _
          _ job.request job.gate outcome generatedId server.bridge = t at *
        obtain ⟨response, bridge, transition⟩ := t
        obtain ⟨decided, bridge'⟩ := r
        have hnone : (transition, bridge.geo) = (none, bridge'.geo) := by
          obtain _ | gate := decided
          · exact hgeo
          · cases gate with
            | granted =>
              dsimp only at h hgeo
              split at h
              · cases h
              · next hother =>
                rw [if_neg hother] at hgeo
                exact hgeo
            | refused error => exact hgeo
            | prompting existing => exact hgeo
        obtain ⟨rfl, hbridge⟩ := Prod.mk.inj hnone
        refine ⟨rfl, htracked ?_⟩
        calc
          _ = bridge.geo := (Server.write_geo ..).trans (Server.auditReply_geo ..)
          _ = bridge'.geo := hbridge
          _ = server.geo := hdecide
  | setFix fix => cases h
  | clearFix => exact ⟨rfl, rfl⟩
  | setZones zones => exact ⟨rfl, rfl⟩
  | evaluateZone => cases h
  | aclUpsert entry => exact ⟨rfl, rfl⟩
  | aclRemove id => exact ⟨rfl, rfl⟩
  | aclLoad bytes signature => exact ⟨rfl, rfl⟩

theorem evaluated_some {event : ServerEvent} {bridge : GeoBridge R}
    (h : evaluated config server event = some bridge) :
    bridge.tracked = server.bridge.tracked ∧
      emitted config geodesy server event = (evaluateZoneTransition geodesy bridge).1 ∧
      (serverStep config geodesy server event).geo =
        (evaluateZoneTransition geodesy bridge).2.geo := by
  cases event with
  | setFix fix =>
    cases h
    exact ⟨rfl, rfl, Server.broadcastZoneTransition_geo ..⟩
  | evaluateZone =>
    cases h
    exact ⟨rfl, rfl, Server.broadcastZoneTransition_geo ..⟩
  | resume clock index outcome generatedId =>
    unfold evaluated at h
    unfold emitted serverStep Server.resumeJob
    dsimp only at h ⊢
    cases hjob : server.jobs[index]? with
    | none =>
      rw [hjob] at h
      cases h
    | some job =>
      rw [hjob] at h
      dsimp only at h ⊢
      cases hpeer : server.peers[job.socket]? with
      | none =>
        rw [hpeer] at h
        cases h
      | some peer =>
        rw [hpeer] at h
        dsimp only at h ⊢
        have hgeo := resumeGeo_geo config geodesy (nowBrightDate config.double clock.nowUnix)
          peer.conn.attestation job.request job.gate outcome generatedId server.bridge
        have hdecide := decideGate_geo config (nowBrightDate config.double clock.nowUnix)
          peer.conn.attestation job.request job.gate outcome generatedId server.bridge
        generalize decideGate config _
          _ job.request job.gate outcome generatedId server.bridge = r at *
        generalize resumeGeo config geodesy _
          _ job.request job.gate outcome generatedId server.bridge = t at *
        obtain ⟨response, bridge', transition⟩ := t
        obtain ⟨decided, bridge''⟩ := r
        obtain _ | gate := decided
        · cases h
        · cases gate with
          | granted =>
            dsimp only at h hgeo
            split at h
            · next hzone =>
              cases h
              rw [if_pos hzone] at hgeo
              obtain ⟨rfl, hbridge⟩ := Prod.mk.inj hgeo
              refine ⟨congrArg (fun geo ↦ geo.2.2.zoneId) hdecide, rfl, ?_⟩
              calc
                _ = bridge'.geo := (Server.write_geo ..).trans
                  ((Server.auditReply_geo ..).trans (Server.broadcastZoneTransition_geo ..))
                _ = _ := hbridge
            · cases h
          | refused error => cases h
          | prompting existing => cases h
  | _ => cases h

end Step

/-! ## Runs -/

section Run

variable (config : BridgeConfig P R) (geodesy : Geodesy)

/-- The transitions of a run. -/
def transitions (server : Server R) (events : List ServerEvent) : List ZoneTransition :=
  emissions (serverStep config geodesy) (emitted config geodesy) server events

/-- They lead from the zone that is tracked first from zone to zone. -/
theorem trail_transitions (server : Server R) (events : List ServerEvent) :
    Trail ZoneTransition.source ZoneTransition.target server.bridge.tracked
      (transitions config geodesy server events) := by
  apply trail_emissions fun server : Server R ↦ server.bridge.tracked
  · intro server event h
    cases hevaluated : evaluated config server event with
    | none => exact (evaluated_none config geodesy server hevaluated).2
    | some bridge =>
      obtain ⟨htracked, hemitted, hgeo⟩ := evaluated_some config geodesy server hevaluated
      rw [hemitted] at h
      calc
        (serverStep config geodesy server event).bridge.tracked
          = (evaluateZoneTransition geodesy bridge).2.tracked :=
            congrArg (fun geo ↦ geo.2.2.zoneId) hgeo
        _ = bridge.tracked := by rw [evaluateZoneTransition_none h]
        _ = server.bridge.tracked := htracked
  · intro server event transition h
    cases hevaluated : evaluated config server event with
    | none =>
      rw [(evaluated_none config geodesy server hevaluated).1] at h
      cases h
    | some bridge =>
      obtain ⟨htracked, hemitted, hgeo⟩ := evaluated_some config geodesy server hevaluated
      rw [hemitted] at h
      obtain ⟨hsource, hmoves, htarget⟩ := evaluateZoneTransition_some h
      refine ⟨hsource.trans htracked, hmoves, ?_⟩
      calc
        (serverStep config geodesy server event).bridge.tracked
          = (evaluateZoneTransition geodesy bridge).2.tracked :=
            congrArg (fun geo ↦ geo.2.2.zoneId) hgeo
        _ = transition.target := htarget

/-- With a fix, an evaluation leaves the zone of the fix as the tracked one. -/
theorem tracked_serverStep {server : Server R} {event : ServerEvent} {bridge : GeoBridge R}
    (h : evaluated config server event = some bridge) {fix : GeoFix}
    (hfix : bridge.fix = some fix) :
    (serverStep config geodesy server event).bridge.fix = some fix ∧
      (serverStep config geodesy server event).bridge.tracked =
        currentZoneId geodesy (serverStep config geodesy server event).bridge fix := by
  obtain ⟨-, -, hgeo⟩ := evaluated_some config geodesy server h
  obtain ⟨hfix', hzones⟩ := evaluateZoneTransition_same geodesy bridge
  have hafter : (serverStep config geodesy server event).bridge.zones = bridge.zones :=
    (congrArg (fun geo ↦ geo.2.1) hgeo).trans hzones
  constructor
  · calc
      (serverStep config geodesy server event).bridge.fix
        = (evaluateZoneTransition geodesy bridge).2.fix := congrArg (fun geo ↦ geo.1) hgeo
      _ = bridge.fix := hfix'
      _ = some fix := hfix
  · calc
      (serverStep config geodesy server event).bridge.tracked
        = (evaluateZoneTransition geodesy bridge).2.tracked :=
          congrArg (fun geo ↦ geo.2.2.zoneId) hgeo
      _ = currentZoneId geodesy bridge fix := tracked_evaluateZoneTransition hfix
      _ = currentZoneId geodesy (serverStep config geodesy server event).bridge fix := by
        unfold currentZoneId
        rw [hafter]

/-- The transitions of a run from the start form a chain, every evaluation with a fix leaves the
zone of the fix as the tracked one, and the zone of a fix is the one that goes before all others
that contain it, in whatever order the zones are. -/
theorem zoneTransitions_chain (bridge : GeoBridge R) (events : List ServerEvent) :
    Trail ZoneTransition.source ZoneTransition.target none
        (transitions config geodesy (Server.start { bridge with zoneTracker := ⟨none, 0⟩ })
          events) ∧
      (∀ (server : Server R) (event : ServerEvent) (bridge' : GeoBridge R) (fix : GeoFix),
        evaluated config server event = some bridge' → bridge'.fix = some fix →
        (serverStep config geodesy server event).bridge.fix = some fix ∧
          (serverStep config geodesy server event).bridge.tracked =
            currentZoneId geodesy (serverStep config geodesy server event).bridge fix) ∧
      ∀ (zones : List ZoneDefinition) (fix : GeoFix), (zones.map (·.id)).Nodup →
        (∀ zone, currentZone geodesy zones fix = some zone ↔
          zone ∈ zones ∧ pointInZone geodesy fix zone = true ∧
            ∀ other ∈ zones, pointInZone geodesy fix other = true → other ≠ zone →
              GoesBefore zone other) ∧
        (currentZone geodesy zones fix = none ↔
          ∀ zone ∈ zones, pointInZone geodesy fix zone = false) ∧
        ∀ zones', zones.Perm zones' →
          currentZone geodesy zones' fix = currentZone geodesy zones fix := by
  refine ⟨trail_transitions config geodesy (Server.start { bridge with zoneTracker := ⟨none, 0⟩ })
    events, ?_, ?_⟩
  · intro server event bridge' fix h hfix
    exact tracked_serverStep config geodesy h hfix
  · intro zones fix hids
    exact ⟨currentZone_eq_some_iff hids fix, currentZone_eq_none_iff fix,
      fun zones' hperm ↦ currentZone_perm hids hperm fix⟩

end Run

/-! ## Two zones -/

namespace Transparent

/-- Two boxes around the origin. -/
def boxes : List ZoneDefinition :=
  [⟨js "wide", .bbox2d (-2) 2 (-2) 2, none⟩, ⟨js "near", .bbox2d (-1) 1 (-1) 1, some 20⟩]

def originFix : GeoFix := ⟨1, ⟨0, 0⟩, none, (0, 0, 0), 10⟩

/-- A fix enters the box of the higher priority, whichever comes first. -/
theorem boxes_chain :
    Trail ZoneTransition.source ZoneTransition.target none
        (transitions config geodesy (Server.start { bridge with zoneTracker := ⟨none, 0⟩ })
          [.setZones boxes, .setFix originFix, .evaluateZone]) ∧
      currentZone geodesy boxes.reverse originFix = currentZone geodesy boxes originFix := by
  obtain ⟨htrail, -, hzones⟩ := zoneTransitions_chain config geodesy bridge
    _
  obtain ⟨-, -, hperm⟩ := hzones boxes originFix (by decide)
  exact ⟨htrail, hperm boxes.reverse (reverse_perm boxes).symm⟩

end Transparent

end Bsh.Bridge
