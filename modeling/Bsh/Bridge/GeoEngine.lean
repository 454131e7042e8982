import Bsh.Bridge.AclPrompt
import Bsh.Bridge.Handlers

/-!
# The geo engine of the bridge

`geoEngine.ts` with the zone list, the pinned fix and the ACL it works on.  A request first passes
`gateScope`, which grants it, refuses it or waits for the user; the data is read when the request
goes on, which may be later.  Distances on the ellipsoid and the crossing of a polygon's edge are
floating-point geometry and a parameter.
-/

namespace Bsh.Bridge

open Bsh.Library Bsh.BrightLink Utf Json

/-! ## Fixes and zones -/

structure LatLon where
  lat : ℚ
  lon : ℚ
  deriving DecidableEq

/-- `GeoFix`, without the velocity. -/
structure GeoFix where
  brightdate : ℚ
  wgs84 : LatLon
  altM : Option ℚ
  ecef : ℚ × ℚ × ℚ
  accuracyM : ℚ
  deriving DecidableEq

/-- `ZoneShape`. -/
inductive ZoneShape where
  | circle2d (center : LatLon) (radiusM : ℚ)
  | cylinder3d (center : LatLon) (radiusM altitudeMinM altitudeMaxM : ℚ)
  | polygon2d (points : List LatLon)
  | bbox2d (latMin latMax lonMin lonMax : ℚ)
  deriving DecidableEq

structure ZoneDefinition where
  id : JsString
  shape : ZoneShape
  priority : Option ℚ
  deriving DecidableEq

/-- The floating-point geometry. -/
structure Geodesy where
  /-- The chord between two points on the ground is at most a radius. -/
  within : LatLon → LatLon → ℚ → Bool
  /-- A ray from a point to the east crosses the edge between two points. -/
  crosses : LatLon → LatLon → LatLon → Bool

/-- `LINK_ZONE_DEFAULT_PRIORITY`. -/
def defaultPriority : ZoneShape → ℚ
  | .circle2d .. => 100
  | .cylinder3d .. => 200
  | .polygon2d _ => 50
  | .bbox2d .. => 10

def zonePriority (zone : ZoneDefinition) : ℚ := zone.priority.getD (defaultPriority zone.shape)

/-- `pointInPolygon`: the number of edges that a ray crosses is odd. -/
def pointInPolygon (geodesy : Geodesy) (point : LatLon) (polygon : List LatLon) : Bool :=
  if polygon.length < 3 then false
  else
    (polygon.zip (polygon.getLast?.toList ++ polygon)).foldl
      (fun inside edge ↦ inside != geodesy.crosses point edge.1 edge.2) false

/-- `pointInZone`. -/
def pointInZone (geodesy : Geodesy) (fix : GeoFix) (zone : ZoneDefinition) : Bool :=
  match zone.shape with
  | .circle2d center radiusM => geodesy.within center fix.wgs84 radiusM
  | .cylinder3d center radiusM altitudeMinM altitudeMaxM =>
    let fixAlt := fix.altM.getD 0
    geodesy.within center fix.wgs84 radiusM && altitudeMinM ≤ fixAlt && fixAlt ≤ altitudeMaxM
  | .polygon2d points => pointInPolygon geodesy fix.wgs84 points
  | .bbox2d latMin latMax lonMin lonMax =>
    latMin ≤ fix.wgs84.lat && fix.wgs84.lat ≤ latMax && lonMin ≤ fix.wgs84.lon &&
      fix.wgs84.lon ≤ lonMax

/-- A later zone takes the place of the best one so far. -/
def beats (best : Option ZoneDefinition) (zone : ZoneDefinition) : Bool :=
  match best with
  | none => true
  | some best =>
    zonePriority best < zonePriority zone ||
      (zonePriority zone = zonePriority best && zone.id < best.id)

/-- `currentZone`. -/
def currentZone (geodesy : Geodesy) (zones : List ZoneDefinition) (fix : GeoFix) :
    Option ZoneDefinition :=
  zones.foldl (fun best zone ↦
    if pointInZone geodesy fix zone && beats best zone then some zone else best) none

/-- `byId`. -/
def zoneById (zones : List ZoneDefinition) (id : JsString) : Option ZoneDefinition :=
  zones.find? (·.id = id)

/-! ## State -/

/-- `ZoneTrackerState`. -/
structure ZoneTracker where
  zoneId : Option JsString
  enteredAtBd : ℚ
  deriving DecidableEq

/-- What all connections share. -/
structure GeoBridge (R : Type) extends BridgeState R where
  acl : LinkAcl
  fix : Option GeoFix
  zones : List ZoneDefinition
  zoneTracker : ZoneTracker

/-- An event of `onZoneTransition`. -/
structure ZoneTransition where
  source : Option JsString
  target : Option JsString
  atBd : ℚ
  deriving DecidableEq

variable {P : Primitives} {R : Type}

/-- Milliseconds of the BrightDate epoch. -/
def j2000UtcUnixMs : ℤ := 946727935816

/-- The value of a finite number; the clock values here are all finite. -/
def finiteValue : Number → ℚ
  | .finite q => q
  | .infinite _ => 0

/-- `nowBrightDate`. -/
def nowBrightDate (double : ℚ → Number) (nowUnix : ℤ) : ℚ :=
  finiteValue (double ((nowUnix * 1000 - j2000UtcUnixMs) / 86400000))

/-- `brightDateToUnix`. -/
def brightDateToUnix (double : ℚ → Number) (bd : ℚ) : ℤ :=
  let seconds := finiteValue (double (bd * 86400))
  let milliseconds := finiteValue (double (seconds * 1000))
  let shifted := finiteValue (double (milliseconds + j2000UtcUnixMs))
  mathRound (finiteValue (double (shifted / 1000)))

/-! ## Audit -/

/-- A member whose value may be `null`. -/
def nullable (name : String) (text : Option JsString) : JsString × Json :=
  (js name, LinkAcl.ofOption text)

def sshSessionJson : Option SshSessionInfo → Json
  | none => .null
  | some info => .obj [nullable "sourceUser" info.sourceUser, nullable "sourceHost" info.sourceHost,
      (js "sshdPid", numberOf info.sshdPid), (js "sessionId", .str info.sessionId)]

/-- `recordGeoEvent`. -/
def GeoBridge.recordGeoEvent (bridge : GeoBridge R) (brightdate : ℚ) (command : JsString)
    (scope : LinkGeoScope) (decision : String) (policyAtDecision : Option JsString)
    (attestation : PeerAttestation) (responseSummary : Members) : GeoBridge R :=
  { bridge with
    toBridgeState := bridge.toBridgeState.recordAudit ⟨js ("geo:" ++ decision), none,
      .obj [(js "brightdate", numberOf brightdate), (js "command", .str command),
        (js "scope", .str scope.text), nullable "policyAtDecision" policyAtDecision,
        (js "peer", .obj [(js "pid", numberOf attestation.pid), (js "uid", numberOf attestation.uid),
          nullable "executablePath" attestation.executablePath,
          (js "attestationClass", .str attestation.attestationClass.text),
          nullable "issuerId" attestation.issuerId, nullable "subjectId" attestation.subjectId,
          (js "signatureValid", .bool attestation.signatureValid)]),
        (js "sshSession", sshSessionJson attestation.sshSession),
        (js "responseSummary", .obj responseSummary)]⟩ }

/-! ## Requests and their gate -/

/-- `CoordinateFormat`. -/
inductive CoordinateFormat where
  | wgs84
  | brightspace
  | both
  deriving DecidableEq

def CoordinateFormat.text : CoordinateFormat → JsString
  | .wgs84 => js "wgs84"
  | .brightspace => js "brightspace"
  | .both => js "both"

/-- A request that passes the gate of a scope. -/
inductive GeoRequest where
  | proximity (zoneId : JsString)
  | zone
  | get (format : CoordinateFormat)
  | refresh (timeoutSeconds : ℚ)
  deriving DecidableEq

def GeoRequest.scope : GeoRequest → LinkGeoScope
  | .proximity _ => .proximity
  | .zone => .zone
  | .get _ => .precise
  | .refresh _ => .status

def GeoRequest.command : GeoRequest → Command
  | .proximity _ => .linkGeoProximity
  | .zone => .linkGeoZone
  | .get _ => .linkGeoGet
  | .refresh _ => .linkGeoRefresh

def GeoRequest.extra : GeoRequest → Members
  | .proximity zoneId => [(js "zoneId", .str zoneId)]
  | .zone => []
  | .get format => [(js "format", .str format.text)]
  | .refresh timeoutSeconds => [(js "timeoutSeconds", numberOf timeoutSeconds)]

/-- What `gateScope` has decided. -/
inductive Gate where
  | granted
  | refused (error : LinkGeoError)
  | prompting (existing : Option Json)

/-- The decision of a request in the audit log. -/
def GeoBridge.recordDecision (bridge : GeoBridge R) (nowBd : ℚ) (request : GeoRequest)
    (decision : String) (policyAtDecision : Option JsString) (attestation : PeerAttestation)
    (more : Members) : GeoBridge R :=
  bridge.recordGeoEvent nowBd request.command.text request.scope decision policyAtDecision
    attestation (request.extra ++ more)

/-- `gateScope`, up to the prompt. -/
def gateScope (config : BridgeConfig P R) (nowBd : ℚ) (attestation : PeerAttestation)
    (request : GeoRequest) (bridge : GeoBridge R) : Js Gate × GeoBridge R :=
  match bridge.acl.lookup config.double attestation request.scope nowBd with
  | .error e => (.error e, bridge)
  | .ok (.allow entry) =>
    match property idKey entry with
    | .error e => (.error e, bridge)
    | .ok id =>
      match bridge.acl.recordUse config.identity id nowBd with
      | (acl, .error e) => (.error e, { bridge with acl := acl })
      | (acl, .ok ()) =>
        (.ok .granted, GeoBridge.recordDecision { bridge with acl := acl } nowBd request
          "allowed_by_acl" (some (js "always")) attestation [])
  | .ok (.deny _) =>
    (.ok (.refused .scopeDeniedByPolicy), bridge.recordDecision nowBd request "denied_by_acl"
      (some (js "deny")) attestation [])
  | .ok .denyCap =>
    (.ok (.refused .scopeUnavailableUnsigned), bridge.recordDecision nowBd request
      "denied_unsigned_cap" (some (js "unsigned-cap")) attestation [])
  | .ok (.prompt existing) => (.ok (.prompting existing), bridge)

/-- `upsertEntryForScope` and, for a granted access, `recordUse`. -/
def storeAnswer (identity : BridgeIdentity P.p256Verify) (acl : LinkAcl) (prompt : OpenPrompt)
    (policy : LinkGeoPolicy) (recordAccess : Bool) (nowBd : ℚ) (generatedId : JsString)
    (sshSessionId : Option JsString) : LinkAcl × Js Unit :=
  let entry := LinkAcl.grantedEntry prompt.attestation prompt.scope policy prompt.existing nowBd
    generatedId sshSessionId
  match acl.upsert identity entry with
  | (acl, .error e) => (acl, .error e)
  | (acl, .ok ()) =>
    if recordAccess then
      match property idKey entry with
      | .error e => (acl, .error e)
      | .ok id => acl.recordUse identity id nowBd
    else (acl, .ok ())

/-- Store an answer and record the decision; the answer stands only if it could be stored. -/
def GeoBridge.settle (config : BridgeConfig P R) (bridge : GeoBridge R) (nowBd : ℚ)
    (request : GeoRequest) (prompt : OpenPrompt) (policy : LinkGeoPolicy) (generatedId : JsString)
    (sshSessionId : Option JsString) (decision : String) (policyAtDecision : JsString)
    (more : Members) (gate : Gate) : Js Gate × GeoBridge R :=
  match storeAnswer config.identity bridge.acl prompt policy (policy = .always) nowBd generatedId
    sshSessionId with
  | (acl, .error e) => (.error e, { bridge with acl := acl })
  | (acl, .ok ()) =>
    (.ok gate, GeoBridge.recordDecision { bridge with acl := acl } nowBd request decision
      (some policyAtDecision) prompt.attestation more)

/-- `handlePromptOutcome`. -/
def handlePromptOutcome (config : BridgeConfig P R) (nowBd : ℚ) (attestation : PeerAttestation)
    (request : GeoRequest) (existing : Option Json) (outcome : PromptOutcome)
    (generatedId : JsString) (bridge : GeoBridge R) : Js Gate × GeoBridge R :=
  let prompt : OpenPrompt := ⟨attestation, request.scope, existing⟩
  match outcome with
  | .allowOnce =>
    (.ok .granted, bridge.recordDecision nowBd request "allowed_by_prompt"
      (some (js "allow_once")) attestation [])
  | .allowAlways =>
    bridge.settle config nowBd request prompt .always generatedId none "allowed_by_prompt"
      (js "always") [(js "persistedAs", .str (js "always"))] .granted
  | .allowSession sshSessionId =>
    bridge.settle config nowBd request prompt .always generatedId (some sshSessionId)
      "allowed_by_prompt" (js "session") [(js "sshSessionId", .str sshSessionId)] .granted
  | .deny =>
    (.ok (.refused .userDenied), bridge.recordDecision nowBd request "denied_by_prompt"
      (some (js "deny_once")) attestation [])
  | .denyAlways =>
    bridge.settle config nowBd request prompt .deny generatedId none "denied_by_prompt" (js "deny")
      [(js "persistedAs", .str (js "deny"))] (.refused .userDenied)
  | .timeout =>
    (.ok (.refused .promptTimedOut), bridge.recordDecision nowBd request "prompt_timeout" none
      attestation [])

/-! ## Zone transitions -/

/-- `evaluateZoneTransition`: the event that the handlers get, if there is one. -/
def evaluateZoneTransition (geodesy : Geodesy) (bridge : GeoBridge R) :
    Option ZoneTransition × GeoBridge R :=
  match bridge.fix with
  | none => (none, bridge)
  | some fix =>
    let nowZoneId := (currentZone geodesy bridge.zones fix).map ZoneDefinition.id
    if nowZoneId = bridge.zoneTracker.zoneId then (none, bridge)
    else
      (some ⟨bridge.zoneTracker.zoneId, nowZoneId, fix.brightdate⟩,
        { bridge with zoneTracker := ⟨nowZoneId, fix.brightdate⟩ })

/-- `dwellSecondsAtNow`. -/
def dwellSecondsAtNow (double : ℚ → Number) (nowBd : ℚ) (tracker : ZoneTracker) : ℤ :=
  match tracker.zoneId with
  | none => 0
  | some _ =>
    let days := finiteValue (double (nowBd - tracker.enteredAtBd))
    max 0 ⌊finiteValue (double (days * 86400))⌋

/-! ## Answers -/

/-- A request that finds the engine without the data it needs. -/
def GeoBridge.unavailable (bridge : GeoBridge R) (nowBd : ℚ) (request : GeoRequest)
    (attestation : PeerAttestation) (summary : Members) (error : LinkGeoError) :
    Json × GeoBridge R :=
  (errorResponse error.text, bridge.recordGeoEvent nowBd request.command.text request.scope
    "engine_unavailable" none attestation summary)

def noFix : Members := [(js "error", .str (js "no_fix"))]

/-- `SPEED_OF_LIGHT_MPS`. -/
def speedOfLightMps : ℚ := 299792458

/-- The members of `position`. -/
def positionJson (double : ℚ → Number) (fix : GeoFix) (format : CoordinateFormat) : Json :=
  let wgs84 : Members := [(js "lat", numberOf fix.wgs84.lat), (js "lon", numberOf fix.wgs84.lon)] ++
    fix.altM.toList.map fun altM ↦ (js "alt_m", numberOf altM)
  let (x, y, z) := fix.ecef
  let brightspace : Members := [(js "x_bm", .num (double (x / speedOfLightMps))),
    (js "y_bm", .num (double (y / speedOfLightMps))),
    (js "z_bm", .num (double (z / speedOfLightMps))), (js "epoch_bd", numberOf fix.brightdate)]
  .obj ((if format ≠ .brightspace then [(js "wgs84", .obj wgs84)] else []) ++
    if format ≠ .wgs84 then [(js "brightspace", .obj brightspace)] else [])

/-- The rest of `proximity`, `zone`, `get` and `refresh` behind the gate, with the answer of the
handler around them. -/
def serveGeo (config : BridgeConfig P R) (geodesy : Geodesy) (nowBd : ℚ)
    (attestation : PeerAttestation) (request : GeoRequest) (bridge : GeoBridge R) :
    Json × GeoBridge R × Option ZoneTransition :=
  match request with
  | .proximity zoneId =>
    match zoneById bridge.zones zoneId, bridge.fix with
    | none, _ =>
      let (answer, bridge) := bridge.unavailable nowBd request attestation
        [(js "error", .str (js "zone_not_found")), (js "zoneId", .str zoneId)] .zoneNotFound
      (answer, bridge, none)
    | some _, none =>
      let (answer, bridge) :=
        bridge.unavailable nowBd request attestation noFix .engineUnavailable
      (answer, bridge, none)
    | some zone, some fix =>
      (.obj [okMember, (js "in_zone", .bool (pointInZone geodesy fix zone)),
        (js "brightdate", numberOf fix.brightdate)], bridge, none)
  | .zone =>
    match bridge.fix with
    | none =>
      let (answer, bridge) :=
        bridge.unavailable nowBd request attestation noFix .engineUnavailable
      (answer, bridge, none)
    | some fix =>
      let (transition, bridge) := evaluateZoneTransition geodesy bridge
      let zone := (currentZone geodesy bridge.zones fix).map ZoneDefinition.id
      (.obj [okMember, nullable "zone" zone,
        (js "dwell_seconds", numberOf (dwellSecondsAtNow config.double nowBd bridge.zoneTracker)),
        (js "brightdate", numberOf fix.brightdate)], bridge, transition)
  | .get format =>
    match bridge.fix with
    | none =>
      let (answer, bridge) :=
        bridge.unavailable nowBd request attestation noFix .engineUnavailable
      (answer, bridge, none)
    | some fix =>
      (.obj [okMember, (js "position", positionJson config.double fix format),
        (js "accuracy_m", numberOf fix.accuracyM), (js "brightdate", numberOf fix.brightdate)],
        bridge, none)
  | .refresh _ =>
    match bridge.fix with
    | none =>
      let (answer, bridge) := bridge.unavailable nowBd request attestation
        [(js "error", .str (js "refresh_failed"))] .refreshTimedOut
      (answer, bridge, none)
    | some fix =>
      (.obj [okMember, (js "fix_age_seconds", numberOf 0),
        (js "accuracy_m", numberOf fix.accuracyM)], bridge, none)

/-- `status`, with the answer of the handler around it. -/
def statusResponse (double : ℚ → Number) (nowUnix : ℤ) (fix : Option GeoFix) : Json :=
  let (age, accuracy) : Json × Json := match fix with
    | none => (.null, .null)
    | some fix => (numberOf (max 0 (nowUnix - brightDateToUnix double fix.brightdate) : ℤ),
        numberOf fix.accuracyM)
  .obj [okMember, (js "alive", .bool fix.isSome), (js "engine_kind", .str (js "FixedGeoSource")),
    (js "fix_age_seconds", age), (js "accuracy_m", accuracy)]

/-! ## The ACL model -/

end Bsh.Bridge
