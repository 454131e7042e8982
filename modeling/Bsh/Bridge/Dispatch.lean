import Bsh.Bridge.GeoEngine
import Bsh.Library.Framing
import Bsh.Library.ListTable
import Bsh.Library.ObjectText

/-!
# The dispatch of a message

`handleMessage` of `handlers.ts` with the EBP/1 handlers.  A handler that has to ask the geo engine
stops behind the gate; the rest of it is `resumeGeo`.
-/

namespace Bsh.Bridge

open Bsh.Library Bsh.BrightLink Utf Json

variable {P : Primitives} {R : Type}

/-! ## EBP/1 handlers -/

/-- `EBP1_SERVICE_NAME` and `BRIGHTNEXUS_APP_NAME`. -/
def ebp1ServiceName : Json := .str (js "enclave-bridge")
def brightnexusAppName : Json := .str (js "brightnexus")

/-- `EBP1_KEY_IDS`. -/
def eciesSecp256k1 : JsString := js "ecies-secp256k1"
def secureEnclaveP256 : JsString := js "secure-enclave-p256"

def publicKeyResponse (publicKey : Bytes) : Json := .obj [(js "publicKey", base64Text publicKey)]

/-- A handler's refusal as its answer. -/
def answerOf : Checked Json → Js Json
  | .ok response => .ok response
  | .error (.message text) => .ok (errorResponse text)
  | .error (.exception e) => .error e

/-- A string member that has to be base64. -/
def requireBytes (name message : String) (req : Json) : Checked Bytes := do
  let text ← requireString message (← checkedProperty name req)
  requireBase64 message text

/-- `handleSetPeerPublicKey`. -/
def handleSetPeerPublicKey (req : Json) (conn : ConnectionState) : Js Json × ConnectionState :=
  match requireBytes "publicKey" "Missing or invalid publicKey" req with
  | .ok key => (.ok (.obj [okMember]), { conn with peerPublicKey := some key })
  | .error refusal => (answerOf (.error refusal), conn)

/-- `fingerprint`: eight bytes as upper-case hexadecimal, separated by colons. -/
def fingerprint (P : Primitives) (pub : Bytes) : JsString :=
  let digit (n : ℕ) : UInt16 := UInt16.ofNat (if n < 10 then 0x30 + n else 0x41 + (n - 10))
  joinWith (js ":") (((P.sha256 pub).take 8).map fun b ↦
    [digit (b.toNat / 16), digit (b.toNat % 16)])

def keyInfo (id type fingerprint : JsString) (isSecureEnclave : Bool) : Json :=
  .obj [(js "id", .str id), (js "type", .str type), (js "publicKeyFingerprint", .str fingerprint),
    (js "isSecureEnclave", .bool isSecureEnclave), (js "totpEnabled", .bool false),
    (js "totpProvisioningURI", .str [])]

/-- `handleListKeys`. -/
def handleListKeys (config : BridgeConfig P R) : Json :=
  .obj [(js "keys", .arr
    [keyInfo eciesSecp256k1 (js "secp256k1") (fingerprint P config.secp256k1Key.pub) false,
      keyInfo secureEnclaveP256 (js "Secure Enclave (P-256)")
        (fingerprint P config.identity.publicKey) true])]

/-- `handleEnclaveSign`. -/
def handleEnclaveSign (config : BridgeConfig P R) (req : Json) : Checked Json := do
  let data ← requireBytes "data" "Missing or invalid data to sign" req
  return .obj [(js "signature", base64Text (config.identity.sign data))]

/-- `handleEnclaveDecrypt`. -/
def handleEnclaveDecrypt (config : BridgeConfig P R) (req : Json) : Checked Json := do
  let envelope ← requireBytes "data" "Missing or invalid data to decrypt" req
  match decryptEnvelope P config.secp256k1Key.priv envelope with
  | .ok plaintext => return .obj [(js "plaintext", base64Text plaintext)]
  | .error text => .error (.message text)

/-- `handleExportKey`. -/
def handleExportKey (config : BridgeConfig P R) (req : Json) : Checked Json := do
  let keyId ← requireString "Missing keyId" (← checkedProperty "keyId" req)
  if keyId = eciesSecp256k1 then return publicKeyResponse config.secp256k1Key.pub
  else if keyId = secureEnclaveP256 then return publicKeyResponse config.identity.publicKey
  else .error (.message unknownKeyid)

/-! ## Geo handlers -/

/-- The checked arguments of a geo command. -/
def geoRequest (command : Command) (req : Json) : Checked GeoRequest :=
  match command with
  | .linkGeoProximity => do
    let zoneId ← requireString "Missing zone" (← checkedProperty "zone" req)
    requireThat "Missing zone" (zoneId ≠ [])
    return .proximity zoneId
  | .linkGeoZone => .ok .zone
  | .linkGeoGet => do
    match ← checkedProperty "format" req with
    | .undefined => return .get .both
    | .value .null => return .get .both
    | .value (.str s) =>
      if s = CoordinateFormat.wgs84.text then return .get .wgs84
      else if s = CoordinateFormat.brightspace.text then return .get .brightspace
      else if s = CoordinateFormat.both.text then return .get .both
      else .error (.message LinkGeoError.formatInvalid.text)
    | _ => .error (.message LinkGeoError.formatInvalid.text)
  | _ => do
    match ← checkedProperty "timeout_seconds" req with
    | .value (.num (.finite timeout)) => return .refresh (if 0 < timeout then timeout else 10)
    | _ => return .refresh 10

/-- A message that has been handled, up to the answer or to a request that still waits. -/
inductive Handled where
  | replied (response : Js Json)
  | geo (request : GeoRequest) (gate : Gate)

/-- A gated geo handler, up to the gate. -/
def startGeo (config : BridgeConfig P R) (nowBd : ℚ) (command : Command) (req : Json)
    (bridge : GeoBridge R) (conn : ConnectionState) : Handled × GeoBridge R :=
  if conn.linkSession.isNone then
    (.replied (.ok (errorResponse LinkGeoError.sessionNotRegistered.text)), bridge)
  else
    match geoRequest command req with
    | .error refusal => (.replied (answerOf (.error refusal)), bridge)
    | .ok request =>
      match gateScope config nowBd conn.attestation request bridge with
      | (.error e, bridge) => (.replied (.error e), bridge)
      | (.ok gate, bridge) => (.geo request gate, bridge)

/-- The rest of a gated geo handler; a prompt's answer and the id for a new entry come from
outside. -/
def resumeGeo (config : BridgeConfig P R) (geodesy : Geodesy) (nowBd : ℚ)
    (attestation : PeerAttestation) (request : GeoRequest) (gate : Gate) (outcome : PromptOutcome)
    (generatedId : JsString) (bridge : GeoBridge R) :
    Js Json × GeoBridge R × Option ZoneTransition :=
  let (decided, bridge) : Js Gate × GeoBridge R := match gate with
    | .prompting existing =>
      handlePromptOutcome config nowBd attestation request existing outcome generatedId bridge
    | gate => (.ok gate, bridge)
  match decided with
  | .error e => (.error e, bridge, none)
  | .ok .granted =>
    let (answer, bridge, transition) :=
      serveGeo config geodesy nowBd attestation request bridge
    (.ok answer, bridge, transition)
  | .ok (.refused error) => (.ok (errorResponse error.text), bridge, none)
  -- `handlePromptOutcome` does not ask again.
  | .ok (.prompting _) => (.error .typeError, bridge, none)

/-! ## Dispatch -/

/-- The `switch` of `handleMessage`. -/
def dispatch (config : BridgeConfig P R) (clock : Clock) (command : Command) (req : Json)
    (bridge : GeoBridge R) (conn : ConnectionState) :
    Handled × GeoBridge R × ConnectionState :=
  let reply (response : Js Json) := (Handled.replied response, bridge, conn)
  match command with
  | .heartbeat => reply (.ok (.obj [okMember, (js "timestamp", .str clock.isoTimestamp),
      (js "service", ebp1ServiceName)]))
  | .version | .info => reply (.ok (.obj [(js "appVersion", .str (js "mock")),
      (js "build", .str (js "0")), (js "platform", .str (js "mock")),
      (js "uptimeSeconds", numberOf clock.uptimeSeconds), (js "app", brightnexusAppName),
      (js "brightlinkProtocolVersion", .num linkProtocolVersion)]))
  | .status => reply (.ok (.obj [okMember,
      (js "peerPublicKeySet", .bool conn.peerPublicKey.isSome),
      (js "enclaveKeyAvailable", .bool true)]))
  | .metrics => reply (.ok (.obj [(js "uptimeSeconds", numberOf clock.uptimeSeconds),
      (js "service", ebp1ServiceName), (js "requestCounters", .obj [])]))
  | .getPublicKey => reply (.ok (publicKeyResponse config.secp256k1Key.pub))
  | .getEnclavePublicKey => reply (.ok (publicKeyResponse config.identity.publicKey))
  | .setPeerPublicKey =>
    let (response, conn) := handleSetPeerPublicKey req conn
    (.replied response, bridge, conn)
  | .listKeys => reply (.ok (handleListKeys config))
  | .enclaveSign => reply (answerOf (handleEnclaveSign config req))
  | .enclaveDecrypt => reply (answerOf (handleEnclaveDecrypt config req))
  | .enclaveGenerateKey => reply (.ok (errorResponse enclaveGenerateKeyNotImplemented))
  | .enclaveRotateKey => reply (.ok (errorResponse enclaveRotateKeyNotSupported))
  | .enableTotp => reply (.ok (errorResponse failedToEnableTotp))
  | .exportKey => reply (answerOf (handleExportKey config req))
  | .linkRegister =>
    let (response, state, conn) :=
      handleLinkRegister config clock.nowUnix req bridge.toBridgeState conn
    (.replied response, { bridge with toBridgeState := state }, conn)
  | .linkDeliver =>
    let (response, state, conn) :=
      handleLinkDeliver config clock.nowUnix req bridge.toBridgeState conn
    (.replied response, { bridge with toBridgeState := state }, conn)
  | .linkPush => reply (.ok (errorResponse (command.text ++
      js " requires socket-server-level handling")))
  | .linkGeoStatus =>
    reply (.ok (if conn.linkSession.isNone then
        errorResponse LinkGeoError.sessionNotRegistered.text
      else statusResponse config.double clock.nowUnix bridge.fix))
  | .linkGeoProximity | .linkGeoZone | .linkGeoGet | .linkGeoRefresh =>
    let (handled, bridge) :=
      startGeo config (nowBrightDate config.double clock.nowUnix) command req bridge conn
    (handled, bridge, conn)
  | .linkAuditEmit =>
    reply (.ok (errorResponse (command.text ++ linkErrorNotImplementedSuffix)))

/-- `handleMessage` on a parsed request. -/
def handleRequest (config : BridgeConfig P R) (clock : Clock) (req : Json) (bridge : GeoBridge R)
    (conn : ConnectionState) : Handled × GeoBridge R × ConnectionState :=
  match property (js "cmd") req with
  | .error e => (.replied (.error e), bridge, conn)
  | .ok (.value (.str cmd)) =>
    match commandOf cmd with
    | some command => dispatch config clock command req bridge conn
    | none => (.replied (.ok (errorResponse (unknownCommandPrefix ++ cmd))), bridge, conn)
  | .ok _ => (.replied (.ok (errorResponse invalidRequestFormat)), bridge, conn)

/-- `handleMessage`, up to the answer or to a geo request that waits. -/
def handleMessage (config : BridgeConfig P R) (clock : Clock) (data : Bytes)
    (bridge : GeoBridge R) (conn : ConnectionState) :
    Handled × GeoBridge R × ConnectionState :=
  match parse config.double (utf8Decode data) with
  | none => (.replied (.ok (errorResponse invalidRequestFormat)), bridge, conn)
  | some req => handleRequest config clock req bridge conn

end Bsh.Bridge

/-!
# The socket server of the bridge

`socketServer.ts`: connections and their buffers, the framing of requests, the push subscriptions
and the fan-out of zone transitions.  A socket is the number of its connection.  What happens to
the server is an event; a geo request that has passed or has to pass a prompt goes on at an event
of its own, because other messages may be handled in between.
-/

namespace Bsh.Bridge

open Bsh.Library Bsh.BrightLink Utf Json Framing

/-! ## State -/

/-- `LINK_PUSH_EVENTS`. -/
def zoneTransitionEvent : JsString := js "zone-transition"
def geoGrantChangedEvent : JsString := js "geo-grant-changed"

/-- `LINK_PUSH_ERRORS`. -/
def pushSessionNotRegistered : JsString := js "push: session not registered"
def pushUnknownEventTypes : JsString := js "push: unknown event types"
def pushSubscribeLimit : JsString := js "push: subscribe limit"

/-- `PushSubscription`; the connection state is the one of the socket. -/
structure PushSubscription where
  socket : ℕ
  events : List JsString

/-- A socket with its connection state; `connected` is membership in `connections`. -/
structure Peer where
  conn : ConnectionState
  buffer : Bytes
  connected : Bool

/-- A geo request behind the synchronous part of its handler. -/
structure GeoJob where
  socket : ℕ
  request : GeoRequest
  gate : Gate

/-- `MockBrightNexus` with everything it has written to its sockets. -/
structure Server (R : Type) where
  bridge : GeoBridge R
  peers : List Peer
  pushSubscribers : ListTable JsString PushSubscription
  jobs : List GeoJob
  sent : List (ℕ × Bytes)

/-- A started server without connections. -/
def Server.start {R : Type} (bridge : GeoBridge R) : Server R := ⟨bridge, [], [], [], []⟩

namespace Server

variable {P : Primitives} {R : Type}

/-- Whether a socket is in `connections`. -/
def isConnected (server : Server R) (socket : ℕ) : Bool :=
  match server.peers[socket]? with
  | some peer => peer.connected
  | none => false

/-- `if (socket.writable) socket.write(bytes)`. -/
def write (server : Server R) (socket : ℕ) (bytes : Bytes) : Server R :=
  if server.isConnected socket then { server with sent := server.sent ++ [(socket, bytes)] }
  else server

def setConn (server : Server R) (socket : ℕ) (conn : ConnectionState) : Server R :=
  { server with peers := server.peers.modify socket fun peer ↦ { peer with conn := conn } }

def setBuffer (server : Server R) (socket : ℕ) (buffer : Bytes) : Server R :=
  { server with peers := server.peers.modify socket fun peer ↦ { peer with buffer := buffer } }

def recordAudit (server : Server R) (event : AuditEvent) : Server R :=
  { server with bridge :=
    { server.bridge with toBridgeState := server.bridge.toBridgeState.recordAudit event } }

/-! ## Subscriptions -/

/-- The known event names of a `subscribe` array. -/
def knownEvents (elements : List Json) : List JsString :=
  elements.filterMap fun e ↦
    match e with
    | .str s => if s = zoneTransitionEvent ∨ s = geoGrantChangedEvent then some s else none
    | _ => none

/-- The answer of `tryHandleLinkPush`, with the events of a new subscription. -/
def linkPushAnswer (req : Json) (conn : ConnectionState) : Json × Option (List JsString) :=
  if conn.linkSession.isNone then (errorResponse pushSessionNotRegistered, none)
  else
    match property (js "subscribe") req with
    | .ok (.value (.arr (element :: elements))) =>
      let known := knownEvents (element :: elements)
      if known = [] then (errorResponse pushUnknownEventTypes, none)
      else if conn.pushSubscribed then (errorResponse pushSubscribeLimit, none)
      else (.obj [okMember, (js "subscribed", .arr (known.map .str))], some known)
    | _ => (errorResponse pushUnknownEventTypes, none)

/-- The new subscription of a socket. -/
def subscribe (server : Server R) (socket : ℕ) (conn : ConnectionState) (session : LinkSession)
    (events : List JsString) : Server R :=
  let sidHex := hex session.sessionId
  let subs := (server.pushSubscribers.get sidHex).getD []
  { server.setConn socket { conn with pushSubscribed := true } with
    pushSubscribers := server.pushSubscribers.set sidHex (subs ++ [⟨socket, events⟩]) }

/-- `tryHandleLinkPush` on a `LINK_PUSH` request. -/
def handleLinkPush (socket : ℕ) (req : Json) (conn : ConnectionState) (server : Server R) :
    Server R :=
  let (response, events) := linkPushAnswer req conn
  let server := match conn.linkSession, events with
    | some session, some events => server.subscribe socket conn session events
    | _, _ => server
  server.write socket (responseBytes response)

/-! ## Messages -/

/-- `String(err)`. -/
def errorText : JsError → JsString
  | .typeError => js "TypeError"
  | .error message => js "Error: " ++ message

/-- The answer of a handler, or what the server writes for a handler that threw. -/
def replyBytes : Js Json → Bytes
  | .ok response => responseBytes response
  | .error _ => responseBytes (errorResponse (js "internal: handler threw"))

/-- The audit record of a handler that threw. -/
def auditReply (server : Server R) : Js Json → Server R
  | .ok _ => server
  | .error e => server.recordAudit ⟨js "handler_error", none,
      .obj [(js "message", .str (errorText e))]⟩

/-- The server around a handled message: the bridge and the connection as the handler leaves
them, a waiting request as a job. -/
def afterMessage (server : Server R) (socket : ℕ) (handled : Handled) (bridge : GeoBridge R)
    (conn : ConnectionState) : Server R × List Bytes :=
  let server := { server with bridge := bridge }.setConn socket conn
  match handled with
  | .replied response => (server.auditReply response, [replyBytes response])
  | .geo request gate => ({ server with jobs := server.jobs ++ [⟨socket, request, gate⟩] }, [])

/-- One message of a connection.  An answer of `handleMessage` is written when its promise is
resolved, that is, behind the loop; the answer to `LINK_PUSH` is written at once. -/
def processMessage (config : BridgeConfig P R) (clock : Clock) (socket : ℕ) (message : Bytes)
    (server : Server R) : Server R × List Bytes :=
  match server.peers[socket]? with
  | none => (server, [])
  | some peer =>
    match parse config.double (utf8Decode message) with
    | none =>
      let (handled, bridge, conn) := handleMessage config clock message server.bridge peer.conn
      server.afterMessage socket handled bridge conn
    | some req =>
      match property (js "cmd") req with
      -- A frame ends with a brace, so that it is not `null`.
      | .error _ => (server, [])
      | .ok cmd =>
        if strictEq cmd (some Command.linkPush.text) then
          (handleLinkPush socket req peer.conn server, [])
        else
          let (handled, bridge, conn) := handleMessage config clock message server.bridge peer.conn
          server.afterMessage socket handled bridge conn

/-- The loop of the `data` handler over the messages of the buffer. -/
def processMessages (config : BridgeConfig P R) (clock : Clock) (socket : ℕ) :
    List Bytes → Server R → Server R × List Bytes
  | [], server => (server, [])
  | message :: messages, server =>
    let (server, replies) := processMessage config clock socket message server
    let (server, more) := processMessages config clock socket messages server
    (server, replies ++ more)

/-- The `data` handler. -/
def receiveData (config : BridgeConfig P R) (clock : Clock) (socket : ℕ) (chunk : Bytes)
    (server : Server R) : Server R :=
  match server.peers[socket]? with
  | none => server
  | some peer =>
    if peer.connected then
      let (messages, buffer) := cut ebp1MessageTerminator (peer.buffer ++ chunk)
      let (server, replies) := processMessages config clock socket messages
        (server.setBuffer socket buffer)
      replies.foldl (fun server reply ↦ server.write socket reply) server
    else server

/-! ## Connections -/

/-- `onConnection`. -/
def onConnection (attestation : PeerAttestation) (server : Server R) : Server R :=
  { server with peers := server.peers ++ [⟨⟨none, none, false, attestation⟩, [], true⟩] }

/-- The connection state after `kSession.fill(0)`. -/
def wiped (conn : ConnectionState) (session : LinkSession) : ConnectionState :=
  { conn with
    linkSession := some { session with kSession := List.replicate session.kSession.length 0 } }

/-- `cleanupConnection`. -/
def cleanupConnection (socket : ℕ) (server : Server R) : Server R :=
  match server.peers[socket]? with
  | none => server
  | some peer =>
    let server := { server with
      peers := server.peers.modify socket fun peer ↦ { peer with connected := false } }
    match peer.conn.linkSession with
    | none => server
    | some session =>
      let sidHex := hex session.sessionId
      let server := server.recordAudit ⟨js "session_teardown", some sidHex,
        .obj [(js "reason", .str (js "disconnect"))]⟩
      { server.setConn socket (wiped peer.conn session) with
        pushSubscribers :=
          server.pushSubscribers.keepOnly sidHex fun sub ↦ sub.socket ≠ socket }

/-! ## Push fan-out -/

/-- The frame of a push event. -/
def pushFrame (config : BridgeConfig P R) (event : JsString) (counter : ℕ)
    (iv ciphertext tag : Bytes) : Json :=
  .obj [(js "event", .str event), (js "counter", .num (config.double counter)),
    (js "iv", base64Text iv), (js "ciphertext", base64Text ciphertext),
    (js "authTag", base64Text tag)]

/-- The server with a count for a session's frame and with the IV drawn. -/
def countFrame (config : BridgeConfig P R) (server : Server R) (socket : ℕ)
    (conn : ConnectionState) (session : LinkSession) : Bytes × Server R :=
  let counted := server.setConn socket { conn with
    linkSession := some { session with outboundCounter := session.outboundCounter + 1 } }
  let (iv, rng) := config.rng counted.bridge.rng linkGcmIvLength
  (iv, { counted with bridge := { counted.bridge with
    toBridgeState := { counted.bridge.toBridgeState with rng := rng } } })

/-- One turn of the loop of `broadcastEvent`; `none` for an exception, which ends the loop. -/
def pushTo (config : BridgeConfig P R) (event : JsString) (body : Bytes) (sub : PushSubscription)
    (server : Server R) : Option Unit × Server R :=
  match server.peers[sub.socket]? with
  | none => (some (), server)
  | some peer =>
    if event ∈ sub.events then
      match peer.conn.linkSession with
      | none => (some (), server)
      | some session =>
        let counter := session.outboundCounter + 1
        match buildPushAad counter event with
        | .error _ => (none, server.setConn sub.socket { peer.conn with
            linkSession := some { session with outboundCounter := counter } })
        | .ok aad =>
          let (iv, server) := server.countFrame config sub.socket peer.conn session
          match P.gcmSeal session.kSession iv aad body with
          | none => (none, server)
          | some (ct, tag) =>
            (some (), server.write sub.socket
              (responseBytes (pushFrame config event counter iv ct tag)))
    else (some (), server)

/-- The loop of `broadcastEvent`. -/
def broadcastTo (config : BridgeConfig P R) (event : JsString) (body : Bytes) :
    List PushSubscription → Server R → Server R
  | [], server => server
  | sub :: subs, server =>
    match pushTo config event body sub server with
    | (none, server) => server
    | (some (), server) => broadcastTo config event body subs server

/-- `broadcastEvent`. -/
def broadcastEvent (config : BridgeConfig P R) (event : JsString) (body : Bytes)
    (server : Server R) : Server R :=
  broadcastTo config event body (server.pushSubscribers.flatMap Prod.snd) server

/-- `broadcastZoneTransition`. -/
def broadcastZoneTransition (config : BridgeConfig P R) (transition : Option ZoneTransition)
    (server : Server R) : Server R :=
  match transition with
  | none => server
  | some transition =>
    server.broadcastEvent config zoneTransitionEvent (responseBytes (.obj
      [nullable "from" transition.source, nullable "to" transition.target,
        (js "at_bd", numberOf transition.atBd)]))

/-- `forceEvaluateZone`, and what a new fix sets off. -/
def evaluateZone (config : BridgeConfig P R) (geodesy : Geodesy) (server : Server R) : Server R :=
  let (transition, bridge) := evaluateZoneTransition geodesy server.bridge
  { server with bridge := bridge }.broadcastZoneTransition config transition

/-! ## Waiting requests -/

/-- A waiting geo request goes on: transitions that it notices are pushed before it is answered. -/
def resumeJob (config : BridgeConfig P R) (geodesy : Geodesy) (clock : Clock) (index : ℕ)
    (outcome : PromptOutcome) (generatedId : JsString) (server : Server R) : Server R :=
  match server.jobs[index]? with
  | none => server
  | some job =>
    match server.peers[job.socket]? with
    | none => server
    | some peer =>
      let (response, bridge, transition) := resumeGeo config geodesy
        (nowBrightDate config.double clock.nowUnix) peer.conn.attestation job.request job.gate
        outcome generatedId server.bridge
      let server := { server with bridge := bridge, jobs := server.jobs.eraseIdx index }
      ((server.broadcastZoneTransition config transition).auditReply response).write job.socket
        (replyBytes response)

end Server

/-! ## Events -/

/-- What may happen to the server. -/
inductive ServerEvent where
  | connect (attestation : PeerAttestation)
  | data (clock : Clock) (socket : ℕ) (chunk : Bytes)
  | close (socket : ℕ)
  | resume (clock : Clock) (job : ℕ) (outcome : PromptOutcome) (generatedId : JsString)
  | setFix (fix : GeoFix)
  | clearFix
  | setZones (zones : List ZoneDefinition)
  | evaluateZone
  /-- The user edits the ACL, or it is loaded. -/
  | aclUpsert (entry : Json)
  | aclRemove (id : JsString)
  | aclLoad (canonicalJson signature : Bytes)

variable {P : Primitives} {R : Type}

def Server.setAcl (server : Server R) (acl : LinkAcl) : Server R :=
  { server with bridge := { server.bridge with acl := acl } }

/-- One event. -/
def serverStep (config : BridgeConfig P R) (geodesy : Geodesy) (server : Server R) :
    ServerEvent → Server R
  | .connect attestation => server.onConnection attestation
  | .data clock socket chunk => server.receiveData config clock socket chunk
  | .close socket =>
    if server.isConnected socket then server.cleanupConnection socket else server
  | .resume clock job outcome generatedId =>
    server.resumeJob config geodesy clock job outcome generatedId
  | .setFix fix =>
    { server with bridge := { server.bridge with fix := some fix } }.evaluateZone config geodesy
  | .clearFix => { server with bridge := { server.bridge with fix := none } }
  | .setZones zones => { server with bridge := { server.bridge with zones := zones } }
  | .evaluateZone => server.evaluateZone config geodesy
  | .aclUpsert entry => server.setAcl (server.bridge.acl.upsert config.identity entry).1
  | .aclRemove id => server.setAcl (server.bridge.acl.remove config.identity id).1
  | .aclLoad bytes signature =>
    server.setAcl (server.bridge.acl.loadFromBytes config.double config.identity bytes signature).1

/-! ## A bridge without secrets -/

namespace Transparent

/-- The bridge key. -/
def eciesKey : EciesKey .transparent where
  priv := List.replicate 32 1
  pub := 0x04 :: List.replicate 32 1 ++ List.replicate 32 0
  valid := rfl
  pub_eq := rfl

def identity : BridgeIdentity Primitives.transparent.p256Verify where
  keyId := js "p256:transparent"
  publicKey := 0x04 :: List.replicate 64 0
  sign data := Transparent.digest 32 (0x04 :: List.replicate 64 0 ++ data)
  verify_sign _ := decide_eq_true rfl

/-- A configuration over transparent primitives; its random bytes count up. -/
def config : BridgeConfig .transparent ℕ where
  double := .finite
  secp256k1Key := eciesKey
  identity := identity
  rng seed n := (List.replicate n (UInt8.ofNat (seed + 1)), seed + 1)
  keyAttempts := 2

/-- A fresh bridge. -/
def bridge : GeoBridge ℕ where
  rng := 0
  auditLog := []
  acl := LinkAcl.create identity none
  fix := none
  zones := []
  zoneTracker := ⟨none, 0⟩

def geodesy : Geodesy := ⟨fun _ _ _ ↦ false, fun _ _ _ ↦ false⟩

def clock : Clock := ⟨1000, js "1970-01-01T00:16:40Z", 0⟩

/-- An envelope for the bridge key. -/
def envelope (plaintext : Bytes) : Bytes :=
  let header : Bytes := [0x01, 0x01, 0x21, 0x02] ++ List.replicate 32 2
  let key := Transparent.digest 32 (List.replicate 32 3 ++ eciesHkdfInfo)
  let iv := List.replicate 12 0
  header ++ iv ++ Transparent.digest 16 (key ++ iv ++ header ++ plaintext) ++ plaintext

/-- A registration with given members of the plaintext behind the version, the key and the
share. -/
def registration (clientPub : Bytes) (more : List (Bytes × Bytes)) : Bytes :=
  let plaintext := objectBytes ([(Bytes.ascii "v", Bytes.ascii "1"),
    (Bytes.ascii "clientPub", Bytes.quoted (Base64.encode clientPub)),
    (Bytes.ascii "clientShare", Bytes.quoted (Base64.encode (List.replicate 32 8)))] ++ more)
  objectBytes [(Bytes.ascii "cmd", Bytes.quoted (Bytes.ascii "LINK_REGISTER")),
    (Bytes.ascii "protocolVersion", Bytes.ascii "1"),
    (Bytes.ascii "clientNonce", Bytes.quoted (Base64.encode (List.replicate 16 5))),
    (Bytes.ascii "envelope", Bytes.quoted (Base64.encode (envelope plaintext)))]

/-- A client key on the curve. -/
def clientPub : Bytes := 0x04 :: List.replicate 32 7 ++ List.replicate 32 0

/-- A registration that is accepted. -/
def goodRegistration : Bytes := registration clientPub
  [(Bytes.ascii "issuedAtBd", Bytes.ascii "0"), (Bytes.ascii "ttlSeconds", Bytes.ascii "60")]

def pushRequest : Bytes := objectBytes
  [(Bytes.ascii "cmd", Bytes.quoted (Bytes.ascii "LINK_PUSH")),
    (Bytes.ascii "subscribe", Bytes.ascii "[\"zone-transition\"]")]

end Transparent

end Bsh.Bridge
