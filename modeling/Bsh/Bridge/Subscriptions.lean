import Bsh.Bridge.Dispatch
import Bsh.Library.Run

/-!
# Push subscriptions and connections

`pushSubscribers` files a subscription under the id of the session that its connection had when it
subscribed; the cleanup of a closed connection looks under the id of the session it has then.  As
long as the two agree, the map holds exactly one subscription of every subscribed connection and
none of a closed one.
-/

namespace Bsh.Bridge

open Bsh.Library Bsh.BrightLink Utf Json ListTable List

variable {P : Primitives} {R : Type}

/-! ## The subscriptions of a server -/

namespace Server

/-- The subscriptions, as pairs of a session id and a socket. -/
def filed (server : Server R) : List (JsString × ℕ) :=
  server.pushSubscribers.pairs.map fun x ↦ (x.1, x.2.socket)

/-- The number of subscriptions of a socket. -/
def subscriptionCount (server : Server R) (socket : ℕ) : ℕ :=
  server.filed.countP fun x ↦ x.2 = socket

/-- What matters of a socket: whether it is connected and whether it has subscribed. -/
def status (server : Server R) (socket : ℕ) : Option (Bool × Bool) :=
  server.peers[socket]?.map fun peer ↦ (peer.connected, peer.conn.pushSubscribed)

theorem isConnected_eq (server : Server R) (socket : ℕ) :
    server.isConnected socket = (server.status socket).any Prod.fst := by
  unfold isConnected status
  cases server.peers[socket]? <;> rfl

end Server

/-- Every subscription belongs to a connected socket, and a connected socket that has subscribed
has exactly one. -/
def SubscriptionsSound (server : Server R) : Prop :=
  (∀ x ∈ server.filed, server.isConnected x.2 = true) ∧
    ∀ socket, server.status socket = some (true, true) → server.subscriptionCount socket = 1

/-- The condition of a step: a connection that closes has its subscriptions under the id of the
session that it still has. -/
def ClosesFiled (server : Server R) : ServerEvent → Prop
  | .close socket => ∀ x ∈ server.filed, x.2 = socket → ∃ peer session,
      server.peers[socket]? = some peer ∧ peer.conn.linkSession = some session ∧
        x.1 = hex session.sessionId
  | _ => True

/-! ## Steps that leave the subscriptions alone -/

/-- Nothing changes that concerns subscriptions. -/
def SameSubscriptions (server server' : Server R) : Prop :=
  server'.pushSubscribers = server.pushSubscribers ∧
    ∀ socket, server'.status socket = server.status socket

namespace SameSubscriptions

theorem refl (server : Server R) : SameSubscriptions server server := ⟨rfl, fun _ ↦ rfl⟩

theorem trans {a b c : Server R} (hab : SameSubscriptions a b) (hbc : SameSubscriptions b c) :
    SameSubscriptions a c :=
  ⟨hbc.1.trans hab.1, fun socket ↦ (hbc.2 socket).trans (hab.2 socket)⟩

variable {server server' : Server R}

theorem of_eq (hsubs : server'.pushSubscribers = server.pushSubscribers)
    (hpeers : server'.peers = server.peers) : SameSubscriptions server server' := by
  refine ⟨hsubs, fun socket ↦ ?_⟩
  unfold Server.status
  rw [hpeers]

theorem filed (h : SameSubscriptions server server') :
    server'.filed = server.filed := by
  unfold Server.filed
  rw [h.1]

theorem subscriptionCount (h : SameSubscriptions server server')
    (socket : ℕ) : server'.subscriptionCount socket = server.subscriptionCount socket := by
  unfold Server.subscriptionCount
  rw [h.filed]

theorem isConnected (h : SameSubscriptions server server')
    (socket : ℕ) : server'.isConnected socket = server.isConnected socket := by
  rw [Server.isConnected_eq, Server.isConnected_eq, h.2]

end SameSubscriptions

theorem same_write (server : Server R) (socket : ℕ) (bytes : Bytes) :
    SameSubscriptions server (server.write socket bytes) := by
  unfold Server.write
  split
  · exact .of_eq rfl rfl
  · exact .refl server

theorem status_modify (server : Server R) (socket : ℕ) (f : Peer → Peer) (other : ℕ) :
    ({ server with peers := server.peers.modify socket f } : Server R).status other =
      if socket = other then
        server.peers[other]?.map fun peer ↦ ((f peer).connected, (f peer).conn.pushSubscribed)
      else server.status other := by
  unfold Server.status
  rw [List.getElem?_modify]
  cases server.peers[other]? <;> split <;> rfl

variable {peer : Peer} {server server' : Server R} {socket : ℕ} (config : BridgeConfig P R)
  (geodesy : Geodesy) (clock : Clock)

theorem same_setConn {conn : ConnectionState}
    (hpeer : server.peers[socket]? = some peer)
    (hconn : conn.pushSubscribed = peer.conn.pushSubscribed) :
    SameSubscriptions server (server.setConn socket conn) := by
  refine ⟨rfl, fun other ↦ ?_⟩
  refine (status_modify server socket _ other).trans ?_
  split
  · next h =>
    subst h
    unfold Server.status
    rw [hpeer]
    simp [hconn]
  · rfl

theorem same_setBuffer (server : Server R) (socket : ℕ) (buffer : Bytes) :
    SameSubscriptions server (server.setBuffer socket buffer) := by
  refine ⟨rfl, fun other ↦ ?_⟩
  refine (status_modify server socket _ other).trans ?_
  split
  · rfl
  · rfl

/-! ## Messages -/

theorem handleLinkRegister_conn (nowUnix : ℤ) (req : Json)
    (state : BridgeState R) (conn : ConnectionState) : ∃ session,
    (handleLinkRegister config nowUnix req state conn).2.2 = { conn with linkSession := session } := by
  unfold handleLinkRegister
  split
  · exact ⟨conn.linkSession, rfl⟩
  · exact ⟨conn.linkSession, rfl⟩
  · dsimp only
    split
    · exact ⟨conn.linkSession, rfl⟩
    · split
      · exact ⟨conn.linkSession, rfl⟩
      · exact ⟨_, rfl⟩

theorem handleLinkDeliver_conn (nowUnix : ℤ) (req : Json)
    (state : BridgeState R) (conn : ConnectionState) : ∃ session,
    (handleLinkDeliver config nowUnix req state conn).2.2 = { conn with linkSession := session } := by
  unfold handleLinkDeliver
  split
  · exact ⟨conn.linkSession, rfl⟩
  · split
    · exact ⟨conn.linkSession, rfl⟩
    · split
      · exact ⟨conn.linkSession, rfl⟩
      · exact ⟨conn.linkSession, rfl⟩
      · exact ⟨_, rfl⟩

theorem handleSetPeerPublicKey_conn (req : Json) (conn : ConnectionState) : ∃ key,
    (handleSetPeerPublicKey req conn).2 = { conn with peerPublicKey := key } := by
  unfold handleSetPeerPublicKey
  split
  · exact ⟨_, rfl⟩
  · exact ⟨conn.peerPublicKey, rfl⟩

/-- A handler changes the session and the peer key of its connection at most. -/
theorem dispatch_conn (command : Command) (req : Json)
    (bridge : GeoBridge R) (conn : ConnectionState) : ∃ session key,
    (dispatch config clock command req bridge conn).2.2 =
      { conn with linkSession := session, peerPublicKey := key } := by
  have hsame : ∃ session key, conn =
      { conn with linkSession := session, peerPublicKey := key } :=
    ⟨conn.linkSession, conn.peerPublicKey, rfl⟩
  cases command with
  | setPeerPublicKey =>
    obtain ⟨key, h⟩ := handleSetPeerPublicKey_conn req conn
    exact ⟨conn.linkSession, key, h⟩
  | linkRegister =>
    obtain ⟨session, h⟩ :=
      handleLinkRegister_conn config clock.nowUnix req _ conn
    exact ⟨session, conn.peerPublicKey, h⟩
  | linkDeliver =>
    obtain ⟨session, h⟩ :=
      handleLinkDeliver_conn config clock.nowUnix req _ conn
    exact ⟨session, conn.peerPublicKey, h⟩
  | _ => exact hsame

theorem handleMessage_conn (data : Bytes)
    (bridge : GeoBridge R) (conn : ConnectionState) : ∃ session key,
    (handleMessage config clock data bridge conn).2.2 =
      { conn with linkSession := session, peerPublicKey := key } := by
  unfold handleMessage handleRequest
  split
  · exact ⟨conn.linkSession, conn.peerPublicKey, rfl⟩
  · split
    · exact ⟨conn.linkSession, conn.peerPublicKey, rfl⟩
    · split
      · exact dispatch_conn config clock _ _ bridge conn
      · exact ⟨conn.linkSession, conn.peerPublicKey, rfl⟩
    · exact ⟨conn.linkSession, conn.peerPublicKey, rfl⟩

theorem handleMessage_pushSubscribed (data : Bytes)
    (bridge : GeoBridge R) (conn : ConnectionState) :
    (handleMessage config clock data bridge conn).2.2.pushSubscribed = conn.pushSubscribed := by
  obtain ⟨session, key, h⟩ := handleMessage_conn config clock data bridge conn
  rw [h]

theorem same_auditReply (server : Server R) (response : Js Json) :
    SameSubscriptions server (server.auditReply response) := by
  cases response <;> exact .of_eq rfl rfl

theorem same_afterMessage {conn : ConnectionState}
    (hpeer : server.peers[socket]? = some peer)
    (hconn : conn.pushSubscribed = peer.conn.pushSubscribed) (handled : Handled)
    (bridge : GeoBridge R) :
    SameSubscriptions server (server.afterMessage socket handled bridge conn).1 := by
  have hset : SameSubscriptions server ({ server with bridge := bridge }.setConn socket conn) :=
    SameSubscriptions.trans (.of_eq rfl rfl)
      (same_setConn hpeer hconn)
  cases handled with
  | replied response => exact hset.trans (same_auditReply _ response)
  | geo request gate => exact hset.trans (.of_eq rfl rfl)

/-! ## Push fan-out and waiting requests -/

theorem same_pushTo (event : JsString) (body : Bytes)
    (sub : PushSubscription) (server : Server R) :
    SameSubscriptions server (Server.pushTo config event body sub server).2 := by
  unfold Server.pushTo
  split
  · exact .refl server
  · next peer hpeer =>
    split
    · split
      · exact .refl server
      · next session _ =>
        dsimp only
        split
        · exact same_setConn hpeer rfl
        · have hset : SameSubscriptions server (server.setConn sub.socket { peer.conn with
              linkSession := some
                { session with outboundCounter := session.outboundCounter + 1 } }) :=
            same_setConn hpeer rfl
          have hcount : SameSubscriptions server
              (server.countFrame config sub.socket peer.conn session).2 :=
            hset.trans (.of_eq rfl rfl)
          split
          · exact hcount
          · exact hcount.trans (same_write _ _ _)
    · exact .refl server

theorem same_broadcastTo (event : JsString) (body : Bytes)
    (subs : List PushSubscription) (server : Server R) :
    SameSubscriptions server (Server.broadcastTo config event body subs server) := by
  induction subs generalizing server with
  | nil => exact .refl server
  | cons sub subs ih =>
    have hpush := same_pushTo config event body sub server
    rw [Server.broadcastTo]
    generalize Server.pushTo config event body sub server = r at hpush ⊢
    obtain ⟨_ | _, server'⟩ := r
    · exact hpush
    · exact hpush.trans (ih server')

theorem same_broadcastZoneTransition
    (transition : Option ZoneTransition) (server : Server R) :
    SameSubscriptions server (server.broadcastZoneTransition config transition) := by
  cases transition with
  | none => exact .refl server
  | some transition => exact same_broadcastTo config _ _ _ server

theorem same_evaluateZone (server : Server R) :
    SameSubscriptions server (server.evaluateZone config geodesy) :=
  SameSubscriptions.trans (.of_eq rfl rfl) (same_broadcastZoneTransition config _ _)

theorem same_resumeJob (index : ℕ)
    (outcome : PromptOutcome) (generatedId : JsString) (server : Server R) :
    SameSubscriptions server
      (server.resumeJob config geodesy clock index outcome generatedId) := by
  unfold Server.resumeJob
  split
  · exact .refl server
  · split
    · exact .refl server
    · refine SameSubscriptions.trans ?_ (same_write _ _ _)
      refine SameSubscriptions.trans ?_ (same_auditReply _ _)
      exact SameSubscriptions.trans (.of_eq rfl rfl) (same_broadcastZoneTransition config _ _)

/-! ## The invariant -/

/-- The number of subscriptions that a socket of a given status has. -/
def expectedCount : Option (Bool × Bool) → ℕ → Prop
  | none, n => n = 0
  | some (true, true), n => n = 1
  | some (true, false), n => n = 0
  | some (false, _), n => n ≤ 1

/-- What holds in every run: no connected socket has a subscription too many or too few. -/
structure SubscriptionInv (server : Server R) : Prop where
  keysNodup : server.pushSubscribers.KeysNodup
  counts : ∀ socket, expectedCount (server.status socket) (server.subscriptionCount socket)

theorem SubscriptionInv.of_same (h : SubscriptionInv server)
    (hsame : SameSubscriptions server server') : SubscriptionInv server' where
  keysNodup := hsame.1 ▸ h.keysNodup
  counts socket := by
    rw [hsame.2, hsame.subscriptionCount]
    exact h.counts socket

/-- Every subscription belongs to a connected socket. -/
def AllConnected (server : Server R) : Prop :=
  ∀ x ∈ server.filed, server.isConnected x.2 = true

theorem AllConnected.same_iff (hsame : SameSubscriptions server server') :
    AllConnected server' ↔ AllConnected server := by
  unfold AllConnected
  rw [hsame.filed]
  simp only [hsame.isConnected]

theorem subscriptionsSound_iff (h : SubscriptionInv server) :
    SubscriptionsSound server ↔ AllConnected server := by
  refine ⟨And.left, fun hall ↦ ⟨hall, fun socket hstatus ↦ ?_⟩⟩
  have hcount := h.counts socket
  rw [hstatus] at hcount
  exact hcount

/-! ## Subscribing -/

theorem filed_subscribe (server : Server R) (socket : ℕ) (conn : ConnectionState)
    (session : LinkSession) (events : List JsString) :
    (server.subscribe socket conn session events).filed.Perm
      ((hex session.sessionId, socket) :: server.filed) :=
  (pairs_add server.pushSubscribers (hex session.sessionId) ⟨socket, events⟩).map _

theorem status_subscribe
    (hpeer : server.peers[socket]? = some peer) (session : LinkSession) (events : List JsString)
    (other : ℕ) : (server.subscribe socket peer.conn session events).status other =
      if socket = other then some (peer.connected, true) else server.status other := by
  refine (status_modify server socket _ other).trans ?_
  split
  · next h =>
    rw [← h, hpeer]
    rfl
  · rfl

theorem subscriptionInv_subscribe (h : SubscriptionInv server) (hpeer : server.peers[socket]? = some peer) (hconnected : peer.connected = true)
    (hfresh : peer.conn.pushSubscribed = false) (session : LinkSession) (events : List JsString) :
    SubscriptionInv (server.subscribe socket peer.conn session events) where
  keysNodup := h.keysNodup.set _ _
  counts other := by
    have hbefore := h.counts other
    have hcount : (server.subscribe socket peer.conn session events).subscriptionCount other =
        (if socket = other then 1 else 0) + server.subscriptionCount other := by
      unfold Server.subscriptionCount
      rw [(filed_subscribe server socket peer.conn session events).countP_eq, countP_cons,
        add_comm]
      simp
    rw [status_subscribe hpeer, hcount]
    by_cases hother : socket = other
    · have hstatus : server.status other = some (true, false) := by
        rw [← hother, Server.status, hpeer, ← hconnected, ← hfresh]
        rfl
      rw [hstatus] at hbefore
      rw [if_pos hother, if_pos hother, hconnected]
      exact congrArg (1 + ·) hbefore
    · rw [if_neg hother, if_neg hother, zero_add]
      exact hbefore

theorem allConnected_subscribe (h : AllConnected server) (hpeer : server.peers[socket]? = some peer) (hconnected : peer.connected = true)
    (session : LinkSession) (events : List JsString) :
    AllConnected (server.subscribe socket peer.conn session events) := by
  intro x hx
  rw [Server.isConnected_eq, status_subscribe hpeer]
  split
  · exact hconnected
  · next hother =>
    rcases List.mem_cons.mp ((filed_subscribe _ _ _ _ _).mem_iff.mp hx) with rfl | hx
    · exact absurd rfl hother
    · rw [← Server.isConnected_eq]
      exact h x hx

/-- The state of a server while the messages of a connected socket are handled. -/
structure Serving (server : Server R) (socket : ℕ) : Prop where
  inv : SubscriptionInv server
  allConnected : AllConnected server
  connected : server.isConnected socket = true

theorem Serving.of_same (h : Serving server socket)
    (hsame : SameSubscriptions server server') : Serving server' socket where
  inv := h.inv.of_same hsame
  allConnected := (AllConnected.same_iff hsame).mpr h.allConnected
  connected := (hsame.isConnected socket).trans h.connected

theorem linkPushAnswer_fresh {req : Json} {conn : ConnectionState} {events : List JsString}
    (h : (Server.linkPushAnswer req conn).2 = some events) : conn.pushSubscribed = false := by
  unfold Server.linkPushAnswer at h
  split at h
  · cases h
  · split at h
    · dsimp only at h
      split at h
      · cases h
      · split at h
        · cases h
        · next hfresh => exact Bool.eq_false_iff.mpr hfresh
    · cases h

theorem serving_handleLinkPush (h : Serving server socket) (hpeer : server.peers[socket]? = some peer) (req : Json) :
    Serving (Server.handleLinkPush socket req peer.conn server) socket := by
  have hconnected : peer.connected = true := by
    have := h.connected
    rwa [Server.isConnected, hpeer] at this
  unfold Server.handleLinkPush
  generalize hanswer : Server.linkPushAnswer req peer.conn = answer
  obtain ⟨response, events⟩ := answer
  apply Serving.of_same _ (same_write _ _ _)
  split
  · next session events _ =>
    have hfresh : peer.conn.pushSubscribed = false :=
      linkPushAnswer_fresh (congrArg Prod.snd hanswer)
    exact
      { inv := subscriptionInv_subscribe h.inv hpeer hconnected hfresh session events
        allConnected := allConnected_subscribe h.allConnected hpeer hconnected session events
        connected := by
          rw [Server.isConnected_eq, status_subscribe hpeer, if_pos rfl]
          exact hconnected }
  · exact h

theorem serving_processMessage (h : Serving server socket)
    (config : BridgeConfig P R) (clock : Clock) (message : Bytes) :
    Serving (Server.processMessage config clock socket message server).1 socket := by
  unfold Server.processMessage
  split
  · exact h
  · next peer hpeer =>
    have hafter : Serving (Server.afterMessage server socket
        (handleMessage config clock message server.bridge peer.conn).1
        (handleMessage config clock message server.bridge peer.conn).2.1
        (handleMessage config clock message server.bridge peer.conn).2.2).1 socket :=
      h.of_same (same_afterMessage hpeer (handleMessage_pushSubscribed ..) _ _)
    split
    · exact hafter
    · split
      · exact h
      · split
        · exact serving_handleLinkPush h hpeer _
        · exact hafter

theorem serving_processMessages
    (messages : List Bytes) (h : Serving server socket) :
    Serving (Server.processMessages config clock socket messages server).1 socket := by
  induction messages generalizing server with
  | nil => exact h
  | cons message messages ih => exact ih (serving_processMessage h config clock message)

theorem same_writeAll (socket : ℕ) (replies : List Bytes) (server : Server R) :
    SameSubscriptions server
      (replies.foldl (fun server reply ↦ server.write socket reply) server) := by
  induction replies generalizing server with
  | nil => exact .refl server
  | cons reply replies ih => exact (same_write server socket reply).trans (ih _)

theorem receiveData_inv (hinv : SubscriptionInv server)
    (hall : AllConnected server) (config : BridgeConfig P R) (clock : Clock) (socket : ℕ)
    (chunk : Bytes) : SubscriptionInv (server.receiveData config clock socket chunk) ∧
      AllConnected (server.receiveData config clock socket chunk) := by
  unfold Server.receiveData
  split
  · exact ⟨hinv, hall⟩
  · next peer hpeer =>
    split
    · next hconnected =>
      have hserving : Serving server socket :=
        { inv := hinv
          allConnected := hall
          connected := by rwa [Server.isConnected, hpeer] }
      have hend (buffer : Bytes) (messages replies : List Bytes) :
          Serving (replies.foldl (fun server reply ↦ server.write socket reply)
            (Server.processMessages config clock socket messages
              (server.setBuffer socket buffer)).1) socket :=
        (serving_processMessages config clock messages
          (hserving.of_same (same_setBuffer server socket buffer))).of_same
            (same_writeAll socket replies _)
      exact ⟨(hend _ _ _).inv, (hend _ _ _).allConnected⟩
    · exact ⟨hinv, hall⟩

/-! ## Connections -/

theorem onConnection_inv (hinv : SubscriptionInv server)
    (hall : AllConnected server) (attestation : PeerAttestation) :
    SubscriptionInv (server.onConnection attestation) ∧
      AllConnected (server.onConnection attestation) := by
  have hstatus (socket : ℕ) : (server.onConnection attestation).status socket =
      if socket = server.peers.length then some (true, false) else server.status socket := by
    unfold Server.status Server.onConnection
    split
    · next h => simp [h]
    · next h =>
      rcases lt_or_gt_of_ne h with h | h
      · rw [List.getElem?_append_left h]
      · have hlast : server.peers.length + 1 ≤ socket := h
        rw [List.getElem?_eq_none (by simpa using hlast),
          List.getElem?_eq_none (Nat.le_of_lt h)]
  have hnone : server.status server.peers.length = none := by
    unfold Server.status
    rw [List.getElem?_eq_none le_rfl]
    rfl
  constructor
  · refine ⟨hinv.keysNodup, fun socket ↦ ?_⟩
    have hcount := hinv.counts socket
    rw [hstatus]
    split
    · next h =>
      rw [h, hnone] at hcount
      rw [h]
      exact hcount
    · exact hcount
  · intro x hx
    rw [Server.isConnected_eq, hstatus]
    split
    · rfl
    · rw [← Server.isConnected_eq]
      exact hall x hx

/-- The subscriptions that the cleanup of a connection finds. -/
def foundBy (conn : ConnectionState) (socket : ℕ) (x : JsString × ℕ) : Bool :=
  match conn.linkSession with
  | none => false
  | some session => x.1 = hex session.sessionId && x.2 = socket

section Cleanup

variable {server : Server R} {socket : ℕ} {peer : Peer} (hpeer : server.peers[socket]? = some peer)

include hpeer

theorem filed_cleanup (hnodup : server.pushSubscribers.KeysNodup) :
    (server.cleanupConnection socket).filed =
      server.filed.filter fun x ↦ !foundBy peer.conn socket x := by
  unfold Server.cleanupConnection foundBy
  rw [hpeer]
  dsimp only
  cases peer.conn.linkSession with
  | none => simp [Server.filed]
  | some session =>
    unfold Server.filed
    dsimp only [Server.setConn, Server.recordAudit]
    rw [pairs_keepOnly hnodup, filter_map]
    congr 2
    funext x
    by_cases hkey : x.1 = hex session.sessionId <;> by_cases hsocket : x.2.socket = socket <;>
      simp [hkey, hsocket]

theorem keysNodup_cleanup (hnodup : server.pushSubscribers.KeysNodup) :
    (server.cleanupConnection socket).pushSubscribers.KeysNodup := by
  unfold Server.cleanupConnection
  rw [hpeer]
  dsimp only
  cases peer.conn.linkSession with
  | none => exact hnodup
  | some session => exact hnodup.keepOnly _ _

theorem status_cleanup (other : ℕ) : (server.cleanupConnection socket).status other =
    if socket = other then some (false, peer.conn.pushSubscribed) else server.status other := by
  have hclosed : ({ server with peers := server.peers.modify socket fun peer ↦
      { peer with connected := false } } : Server R).status other =
      if socket = other then some (false, peer.conn.pushSubscribed)
      else server.status other := by
    refine (status_modify server socket _ other).trans ?_
    split
    · next h =>
      rw [← h, hpeer]
      rfl
    · rfl
  unfold Server.cleanupConnection
  rw [hpeer]
  dsimp only
  cases peer.conn.linkSession with
  | none => exact hclosed
  | some session =>
    have hset (closed : Server R) (h : closed.peers[socket]? = some { peer with connected := false }) :
        SameSubscriptions closed (closed.setConn socket (Server.wiped peer.conn session)) :=
      same_setConn h rfl
    have hmodified : (server.peers.modify socket fun peer ↦
        { peer with connected := false })[socket]? = some { peer with connected := false } := by
      rw [List.getElem?_modify, hpeer]
      simp
    exact ((hset _ hmodified).2 other).trans hclosed

theorem subscriptionInv_cleanup (h : SubscriptionInv server) (hconnected : peer.connected = true) :
    SubscriptionInv (server.cleanupConnection socket) where
  keysNodup := keysNodup_cleanup hpeer h.keysNodup
  counts other := by
    have hbefore := h.counts other
    have hcount : (server.cleanupConnection socket).subscriptionCount other =
        server.filed.countP fun x ↦ x.2 = other && !foundBy peer.conn socket x := by
      unfold Server.subscriptionCount
      rw [filed_cleanup hpeer h.keysNodup, countP_filter]
    rw [status_cleanup hpeer]
    split
    · next hother =>
      have hle : (server.cleanupConnection socket).subscriptionCount other ≤
          server.subscriptionCount other := by
        rw [hcount]
        exact countP_mono_left fun x _ hx ↦ (Bool.and_eq_true _ _ ▸ hx).1
      have hone : server.subscriptionCount other ≤ 1 := by
        have hstatus : server.status other = some (true, peer.conn.pushSubscribed) := by
          rw [← hother, Server.status, hpeer, ← hconnected]
          rfl
        rw [hstatus] at hbefore
        cases hsub : peer.conn.pushSubscribed with
        | false =>
          rw [hsub] at hbefore
          exact le_of_eq_of_le hbefore zero_le_one
        | true =>
          rw [hsub] at hbefore
          exact le_of_eq hbefore
      exact hle.trans hone
    · next hother =>
      have hsame : (server.cleanupConnection socket).subscriptionCount other =
          server.subscriptionCount other := by
        rw [hcount]
        apply countP_congr
        intro x _
        unfold foundBy
        cases peer.conn.linkSession with
        | none => simp
        | some session =>
          by_cases hx : x.2 = other
          · simp [hx, Ne.symm hother]
          · simp [hx]
      rw [hsame]
      exact hbefore

/-- The cleanup leaves subscriptions of connected sockets only exactly if it finds all those of
the socket. -/
theorem allConnected_cleanup_iff (h : SubscriptionInv server) (hall : AllConnected server) :
    AllConnected (server.cleanupConnection socket) ↔ ClosesFiled server (.close socket) := by
  have hiff : AllConnected (server.cleanupConnection socket) ↔
      ∀ x ∈ server.filed, x.2 = socket → foundBy peer.conn socket x = true := by
    unfold AllConnected
    rw [filed_cleanup hpeer h.keysNodup]
    constructor
    · intro hafter x hx hsocket
      by_contra hfound
      have hconnected := hafter x (List.mem_filter.mpr ⟨hx, by simpa using hfound⟩)
      rw [Server.isConnected_eq, status_cleanup hpeer, if_pos hsocket.symm] at hconnected
      cases hconnected
    · intro hfound x hx
      obtain ⟨hx, hkept⟩ := List.mem_filter.mp hx
      have hother : socket ≠ x.2 := by
        intro hsocket
        rw [hfound x hx hsocket.symm] at hkept
        cases hkept
      rw [Server.isConnected_eq, status_cleanup hpeer, if_neg hother, ← Server.isConnected_eq]
      exact hall x hx
  rw [hiff]
  unfold ClosesFiled foundBy
  refine forall₂_congr fun x _ ↦ forall_congr' fun hsocket ↦ ?_
  cases hsession : peer.conn.linkSession with
  | none => simp [hpeer, hsession]
  | some session => simp [hpeer, hsession, hsocket]

end Cleanup

/-! ## Runs -/

theorem subscriptionInv_step (server : Server R)
    (event : ServerEvent) (hinv : SubscriptionInv server) (hall : AllConnected server) :
    SubscriptionInv (serverStep config geodesy server event) ∧
      (AllConnected (serverStep config geodesy server event) ↔ ClosesFiled server event) := by
  have hsame {server' : Server R} (h : SameSubscriptions server server') :
      SubscriptionInv server' ∧ (AllConnected server' ↔ True) :=
    ⟨hinv.of_same h, iff_true_intro ((AllConnected.same_iff h).mpr hall)⟩
  cases event with
  | connect attestation =>
    obtain ⟨h, hconnected⟩ := onConnection_inv hinv hall attestation
    exact ⟨h, iff_true_intro hconnected⟩
  | data clock socket chunk =>
    obtain ⟨h, hconnected⟩ := receiveData_inv hinv hall config clock socket chunk
    exact ⟨h, iff_true_intro hconnected⟩
  | close socket =>
    unfold serverStep
    cases hpeer : server.peers[socket]? with
    | none =>
      have hclosed : server.isConnected socket = false := by rw [Server.isConnected, hpeer]
      simp only [hclosed, Bool.false_eq_true, if_false]
      refine ⟨hinv, iff_of_true hall ?_⟩
      intro x hx hsocket
      have hconnected := hall x hx
      rw [hsocket, hclosed] at hconnected
      cases hconnected
    | some peer =>
      cases hconnected : peer.connected with
      | true =>
        have hopen : server.isConnected socket = true := by
          rw [Server.isConnected, hpeer]
          exact hconnected
        simp only [hopen, if_true]
        exact ⟨subscriptionInv_cleanup hpeer hinv hconnected,
          allConnected_cleanup_iff hpeer hinv hall⟩
      | false =>
        have hclosed : server.isConnected socket = false := by
          rw [Server.isConnected, hpeer]
          exact hconnected
        simp only [hclosed, Bool.false_eq_true, if_false]
        refine ⟨hinv, iff_of_true hall ?_⟩
        intro x hx hsocket
        have hconnected := hall x hx
        rw [hsocket, hclosed] at hconnected
        cases hconnected
  | resume clock job outcome generatedId =>
    exact hsame (same_resumeJob config geodesy clock job outcome generatedId server)
  | setFix fix =>
    exact hsame (SameSubscriptions.trans (.of_eq rfl rfl) (same_evaluateZone config geodesy _))
  | clearFix => exact hsame (.of_eq rfl rfl)
  | setZones zones => exact hsame (.of_eq rfl rfl)
  | evaluateZone => exact hsame (same_evaluateZone config geodesy server)
  | aclUpsert entry => exact hsame (.of_eq rfl rfl)
  | aclRemove id => exact hsame (.of_eq rfl rfl)
  | aclLoad bytes signature => exact hsame (.of_eq rfl rfl)

theorem subscriptionInv_start (bridge : GeoBridge R) : SubscriptionInv (Server.start bridge) where
  keysNodup := nodup_nil
  counts _ := rfl

/-- In a run from the start, the subscriptions are sound throughout exactly if every connection
that closes has its subscriptions filed under the session it still has. -/
theorem subscriptionsSound_iff_closesFiled (config : BridgeConfig P R) (geodesy : Geodesy)
    (bridge : GeoBridge R) (events : List ServerEvent) :
    (∀ before, before <+: events →
      SubscriptionsSound (run (serverStep config geodesy) (Server.start bridge) before)) ↔
      Meets (serverStep config geodesy) ClosesFiled (Server.start bridge) events := by
  apply meets_iff SubscriptionInv SubscriptionsSound
  · intro server event hinv hsound
    exact (subscriptionInv_step config geodesy server event hinv hsound.1).1
  · intro server event hinv hsound
    obtain ⟨hnext, hiff⟩ := subscriptionInv_step config geodesy server event hinv hsound.1
    exact (subscriptionsSound_iff hnext).trans hiff
  · exact subscriptionInv_start bridge
  · exact (subscriptionsSound_iff (subscriptionInv_start bridge)).mpr fun x hx ↦ by cases hx

/-- Subscribe, register again, disconnect. -/
def reregisteredRun : List ServerEvent :=
  [.connect builtinPeer, .data Transparent.clock 0 Transparent.goodRegistration,
    .data Transparent.clock 0 Transparent.pushRequest,
    .data Transparent.clock 0 Transparent.goodRegistration, .close 0]

/-- The closed connection keeps its subscription under the id of its first session. -/
theorem subscriptionsSound_fails_reregistered :
    ¬ SubscriptionsSound (run (serverStep Transparent.config Transparent.geodesy)
      (Server.start Transparent.bridge) reregisteredRun) := by
  intro h
  have hleft : (run (serverStep Transparent.config Transparent.geodesy)
      (Server.start Transparent.bridge) reregisteredRun).filed.any (fun x ↦
        !(run (serverStep Transparent.config Transparent.geodesy)
          (Server.start Transparent.bridge) reregisteredRun).isConnected x.2) = true := by
    decide +kernel
  obtain ⟨x, hx, hclosed⟩ := List.any_eq_true.mp hleft
  rw [h.1 x hx] at hclosed
  cases hclosed

end Bsh.Bridge
