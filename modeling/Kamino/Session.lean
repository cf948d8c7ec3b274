import Kamino.Codec
import Kamino.Migration

/-!
# A client's connection

The commands of the protocol, the state a server keeps of a connection, and `dispatch` with its
gates. What the handlers behind the gates do is a `Backend` over a world of its own.
-/

namespace Kamino.Resp

structure HelloArgs where
  protocolVersion : Option UInt32 := none
  auth : Option (Option Bytes × Bytes) := none
  clientName : Option Bytes := none

structure ScanCommandOptions where
  matchPattern : Option Bytes := none
  count : Option UInt32 := none

/-- A parsed command. The delta of `DM.INCRBYFLOAT` is given by its bits. -/
inductive Command where
  | ping (message : Option Bytes)
  | auth (username : Option Bytes) (password : Bytes)
  | hello (args : HelloArgs)
  | quit
  | stats
  | dmPut (dmap key value : Bytes) (options : PutOptions)
  | dmGet (dmap key : Bytes)
  | dmDel (dmap : Bytes) (keys : List Bytes)
  | dmExpire (dmap key : Bytes) (seconds : UInt64)
  | dmPexpire (dmap key : Bytes) (milliseconds : UInt64)
  | dmIncr (dmap key : Bytes) (delta : Int64)
  | dmDecr (dmap key : Bytes) (delta : Int64)
  | dmGetPut (dmap key value : Bytes)
  | dmIncrByFloat (dmap key : Bytes) (delta : UInt64)
  | dmDestroy (dmap : Bytes)
  | dmScan (partitionId : UInt32) (dmap : Bytes) (cursor : UInt64) (options : ScanCommandOptions)
  | clusterMembers
  | clusterRoutingTable
  | clusterReady
  | internalNodeUpdateRouting (table : Bytes)
  | internalNodeLengthOfPart (partitionId : UInt32)
  | internalNodeGetWithTs (dmap key : Bytes)
  | internalNodeMoveFragment (partitionId : UInt32) (partitionType : PartitionType)
      (dmap payload : Bytes)
  | internalNodePublish (channel message : Bytes)
  | subscribe (channels : List Bytes)
  | psubscribe (patterns : List Bytes)
  | unsubscribe (channels : List Bytes)
  | punsubscribe (patterns : List Bytes)
  | publish (channel message : Bytes)
  | pubsubChannels (pattern : Option Bytes)
  | pubsubNumsub (channels : List Bytes)
  | pubsubNumpat

namespace Command

def isPreAuthCommand : Command → Bool
  | ping _ | auth .. | hello _ | quit => true
  | _ => false

def isPubsubModeAllowed : Command → Bool
  | ping _ | quit | subscribe _ | psubscribe _ | unsubscribe _ | punsubscribe _ => true
  | _ => false

def verb : Command → String
  | ping _ => "PING"
  | auth .. => "AUTH"
  | hello _ => "HELLO"
  | quit => "QUIT"
  | stats => "STATS"
  | dmPut .. => "DM.PUT"
  | dmGet .. => "DM.GET"
  | dmDel .. => "DM.DEL"
  | dmExpire .. => "DM.EXPIRE"
  | dmPexpire .. => "DM.PEXPIRE"
  | dmIncr .. => "DM.INCR"
  | dmDecr .. => "DM.DECR"
  | dmGetPut .. => "DM.GETPUT"
  | dmIncrByFloat .. => "DM.INCRBYFLOAT"
  | dmDestroy _ => "DM.DESTROY"
  | dmScan .. => "DM.SCAN"
  | clusterMembers => "CLUSTER.MEMBERS"
  | clusterRoutingTable => "CLUSTER.ROUTINGTABLE"
  | clusterReady => "CLUSTER.READY"
  | internalNodeUpdateRouting _ => "INTERNAL.NODE.UPDATEROUTING"
  | internalNodeLengthOfPart _ => "INTERNAL.NODE.LENGTHOFPART"
  | internalNodeGetWithTs .. => "INTERNAL.NODE.GETWITHTS"
  | internalNodeMoveFragment .. => "INTERNAL.NODE.MOVEFRAGMENT"
  | internalNodePublish .. => "INTERNAL.NODE.PUBLISH"
  | subscribe _ => "SUBSCRIBE"
  | psubscribe _ => "PSUBSCRIBE"
  | unsubscribe _ => "UNSUBSCRIBE"
  | punsubscribe _ => "PUNSUBSCRIBE"
  | publish .. => "PUBLISH"
  | pubsubChannels _ => "PUBSUB CHANNELS"
  | pubsubNumsub _ => "PUBSUB NUMSUB"
  | pubsubNumpat => "PUBSUB NUMPAT"

def isDmapOp : Command → Bool
  | dmPut .. | dmGet .. | dmDel .. | dmExpire .. | dmPexpire .. | dmIncr .. | dmDecr ..
  | dmGetPut .. | dmIncrByFloat .. | dmDestroy _ | dmScan .. => true
  | _ => false

def isInternal : Command → Bool
  | internalNodeUpdateRouting _ | internalNodeLengthOfPart _ | internalNodeGetWithTs ..
  | internalNodeMoveFragment .. | internalNodePublish .. => true
  | _ => false

/-- The key `check_routing` asks about. -/
def routedKey : Command → Option (Bytes × Bytes)
  | dmPut dmap key _ _ | dmGet dmap key | dmExpire dmap key _ | dmPexpire dmap key _
  | dmIncr dmap key _ | dmDecr dmap key _ | dmGetPut dmap key _ | dmIncrByFloat dmap key _ =>
    some (dmap, key)
  | _ => none

end Command

inductive AuthState where
  | noAuthRequired
  | unauthenticated
  | authenticated
  deriving DecidableEq

/-- What a connection keeps of its subscriptions. -/
structure PubSubState where
  pubSubId : Option UInt64 := none
  pubSubCount : ℕ := 0

/-- The server's `ConnState`. The client's name is the bytes it was sent as. -/
structure Session where
  auth : AuthState
  version : ProtocolVersion := .resp2
  internode : Bool := false
  pubSub : PubSubState := {}
  clientName : Option Bytes := none

namespace Session

def new (authRequired : Bool) : Session :=
  { auth := if authRequired then .unauthenticated else .noAuthRequired }

def isAuthed (st : Session) : Bool := st.auth ≠ .unauthenticated

def inPubsubMode (st : Session) : Bool := st.pubSub.pubSubId.isSome

end Session

structure ServerContext where
  password : String
  clusterSecret : String
  version : String
  id : UInt64

inductive HandlerOutcome where
  | continued
  | upgradeToResp3
  | close
  deriving DecidableEq

def noauth : Frame := .error "NOAUTH Authentication required"
def wrongpass : Frame := .error "WRONGPASS invalid username-password pair or user is disabled"
def noPasswordSet : Frame := .error "ERR Client sent AUTH, but no password is set"
def nopermInternal : Frame := .error "NOPERM INTERNAL.NODE.* requires cluster_secret auth"
def quorumNotMet : Frame := .error "QUORUM cluster has insufficient members"

def Frame.isError : Frame → Bool
  | .error _ => true
  | _ => false

section Handlers

variable (ctx : ServerContext) (st : Session)

def ping : Option Bytes → Frame
  | none => .simpleString "PONG"
  | some m => .bulk (some m)

def auth (username : Option Bytes) (password : Bytes) : Frame × Session :=
  if ctx.clusterSecret ≠ "" ∧ password = asBytes ctx.clusterSecret then
    (.simpleString "OK", { st with auth := .authenticated, internode := true })
  else if ctx.password = "" then (noPasswordSet, st)
  else if username.any (· ≠ asBytes "default") then (wrongpass, st)
  else if password = asBytes ctx.password then
    (.simpleString "OK", { st with auth := .authenticated, internode := false })
  else (wrongpass, st)

def buildHelloResponse (resp3 : Bool) : Frame :=
  let text (s : String) : Frame := .bulk (some (asBytes s))
  let pairs : List (Frame × Frame) :=
    [(text "server", text "kamino"), (text "version", text ctx.version),
      (text "proto", .integer (if resp3 then 3 else 2)), (text "id", .integer ctx.id.toInt64),
      (text "mode", text "standalone"), (text "role", text "master"),
      (text "modules", .array (some []))]
  if resp3 then .map pairs else .array (some (pairs.flatMap fun (k, v) => [k, v]))

/-- `HELLO` once the client may use it. -/
def helloReply (args : HelloArgs) : Frame × HandlerOutcome × Session :=
  let named := match args.clientName with
    | some name => { st with clientName := some name }
    | none => st
  match args.protocolVersion with
  | none | some 2 => (buildHelloResponse ctx false, .continued, named)
  | some 3 => (buildHelloResponse ctx true, .upgradeToResp3, named)
  | some other =>
    (.error ("NOPROTO unsupported protocol version " ++ toString other.toNat), .continued, st)

def hello (args : HelloArgs) : Frame × HandlerOutcome × Session :=
  match args.auth with
  | some (username, password) =>
    let (frame, st) := auth ctx st username password
    if frame.isError then (frame, .continued, st) else helloReply ctx st args
  | none =>
    if st.auth = .unauthenticated then (noauth, .continued, st) else helloReply ctx st args

end Handlers

/-- What the server has behind its gates. A key's route is its partition and the address of the
node to go to, where that is not the local one. -/
structure Backend (W : Type) where
  memberQuorumOk : W → Bool
  routeKey : W → Bytes → Bytes → Option (UInt32 × SocketAddr)
  handle : (fromPeer : Bool) → Command → PubSubState → W → List Frame × PubSubState × W

/-- The outcome of one turn of the connection loop. -/
structure Served (W : Type) where
  frames : List Frame
  closed : Bool
  session : Session
  world : W

section Dispatch

variable {W : Type} (b : Backend W) (ctx : ServerContext) (st : Session)

def isInternalAllowed (cmd : Command) : Bool :=
  !cmd.isInternal || ctx.clusterSecret = "" || st.internode

def checkRouting (w : W) (cmd : Command) : Option Frame :=
  match cmd.routedKey with
  | none => none
  | some (dmap, key) => (b.routeKey w dmap key).map fun (part, target) =>
    .error ("MOVED " ++ toString part ++ " " ++ target)

def handleCommand (w : W) : Command → List Frame × HandlerOutcome × Session × W
  | .ping message => ([ping message], .continued, st, w)
  | .auth username password =>
    let (frame, st) := auth ctx st username password
    ([frame], .continued, st, w)
  | .hello args =>
    let (frame, outcome, st) := hello ctx st args
    ([frame], outcome, st, w)
  | .quit => ([.simpleString "OK"], .close, st, w)
  | cmd =>
    let (frames, pubSub, w) := b.handle st.internode cmd st.pubSub w
    (frames, .continued, { st with pubSub := pubSub }, w)

def dispatch (w : W) (cmd : Command) : List Frame × HandlerOutcome × Session × W :=
  if !st.isAuthed && !cmd.isPreAuthCommand then ([noauth], .continued, st, w)
  else if !isInternalAllowed ctx st cmd then ([nopermInternal], .continued, st, w)
  else if st.inPubsubMode && !cmd.isPubsubModeAllowed then
    ([.error ("ERR Can't execute " ++ cmd.verb ++ ": only (P|S)SUBSCRIBE / (P|S)UNSUBSCRIBE / " ++
      "PING / QUIT allowed in this context")], .continued, st, w)
  else if !st.internode && cmd.isDmapOp && !b.memberQuorumOk w then
    ([quorumNotMet], .continued, st, w)
  else
    match if st.internode then none else checkRouting b w cmd with
    | some moved => ([moved], .continued, st, w)
    | none => handleCommand b ctx st w cmd

variable (parse : Frame → Except String Command)

/-- One turn of the connection loop on a frame, given `Command::parse` with its errors' texts. -/
def serve (frame : Frame) (w : W) : Served W :=
  match parse frame with
  | .error err => ⟨[.error ("ERR " ++ err)], false, st, w⟩
  | .ok cmd =>
    match dispatch b ctx st w cmd with
    | (frames, .continued, st, w) => ⟨frames, false, st, w⟩
    | (frames, .upgradeToResp3, st, w) => ⟨frames, false, { st with version := .resp3 }, w⟩
    | (frames, .close, st, w) => ⟨frames, true, st, w⟩

/-- The connection after a frame that met the world `w`, while it is open. -/
def sessionStep (st : Session) (turn : Frame × W) : Option Session :=
  let served := serve b ctx st parse turn.1 turn.2
  if served.closed then none else some served.session

def Session.start : Session := .new (ctx.password ≠ "")

end Dispatch

end Kamino.Resp
