import Kamino.Command
import Kamino.Internode
import Kamino.PubSub
import Kamino.Reads

/-!
# The handlers behind a connection

A `World` is everything the server has as a turn of the connection loop finds it. While a handler
waits for its peers, other requests may change the node in any way.
-/

namespace Kamino

section Scan

/-- The loop of `glob_to_regex`, inside a character class or outside. -/
def globChars : (inClass : Bool) → List Char → List Char
  | _, [] => []
  | true, c :: cs => c :: globChars (c ≠ ']') cs
  | false, c :: cs =>
    if c = '*' then '.' :: '*' :: globChars false cs
    else if c = '?' then '.' :: globChars false cs
    else if c = '[' then '[' :: globChars true cs
    else if c ∈ ['.', '+', '(', ')', '|', '^', '$', '\x7b', '\x7d', '\\'] then
      '\\' :: c :: globChars false cs
    else c :: globChars false cs

def globToRegex (pattern : String) : String :=
  String.ofList ('^' :: globChars false pattern.toList ++ ['$'])

namespace DMap

variable (env : Env) (d : DMap)

/-- `scan` and all its cursor returns. `regex` is `Regex::new`, with the text of its error. -/
def scan (regex : String → Except String (String → Bool)) (partitionCount part : UInt32)
    (pattern : Option String) (nowMicros : UInt64) :
    Except ClientError (List (Bytes × Bytes)) :=
  if partitionCount ≤ part then
    .error (.invalidArgument ("partition_id " ++ toString part ++ " >= partition_count " ++
      toString partitionCount))
  -- The one fragment of the DMap is all in partition 0.
  else if part ≠ 0 then .ok []
  else
    let live := (d.fragment.entries.map fun p => p.2).filter fun e =>
      !e.isExpired (microsToNanosI64 nowMicros)
    let pairs (es : List Entry) := es.map fun e => (e.key, e.value)
    match pattern with
    | none => .ok (pairs (live.filter fun e => (Resp.fromUtf8 e.key).isSome))
    | some pattern =>
      match regex (globToRegex pattern) with
      | .error e => .error (.storage (.regex e))
      | .ok isMatch => .ok (pairs (live.filter fun e => (Resp.fromUtf8 e.key).any isMatch))

def destroy : DMap :=
  let victims := d.fragment.entries.map fun p => p.1
  { d with fragment := (d.fragment.deleteAll victims 0).2 }

/-- The number `incr_by_float` adds to, by its bits. -/
def currentFloat (f64 : Resp.F64Text) : Option Entry → Except ClientError UInt64
  | none => .ok 0
  | some e =>
    match utf8Error e.value 0 with
    | some err => .error (.serialization err)
    | none =>
      match (Resp.fromUtf8 e.value).bind f64.parse with
      | some x => .ok x
      | none =>
        .error (.notANumber "float" (if e.value = [] then "cannot parse float from empty string"
          else "invalid float literal"))

def incrByFloat (f64 : Resp.F64Text) (add : UInt64 → UInt64 → UInt64) (guard : Bool)
    (key : Bytes) (delta : UInt64) (clk : ℕ → UInt64) : Except ClientError UInt64 × DMap :=
  d.readModifyWrite env guard key clk fun existing =>
    match currentFloat f64 existing with
    | .error e => .error e
    | .ok current =>
      let new := add current delta
      .ok (Resp.asBytes (f64.display new), new)

end DMap

namespace Node

variable (env : Env) (n : Node)

/-- `dm_expire`, for a duration in nanoseconds. -/
def dmExpire (guard : Bool) (dmap key : Bytes) (duration : ℕ) (clk : ℕ → UInt64) : Frame × Node :=
  n.onDMap dmap key fun d =>
    match d.expire env guard key duration clk with
    | (.ok (), d) => (.integer 1, d)
    | (.error .keyNotFound, d) => (.integer 0, d)
    | (.error e, d) => (mapClientError e, d)

def dmIncrByFloat (f64 : Resp.F64Text) (add : UInt64 → UInt64 → UInt64) (guard : Bool)
    (dmap key : Bytes) (delta : UInt64) (clk : ℕ → UInt64) : Frame × Node :=
  n.onDMap dmap key fun d =>
    match d.incrByFloat env f64 add guard key delta clk with
    | (.ok v, d) => (.bulk (some (Resp.asBytes (f64.display v))), d)
    | (.error e, d) => (mapClientError e, d)

def dmDestroy (dmap : Bytes) : Frame × Node :=
  match n.dmapHandle dmap with
  | .error f => (f, n)
  | .ok (d, n) => (.ok, n.setDMap dmap d.destroy)

/-- `dm_get`'s read of its own node. -/
def readLocal (dmap key : Bytes) (clk : ℕ → UInt64) : Except Frame Read × Node :=
  match n.openKey dmap key with
  | (.error f, n) => (.error f, n)
  | (.ok d, n) =>
    match d.get env key clk with
    | (.ok resp, d) => (.ok (some (resp.value, resp.timestamp)), n.setDMap dmap d)
    | (.error .keyNotFound, d) => (.ok none, n.setDMap dmap d)
    | (.error e, d) => (.error (mapClientError e), n.setDMap dmap d)

end Node

section Get

variable (env : Env) (settings : ReadSettings) (dmap key : Bytes) (ask : ℕ → SocketAddr → Read)

/-- What `dm_get` answers after the fallback to the previous owners. `ask i` is what its `i`-th
fan-out hears from a peer. -/
def fanReply (r : Routing) (found : Read) : Frame × Option Repair :=
  if settings.readQuorum ≤ 1 && !settings.readRepair then (GetStage.localReply found, none)
  else
    let backups := r.backupAddrsForKey env dmap key
    let owners := if settings.readRepair then r.previousOwnersForKey env dmap key else []
    if backups = [] ∧ owners = [] then (GetStage.localReply found, none)
    else fanOutReply settings backups owners (backups.map (ask 1)) (owners.map (ask 2)) found

/-- What `dm_get` answers after its local read, and the repair it starts. -/
def getReply (routing : Option Routing) (found : Read) : Frame × Option Repair :=
  match routing with
  | none => (GetStage.localReply found, none)
  | some r =>
    let prior := r.previousOwnersForKey env dmap key
    let recovered := if found = none then pickHighestTs (prior.map (ask 0)) else none
    match recovered with
    | some (value, _) => (.bulk (some value), none)
    | none => fanReply env settings dmap key ask r found

end Get

end Scan

end Kamino

namespace Kamino.Resp

/-- The text has no line break. -/
def OneLine (s : String) : Prop := cr ∉ asBytes s ∧ lf ∉ asBytes s

instance (s : String) : Decidable (OneLine s) := inferInstanceAs (Decidable (_ ∧ _))

/-- The text of a peer's reply, or of the transport's error, has no line break. -/
def OneLineReply : Except ClusterError Kamino.Frame → Prop
  | .error e => OneLine e.text
  | .ok (.simpleString s) | .ok (.error s) => OneLine s
  | .ok (.integer _) | .ok (.bulk _) => True

/-- The pub/sub registry's trait, over the registry's state. -/
structure PubSubProvider (P : Type) where
  allocateConnId : P → UInt64 × P
  registerConn : P → UInt64 → P
  subscribe : P → UInt64 → List Bytes → List PubSub.SubAck × P
  psubscribe : P → UInt64 → List Bytes → List PubSub.SubAck × P
  unsubscribe : P → UInt64 → Option (List Bytes) → List PubSub.SubAck × P
  punsubscribe : P → UInt64 → Option (List Bytes) → List PubSub.SubAck × P
  publish : P → Bytes → Bytes → ℕ × P
  publishLocal : P → String → Bytes → ℕ × P
  pubsubChannels : P → Option String → List String
  pubsubNumsub : P → List Bytes → List (Bytes × ℕ)
  pubsubNumpat : P → ℕ

structure MemberSummary where
  id : UInt64
  name : String
  addr : SocketAddr
  discoveryAddr : SocketAddr
  birthdate : UInt64
  isCoordinator : Bool

inductive ApplyRoutingOutcome where
  | accepted
  | stale
  | unsupportedSchema

/-- What the cluster's runtime answers beside its `Routing`. -/
structure ClusterRuntime where
  routing : Routing
  readSettings : ReadSettings
  routingTableBytes : Option Bytes
  isReady : Bool
  applyRoutingUpdate : Bytes → Except ClusterError ApplyRoutingOutcome
  localOrphans : List (UInt32 × String)
  /-- The addresses of the primaries. -/
  addr_oneLine : ∀ t ∈ routing.snapshot, ∀ part, ∀ m ∈ t.primary part, OneLine m.addr

structure MetricsSnapshot where
  uptimeSecs : UInt64
  currentConnections : ℕ
  totalConnections : UInt64
  commandsTotal : UInt64

structure World (P : Type) where
  env : Env
  node : Node
  self : SocketAddr
  runtime : Option ClusterRuntime
  members : Option (List MemberSummary)
  metrics : MetricsSnapshot
  pubsub : Option (PubSubProvider P)
  registry : P
  readings : Readings
  guard : Bool
  partitionCount : UInt32
  regex : String → Except String (String → Bool)
  addF64 : UInt64 → UInt64 → UInt64
  /-- What a fan-out's peers answer, and the node after the wait. -/
  ask : Fan → List Hop → Node → List (Except ClusterError Kamino.Frame) × Node
  read : ℕ → SocketAddr → Read
  debugStr_oneLine : ∀ s, OneLine (env.debugStr s)
  debugBytes_oneLine : ∀ b, OneLine (env.debugBytes b)
  ask_oneLine : ∀ label sends n, ∀ reply ∈ (ask label sends n).1, OneLineReply reply

namespace World

variable {P : Type} (ctx : ServerContext) (f64 : F64Text) (w : World P)

def routing : Option Routing := w.runtime.map (·.routing)

def server : Server := ⟨w.self, w.routing⟩

section Store

def onNode (r : Kamino.Frame × Node) : Frame × World P := (r.1.wire, { w with node := r.2 })

def onCluster (start : Handler × Node) : Frame × World P := w.onNode (start.1.run w.ask start.2)

def dmGet (fromPeer : Bool) (dmap key : Bytes) : Frame × World P :=
  if fromPeer then w.onNode (w.node.dmGetPeer w.env dmap key w.readings.clk)
  else
    match w.node.readLocal w.env dmap key w.readings.clk with
    | (.error f, n) => w.onNode (f, n)
    | (.ok found, n) =>
      let settings := (w.runtime.map (·.readSettings)).getD ⟨1, false⟩
      match getReply w.env settings dmap key w.read w.routing found with
      | (f, none) => w.onNode (f, n)
      | (f, some repair) => w.onNode (f, { n with lastTs := max n.lastTs repair.timestamp })

def internalNodeGetWithTs (dmap key : Bytes) : Frame × World P :=
  match w.node.readLocal w.env dmap key w.readings.clk with
  | (.error f, n) => w.onNode (f, n)
  | (.ok none, n) => w.onNode (.bulk none, n)
  | (.ok (some (value, ts)), n) =>
    (.array (some [.bulk (some value), .integer ts]), { w with node := n })

def dmScan (part : UInt32) (dmap : Bytes) (options : ScanCommandOptions) : Frame × World P :=
  match w.node.dmapHandle dmap with
  | .error f => w.onNode (f, w.node)
  | .ok (d, n) =>
    match options.matchPattern.bind fun p => utf8Error p 0 with
    | some e => w.onNode (.error ("ERR invalid MATCH pattern: " ++ e), n)
    | none =>
      let pattern := options.matchPattern.bind fromUtf8
      match d.scan w.regex w.partitionCount part pattern (w.readings.clk 0) with
      | .error e => w.onNode (mapClientError e, n)
      | .ok pairs =>
        let items := pairs.flatMap fun (k, v) => [Frame.bulk (some k), Frame.bulk (some v)]
        (.array (some [.bulk (some (asBytes "0")), .array (some items)]), { w with node := n })

end Store

section Cluster

def text (s : String) : Frame := .bulk (some (asBytes s))

/-- `{:016x}`. -/
def idText (id : UInt64) : String :=
  let digits := Nat.toDigits 16 id.toNat
  String.ofList (List.replicate (16 - digits.length) '0' ++ digits)

def clusterMembers : Frame :=
  .array (some ((w.members.getD []).map fun m => .array (some
    [text (idText m.id), text m.name, text m.addr, text m.discoveryAddr,
      text (toString m.birthdate), text (if m.isCoordinator then "1" else "0")])))

def clusterRoutingTable : Frame :=
  match w.runtime.bind (·.routingTableBytes) with
  | none => .simpleString "NORT"
  | some bytes => .bulk (some bytes)

def clusterReady : Frame :=
  if w.runtime.any (·.isReady) then .simpleString "OK"
  else .error "NOTREADY cluster not yet ready"

def internalNodeUpdateRouting (table : Bytes) : Frame :=
  match w.runtime with
  | none => .error "ERR cluster runtime not active on this node"
  | some p =>
    let orphans := p.localOrphans.map fun (part, dmap) =>
      Frame.array (some [.integer (Int64.ofNat part.toNat), text dmap])
    let reply (status : String) := Frame.array (some [.simpleString status, .array (some orphans)])
    match p.applyRoutingUpdate table with
    | .error e => .error ("ERR routing decode: " ++ e.text)
    | .ok .accepted => reply "OK"
    | .ok .stale => reply "STALE"
    | .ok .unsupportedSchema => reply "SCHEMA"

def stats : Frame :=
  let pairs : List (String × String) :=
    [("uptime_secs", toString w.metrics.uptimeSecs),
      ("connections", toString w.metrics.currentConnections),
      ("connections_total", toString w.metrics.totalConnections),
      ("commands_total", toString w.metrics.commandsTotal), ("version", ctx.version),
      ("mode", "standalone")]
  .array (some (pairs.flatMap fun (k, v) => [text k, text v]))

end Cluster

section PubSub

def noPubsubProvider : Frame := .error "ERR pub/sub not enabled on this server"

def count (n : ℕ) : Frame := .integer (i64OrMax n)

def buildSubAck (kind : String) (ack : PubSub.SubAck) : Frame :=
  .array (some [text kind, .bulk (if ack.channel = [] then none else some ack.channel),
    count ack.totalSubscriptions])

/-- The acknowledgements, and the connection's count after them. -/
def ackAll (kind : String) (st : PubSubState) (acks : List PubSub.SubAck) (registry : P) :
    List Frame × PubSubState × World P :=
  (acks.map (buildSubAck kind),
    { st with pubSubCount := (acks.getLast?.map (·.totalSubscriptions)).getD st.pubSubCount },
    { w with registry })

def subscribing (kind : String)
    (call : PubSubProvider P → P → UInt64 → List Bytes → List PubSub.SubAck × P)
    (names : List Bytes) (st : PubSubState) : List Frame × PubSubState × World P :=
  match w.pubsub with
  | none => ([noPubsubProvider], st, w)
  | some p =>
    -- `ensure_conn_registered`.
    let (id, registry) := match st.pubSubId with
      | some id => (id, w.registry)
      | none =>
        let (id, registry) := p.allocateConnId w.registry
        (id, p.registerConn registry id)
    let (acks, registry) := call p registry id names
    w.ackAll kind { st with pubSubId := some id } acks registry

def subscribe : List Bytes → PubSubState → List Frame × PubSubState × World P :=
  w.subscribing "subscribe" PubSubProvider.subscribe

def psubscribe : List Bytes → PubSubState → List Frame × PubSubState × World P :=
  w.subscribing "psubscribe" PubSubProvider.psubscribe

/-- A command that drops subscriptions: those given, or all of the kind. -/
def unsubscribing (kind : String) (isPattern : Bool)
    (call : PubSubProvider P → P → UInt64 → Option (List Bytes) → List PubSub.SubAck × P)
    (names : List Bytes) (st : PubSubState) : List Frame × PubSubState × World P :=
  match w.pubsub with
  | none => ([noPubsubProvider], st, w)
  | some p =>
    match st.pubSubId with
    | none => ([buildSubAck kind ⟨[], isPattern, 0⟩], st, w)
    | some id =>
      let (acks, registry) := call p w.registry id (if names = [] then none else some names)
      w.ackAll kind st acks registry

def unsubscribe : List Bytes → PubSubState → List Frame × PubSubState × World P :=
  w.unsubscribing "unsubscribe" false PubSubProvider.unsubscribe

def punsubscribe : List Bytes → PubSubState → List Frame × PubSubState × World P :=
  w.unsubscribing "punsubscribe" true PubSubProvider.punsubscribe

def onRegistry (call : PubSubProvider P → P → Frame × P) : Frame × World P :=
  match w.pubsub with
  | none => (noPubsubProvider, w)
  | some p =>
    let (f, registry) := call p w.registry
    (f, { w with registry })

def publish (channel message : Bytes) : Frame × World P :=
  w.onRegistry fun p s =>
    let (n, s) := p.publish s channel message
    (count n, s)

def internalNodePublish (channel message : Bytes) : Frame × World P :=
  w.onRegistry fun p s =>
    let (n, s) := p.publishLocal s (lossy channel) message
    (count n, s)

def pubsubChannels (pattern : Option Bytes) : Frame × World P :=
  w.onRegistry fun p s =>
    (.array (some ((p.pubsubChannels s (pattern.map lossy)).map text)), s)

def pubsubNumsub (channels : List Bytes) : Frame × World P :=
  w.onRegistry fun p s =>
    (.array (some ((p.pubsubNumsub s channels).flatMap fun (name, n) =>
      [.bulk (some name), count n])), s)

def pubsubNumpat : Frame × World P := w.onRegistry fun p s => (count (p.pubsubNumpat s), s)

end PubSub

def single (st : PubSubState) (reply : Frame × World P) : List Frame × PubSubState × World P :=
  ([reply.1], st, reply.2)

def handle (fromPeer : Bool) (cmd : Command) (st : PubSubState) :
    List Frame × PubSubState × World P :=
  let clk := w.readings.clk
  match cmd with
  -- These are answered on the connection.
  | .ping _ | .auth .. | .hello _ | .quit => ([], st, w)
  | .stats => single st (w.stats ctx, w)
  | .dmPut dmap key value o => single st
      (w.onCluster (startPut w.env w.server w.node w.readings fromPeer dmap key value o))
  | .dmGet dmap key => single st (w.dmGet fromPeer dmap key)
  | .dmDel dmap keys => single st (w.onCluster (startDel w.env w.server w.node fromPeer dmap keys))
  | .dmExpire dmap key seconds => single st
      (w.onNode (w.node.dmExpire w.env w.guard dmap key (seconds.toNat * 10 ^ 9) clk))
  | .dmPexpire dmap key milliseconds => single st
      (w.onNode (w.node.dmExpire w.env w.guard dmap key (milliseconds.toNat * 10 ^ 6) clk))
  | .dmIncr dmap key delta => single st (w.onNode (w.node.dmIncr w.env w.guard dmap key delta clk))
  | .dmDecr dmap key delta => single st (w.onNode (w.node.dmDecr w.env w.guard dmap key delta clk))
  | .dmGetPut dmap key value => single st
      (w.onNode (w.node.dmGetPut w.env w.guard dmap key value clk))
  | .dmIncrByFloat dmap key delta => single st
      (w.onNode (w.node.dmIncrByFloat w.env f64 w.addF64 w.guard dmap key delta clk))
  | .dmDestroy dmap => single st (w.onNode (w.node.dmDestroy dmap))
  | .dmScan part dmap _ options => single st (w.dmScan part dmap options)
  | .clusterMembers => single st (w.clusterMembers, w)
  | .clusterRoutingTable => single st (w.clusterRoutingTable, w)
  | .clusterReady => single st (w.clusterReady, w)
  | .internalNodeUpdateRouting table => single st (w.internalNodeUpdateRouting table, w)
  -- The storage engine has no partitions to count.
  | .internalNodeLengthOfPart _ => single st (.integer 0, w)
  | .internalNodeGetWithTs dmap key => single st (w.internalNodeGetWithTs dmap key)
  | .internalNodeMoveFragment part type dmap payload => single st
      (w.onNode (w.node.moveFragment w.env w.routing part type dmap payload))
  | .internalNodePublish channel message => single st (w.internalNodePublish channel message)
  | .publish channel message => single st (w.publish channel message)
  | .pubsubChannels pattern => single st (w.pubsubChannels pattern)
  | .pubsubNumsub channels => single st (w.pubsubNumsub channels)
  | .pubsubNumpat => single st w.pubsubNumpat
  | .subscribe channels => w.subscribe channels st
  | .psubscribe patterns => w.psubscribe patterns st
  | .unsubscribe channels => w.unsubscribe channels st
  | .punsubscribe patterns => w.punsubscribe patterns st

def backend : Backend (World P) where
  memberQuorumOk w := w.routing.all Routing.memberQuorumSatisfied
  routeKey w dmap key := w.routing.bind fun r =>
    (r.routeKey w.env dmap key).map fun target => (r.partitionForKey w.env dmap key, target)
  handle fromPeer cmd st w := w.handle ctx f64 fromPeer cmd st

end World

end Kamino.Resp
