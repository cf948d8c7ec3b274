import Kamino.Config
import Kamino.Forwarder
import Kamino.Lib.Tasks
import Kamino.Session

/-!
# Requests between nodes

A pooled connection opens with a `HELLO` that carries the cluster secret, if there is one: whether a
request is a peer's is what the handshake made of the connection.
-/

namespace Kamino

open Function Tasks

section Handshake

def internodeHello (clusterSecret : String) : Resp.HelloArgs :=
  { protocolVersion := some 2
    auth := if clusterSecret = "" then none else some (none, Resp.asBytes clusterSecret)
    clientName := some (Resp.asBytes "kamino-internode") }

/-- `handshake_inner` on a new connection to the server, and the server's side of it afterwards. -/
def handshakeInner (debug : Resp.Frame → String) (ctx : Resp.ServerContext)
    (clusterSecret : String) : Except ClusterError Resp.Session :=
  match Resp.hello ctx (.start ctx) (internodeHello clusterSecret) with
  | (.map _, _, st) | (.array (some _), _, st) | (.simpleString _, _, st) => .ok st
  | (.error e, _, _) => .error (.handshake e)
  | (other, _, _) => .error (.codec ("handshake unexpected reply: " ++ debug other))

end Handshake

section Moved

def Frame.wire : Frame → Resp.Frame
  | .simpleString s => .simpleString s
  | .error s => .error s
  | .integer n => .integer (Int64.ofInt n)
  | .bulk b => .bulk b

/-- `char::is_whitespace`. -/
def isWhitespace (c : Char) : Bool :=
  let n := c.toNat
  (9 ≤ n && n ≤ 13) || n == 0x20 || n == 0x85 || n == 0xA0 || n == 0x1680 ||
    (0x2000 ≤ n && n ≤ 0x200A) || n == 0x2028 || n == 0x2029 || n == 0x202F || n == 0x205F ||
    n == 0x3000

def splitWhitespace (s : String) : List String :=
  ((s.toList.splitOnP isWhitespace).filter (· ≠ [])).map String.ofList

/-- Where `send_with_retry` sends the request next, if the reply is `-MOVED` and names an
address. -/
def movedTarget (parseAddr : String → Option SocketAddr) (reply : Frame) : Option SocketAddr :=
  match mapReply reply.wire with
  | .error (.moved msg) => parseAddr ((splitWhitespace msg)[1]?.getD "")
  | _ => none

end Moved

/-- The connection a request comes over. -/
inductive Via where
  | client (st : Resp.Session)
  | forwarder (retried : Bool)

structure Hop where
  target : SocketAddr
  cmd : Command
  via : Via

def Hop.send (cmd : Command) (target : SocketAddr) : Hop := ⟨target, cmd, .forwarder false⟩

inductive Fan where
  | replicate (i : ℕ)
  | forward
  deriving DecidableEq

def Fan.isReplicate : Fan → Bool
  | replicate _ => true
  | forward => false

abbrev Handler := Task Hop (Except ClusterError Frame) Frame Fan

def Resp.Session.conn (st : Resp.Session) : ConnState :=
  ⟨st.isAuthed, st.internode, st.inPubsubMode⟩

def Command.keys : Command → List Bytes
  | dmPut _ key _ _ => [key]
  | dmDel _ keys => keys

section Handlers

variable (env : Env) (srv : Server)

def putReply (r : Routing) (replies : List (Except ClusterError Frame)) : Frame :=
  match r.mode with
  | .sync =>
    let writeQuorum := max r.writeQuorum 1
    let outcome := aggregate env replies "DM.PUT"
    let total := 1 + outcome.acks
    if total < writeQuorum then
      .error ("QUORUM write_quorum=" ++ toString writeQuorum ++ " not met (acks=" ++
        toString total ++ "): " ++ outcome.firstError.getD "no backup acked in time")
    else .ok
  -- The fan-out runs in the background and nobody reads its outcome.
  | .async => .ok

def startPut (n : Node) (rd : Readings) (fromPeer : Bool) (dmap key value : Bytes)
    (o : PutOptions) : Handler × Node :=
  if fromPeer then
    let (reply, n) := n.dmPutPeer env rd.clk dmap key value o
    (.done reply, n)
  else
    match n.commitPut env rd dmap key value o with
    | (.error f, n) => (.done f, n)
    | (.ok o, n) =>
      match srv.routing with
      | none => (.done .ok, n)
      | some r =>
        let backups := r.backupAddrsForKey env dmap key
        if backups = [] then (.done .ok, n)
        else
          (.batch (.replicate 0) (backups.map (.send (.dmPut dmap key value o))) fun replies =>
            .done (putReply env r replies), n)

/-- `replicate_local_deletes` for the keys from the `i`-th on, and what comes after it. -/
def replicateKeys (r : Routing) (dmap : Bytes) (deleted : ℤ) (next : Handler) :
    ℕ → List Bytes → Handler
  | _, [] => next
  | i, key :: keys =>
    let backups := r.backupAddrsForKey env dmap key
    if backups = [] then replicateKeys r dmap deleted next (i + 1) keys
    else
      .batch (.replicate i) (backups.map (.send (.dmDel dmap [key]))) fun replies =>
        let outcome := aggregate env replies "DM.DEL"
        if 1 + outcome.acks < max r.writeQuorum 1 then
          .done (.simpleString ("PARTIAL " ++ toString deleted ++ " " ++
            outcome.firstError.getD "DEL replication below quorum"))
        else replicateKeys r dmap deleted next (i + 1) keys

/-- What `forward_dm_del` makes of a peer's answer. -/
def dmDelCount : Except ClusterError Frame → Except ClusterError ℤ
  | .error e => .error e
  | .ok (.integer n) => .ok n
  | .ok (.simpleString s) =>
    if s.startsWith "PARTIAL " then .error (.serverGone (downstreamPartial s))
    else .error (.codec ("unexpected DM.DEL reply: " ++ (Frame.simpleString s).debug env))
  | .ok (.error e) => .error (.serverGone e)
  | .ok (.bulk b) => .error (.codec ("unexpected DM.DEL reply: " ++ (Frame.bulk b).debug env))

def delReply (deleted : ℤ) (replies : List (Except ClusterError Frame)) : Frame :=
  match sumResults deleted (replies.map (dmDelCount env)) with
  | (deleted, some e) => .simpleString ("PARTIAL " ++ toString deleted ++ " " ++ e)
  | (deleted, none) => .integer deleted

/-- `dm_del` from the forwards to the other owners on. -/
def forwardKeys (dmap : Bytes) (buckets : HMap (Option SocketAddr) (List Bytes))
    (deleted : ℤ) : Handler :=
  let remote := (buckets.erase none).entries.filterMap fun b => b.1.map fun addr => (addr, b.2)
  .batch .forward (remote.map fun (addr, keys) => .send (.dmDel dmap keys) addr) fun replies =>
    .done (delReply env deleted replies)

def startDel (n : Node) (fromPeer : Bool) (dmap : Bytes) (keys : List Bytes) : Handler × Node :=
  if keys = [] then (.done (.integer 0), n)
  else
    match srv.routing, fromPeer with
    | none, _ | some _, true =>
      let (reply, n) := n.dmDelLocal env dmap keys
      (.done reply, n)
    | some r, false =>
      let buckets := bucketKeys env r dmap keys
      let crossed := buckets.entries.length > 1 ||
        (buckets.entries.length == 1 && buckets.keys.head?.any Option.isSome)
      if crossed && r.multiKeyStrict then
        (.done (.error
          "CROSSPARTITION keys span multiple partitions; multi_key_strict is enabled"), n)
      else
        match buckets.lookup none with
        | none => (forwardKeys env dmap buckets 0, n)
        | some localKeys =>
          match n.dmDelLocalCount env dmap localKeys with
          | (.error f, n) => (.done f, n)
          | (.ok deleted, n) =>
            let next := forwardKeys env dmap buckets deleted
            (if r.replicaCount ≤ 1 then next
              else replicateKeys env r dmap deleted next 0 localKeys, n)

/-- The reply of the first of `dispatch`'s gates that stops the command. -/
def gate (st : ConnState) (cmd : Command) : Option Frame :=
  if !st.authed then some (.error "NOAUTH Authentication required")
  else if st.pubSubMode then
    some (.error ("ERR Can't execute " ++ cmd.verb ++
      ": only (P|S)SUBSCRIBE / (P|S)UNSUBSCRIBE / " ++ "PING / QUIT allowed in this context"))
  else if !st.internode && !srv.routing.all Routing.memberQuorumSatisfied then
    some (.error "QUORUM cluster has insufficient members")
  else if st.internode then none else checkRouting env srv cmd

def startCommand (st : ConnState) (n : Node) (rd : Readings) (cmd : Command) : Handler × Node :=
  match gate env srv st cmd with
  | some reply => (.done reply, n)
  | none =>
    match cmd with
    | .dmPut dmap key value o => startPut env srv n rd st.internode dmap key value o
    | .dmDel dmap keys => startDel env srv n st.internode dmap keys

end Handlers

/-- Nodes that run one configuration: what each has for an id, holds for a routing table and sees
alive, and how the standard library prints a frame and reads an address. -/
structure Deployment where
  config : ReplicatedConfig
  id : SocketAddr → UInt64
  snapshot : SocketAddr → Option RoutingTable
  liveCount : SocketAddr → ℕ
  version : String
  debugFrame : Resp.Frame → String
  parseAddr : String → Option SocketAddr

namespace Deployment

variable (d : Deployment)

def context (addr : SocketAddr) : Resp.ServerContext :=
  { password := d.config.auth.password
    clusterSecret := d.config.auth.clusterSecret
    version := d.version
    id := d.id addr }

def server (addr : SocketAddr) : Server :=
  { self := addr
    routing := some
      { localId := d.id addr
        snapshot := d.snapshot addr
        partitionCount := d.config.core.partitionCount
        multiKeyStrict := d.config.multiKeyStrict
        replicaCount := d.config.core.replicaCount.toNat
        writeQuorum := d.config.core.writeQuorum.toNat
        mode := d.config.core.replicationMode
        liveCount := d.liveCount addr
        memberCountQuorum := d.config.core.memberCountQuorum.toNat } }

/-- The server's side of the connection a request comes over, unless the handshake failed. -/
def connection (hop : Hop) : Except ClusterError Resp.Session :=
  match hop.via with
  | .client st => .ok st
  | .forwarder _ =>
    handshakeInner d.debugFrame (d.context hop.target) d.config.auth.clusterSecret

def service (env : Env) : Service Cluster Readings Hop (Except ClusterError Frame) Frame Fan where
  start c rd hop :=
    match d.connection hop with
    | .error _ => none
    | .ok st =>
      let (handler, n) :=
        startCommand env (d.server hop.target) st.conn (c hop.target) rd hop.cmd
      some (handler, update c hop.target n)
  followUp hop reply :=
    match hop.via with
    | .forwarder false =>
      (movedTarget d.parseAddr reply).map fun addr => ⟨addr, hop.cmd, .forwarder true⟩
    | _ => none

end Deployment

end Kamino
