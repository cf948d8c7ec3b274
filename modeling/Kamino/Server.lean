import Kamino.DMap
import Kamino.Frame
import Kamino.Routing

/-!
# `DM.PUT` and `DM.DEL` on a cluster

A client's `DM.PUT` is stamped and committed on the node that takes it and sent to the partition's
backups; a client's `DM.DEL` is deleted and replicated for the keys this node is primary of, and
forwarded for the others.
-/

namespace Kamino

open Function

inductive Command where
  | dmPut (dmap key value : Bytes) (options : PutOptions)
  | dmDel (dmap : Bytes) (keys : List Bytes)
  deriving DecidableEq

/-- What a request reads on its node: the client's clock and the server's wall clock, in
nanoseconds. -/
structure Readings where
  clk : ℕ → UInt64
  wall : ℕ

/-- A node's DMaps by name, and the last stamp of its `TimestampSource`. -/
structure Node where
  dmaps : HMap Bytes DMap
  lastTs : Int64

def keyStr (key : Bytes) : Except Frame Unit :=
  match utf8Error key 0 with
  | some e => .error (.error ("ERR invalid key utf-8: " ++ e))
  | none => .ok ()

namespace Node

def empty : Node := ⟨∅, 0⟩

def slot (n : Node) (dmap : Bytes) (hkey : UInt64) : Option Entry :=
  (n.dmaps.lookup dmap).bind fun d => d.fragment.lookup hkey

def setDMap (n : Node) (name : Bytes) (d : DMap) : Node :=
  { n with dmaps := n.dmaps.insert name d }

def getOrCreate (n : Node) (name : Bytes) (options : DMapOptions) : DMap × Node :=
  match n.dmaps.lookup name with
  | some d => (d, n)
  | none => (.new options, n.setDMap name (.new options))

def dmapHandle (n : Node) (name : Bytes) : Except Frame (DMap × Node) :=
  match utf8Error name 0 with
  | some e => .error (.error ("ERR invalid dmap name: " ++ e))
  | none => .ok (n.getOrCreate name {})

/-- The checks `dm_put` starts with. A key that is not UTF-8 still creates its DMap. -/
def openKey (n : Node) (dmap key : Bytes) : Except Frame DMap × Node :=
  match n.dmapHandle dmap with
  | .error f => (.error f, n)
  | .ok (d, n) =>
    match keyStr key with
    | .error f => (.error f, n)
    | .ok () => (.ok d, n)

/-- `dm_put` for a peer. -/
def dmPutPeer (env : Env) (n : Node) (clk : ℕ → UInt64) (dmap key value : Bytes)
    (o : PutOptions) : Frame × Node :=
  match n.openKey dmap key with
  | (.error f, n) => (f, n)
  | (.ok d, n) =>
    match d.putLww env key value o clk with
    | (.ok _, d) => (.ok, n.setDMap dmap d)
    | (.error .keyAlreadyExists, d) | (.error .keyNotExists, d) => (.bulk none, n.setDMap dmap d)
    | (.error e, d) => (mapClientError e, n.setDMap dmap d)

/-- The stamp the primary gives a write, and the source after it. -/
def stamp (n : Node) (o : PutOptions) (wall : ℕ) : Int64 × Node :=
  match o.timestamp with
  | none =>
    let ts := nextLwwTimestamp n.lastTs (i64OrMax wall)
    (ts, { n with lastTs := ts })
  | some ts => (ts, { n with lastTs := max n.lastTs ts })

/-- `dm_put`'s commit on the primary: the stamped options it replicates with, or its reply. -/
def commitPut (env : Env) (n : Node) (rd : Readings) (dmap key value : Bytes)
    (o : PutOptions) : Except Frame PutOptions × Node :=
  match n.openKey dmap key with
  | (.error f, n) => (.error f, n)
  | (.ok d, n) =>
    let (ts, n) := n.stamp o rd.wall
    let o := { o with timestamp := some ts }
    match d.put env key value o rd.clk with
    | (.ok (), d) => (.ok o, n.setDMap dmap d)
    | (.error .keyAlreadyExists, d) | (.error .keyNotExists, d) =>
      (.error (.bulk none), n.setDMap dmap d)
    | (.error e, d) => (.error (mapClientError e), n.setDMap dmap d)

def deleteKeys (env : Env) : DMap → List Bytes → ℤ → Except Frame ℤ × DMap
  | d, [], deleted => (.ok deleted, d)
  | d, key :: keys, deleted =>
    match keyStr key with
    | .error f => (.error f, d)
    | .ok () =>
      match d.delete env key with
      | (true, d) => deleteKeys env d keys (deleted + 1)
      | (false, d) => deleteKeys env d keys deleted

def dmDelLocalCount (env : Env) (n : Node) (dmap : Bytes) (keys : List Bytes) :
    Except Frame ℤ × Node :=
  match n.dmapHandle dmap with
  | .error f => (.error f, n)
  | .ok (d, n) =>
    let (r, d) := deleteKeys env d keys 0
    (r, n.setDMap dmap d)

def dmDelLocal (env : Env) (n : Node) (dmap : Bytes) (keys : List Bytes) : Frame × Node :=
  match n.dmDelLocalCount env dmap keys with
  | (.ok deleted, n) => (.integer deleted, n)
  | (.error f, n) => (f, n)

/-- What a node does with a peer's command. -/
def peerDispatch (env : Env) (n : Node) (clk : ℕ → UInt64) : Command → Frame × Node
  | .dmPut dmap key value o => n.dmPutPeer env clk dmap key value o
  | .dmDel dmap keys => if keys = [] then (.integer 0, n) else n.dmDelLocal env dmap keys

end Node

abbrev Cluster := SocketAddr → Node

/-- What becomes of a request to a peer. -/
inductive Delivery where
  | replied
  | failed (arrived : Bool) (e : ClusterError)
  deriving DecidableEq

/-- A request's delivery, and the readings the peer makes if it arrives. -/
structure Link where
  delivery : Delivery
  clk : ℕ → UInt64

def Link.arrives (l : Link) : Bool :=
  match l.delivery with
  | .replied => true
  | .failed arrived _ => arrived

section Fan

variable (env : Env)

def forwardCommand (c : Cluster) (link : Link) (addr : SocketAddr) (cmd : Command) :
    Except ClusterError Frame × Cluster :=
  let (reply, n) := (c addr).peerDispatch env link.clk cmd
  match link.delivery with
  | .replied => (.ok reply, update c addr n)
  | .failed true e => (.error e, update c addr n)
  | .failed false e => (.error e, c)

def fanOut (cmd : Command) : Cluster → List SocketAddr → (ℕ → Link) →
    List (Except ClusterError Frame) × Cluster
  | c, [], _ => ([], c)
  | c, addr :: addrs, links =>
    let (reply, c) := forwardCommand env c (links 0) addr cmd
    let (replies, c) := fanOut cmd c addrs fun i => links (i + 1)
    (reply :: replies, c)

structure ReplicationOutcome where
  acks : ℕ := 0
  failures : ℕ := 0
  firstError : Option String := none

namespace ReplicationOutcome

def ack (out : ReplicationOutcome) : ReplicationOutcome := { out with acks := out.acks + 1 }

def fail (out : ReplicationOutcome) (text : String) : ReplicationOutcome :=
  { out with failures := out.failures + 1, firstError := out.firstError.or (some text) }

def count (op : String) (out : ReplicationOutcome) : Except ClusterError Frame → ReplicationOutcome
  | .ok (.simpleString s) =>
    if s = "OK" then out.ack
    else out.fail (op ++ " unexpected reply: " ++ (Frame.simpleString s).debug env)
  | .ok (.integer _) => out.ack
  -- A backup that refuses under NX or XX has come to the primary's own conclusion.
  | .ok (.bulk _) => out.ack
  | .ok (.error e) => out.fail (op ++ " backup error: " ++ e)
  | .error e => out.fail (op ++ " transport error: " ++ e.text)

end ReplicationOutcome

def aggregate (replies : List (Except ClusterError Frame)) (op : String) : ReplicationOutcome :=
  replies.foldl (ReplicationOutcome.count env op) {}

def replicatePut (c : Cluster) (links : ℕ → Link) (backups : List SocketAddr)
    (dmap key value : Bytes) (o : PutOptions) : ReplicationOutcome × Cluster :=
  if backups = [] then ({}, c)
  else
    let (replies, c) := fanOut env (.dmPut dmap key value o) c backups links
    (aggregate env replies "DM.PUT", c)

def replicateDelete (c : Cluster) (links : ℕ → Link) (backups : List SocketAddr)
    (dmap key : Bytes) : ReplicationOutcome × Cluster :=
  if backups = [] then ({}, c)
  else
    let (replies, c) := fanOut env (.dmDel dmap [key]) c backups links
    (aggregate env replies "DM.DEL", c)

end Fan

/-- The node a request came to: its address and, in a cluster, its routing. -/
structure Server where
  self : SocketAddr
  routing : Option Routing

section Handlers

variable (env : Env) (srv : Server)

def dmPut (c : Cluster) (rd : Readings) (links : ℕ → Link) (fromPeer : Bool)
    (dmap key value : Bytes) (o : PutOptions) : Frame × Cluster :=
  if fromPeer then
    let (reply, n) := (c srv.self).dmPutPeer env rd.clk dmap key value o
    (reply, update c srv.self n)
  else
    match (c srv.self).commitPut env rd dmap key value o with
    | (.error f, n) => (f, update c srv.self n)
    | (.ok o, n) =>
      let c := update c srv.self n
      match srv.routing with
      | none => (.ok, c)
      | some r =>
        let backups := r.backupAddrsForKey env dmap key
        if backups = [] then (.ok, c)
        else
          let writeQuorum := max r.writeQuorum 1
          let (outcome, c) := replicatePut env c links backups dmap key value o
          match r.mode with
          | .sync =>
            let total := 1 + outcome.acks
            if total < writeQuorum then
              (.error ("QUORUM write_quorum=" ++ toString writeQuorum ++ " not met (acks=" ++
                toString total ++ "): " ++ outcome.firstError.getD "no backup acked in time"), c)
            else (.ok, c)
          -- The fan-out runs in the background and nobody reads its outcome.
          | .async => (.ok, c)

/-- What `forward_dm_del` makes of a peer's `PARTIAL <count> <error>`. -/
def downstreamPartial (s : String) : String :=
  match s.splitOn " " with
  | _ :: count :: rest =>
    "downstream partial: count=" ++ toString ((parseI64 count).getD 0) ++ ", err=" ++
      " ".intercalate rest
  | _ => "downstream partial: count=0, err="

def forwardDmDel (c : Cluster) (link : Link) (addr : SocketAddr) (dmap : Bytes)
    (keys : List Bytes) : Except ClusterError ℤ × Cluster :=
  match forwardCommand env c link addr (.dmDel dmap keys) with
  | (.error e, c) => (.error e, c)
  | (.ok (.integer n), c) => (.ok n, c)
  | (.ok (.simpleString s), c) =>
    if s.startsWith "PARTIAL " then (.error (.serverGone (downstreamPartial s)), c)
    else (.error (.codec ("unexpected DM.DEL reply: " ++ (Frame.simpleString s).debug env)), c)
  | (.ok (.error e), c) => (.error (.serverGone e), c)
  | (.ok (.bulk b), c) =>
    (.error (.codec ("unexpected DM.DEL reply: " ++ (Frame.bulk b).debug env)), c)

def forwardBuckets (dmap : Bytes) : Cluster → List (SocketAddr × List Bytes) →
    (ℕ → Link) → List (Except ClusterError ℤ) × Cluster
  | c, [], _ => ([], c)
  | c, (addr, keys) :: remote, links =>
    let (result, c) := forwardDmDel env c (links 0) addr dmap keys
    let (results, c) := forwardBuckets dmap c remote fun i => links (i + 1)
    (result :: results, c)

/-- The keys by their primary's address, none for the local node. -/
def bucketKeys (r : Routing) (dmap : Bytes) (keys : List Bytes) :
    HMap (Option SocketAddr) (List Bytes) :=
  keys.foldl (fun buckets key =>
    let owner := r.routeKey env dmap key
    buckets.insert owner ((buckets.lookup owner).getD [] ++ [key])) ∅

def replicateDeletes (r : Routing) (dmap : Bytes) : Cluster → List Bytes →
    (ℕ → ℕ → Link) → Except String Unit × Cluster
  | c, [], _ => (.ok (), c)
  | c, key :: keys, links =>
    let backups := r.backupAddrsForKey env dmap key
    if backups = [] then replicateDeletes r dmap c keys fun i => links (i + 1)
    else
      let (outcome, c) := replicateDelete env c (links 0) backups dmap key
      let total := 1 + outcome.acks
      if total < max r.writeQuorum 1 then
        (.error (outcome.firstError.getD "DEL replication below quorum"), c)
      else replicateDeletes r dmap c keys fun i => links (i + 1)

def replicateLocalDeletes (r : Routing) (dmap : Bytes) (c : Cluster)
    (keys : List Bytes) (links : ℕ → ℕ → Link) : Except String Unit × Cluster :=
  if r.replicaCount ≤ 1 then (.ok (), c) else replicateDeletes env r dmap c keys links

/-- A `DM.DEL`'s requests to peers: those of each local key's replication, and the forwards. -/
structure DelLinks where
  replicate : ℕ → ℕ → Link
  forward : ℕ → Link

/-- `dm_del` on the local bucket: the reply it ends with, or the number of keys it deleted. -/
def delBucket (r : Routing) (c : Cluster) (links : ℕ → ℕ → Link) (dmap : Bytes) :
    Option (List Bytes) → Except Frame ℤ × Cluster
  | none => (.ok 0, c)
  | some localKeys =>
    match (c srv.self).dmDelLocalCount env dmap localKeys with
    | (.error f, n) => (.error f, update c srv.self n)
    | (.ok deleted, n) =>
      match replicateLocalDeletes env r dmap (update c srv.self n) localKeys links with
      | (.error e, c) => (.error (.simpleString ("PARTIAL " ++ toString deleted ++ " " ++ e)), c)
      | (.ok (), c) => (.ok deleted, c)

/-- The count and the first error of the forwards, on top of the local count. -/
def sumResults (deleted : ℤ) (results : List (Except ClusterError ℤ)) : ℤ × Option String :=
  results.foldl (fun acc result =>
    match result with
    | .ok n => (acc.1 + n, acc.2)
    | .error e => (acc.1, acc.2.or (some e.text))) (deleted, none)

def dmDel (c : Cluster) (links : DelLinks) (fromPeer : Bool) (dmap : Bytes)
    (keys : List Bytes) : Frame × Cluster :=
  if keys = [] then (.integer 0, c)
  else
    match srv.routing, fromPeer with
    | none, _ | some _, true =>
      let (reply, n) := (c srv.self).dmDelLocal env dmap keys
      (reply, update c srv.self n)
    | some r, false =>
      let buckets := bucketKeys env r dmap keys
      let crossed := buckets.entries.length > 1 ||
        (buckets.entries.length == 1 && buckets.keys.head?.any Option.isSome)
      if crossed && r.multiKeyStrict then
        (.error "CROSSPARTITION keys span multiple partitions; multi_key_strict is enabled", c)
      else
        match delBucket env srv r c links.replicate dmap (buckets.lookup none) with
        | (.error f, c) => (f, c)
        | (.ok deleted, c) =>
          let remote := (buckets.erase none).entries.filterMap fun b =>
            b.1.map fun addr => (addr, b.2)
          let (results, c) := forwardBuckets env dmap c remote links.forward
          match sumResults deleted results with
          | (deleted, some e) => (.simpleString ("PARTIAL " ++ toString deleted ++ " " ++ e), c)
          | (deleted, none) => (.integer deleted, c)

end Handlers

/-- What of a connection `dispatch` looks at. -/
structure ConnState where
  authed : Bool
  internode : Bool
  pubSubMode : Bool

def Command.verb : Command → String
  | dmPut .. => "DM.PUT"
  | dmDel .. => "DM.DEL"

/-- The reply to a single-key command whose partition another node owns. -/
def checkRouting (env : Env) (srv : Server) : Command → Option Frame
  | .dmDel .. => none
  | .dmPut dmap key _ _ =>
    srv.routing.bind fun r => (r.routeKey env dmap key).map fun target =>
      .error ("MOVED " ++ toString (r.partitionForKey env dmap key) ++ " " ++ target)

/-- What a command reads and sends. -/
structure Request where
  readings : Readings
  putLinks : ℕ → Link
  delLinks : DelLinks

def dispatch (env : Env) (srv : Server) (st : ConnState) (c : Cluster) (req : Request)
    (cmd : Command) : Frame × Cluster :=
  if !st.authed then (.error "NOAUTH Authentication required", c)
  else if st.pubSubMode then
    (.error ("ERR Can't execute " ++ cmd.verb ++ ": only (P|S)SUBSCRIBE / (P|S)UNSUBSCRIBE / " ++
      "PING / QUIT allowed in this context"), c)
  else if !st.internode && !srv.routing.all Routing.memberQuorumSatisfied then
    (.error "QUORUM cluster has insufficient members", c)
  else
    match if st.internode then none else checkRouting env srv cmd with
    | some moved => (moved, c)
    | none =>
      match cmd with
      | .dmPut dmap key value o =>
        dmPut env srv c req.readings req.putLinks st.internode dmap key value o
      | .dmDel dmap keys => dmDel env srv c req.delLinks st.internode dmap keys

end Kamino
