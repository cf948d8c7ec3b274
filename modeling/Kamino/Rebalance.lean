import Kamino.Handover
import Kamino.Reads

/-!
# A cluster that rebalances

Nodes take writes, reads and deletes while their balancers migrate fragments.
-/

namespace Kamino

open Function

/-- What a task still has to put on a node. -/
inductive Parcel where
  /-- A `MOVEFRAGMENT` to the plan's peer. -/
  | fragment (source : SocketAddr) (plan : MigrationPlan) (payload : Bytes)
  /-- A replicated put, or a read repair. -/
  | put (target : SocketAddr) (dmap key value : Bytes) (options : PutOptions)
  /-- The write that ends a read. -/
  | touch (node : SocketAddr) (dmap key : Bytes) (entry : Entry)

structure Migration where
  plan : MigrationPlan
  stage : MigrateStage

structure GetCall where
  node : SocketAddr
  dmap : Bytes
  key : Bytes
  later : Bool
  stage : GetStage

inductive DelStage where
  | idle
  /-- It has deleted here and asks the backups. -/
  | asking (deleted : ℤ) (writeQuorum : ℕ) (asked : Asked (Except ClusterError Frame))
  | answered (reply : Frame)

/-- A client's write, by the request that makes it. -/
def NodeOp.isWrite : NodeOp → Bool
  | .put .. | .incr .. | .decr .. | .getPut .. => true
  | _ => false

structure RebalanceConfig where
  env : Env
  partitionCount : UInt32
  settings : ReadSettings
  /-- The node the `DM.DEL` comes to, and what it deletes. -/
  self : SocketAddr
  dmap : Bytes
  key : Bytes

inductive RebalanceEvent where
  | write (a : SocketAddr) (op : NodeOp)
  /-- A delete on a node, for a client or a peer. -/
  | delete (a : SocketAddr) (dmap : Bytes) (keys : List Bytes)
  | read (a : SocketAddr) (dmap key : Bytes) (nowMicros : UInt64)
  /-- A parcel arrives. `heard` says whether the sender of a fragment hears the reply. -/
  | deliver (i : ℕ) (heard : Bool) (clk : ℕ → UInt64)
  | lose (i : ℕ)
  /-- The node applies a new routing table. -/
  | reroute (a : SocketAddr) (table : RoutingTable)
  | exportScan (a : SocketAddr) (plan : MigrationPlan) (nowMicros : UInt64)
  /-- The export is sent, for the first time or again. -/
  | send (a : SocketAddr)
  | giveUp (a : SocketAddr) (e : ClusterError)
  | clearScan (a : SocketAddr)
  | clearDelete (a : SocketAddr)
  | again (a : SocketAddr)
  | del
  | delPeer (i : ℕ) (link : Link)
  | delAnswer
  | get (a : SocketAddr) (dmap key : Bytes) (nowMicros : UInt64)
  | getPeer (g i : ℕ) (delivery : Delivery) (nowMicros : UInt64)
  | getNext (g : ℕ)

structure Rebalance where
  nodes : Cluster
  routings : SocketAddr → Option Routing
  parcels : List Parcel
  migrations : SocketAddr → Option Migration
  gets : List GetCall
  delStage : DelStage

namespace Rebalance

variable (cfg : RebalanceConfig) (s : Rebalance)

def setNode (a : SocketAddr) (n : Node) : Rebalance := { s with nodes := update s.nodes a n }

def setMigration (a : SocketAddr) (m : Option Migration) : Rebalance :=
  { s with migrations := update s.migrations a m }

def addParcels (parcels : List Parcel) : Rebalance := { s with parcels := s.parcels ++ parcels }

/-- The puts a client's `DM.PUT` sends to the backups. -/
def replicas (a : SocketAddr) : NodeOp → List Parcel
  | .put rd dmap key value o =>
    match (s.nodes a).commitPut cfg.env rd dmap key value o, s.routings a with
    | (.ok o, _), some r =>
      (r.backupAddrsForKey cfg.env dmap key).map fun target => .put target dmap key value o
    | _, _ => []
  | _ => []

/-- A fetch on a node, and what it leaves to be written back. -/
def fetchAt (a : SocketAddr) (dmap key : Bytes) (nowMicros : UInt64) :
    Except Frame (Option Entry) × Rebalance :=
  match (s.nodes a).fetch cfg.env dmap key nowMicros with
  | (.ok (some entry), n) =>
    (.ok (some entry), (s.setNode a n).addParcels [.touch a dmap key entry])
  | (result, n) => (result, s.setNode a n)

/-- The reply to a fragment, on its sender if that still waits for it. -/
def hearReply (source : SocketAddr) (plan : MigrationPlan) (payload : Bytes)
    (reply : Frame) : Rebalance :=
  match s.migrations source with
  | some ⟨plan', .exported payload'⟩ =>
    if plan' = plan ∧ payload' = payload then
      let stage := match fragmentReply cfg.env plan.peer (.ok reply) with
        | .ok () => .sent
        | .error e => .done (.error (.cluster e))
      s.setMigration source (some ⟨plan, stage⟩)
    else s
  | _ => s

def land (heard : Bool) (clk : ℕ → UInt64) : Parcel → Rebalance
  | .fragment source plan payload =>
    let (reply, n) := (s.nodes plan.peer).receiveFragment cfg.env (s.routings plan.peer)
      plan.partitionId .primary plan.dmap payload
    let s := s.setNode plan.peer n
    if heard then s.hearReply cfg source plan payload reply else s
  | .put target dmap key value o =>
    s.setNode target ((s.nodes target).dmPutPeer cfg.env clk dmap key value o).2
  | .touch a dmap key entry =>
    s.setNode a ((s.nodes a).touch cfg.env dmap key entry (clk 0))

/-- A node's migration, as one of the steps of `Handover`. -/
def handover (a : SocketAddr) (m : Migration) : Handover :=
  ⟨s.nodes a, s.nodes m.plan.peer, m.stage, []⟩

def handoverConfig (plan : MigrationPlan) : HandoverConfig :=
  ⟨cfg.env, cfg.partitionCount, plan, s.routings plan.peer⟩

/-- `dm_del` of the one key, up to the requests to the backups. -/
def delStart (r : Routing) : Rebalance :=
  match (s.nodes cfg.self).dmDelLocalCount cfg.env cfg.dmap [cfg.key] with
  | (.error f, n) => { s.setNode cfg.self n with delStage := .answered f }
  | (.ok deleted, n) =>
    let backups := if r.replicaCount ≤ 1 then [] else r.backupAddrsForKey cfg.env cfg.dmap cfg.key
    let delStage :=
      if backups = [] then .answered (.integer deleted)
      else .asking deleted (max r.writeQuorum 1) (.start backups)
    { s.setNode cfg.self n with delStage }

/-- `dm_del`'s answer once the backups have replied. -/
def delReply (deleted : ℤ) (writeQuorum : ℕ) (replies : List (Except ClusterError Frame)) :
    Frame :=
  let outcome := aggregate cfg.env replies "DM.DEL"
  if 1 + outcome.acks < writeQuorum then
    .simpleString ("PARTIAL " ++ toString deleted ++ " " ++
      outcome.firstError.getD "DEL replication below quorum")
  else .integer deleted

/-- A `DM.GET` that starts now, after the answer to the delete or before it. -/
def isLater (a : SocketAddr) (dmap key : Bytes) : Bool :=
  match s.delStage with
  | .answered (.integer _) => a = cfg.self && dmap = cfg.dmap && key = cfg.key
  | _ => false

def getStart (a : SocketAddr) (dmap key : Bytes) (nowMicros : UInt64) : Rebalance :=
  let later := s.isLater cfg a dmap key
  let (result, s) := s.fetchAt cfg a dmap key nowMicros
  let stage := match result with
    | .error f => .done f
    | .ok entry =>
      .afterLocal cfg.env cfg.settings dmap key (s.routings a)
        (entry.map fun e => (e.value, e.timestampNanos))
  { s with gets := s.gets ++ [⟨a, dmap, key, later, stage⟩] }

/-- A request of a `DM.GET` to a peer. -/
def askPeer (addr : SocketAddr) (dmap key : Bytes) (delivery : Delivery)
    (nowMicros : UInt64) : Read × Rebalance :=
  match delivery with
  | .replied =>
    let (result, s) := s.fetchAt cfg addr dmap key nowMicros
    (decodeGetWithTs (.ok (internalNodeGetWithTs result)), s)
  | .failed true e => (decodeGetWithTs (.error e), (s.fetchAt cfg addr dmap key nowMicros).2)
  | .failed false e => (decodeGetWithTs (.error e), s)

/-- The node's `TimestampSource` has observed the winner, and the repairs are on their way. -/
def repair (call : GetCall) : Option Repair → Rebalance
  | none => s
  | some fix =>
    let n := s.nodes call.node
    (s.setNode call.node { n with lastTs := max n.lastTs fix.timestamp }).addParcels
      (fix.peers.map fun peer =>
        .put peer call.dmap call.key fix.value { timestamp := some fix.timestamp })

def step : RebalanceEvent → Option Rebalance
  | .write a op =>
    if op.isWrite then
      some ((s.setNode a ((s.nodes a).apply cfg.env op)).addParcels (s.replicas cfg a op))
    else none
  | .delete a dmap keys =>
    some (s.setNode a ((s.nodes a).dmDelLocal cfg.env dmap keys).2)
  | .read a dmap key nowMicros => some (s.fetchAt cfg a dmap key nowMicros).2
  | .deliver i heard clk =>
    s.parcels[i]?.map fun parcel =>
      { s with parcels := s.parcels.eraseIdx i }.land cfg heard clk parcel
  | .lose i => some { s with parcels := s.parcels.eraseIdx i }
  | .reroute a table =>
    let routing := (s.routings a).map fun r => { r with snapshot := some table }
    some { s with routings := update s.routings a routing }
  | .exportScan a plan nowMicros =>
    match s.migrations a with
    | none => some (s.setMigration a (some ⟨plan,
        (s.handover a ⟨plan, .idle⟩).exportStep (s.handoverConfig cfg plan) nowMicros⟩))
    | some _ => none
  | .send a =>
    match s.migrations a with
    | some ⟨plan, .exported payload⟩ =>
      some (s.addParcels [.fragment a plan payload])
    | _ => none
  | .giveUp a e =>
    match s.migrations a with
    | some ⟨plan, .exported _⟩ =>
      some (s.setMigration a (some ⟨plan, .done (.error (.cluster e))⟩))
    | _ => none
  | .clearScan a =>
    match s.migrations a with
    | some ⟨plan, .sent⟩ => some (s.setMigration a
        (some ⟨plan, (s.handover a ⟨plan, .sent⟩).scanStep (s.handoverConfig cfg plan)⟩))
    | _ => none
  | .clearDelete a =>
    match s.migrations a with
    | some ⟨plan, .clearing []⟩ => some (s.setMigration a (some ⟨plan, .done (.ok ())⟩))
    | some ⟨plan, .clearing (hkey :: victims)⟩ =>
      let n := (s.handover a ⟨plan, .clearing (hkey :: victims)⟩).deleteStep
        (s.handoverConfig cfg plan) hkey
      some ((s.setNode a n).setMigration a (some ⟨plan, .clearing victims⟩))
    | _ => none
  | .again a =>
    match s.migrations a with
    | some ⟨_, .done _⟩ => some (s.setMigration a none)
    | _ => none
  | .del =>
    match s.delStage, s.routings cfg.self with
    | .idle, some r =>
      if r.routeKey cfg.env cfg.dmap cfg.key = none then some (s.delStart cfg r) else none
    | _, _ => none
  | .delPeer i link =>
    match s.delStage with
    | .asking deleted writeQuorum asked =>
      match asked[i]? with
      | some (addr, none) =>
        let (reply, nodes) := forwardCommand cfg.env s.nodes link addr (.dmDel cfg.dmap [cfg.key])
        some { s with nodes, delStage := .asking deleted writeQuorum (asked.answer i reply) }
      | _ => none
    | _ => none
  | .delAnswer =>
    match s.delStage with
    | .asking deleted writeQuorum asked => asked.answers.map fun replies =>
      { s with delStage := .answered (delReply cfg deleted writeQuorum (replies.map Prod.snd)) }
    | _ => none
  | .get a dmap key nowMicros => some (s.getStart cfg a dmap key nowMicros)
  | .getPeer g i delivery nowMicros =>
    match s.gets[g]? with
    | none => none
    | some call =>
      match call.stage.asked[i]? with
      | some (addr, none) =>
        let (reply, s) := s.askPeer cfg addr call.dmap call.key delivery nowMicros
        some { s with gets := s.gets.set g { call with stage := call.stage.answer i reply } }
      | _ => none
  | .getNext g =>
    match s.gets[g]? with
    | none => none
    | some call =>
      match s.routings call.node with
      | none => none
      | some r =>
        (call.stage.next cfg.env cfg.settings call.dmap call.key r).map fun (stage, fix) =>
          { s with gets := s.gets.set g { call with stage } }.repair call fix

end Rebalance

end Kamino
