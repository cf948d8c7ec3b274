import Kamino.Internode
import Kamino.Proofs.Delete

/-!
# Replication between nodes

With a cluster secret every handshake makes the connection a peer's, and what the forwarder sends is
applied by the node it reaches and starts nothing.
-/

namespace Kamino

open Function Runs Tasks List Option

section Handshake

variable (debug : Resp.Frame → String) (ctx : Resp.ServerContext)

end Handshake

variable {dmap : Bytes}

section Peers

variable {env : Env} {srv : Server} {n : Node}

/-- The forwarder takes the frame for an answer: it is not `-MOVED`. -/
def Frame.Settled (f : Frame) : Prop := mapReply f.wire = .ok f.wire

end Peers

/-! ## Peers that answer at once -/

section Synchronous

variable (env : Env)

/-- The batch's requests, sent and answered one after the other over peers' connections. -/
def sendAll : Cluster → List Hop → (ℕ → Link) → List (Except ClusterError Frame) × Cluster
  | c, [], _ => ([], c)
  | c, hop :: hops, links =>
    let (reply, c) := forwardCommand env c (links 0) hop.target hop.cmd
    let (replies, c) := sendAll c hops fun i => links (i + 1)
    (reply :: replies, c)

def Request.links (req : Request) : Command → Fan → ℕ → Link
  | .dmPut .., .replicate _ => req.putLinks
  | .dmDel .., .replicate i => req.delLinks.replicate i
  | _, .forward => req.delLinks.forward

def Request.ask (req : Request) (cmd : Command) (label : Fan) (hops : List Hop) (c : Cluster) :
    List (Except ClusterError Frame) × Cluster :=
  sendAll env c hops (req.links cmd label)

variable {env}

theorem sendAll_fanOut (cmd : Command) (addrs : List SocketAddr) (c : Cluster) (links : ℕ → Link) :
    sendAll env c (addrs.map (.send cmd)) links = fanOut env cmd c addrs links := by
  induction addrs generalizing c links with
  | nil => rfl
  | cons addr addrs ih => simp [map_cons, sendAll, fanOut, ih, Hop.send]

theorem forwardDmDel_eq (c : Cluster) (link : Link) (addr : SocketAddr) (dmap : Bytes)
    (keys : List Bytes) :
    forwardDmDel env c link addr dmap keys =
      (forwardCommand env c link addr (.dmDel dmap keys)).map (dmDelCount env) id := by
  unfold forwardDmDel
  rcases forwardCommand env c link addr (.dmDel dmap keys) with ⟨e | f, c'⟩
  · rfl
  cases f with
  | simpleString s =>
    simp only [Prod.map, dmDelCount]
    split_ifs <;> rfl
  | _ => rfl

theorem sendAll_forwardBuckets (dmap : Bytes)
    (remote : List (SocketAddr × List Bytes)) (c : Cluster) (links : ℕ → Link) :
    forwardBuckets env dmap c remote links =
      (sendAll env c (remote.map fun (addr, keys) => .send (.dmDel dmap keys) addr) links).map
        (List.map (dmDelCount env)) id := by
  induction remote generalizing c links with
  | nil => rfl
  | cons b remote ih =>
    simp [forwardBuckets, forwardDmDel_eq, ih, map_cons, sendAll, Hop.send]

theorem run_startPut (srv : Server) (c : Cluster) (req : Request) (fromPeer : Bool)
    (dmap key value : Bytes) (o : PutOptions) :
    let start := startPut env srv (c srv.self) req.readings fromPeer dmap key value o
    dmPut env srv c req.readings req.putLinks fromPeer dmap key value o =
      start.1.run (req.ask env (.dmPut dmap key value o)) (update c srv.self start.2) := by
  unfold dmPut startPut
  split_ifs
  · rfl
  rcases (c srv.self).commitPut env req.readings dmap key value o with ⟨e | o', n'⟩
  · rfl
  rcases srv.routing with _ | r
  · rfl
  dsimp only
  by_cases hb : r.backupAddrsForKey env dmap key = []
  · simp only [if_pos hb]
    rfl
  simp only [if_neg hb, replicatePut, Task.run, Request.ask, Request.links, sendAll_fanOut,
    putReply]
  rcases r.mode with _ | _
  · dsimp only
    split_ifs <;> rfl
  · rfl

theorem run_replicateKeys {r : Routing} {deleted : ℤ} {next : Handler} {req : Request}
    {named : List Bytes} (keys : List Bytes) (c : Cluster) (i : ℕ) :
    (replicateKeys env r dmap deleted next i keys).run (req.ask env (.dmDel dmap named)) c =
      match replicateDeletes env r dmap c keys fun j => req.delLinks.replicate (i + j) with
      | (.error e, c) => (.simpleString ("PARTIAL " ++ toString deleted ++ " " ++ e), c)
      | (.ok (), c) => next.run (req.ask env (.dmDel dmap named)) c := by
  induction keys generalizing c i with
  | nil => rfl
  | cons key keys ih =>
    have hlinks : (fun j => req.delLinks.replicate (i + (j + 1))) =
        fun j => req.delLinks.replicate (i + 1 + j) := by
      funext j
      rw [Nat.add_right_comm, Nat.add_assoc]
    unfold replicateKeys replicateDeletes
    dsimp only
    by_cases hb : r.backupAddrsForKey env dmap key = []
    · simp only [if_pos hb, hlinks]
      exact ih c (i + 1)
    simp only [if_neg hb, hlinks, replicateDelete, Task.run, Request.ask, Request.links,
      sendAll_fanOut, Nat.add_zero]
    split_ifs
    · rfl
    · exact ih _ (i + 1)

theorem run_forwardKeys (dmap : Bytes) (buckets : HMap (Option SocketAddr) (List Bytes))
    (deleted : ℤ) (req : Request) (keys : List Bytes) (c : Cluster) :
    (forwardKeys env dmap buckets deleted).run (req.ask env (.dmDel dmap keys)) c =
      let remote := (buckets.erase none).entries.filterMap fun b => b.1.map fun addr => (addr, b.2)
      let (results, c) := forwardBuckets env dmap c remote req.delLinks.forward
      match sumResults deleted results with
      | (deleted, some e) => (.simpleString ("PARTIAL " ++ toString deleted ++ " " ++ e), c)
      | (deleted, none) => (.integer deleted, c) := by
  dsimp only [forwardKeys, Task.run, Request.ask, Request.links]
  rw [sendAll_forwardBuckets]
  dsimp only [delReply, Prod.map]
  generalize sumResults deleted _ = sum
  rcases sum with ⟨deleted, _ | e⟩ <;> rfl

theorem run_startDel (srv : Server) (c : Cluster) (req : Request) (fromPeer : Bool)
    (dmap : Bytes) (keys : List Bytes) :
    let start := startDel env srv (c srv.self) fromPeer dmap keys
    dmDel env srv c req.delLinks fromPeer dmap keys =
      start.1.run (req.ask env (.dmDel dmap keys)) (update c srv.self start.2) := by
  unfold dmDel startDel
  by_cases hk : keys = []
  · simp [if_pos hk, Task.run, update_eq_self]
  simp only [if_neg hk]
  rcases srv.routing with _ | r
  · rfl
  cases fromPeer with
  | true => rfl
  | false =>
    dsimp only
    split
    · simp [Task.run, update_eq_self]
    rcases (bucketKeys env r dmap keys).lookup none with _ | localKeys <;> dsimp only [delBucket]
    · rw [update_eq_self]
      exact (run_forwardKeys dmap _ 0 req keys c).symm
    rcases (c srv.self).dmDelLocalCount env dmap localKeys with ⟨e | deleted, n'⟩
    · rfl
    dsimp only [replicateLocalDeletes]
    split_ifs
    · exact (run_forwardKeys dmap _ deleted req keys _).symm
    rw [run_replicateKeys]
    simp only [Nat.zero_add]
    rcases replicateDeletes env r dmap (update c srv.self n') localKeys
      req.delLinks.replicate with ⟨e | _, c'⟩
    · rfl
    · exact (run_forwardKeys dmap _ deleted req keys c').symm

/-- `dispatch` is its handler, run on its peers' answers. -/
theorem dispatch_eq_run (srv : Server) (st : ConnState) (c : Cluster) (req : Request)
    (cmd : Command) :
    let start := startCommand env srv st (c srv.self) req.readings cmd
    dispatch env srv st c req cmd = start.1.run (req.ask env cmd) (update c srv.self start.2) := by
  unfold startCommand
  rcases hgate : gate env srv st cmd with _ | reply
  · have hroute : (if st.internode then none else checkRouting env srv cmd) = none := by
      unfold gate at hgate
      split_ifs at hgate ⊢ <;> first | rfl | exact hgate
    unfold gate at hgate
    unfold dispatch
    rw [hroute] at hgate ⊢
    split_ifs at hgate ⊢
    cases cmd with
    | dmPut dmap key value o => exact run_startPut srv c req _ dmap key value o
    | dmDel dmap keys => exact run_startDel srv c req _ dmap keys
  · simp only [Task.run, update_eq_self]
    unfold gate at hgate
    unfold dispatch
    split_ifs at hgate ⊢ <;> first | rw [hgate] | cases hgate; rfl

end Synchronous

/-! ## The fan-outs of a run -/

section Cost

variable {env : Env} {d : Deployment}

/-- A request of a client's may replicate each of its keys, and a forwarded one nothing. -/
def Hop.cost (hop : Hop) : ℕ :=
  match hop.via with
  | .client _ => hop.cmd.keys.length
  | .forwarder _ => 0

def Handler.Pays (env : Env) (d : Deployment) (hop : Hop) (handler : Handler) (n : ℕ) : Prop :=
  (d.service env).Pays Hop.cost Fan.isReplicate hop handler n

variable {addr : SocketAddr} {cmd : Command} {st : Resp.Session}

end Cost

section Secret

variable {env : Env} {d : Deployment}

end Secret

/-! ## Replication under a configuration -/

/-- Two nodes of a configuration, the first the primary of every partition and the second its
backup. -/
def pair (cfg : ReplicatedConfig) : Deployment where
  config := cfg
  id addr := if addr = "10.0.0.1:7000" then 1 else 2
  snapshot _ := some ⟨fun _ => [⟨1, "10.0.0.1:7000"⟩], fun _ => [⟨2, "10.0.0.2:7000"⟩]⟩
  liveCount _ := cfg.core.memberCountQuorum.toNat
  version := "0.1.0"
  debugFrame _ := ""
  parseAddr := some

section Open

variable {env : Env} {cfg : ReplicatedConfig}

end Open

end Kamino
