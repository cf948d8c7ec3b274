import Kamino.Swim

/-!
# Nodes on a network

Nodes start, join, run their loops and shut down on a network that keeps every datagram ever sent: a
datagram may arrive at the node bound to its destination at any later time, any number of times or
never.
-/

namespace Kamino

namespace SwimDriver

variable (cfg : SwimConfig) (d : SwimDriver)

/-- The requests of one attempt of `join`. -/
def joinRequests (self : ClusterMember) (peers : List SocketAddr) : List (Envelope × SocketAddr) :=
  peers.map fun addr => (⟨cfg.clusterSecret, self.id, .ping 0 joinTargetSentinel,
    [.alive self d.view.localIncarnation]⟩, addr)

/-- What `shutdown` does before it waits: the `Leave` is queued and sent to every listed peer. -/
def leave (localId : UInt64) : SwimDriver × List (Envelope × SocketAddr) :=
  let event := .leave localId d.view.localIncarnation
  let d := d.pushGossip event
  (d, (d.view.snapshot.filter (·.1.id ≠ localId)).map fun peer =>
    (⟨cfg.clusterSecret, localId, .ping 0 peer.1.id, [event]⟩, peer.1.discoveryAddr))

end SwimDriver

/-- A step of a task of a node that receives nothing. -/
inductive SwimTask where
  | forwardAck (i : ℕ)
  | forwardTimeout (i : ℕ)
  | probeStart (pick : ℕ)
  | probeAck
  | probeTimeout (nowMicros : UInt64) (order : List ℕ)
  | reap (nowMicros : UInt64)
  deriving DecidableEq

namespace SwimTask

/-- The tasks that wait for a forwarded ping are not cancelled by `shutdown`. -/
def detached : SwimTask → Bool
  | forwardAck _ | forwardTimeout _ => true
  | _ => false

def run (cfg : SwimConfig) (d : SwimDriver) :
    SwimTask → Option (SwimDriver × List (Envelope × SocketAddr))
  | forwardAck i => d.forwardAck cfg i
  | forwardTimeout i => (d.forwardTimeout i).map (·, [])
  | probeStart pick => d.probeStart cfg pick
  | probeAck => d.probeAck.map (·, [])
  | probeTimeout nowMicros order => d.probeTimeout cfg nowMicros order
  | reap nowMicros => some ((d.tickReaper nowMicros).2, [])

end SwimTask

/-- From `bootstrap` to the end of `shutdown`. -/
inductive NodePhase where
  | joining
  | running
  | leaving
  | stopped
  deriving DecidableEq

structure SwimNode where
  self : ClusterMember
  cfg : SwimConfig
  phase : NodePhase
  swim : SwimDriver

/-- The receive and probe loops are running. -/
def SwimNode.looping (node : SwimNode) : Bool := node.phase = .running ∨ node.phase = .leaving

structure Datagram where
  src : SocketAddr
  dst : SocketAddr
  env : Envelope
  cause : Option ℕ
  deriving DecidableEq

structure SwimNet where
  nodes : HMap UInt64 SwimNode
  sent : List Datagram
  handled : List (UInt64 × ℕ)

inductive SwimEvent where
  | start (self : ClusterMember) (cfg : SwimConfig)
  | join (id : UInt64) (peers : List SocketAddr)
  | spawn (id : UInt64)
  | deliver (id : UInt64) (k : ℕ) (nowMicros : UInt64) (sent : Bool)
  | task (id : UInt64) (t : SwimTask)
  | shutdown (id : UInt64)
  | stop (id : UInt64)

namespace SwimNet

def empty : SwimNet := ⟨∅, [], []⟩

variable (net : SwimNet)

def update (id : UInt64) (node : SwimNode) (sends : List (Envelope × SocketAddr))
    (cause : Option ℕ) : SwimNet :=
  { net with
    nodes := net.nodes.insert id node
    sent := net.sent ++ sends.map fun p => ⟨node.self.discoveryAddr, p.2, p.1, cause⟩ }

def addressTaken (addr : SocketAddr) : Bool :=
  net.nodes.entries.any fun e => e.2.self.discoveryAddr = addr

/-- The secret of the datagram is the node's, so `handle_envelope` goes on. -/
def handle (id : UInt64) (node : SwimNode) (k : ℕ) (dg : Datagram) : SwimNet :=
  if dg.env.clusterSecret = node.cfg.clusterSecret then
    { net with handled := (id, k) :: net.handled }
  else net

def step (net : SwimNet) : SwimEvent → Option SwimNet
  | .start self cfg =>
    if (net.nodes.lookup self.id).isSome ∨ net.addressTaken self.discoveryAddr then none
    else some (net.update self.id ⟨self, cfg, .joining, .assemble self⟩ [] none)
  | .join id peers => do
    let node ← net.nodes.lookup id
    if node.phase ≠ .joining then none
    else some (net.update id node (node.swim.joinRequests node.cfg node.self peers) none)
  | .spawn id => do
    let node ← net.nodes.lookup id
    if node.phase ≠ .joining then none
    else some (net.update id { node with phase := .running } [] none)
  | .deliver id k nowMicros sent => do
    let node ← net.nodes.lookup id
    let dg ← net.sent[k]?
    if ¬ node.looping ∨ dg.dst ≠ node.self.discoveryAddr then none
    else
      let (swim, sends) := node.swim.handleEnvelope node.cfg nowMicros dg.env dg.src sent
      some ((net.handle id node k dg).update id { node with swim } sends (some k))
  | .task id t => do
    let node ← net.nodes.lookup id
    if ¬ (node.looping ∨ node.phase = .stopped ∧ t.detached) then none
    else
      let (swim, sends) ← t.run node.cfg node.swim
      some (net.update id { node with swim } sends none)
  | .shutdown id => do
    let node ← net.nodes.lookup id
    if node.phase ≠ .running then none
    else
      let (swim, sends) := node.swim.leave node.cfg node.self.id
      some (net.update id { node with phase := .leaving, swim } sends none)
  | .stop id => do
    let node ← net.nodes.lookup id
    if node.phase ≠ .leaving then none
    else some (net.update id { node with phase := .stopped } [] none)

end SwimNet

end Kamino
