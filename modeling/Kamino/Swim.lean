import Kamino.Coordinator
import Kamino.Membership

/-!
# The background loops of a node

`run_receive_loop` takes the gossip of each envelope into the membership view and answers its
message, `run_probe_loop` probes one member per round and suspects it when no probe is acknowledged,
and `run_coordinator_loop` builds routing tables.
-/

namespace Kamino

section Queue

/-- The events to piggyback, each with the transmissions it has left. -/
structure GossipQueue where
  pending : List (GossipEvent × ℕ)
  capacity : ℕ

def gossipFanoutMult : ℕ := 3

/-- Three times the bit length of the member count. -/
def budgetFor (liveMemberCount : ℕ) : ℕ :=
  gossipFanoutMult * (Nat.log2 (min (max liveMemberCount 1) (2 ^ 32 - 1)) + 1)

namespace GossipQueue

variable (q : GossipQueue)

def push (event : GossipEvent) (liveMemberCount : ℕ) : GossipQueue :=
  let budget := budgetFor liveMemberCount
  if q.pending.any (·.1 = event) then
    { q with pending := q.pending.map fun p => if p.1 = event then (p.1, max p.2 budget) else p }
  else
    let kept := if q.pending.length = q.capacity ∧ 0 < q.capacity then q.pending.tail else q.pending
    { q with pending := kept ++ [(event, budget)] }

/-- The first events, and the queue with their budgets spent. -/
def drainForSend (max : ℕ) : List GossipEvent × GossipQueue :=
  let (picked, rest) := q.pending.splitAt max
  let spent := (picked.map fun p => (p.1, p.2 - 1)).filter (0 < ·.2)
  (picked.map (·.1), { q with pending := spent ++ rest })

end GossipQueue

end Queue

inductive SwimMessage where
  | ping (seq target : UInt64)
  | ack (seq sender : UInt64)
  | pingReq (seq target : UInt64) (targetAddr : SocketAddr)
  | indirectAck (seq target sender : UInt64)
  deriving DecidableEq

structure Envelope where
  clusterSecret : String
  sender : UInt64
  msg : SwimMessage
  gossip : List GossipEvent
  deriving DecidableEq

structure SwimConfig where
  clusterSecret : String
  probeIntervalNs : ℕ
  indirectProbes : ℕ
  suspicionMultiplier : ℕ

/-- `suspicion_timeout` in nanoseconds, saturating. -/
def SwimConfig.suspicionTimeoutNs (cfg : SwimConfig) : UInt64 :=
  UInt64.ofNat (min (cfg.probeIntervalNs * cfg.suspicionMultiplier) (2 ^ 64 - 1))

/-- Where the probe loop waits. -/
inductive ProbeStage where
  | idle
  | direct (target : ClusterMember) (seq : UInt64)
  | indirect (target : ClusterMember) (seq : UInt64)

/-- A task that waits for the acknowledgement of a ping it has sent for another node. -/
structure Forward where
  innerSeq : UInt64
  seq : UInt64
  target : UInt64
  src : SocketAddr

/-- A node's SWIM state. `fired` holds the sequence numbers whose acknowledgement has arrived and
whose waiter has not gone on yet. -/
structure SwimDriver where
  view : MembershipView
  queue : GossipQueue
  inFlight : List UInt64
  fired : List UInt64
  probeSeq : UInt64
  probe : ProbeStage
  forwards : List Forward

namespace SwimDriver

variable (cfg : SwimConfig) (d : SwimDriver)

/-- What `assemble` and `driver` set up. -/
def assemble (self : ClusterMember) : SwimDriver where
  view := .bootstrap self
  queue := GossipQueue.push ⟨[], 256⟩ (.alive self 1) 1
  inFlight := []
  fired := []
  probeSeq := 1
  probe := .idle
  forwards := []

def nowNs (nowMicros : UInt64) : UInt64 := satMulU64 nowMicros 1000

def pushGossip (event : GossipEvent) : SwimDriver :=
  { d with queue := d.queue.push event d.view.liveCount }

def piggybackBatch : ℕ := 8

def drainGossip : List GossipEvent × SwimDriver :=
  let (gossip, queue) := d.queue.drainForSend piggybackBatch
  (gossip, { d with queue })

section InFlight

/-- A fresh sequence number, registered. -/
def register : UInt64 × SwimDriver :=
  (d.probeSeq, { d with probeSeq := d.probeSeq + 1, inFlight := d.probeSeq :: d.inFlight })

def forgetInflight (seq : UInt64) : SwimDriver :=
  { d with inFlight := d.inFlight.filter (· ≠ seq) }

def completeInflight (seq : UInt64) : SwimDriver :=
  if seq ∈ d.inFlight then { d.forgetInflight seq with fired := seq :: d.fired } else d

/-- The waiter of `seq` goes on. -/
def consume (seq : UInt64) : SwimDriver := { d with fired := d.fired.filter (· ≠ seq) }

end InFlight

section Receive

/-- The node's answer to a suspicion of itself. -/
def refute : SwimDriver :=
  let (newInc, view) := d.view.bumpLocalIncarnation
  let d := { d with view }
  match view.localId.bind view.get with
  | none => d
  | some entry => d.pushGossip (.alive entry.member newInc)

def applyEvent (nowMicros : UInt64) (event : GossipEvent) : SwimDriver :=
  match d.view.apply event (nowNs nowMicros) cfg.suspicionTimeoutNs with
  | (.newMember, view) | (.updated, view) => { d with view }.pushGossip event
  | (.selfRefutationNeeded, view) => { d with view }.refute
  | (.ignored, view) => { d with view }

def applyPiggyback (nowMicros : UInt64) (events : List GossipEvent) : SwimDriver :=
  events.foldl (fun d event => d.applyEvent cfg nowMicros event) d

def joinTargetSentinel : UInt64 := 0

/-- An envelope from `localId` with gossip from the queue. -/
def compose (localId : UInt64) (msg : SwimMessage) : Envelope × SwimDriver :=
  let (gossip, d) := d.drainGossip
  (⟨cfg.clusterSecret, localId, msg, gossip⟩, d)

/-- The own `Alive` that a join request is answered with. -/
def announce (localId : UInt64) : SwimDriver :=
  match d.view.get localId with
  | none => d
  | some entry => d.pushGossip (.alive entry.member entry.incarnation)

/-- The message's part of `handle_envelope`; `sent` says whether the transport took a forwarded
ping. -/
def handleMessage (localId : UInt64) (src : SocketAddr) (sent : Bool) :
    SwimMessage → SwimDriver × List (Envelope × SocketAddr)
  | .ping seq target =>
    let isJoinProbe := target = joinTargetSentinel
    if ¬ isJoinProbe ∧ target ≠ localId then (d, [])
    else
      let d := if isJoinProbe then d.announce localId else d
      let (ack, d) := d.compose cfg localId (.ack seq localId)
      (d, [(ack, src)])
  | .ack seq _ | .indirectAck seq _ _ => (d.completeInflight seq, [])
  | .pingReq seq target targetAddr =>
    let (innerSeq, d) := d.register
    let (fwd, d) := d.compose cfg localId (.ping innerSeq target)
    if sent then ({ d with forwards := d.forwards ++ [⟨innerSeq, seq, target, src⟩] },
      [(fwd, targetAddr)])
    else (d.forgetInflight innerSeq, [])

def handleEnvelope (nowMicros : UInt64) (env : Envelope) (src : SocketAddr) (sent : Bool) :
    SwimDriver × List (Envelope × SocketAddr) :=
  if env.clusterSecret ≠ cfg.clusterSecret then (d, [])
  else
    let d := d.applyPiggyback cfg nowMicros env.gossip
    match d.view.localId with
    | none => (d, [])
    | some localId => d.handleMessage cfg localId src sent env.msg

/-- The ping forwarded for another node has been acknowledged. -/
def forwardAck (i : ℕ) : Option (SwimDriver × List (Envelope × SocketAddr)) := do
  let task ← d.forwards[i]?
  if task.innerSeq ∉ d.fired then none
  else
    let d := { d.consume task.innerSeq with forwards := d.forwards.eraseIdx i }
    match d.view.localId with
    | none => some (d.drainGossip.2, [])
    | some localId =>
      let (ack, d) := d.compose cfg localId (.indirectAck task.seq task.target localId)
      some (d, [(ack, task.src)])

def forwardTimeout (i : ℕ) : Option SwimDriver := do
  let task ← d.forwards[i]?
  if task.innerSeq ∈ d.fired then none
  else some { d.forgetInflight task.innerSeq with forwards := d.forwards.eraseIdx i }

end Receive

section Probe

/-- The alive members other than those in `ids`. -/
def candidates (ids : List UInt64) : List ClusterMember :=
  (d.view.snapshotAll.filter fun (m, state, _) => m.id ∉ ids ∧ state = .alive).map (·.1)

def suspectTarget (nowMicros : UInt64) (target : ClusterMember) : SwimDriver :=
  match d.view.localId, d.view.get target.id with
  | some localId, some entry =>
    let event := .suspect target.id entry.incarnation localId
    match d.view.apply event (nowNs nowMicros) cfg.suspicionTimeoutNs with
    | (.newMember, view) | (.updated, view) => { d with view }.pushGossip event
    | (_, view) => { d with view }
  | _, _ => d

/-- A round begins with the candidate at `pick`, which the generator has chosen. -/
def probeStart (pick : ℕ) : Option (SwimDriver × List (Envelope × SocketAddr)) :=
  match d.probe, d.view.localId with
  | .idle, some localId =>
    match d.candidates [localId] with
    | [] => some (d, [])
    | ms => ms[pick]?.map fun target =>
      let (seq, d) := d.register
      let (env, d) := d.compose cfg localId (.ping seq target.id)
      ({ d with probe := .direct target seq }, [(env, target.discoveryAddr)])
  | _, _ => none

def probeAck : Option SwimDriver :=
  match d.probe with
  | .direct _ seq | .indirect _ seq =>
    if seq ∈ d.fired then some { d.consume seq with probe := .idle } else none
  | .idle => none

/-- A ping request to each proxy, with gossip from the queue. -/
def requestAll (localId : UInt64) (msg : SwimMessage) :
    List ClusterMember → SwimDriver → SwimDriver × List (Envelope × SocketAddr)
  | [], d => (d, [])
  | proxy :: proxies, d =>
    let (env, d) := d.compose cfg localId msg
    let (d, sends) := requestAll localId msg proxies d
    (d, (env, proxy.discoveryAddr) :: sends)

/-- Whether `order` picks `k` of `n` indices, or all of them if there are fewer. -/
def isShuffle (k n : ℕ) (order : List ℕ) : Bool :=
  order.Nodup ∧ (∀ i ∈ order, i < n) ∧ order.length = min k n

/-- The wait of the round ends without an acknowledgement. `order` is the shuffled start of the
proxies' list. -/
def probeTimeout (nowMicros : UInt64) (order : List ℕ) :
    Option (SwimDriver × List (Envelope × SocketAddr)) :=
  match d.probe, d.view.localId with
  | .direct target seq, some localId =>
    let ms := d.candidates [localId, target.id]
    if seq ∈ d.fired ∨ ¬ isShuffle cfg.indirectProbes ms.length order then none
    else
      let d := d.forgetInflight seq
      match order.filterMap (ms[·]?) with
      | [] => some ({ d.suspectTarget cfg nowMicros target with probe := .idle }, [])
      | proxies =>
        let (indirectSeq, d) := d.register
        let (d, sends) := requestAll cfg localId
          (.pingReq indirectSeq target.id target.discoveryAddr) proxies d
        some ({ d with probe := .indirect target indirectSeq }, sends)
  | .indirect target seq, some _ =>
    if seq ∈ d.fired then none
    else
      some ({ (d.forgetInflight seq).suspectTarget cfg nowMicros target with probe := .idle }, [])
  | _, _ => none

end Probe

/-- `tick_reaper`, which none of the loops calls. -/
def tickReaper (nowMicros : UInt64) : List UInt64 × SwimDriver :=
  let (promoted, view) := d.view.reapSuspects (nowNs nowMicros)
  let d := { d with view }
  (promoted.map (·.1), match view.localId with
    | none => d
    | some localId => promoted.foldl (fun d (id, inc) => d.pushGossip (.dead id inc localId)) d)

end SwimDriver

/-- A started node: its SWIM state and its routing state. -/
structure ClusterRuntime where
  swim : SwimDriver
  routing : ClusterNode

structure RuntimeConfig where
  swim : SwimConfig
  coordinator : CoordinatorConfig

/-- One step of one of the loops. -/
inductive RuntimeEvent where
  | receive (nowMicros : UInt64) (env : Envelope) (src : SocketAddr) (sent : Bool)
  | forwardAck (i : ℕ)
  | forwardTimeout (i : ℕ)
  | probeStart (pick : ℕ)
  | probeAck
  | probeTimeout (nowMicros : UInt64) (order : List ℕ)
  | coordinatorTick

namespace ClusterRuntime

variable (cfg : RuntimeConfig) (r : ClusterRuntime)

def start (self : ClusterMember) : ClusterRuntime :=
  ⟨.assemble self, .start self.id [self]⟩

/-- The members the coordinator loop sees. -/
def members : List ClusterMember := r.swim.view.snapshot.map (·.1)

def setSwim (d : SwimDriver) : ClusterRuntime := { r with swim := d }

def step (r : ClusterRuntime) : RuntimeEvent → Option ClusterRuntime
  | .receive nowMicros env src sent =>
    some (r.setSwim (r.swim.handleEnvelope cfg.swim nowMicros env src sent).1)
  | .forwardAck i => (r.swim.forwardAck cfg.swim i).map fun p => r.setSwim p.1
  | .forwardTimeout i => (r.swim.forwardTimeout i).map r.setSwim
  | .probeStart pick => (r.swim.probeStart cfg.swim pick).map fun p => r.setSwim p.1
  | .probeAck => r.swim.probeAck.map r.setSwim
  | .probeTimeout nowMicros order =>
    (r.swim.probeTimeout cfg.swim nowMicros order).map fun p => r.setSwim p.1
  | .coordinatorTick =>
    some { r with routing := ({ r.routing with view := r.members }.tick cfg.coordinator).1 }

end ClusterRuntime

end Kamino
