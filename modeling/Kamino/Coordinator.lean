import Kamino.Ring
import Kamino.Lib.HMap

/-!
# The coordinator loop and its routing pushes

The node that its own membership view lists first builds a table when the view's topology hash is
not that of its last build, stores it and pushes it to the other members at every tick.
-/

namespace Kamino

/-- `UnsupportedSchema` is left out: `apply` accepts every schema version. -/
inductive ApplyRoutingOutcome where
  | accepted
  | stale
  deriving DecidableEq

namespace RoutingTableStore

def apply (slot : Option ClusterTable) (candidate : ClusterTable) :
    ApplyRoutingOutcome × Option ClusterTable :=
  match slot with
  | some current =>
    if candidate.signature ≤ current.signature then (.stale, slot) else (.accepted, some candidate)
  | none => (.accepted, some candidate)

def signature (slot : Option ClusterTable) : UInt64 :=
  match slot with
  | some t => t.signature
  | none => 0

end RoutingTableStore

structure CoordinatorConfig extends RingConfig where
  /-- The standard library's hash of a member's id and birthdate. -/
  memberHash : UInt64 → UInt64 → UInt64

section Build

def topologyHash (cfg : CoordinatorConfig) (members : List ClusterMember) : UInt64 :=
  members.foldl (fun acc m => acc ^^^ cfg.memberHash m.id m.birthdate) 0

def liveIds (live : List ClusterMember) : List UInt64 := live.map (·.id)

/-- The earlier owners that `preserve_previous_owners` appends to one partition's new ones. -/
def spliceOwners (live prevOwners ownersNew : List ClusterMember) : List ClusterMember :=
  match prevOwners, ownersNew with
  | prevPrimary :: _, newPrimary :: _ =>
    if prevPrimary.id = newPrimary.id then ownersNew
    else if prevPrimary.id ∉ liveIds live then ownersNew
    else prevOwners.foldl (fun owners ancestor =>
      if ancestor.id = newPrimary.id then owners
      else if ancestor.id ∉ liveIds live then owners
      else if ancestor.id ∈ liveIds owners then owners
      else owners ++ [ancestor]) ownersNew
  | _, _ => ownersNew

def preservePreviousOwners (new prev : ClusterTable) (live : List ClusterMember) : ClusterTable :=
  { new with primary := fun part => spliceOwners live (prev.primary part) (new.primary part) }

/-- The table for `members`, with the earlier owners the coordinator's last build listed. -/
def buildTable (cfg : CoordinatorConfig) (members : List ClusterMember)
    (currentTable : Option ClusterTable) (nextSig : UInt64) : Option ClusterTable :=
  (ClusterTable.build cfg.toRingConfig members nextSig).map fun table =>
    match currentTable with
    | none => table
    | some prev => preservePreviousOwners table prev members

end Build

structure Push where
  target : SocketAddr
  table : ClusterTable

/-- A table that a coordinator has built, and from what. -/
structure Build where
  builder : UInt64
  members : List ClusterMember
  previous : Option ClusterTable
  table : ClusterTable

/-- A node's routing state: its view, its signature clock, its store, and what its coordinator loop
remembers of its last build. -/
structure ClusterNode where
  localId : UInt64
  view : List ClusterMember
  signature : UInt64
  store : Option ClusterTable
  lastTopologyHash : Option UInt64
  currentTable : Option ClusterTable

namespace ClusterNode

variable (cfg : CoordinatorConfig) (n : ClusterNode)

def start (localId : UInt64) (view : List ClusterMember) : ClusterNode :=
  ⟨localId, view, 0, none, none, none⟩

def isCoord : Bool := n.view.head?.map (·.id) = some n.localId

def topologyChanged : Bool := n.lastTopologyHash ≠ some (topologyHash cfg n.view)

/-- The build of a tick. The clock's `fetch_add` wraps. -/
def rebuild : ClusterNode × Option Build :=
  let nextSig := n.signature + 1
  match buildTable cfg n.view n.currentTable nextSig with
  | none => ({ n with signature := nextSig }, none)
  | some table =>
    ({ n with
        signature := nextSig
        store := (RoutingTableStore.apply n.store table).2
        lastTopologyHash := some (topologyHash cfg n.view)
        currentTable := some table },
      some ⟨n.localId, n.view, n.currentTable, table⟩)

def pushToPeers : List Push :=
  match n.currentTable with
  | none => []
  | some table => (n.view.filter (·.id ≠ n.localId)).map fun m => ⟨m.addr, table⟩

/-- One round of `run_coordinator_loop`: the node, the table it has built and its pushes. It is one
step: no push is applied between the round's `next` and its `apply`, over which no lock is held. -/
def tick : ClusterNode × Option Build × List Push :=
  if ¬ n.isCoord then (n, none, [])
  else if n.topologyChanged cfg then
    match n.rebuild cfg with
    | (n', none) => (n', none, [])
    | (n', some b) => (n', some b, n'.pushToPeers)
  else (n, none, n.pushToPeers)

/-- The clock counts up until it is at `target`. -/
def bumpSignatureToAtLeast (target : UInt64) : ClusterNode :=
  { n with signature := if n.signature < target then target else n.signature }

def applyRoutingUpdate (table : ClusterTable) : ApplyRoutingOutcome × ClusterNode :=
  match RoutingTableStore.apply n.store table with
  | (.accepted, store) => (.accepted, { n with store }.bumpSignatureToAtLeast table.signature)
  | (.stale, _) => (.stale, n)

end ClusterNode

/-- What reaches one node's routing state. -/
inductive RoutingEvent where
  | view (members : List ClusterMember)
  | tick
  | push (table : ClusterTable)

def ClusterNode.react (cfg : CoordinatorConfig) (n : ClusterNode) : RoutingEvent → ClusterNode
  | .view members => { n with view := members }
  | .tick => (n.tick cfg).1
  | .push table => (n.applyRoutingUpdate table).2

inductive NetworkEvent where
  /-- A process starts at its address, in place of whatever ran there, and has joined. -/
  | bootstrap (self : ClusterMember) (view : List ClusterMember)
  | crash (addr : SocketAddr)
  | view (addr : SocketAddr) (members : List ClusterMember)
  | tick (addr : SocketAddr)
  /-- The `i`-th push in flight arrives, and may arrive again. -/
  | deliver (i : ℕ) (again : Bool)
  | lose (i : ℕ)

structure Network where
  nodes : HMap SocketAddr ClusterNode
  wire : List Push
  /-- The member ids drawn so far. -/
  ids : List UInt64
  /-- The tables built so far, for the statements. -/
  builds : List Build

namespace Network

variable (cfg : CoordinatorConfig) (s : Network)

def empty : Network := ⟨∅, [], [], []⟩

def setNode (addr : SocketAddr) (n : ClusterNode) : Network :=
  { s with nodes := s.nodes.insert addr n }

def tickAt (addr : SocketAddr) (n : ClusterNode) : Network :=
  let (n', built, pushes) := n.tick cfg
  { s.setNode addr n' with wire := s.wire ++ pushes, builds := built.toList ++ s.builds }

/-- A push reaches its address; nobody listens there when no node runs. -/
def receive (p : Push) : Network :=
  match s.nodes.lookup p.target with
  | none => s
  | some n => s.setNode p.target (n.applyRoutingUpdate p.table).2

/-- A member id is drawn at random when the process starts, and no id is drawn twice. -/
def step (s : Network) : NetworkEvent → Option Network
  | .bootstrap self view =>
    if self.id ∈ s.ids then none
    else some { s.setNode self.addr (.start self.id view) with ids := self.id :: s.ids }
  | .crash addr => some { s with nodes := s.nodes.erase addr }
  | .view addr members =>
    (s.nodes.lookup addr).map fun n => s.setNode addr { n with view := members }
  | .tick addr => (s.nodes.lookup addr).map (s.tickAt cfg addr)
  | .deliver i again =>
    s.wire[i]?.map fun p =>
      { s with wire := if again then s.wire else s.wire.eraseIdx i }.receive p
  | .lose i => s.wire[i]?.map fun _ => { s with wire := s.wire.eraseIdx i }

end Network

end Kamino
