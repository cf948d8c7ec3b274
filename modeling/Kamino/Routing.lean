import Kamino.Options

/-!
# Routing

The routing table maps a partition to its owners, the current primary first, and to its backups.
-/

namespace Kamino

/-- A socket address is its text. -/
abbrev SocketAddr := String

structure Member where
  id : UInt64
  addr : SocketAddr
  deriving DecidableEq

/-- A partition without an entry has no members. -/
structure RoutingTable where
  primary : UInt32 → List Member
  backup : UInt32 → List Member

namespace RoutingTable

def primaryFor (t : RoutingTable) (part : UInt32) : Option Member := (t.primary part).head?

def backupsFor (t : RoutingTable) (part : UInt32) : List Member := t.backup part

end RoutingTable

def partitionFor (env : Env) (dmap key : Bytes) (partitionCount : UInt32) : UInt32 :=
  UInt32.ofNat ((env.hash64 (dmap ++ key)).toNat % partitionCount.toNat)

inductive ReplicationMode where
  | sync
  | async
  deriving DecidableEq

/-- What the local node's cluster runtime provides. -/
structure Routing where
  localId : UInt64
  snapshot : Option RoutingTable
  partitionCount : UInt32
  multiKeyStrict : Bool
  replicaCount : ℕ
  writeQuorum : ℕ
  mode : ReplicationMode
  liveCount : ℕ
  memberCountQuorum : ℕ

namespace Routing

variable (env : Env) (r : Routing) (dmap key : Bytes)

def partitionForKey : UInt32 := partitionFor env dmap key r.partitionCount

/-- The primary of the key's partition in the table, if it has one. -/
def primaryOf : Option Member :=
  r.snapshot.bind fun t => t.primaryFor (r.partitionForKey env dmap key)

/-- The backups the table lists for the key's partition. -/
def backupsOf : List Member :=
  match r.snapshot with
  | none => []
  | some t => t.backupsFor (r.partitionForKey env dmap key)

def routeKey : Option SocketAddr :=
  match r.primaryOf env dmap key with
  | none => none
  | some primary => if primary.id = r.localId then none else some primary.addr

def backupAddrsForKey : List SocketAddr :=
  match r.primaryOf env dmap key with
  | none => []
  | some primary =>
    if primary.id ≠ r.localId then [] else (r.backupsOf env dmap key).map (·.addr)

def memberQuorumSatisfied : Bool := r.liveCount ≥ r.memberCountQuorum

end Routing

end Kamino
