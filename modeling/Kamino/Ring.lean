import Kamino.Lib.Binary64
import Kamino.Routing
import Mathlib.Data.List.Sort

/-!
# The consistent-hash ring

Each member stands on the ring at its virtual nodes' hashes.
-/

namespace Kamino

/-- A member as the membership view and the routing tables list it. -/
structure ClusterMember extends Member where
  name : String
  discoveryAddr : SocketAddr
  birthdate : UInt64
  deriving DecidableEq

/-- The parameters of `assign`. -/
structure RingParams where
  env : Env
  partitionCount : UInt32
  virtualNodesPerMember : ℕ
  loadFactor : ℚ
  replicaCount : ℕ

/-- What a cluster is configured with; `Config::validate` refuses a zero and a factor below one. -/
structure RingConfig extends RingParams where
  partitionCount_pos : 0 < partitionCount
  virtualNodesPerMember_pos : 0 < virtualNodesPerMember
  one_le_loadFactor : 1 ≤ loadFactor
  replicaCount_pos : 0 < replicaCount

structure Assignment where
  primary : List UInt64
  backups : List (List UInt64)
  deriving DecidableEq

section Ring

/-- `{:016x}`. -/
def hex16 (x : UInt64) : Bytes :=
  (List.range 16).map fun i =>
    let digit := x.toNat / 16 ^ (15 - i) % 16
    UInt8.ofNat (if digit < 10 then 48 + digit else 87 + digit)

/-- The text `{:016x}#{v}` that a virtual node is hashed from. -/
def virtualNodeText (id : UInt64) (v : ℕ) : Bytes :=
  hex16 id ++ 35 :: (Nat.toDigits 10 v).map fun c => UInt8.ofNat c.toNat

/-- Both counts are exact as doubles; the quotient and the product are rounded, and the cast of the
ceiling to `u32` saturates. -/
def capacityPerMember (partCount nMembers : ℕ) (loadFactor : ℚ) : ℕ :=
  let avg := Binary64.fl ((partCount : ℚ) / nMembers)
  min (max (Binary64.fl (avg * loadFactor)).ceil.toNat 1) (2 ^ 32 - 1)

/-- The ring positions with the indices of their members, as they are pushed. -/
def virtualNodes (cfg : RingParams) (members : List ClusterMember) : List (UInt64 × ℕ) :=
  members.zipIdx.flatMap fun (m, idx) =>
    (List.range cfg.virtualNodesPerMember).map fun v =>
      (cfg.env.hash64 (virtualNodeText m.id v), idx)

/-- What `sort_unstable_by_key` may make of the positions: equal ones are in any order. -/
structure IsRing (cfg : RingParams) (members : List ClusterMember) (ring : List (UInt64 × ℕ)) :
    Prop where
  perm : ring.Perm (virtualNodes cfg members)
  sorted : ring.Pairwise fun x y => x.1 ≤ y.1

/-- The ring, equal positions in the order they were pushed in. -/
def buildRing (cfg : RingParams) (members : List ClusterMember) : List (UInt64 × ℕ) :=
  (virtualNodes cfg members).insertionSort fun x y => x.1 ≤ y.1

/-- The hash of `p:______` followed by the partition's big-endian bytes. -/
def partitionPosition (cfg : RingParams) (part : UInt32) : UInt64 :=
  cfg.env.hash64 [112, 58, 95, 95, 95, 95, 95, 95,
    (part >>> 24).toUInt8, (part >>> 16).toUInt8, (part >>> 8).toUInt8, part.toUInt8]

/-- The member and the ring index of the first slot from `start` on whose member is below `cap`,
and the slot at `start` when there is none; an empty ring has no slot. -/
def findPrimary (ring : List (UInt64 × ℕ)) (start : ℕ) (load : List ℕ) (cap : ℕ) : Option (ℕ × ℕ) :=
  let slot (ringIdx : ℕ) : Option (ℕ × ℕ) := ring[ringIdx]?.map fun p => (p.2, ringIdx)
  let walk := (List.range ring.length).filterMap fun step => slot ((start + step) % ring.length)
  match walk.find? fun p => load.getD p.1 0 < cap with
  | some p => some p
  | none => slot (start % ring.length)

/-- The next members after the primary's slot, each once, until there are `want`. -/
def collectBackups (ring : List (UInt64 × ℕ)) (primaryRingIdx primaryMemberIdx : ℕ)
    (members : List ClusterMember) (want : ℕ) : List UInt64 :=
  let walk := (List.range' 1 (ring.length - 1)).filterMap fun step =>
    ring[(primaryRingIdx + step) % ring.length]?.map (·.2)
  let out := walk.foldl (fun out idx =>
    if out.length < want ∧ idx ≠ primaryMemberIdx ∧ idx ∉ out then out ++ [idx] else out) []
  out.filterMap fun idx => members[idx]?.map (·.id)

/-- Where the partition's walk starts. -/
def startSlot (cfg : RingParams) (ring : List (UInt64 × ℕ)) (part : ℕ) : ℕ :=
  (ring.takeWhile fun p => p.1 < partitionPosition cfg (UInt32.ofNat part)).length

/-- The loop of `assign` over the partitions, from the loads the earlier ones have left. -/
def assignFrom (cfg : RingParams) (members : List ClusterMember) (ring : List (UInt64 × ℕ))
    (cap : ℕ) : List ℕ → List ℕ → Option Assignment
  | _, [] => some ⟨[], []⟩
  | load, part :: parts => do
    let start := startSlot cfg ring part
    let (primIdx, ringIdx) ← findPrimary ring start load cap
    let prim ← members[primIdx]?
    let rest ← assignFrom cfg members ring cap (load.modify primIdx (· + 1)) parts
    return ⟨prim.id :: rest.primary,
      collectBackups ring ringIdx primIdx members (cfg.replicaCount - 1) :: rest.backups⟩

/-- `assign` on the ring that the sort has made. -/
def assignOn (cfg : RingParams) (members : List ClusterMember) (ring : List (UInt64 × ℕ)) :
    Option Assignment :=
  if members = [] ∨ cfg.partitionCount = 0 then none
  else assignFrom cfg members ring
    (capacityPerMember cfg.partitionCount.toNat members.length cfg.loadFactor)
    (List.replicate members.length 0) (List.range cfg.partitionCount.toNat)

def assign (cfg : RingParams) (members : List ClusterMember) : Option Assignment :=
  assignOn cfg members (buildRing cfg members)

end Ring

/-- The routing table as the coordinator builds and pushes it. A partition without an entry has no
members. -/
structure ClusterTable where
  schemaVersion : UInt16
  signature : UInt64
  members : List ClusterMember
  primary : UInt32 → List ClusterMember
  backup : UInt32 → List ClusterMember

namespace ClusterTable

/-- The member the map from the listed members' ids has under `id`: the last one listed. -/
def byId (members : List ClusterMember) (id : UInt64) : Option ClusterMember :=
  members.reverse.find? (·.id = id)

def build (cfg : RingConfig) (members : List ClusterMember) (signature : UInt64) :
    Option ClusterTable :=
  (assign cfg.toRingParams members).map fun a =>
    { schemaVersion := 1
      signature
      members
      primary := fun part => (a.primary[part.toNat]?.bind (byId members)).toList
      backup := fun part => (a.backups.getD part.toNat []).filterMap (byId members) }

def primaryFor (t : ClusterTable) (part : UInt32) : Option ClusterMember := (t.primary part).head?

/-- The current primary, then the earlier ones while their data moves. -/
def ownersFor (t : ClusterTable) (part : UInt32) : List ClusterMember := t.primary part

end ClusterTable

end Kamino
