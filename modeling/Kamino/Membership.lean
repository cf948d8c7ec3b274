import Kamino.Ring
import Kamino.Lib.HMap

/-!
# The membership view

A node keeps, for every member it has heard of, the member's data, its SWIM state, its incarnation
and, while it is suspected, the deadline of the suspicion.
-/

namespace Kamino

inductive MemberState where
  | alive
  | suspect
  | dead
  deriving DecidableEq

structure MemberEntry where
  member : ClusterMember
  state : MemberState
  incarnation : UInt64
  /-- In nanoseconds; zero while alive. -/
  suspectDeadlineNs : UInt64
  deriving DecidableEq

inductive GossipEvent where
  | alive (member : ClusterMember) (incarnation : UInt64)
  | suspect (id incarnation sender : UInt64)
  | dead (id incarnation sender : UInt64)
  | leave (id incarnation : UInt64)
  deriving DecidableEq

namespace GossipEvent

/-- The member the event is about. -/
def id : GossipEvent → UInt64
  | alive member _ => member.id
  | suspect id _ _ | dead id _ _ | leave id _ => id

def incarnation : GossipEvent → UInt64
  | alive _ incarnation | suspect _ incarnation _ | dead _ incarnation _
  | leave _ incarnation => incarnation

end GossipEvent

inductive ApplyOutcome where
  | ignored
  | newMember
  | updated
  | selfRefutationNeeded
  deriving DecidableEq

/-- `u64::saturating_add`. -/
def satAddU64 (a b : UInt64) : UInt64 := UInt64.ofNat (min (a.toNat + b.toNat) (2 ^ 64 - 1))

/-- `u64::saturating_sub`. -/
def satSubU64 (a b : UInt64) : UInt64 := if a ≤ b then 0 else a - b

structure MembershipView where
  byId : HMap UInt64 MemberEntry
  sorted : List UInt64
  localId : Option UInt64
  localIncarnation : UInt64

namespace MembershipView

def bootstrap (self : ClusterMember) : MembershipView where
  byId := AList.insert self.id ⟨self, .alive, 1, 0⟩ ∅
  sorted := [self.id]
  localId := some self.id
  localIncarnation := 1

variable (v : MembershipView)

/-- Whether `a` sorts before `b`: by birthdate, then by id. -/
def sortsBefore (a b : UInt64) : Bool :=
  let birthdate (id : UInt64) := ((v.byId.lookup id).map (·.member.birthdate)).getD 0
  birthdate a < birthdate b ∨ birthdate a = birthdate b ∧ a ≤ b

def reSort : MembershipView :=
  { v with sorted := v.byId.keys.insertionSort fun a b => v.sortsBefore a b }

/-- The members that are not dead, each with its `is_coordinator`. -/
def snapshot : List (ClusterMember × Bool) :=
  v.sorted.zipIdx.filterMap fun (id, idx) =>
    match v.byId.lookup id with
    | none => none
    | some entry => if entry.state = .dead then none else some (entry.member, idx = 0)

def snapshotAll : List (ClusterMember × MemberState × UInt64) :=
  v.sorted.filterMap fun id =>
    (v.byId.lookup id).map fun e => (e.member, e.state, e.incarnation)

def liveCount : ℕ := v.byId.entries.countP fun e => e.2.state ≠ .dead

def get (id : UInt64) : Option MemberEntry := v.byId.lookup id

def setEntry (id : UInt64) (entry : MemberEntry) : MembershipView :=
  { v with byId := v.byId.insert id entry }

def bumpLocalIncarnation : UInt64 × MembershipView :=
  let newInc := v.localIncarnation + 1
  let bumped := { v with localIncarnation := newInc }
  match v.localId with
  | none => (newInc, bumped)
  | some localId =>
    match v.byId.lookup localId with
    | none => (newInc, bumped)
    | some entry =>
      (newInc, bumped.setEntry localId
        { entry with incarnation := newInc, state := .alive, suspectDeadlineNs := 0 })

section Apply

def applyAlive (member : ClusterMember) (incarnation : UInt64) : ApplyOutcome × MembershipView :=
  let inserted := (v.setEntry member.id ⟨member, .alive, incarnation, 0⟩).reSort
  if some member.id = v.localId then (.ignored, v)
  else
    match v.byId.lookup member.id with
    | some existing =>
      if incarnation < existing.incarnation then (.ignored, v)
      else if incarnation = existing.incarnation ∧ existing.state = .alive then (.ignored, v)
      else if incarnation = existing.incarnation ∧ existing.state = .dead then (.ignored, v)
      else (.updated, inserted)
    | none => (.newMember, inserted)

def applySuspect (id incarnation nowNs suspicionTimeoutNs : UInt64) :
    ApplyOutcome × MembershipView :=
  if some id = v.localId then (.selfRefutationNeeded, v)
  else
    match v.byId.lookup id with
    | none => (.ignored, v)
    | some entry =>
      if incarnation < entry.incarnation then (.ignored, v)
      else if incarnation = entry.incarnation ∧ entry.state ≠ .alive then (.ignored, v)
      else (.updated, v.setEntry id
        { entry with
          state := .suspect
          incarnation
          suspectDeadlineNs := satAddU64 nowNs suspicionTimeoutNs })

def applyDead (id incarnation : UInt64) : ApplyOutcome × MembershipView :=
  if some id = v.localId then (.selfRefutationNeeded, v)
  else
    match v.byId.lookup id with
    | none => (.ignored, v)
    | some entry =>
      if incarnation < entry.incarnation then (.ignored, v)
      else if entry.state = .dead ∧ incarnation = entry.incarnation then (.ignored, v)
      else (.updated,
        (v.setEntry id { entry with state := .dead, incarnation, suspectDeadlineNs := 0 }).reSort)

def apply (event : GossipEvent) (nowNs suspicionTimeoutNs : UInt64) :
    ApplyOutcome × MembershipView :=
  match event with
  | .alive member incarnation => v.applyAlive member incarnation
  | .suspect id incarnation _ => v.applySuspect id incarnation nowNs suspicionTimeoutNs
  | .dead id incarnation _ | .leave id incarnation => v.applyDead id incarnation

end Apply

def overdue (nowNs : UInt64) (entry : MemberEntry) : Bool :=
  entry.state = .suspect ∧ entry.suspectDeadlineNs ≤ nowNs

def reapEntry (nowNs : UInt64) (entry : MemberEntry) : MemberEntry :=
  if overdue nowNs entry then { entry with state := .dead } else entry

/-- The members declared dead, with their incarnations, and the view. -/
def reapSuspects (nowNs : UInt64) : List (UInt64 × UInt64) × MembershipView :=
  let promoted := (v.byId.entries.filter fun e => overdue nowNs e.2).map fun e =>
    (e.2.member.id, e.2.incarnation)
  let reaped := { v with byId := v.byId.mapValues fun _ entry => reapEntry nowNs entry }
  (promoted, if promoted = [] then reaped else reaped.reSort)

/-- A dead entry whose suspicion's deadline lies at least `olderThanNs` back. -/
def expired (olderThanNs nowNs : UInt64) (entry : MemberEntry) : Bool :=
  entry.state = .dead ∧ entry.suspectDeadlineNs ≠ 0 ∧
    olderThanNs ≤ satSubU64 nowNs entry.suspectDeadlineNs

def evictTombstones (olderThanNs nowNs : UInt64) : MembershipView :=
  let toRemove := (v.byId.entries.filter fun e => expired olderThanNs nowNs e.2).map fun e =>
    e.2.member.id
  let evicted := { v with byId := toRemove.foldl (fun byId id => byId.erase id) v.byId }
  if toRemove = [] then evicted else evicted.reSort

end MembershipView

inductive ViewOp where
  | apply (event : GossipEvent) (nowNs suspicionTimeoutNs : UInt64)
  | reapSuspects (nowNs : UInt64)
  | bumpLocalIncarnation
  | evictTombstones (olderThanNs nowNs : UInt64)

def ViewOp.run (v : MembershipView) : ViewOp → MembershipView
  | apply event nowNs suspicionTimeoutNs => (v.apply event nowNs suspicionTimeoutNs).2
  | reapSuspects nowNs => (v.reapSuspects nowNs).2
  | bumpLocalIncarnation => v.bumpLocalIncarnation.2
  | evictTombstones olderThanNs nowNs => v.evictTombstones olderThanNs nowNs

end Kamino
