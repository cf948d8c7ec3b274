import Kamino.Server
import Mathlib.Data.List.Sort

/-!
# Moving fragments

The balancer migrates the partitions whose primary is another node: it exports the partition's live
entries, sends them with `INTERNAL.NODE.MOVEFRAGMENT` and, once the primary has answered `+OK`,
clears the partition.
-/

namespace Kamino

open Function LittleEndian

section Payload

def fragmentPayloadTagV1 : UInt8 := 0x01

/-- The records, one after the other. An entry that does not fit ends the task in a panic. -/
def encodeEntries : List Entry → Bytes → Except StorageError Bytes
  | [], buf => .ok buf
  | e :: es, buf =>
    match e.encodeInto buf with
    | .error _ => .error (.panicked "Entry::encode_into never fails on validated entries")
    | .ok buf => encodeEntries es buf

def encodeFragmentPayload (partitionId : UInt32) (entries : List Entry) :
    Except StorageError Bytes :=
  -- `u32::try_from(entries.len()).unwrap_or(u32::MAX)`.
  let count := min entries.length (2 ^ 32 - 1)
  encodeEntries entries (fragmentPayloadTagV1 :: (toLe 4 partitionId.toNat ++ toLe 4 count))

def decodeEntries : ℕ → Bytes → Except ClientError (List Entry)
  | 0, _ => .ok []
  | count + 1, buf =>
    match Entry.decode buf with
    | .error e => .error (.invalidArgument ("fragment entry decode failed: " ++ e.text))
    | .ok (entry, used) => (decodeEntries count (buf.drop used)).map fun es => entry :: es

def decodeFragmentPayload (buf : Bytes) : Except ClientError (UInt32 × List Entry) :=
  match buf with
  | [] => .error (.invalidArgument "empty fragment payload")
  | tag :: _ =>
    if tag ≠ fragmentPayloadTagV1 then
      .error (.invalidArgument ("unknown fragment payload tag " ++ toString tag.toNat))
    else if buf.length < 9 then .error (.invalidArgument "fragment payload header truncated")
    else
      let partitionId := UInt32.ofNat (ofLe ((buf.drop 1).take 4))
      let count := ofLe ((buf.drop 5).take 4)
      (decodeEntries count (buf.drop 9)).map fun entries => (partitionId, entries)

end Payload

inductive PartitionType where
  | primary
  | backup
  deriving DecidableEq

/-- `DEFAULT_MAX_BULK_SIZE`, which a connection's codec holds every argument to. -/
def defaultMaxBulkSize : ℕ := 512 * 1024 * 1024

def Routing.ownsPartition (r : Routing) (part : UInt32) : Bool :=
  match r.snapshot with
  | none => true
  | some t => (t.primary part).any fun m => m.id = r.localId

namespace Fragment

variable (env : Env) (partitionCount : UInt32) (dmap : Bytes) (part : UInt32)

/-- The entries of a partition an export sends. -/
def exported (f : Fragment) (now : Int64) : List Entry :=
  (f.entries.map fun p => p.2).filter fun e =>
    !e.isExpired now && decide (partitionFor env dmap e.key partitionCount = part)

def victims (f : Fragment) : List UInt64 :=
  (f.entries.filter fun p => partitionFor env dmap p.2.key partitionCount = part).map fun p => p.1

def deleteAll : Fragment → List UInt64 → ℕ → ℕ × Fragment
  | f, [], deleted => (deleted, f)
  | f, hk :: hks, deleted =>
    match f.delete hk with
    | (true, f) => deleteAll f hks (deleted + 1)
    | (false, f) => deleteAll f hks deleted

end Fragment

namespace DMap

def importEntries (env : Env) : DMap → List Entry → ℕ → Except ClientError ℕ × DMap
  | d, [], applied => (.ok applied, d)
  | d, entry :: entries, applied =>
    match d.fragment.putLww (env.hash64 entry.key) entry with
    | .error e => (.error (.storage e), d)
    | .ok (true, fragment) =>
      let d := { d with fragment, monotonicTs := max d.monotonicTs entry.timestampNanos }
      importEntries env d entries (applied + 1)
    | .ok (false, _) => importEntries env d entries applied

end DMap

namespace Node

variable (env : Env) (partitionCount : UInt32) (n : Node)

/-- The partitions of a DMap that its entries, expired or not, fall into. -/
def partitionsOf (name : Bytes) : List UInt32 :=
  match n.dmaps.lookup name with
  | none => []
  | some d =>
    let seen := d.fragment.entries.map fun p => partitionFor env name p.2.key partitionCount
    seen.dedup.insertionSort (· ≤ ·)

def localPartitions : List (Bytes × UInt32) :=
  (n.dmaps.keys.insertionSort (· ≤ ·)).flatMap fun name =>
    (n.partitionsOf env partitionCount name).map fun id => (name, id)

def exportPartition (dmap : Bytes) (part : UInt32) (nowMicros : UInt64) :
    Except StorageError Bytes :=
  match n.dmaps.lookup dmap with
  | none => encodeFragmentPayload part []
  | some d =>
    encodeFragmentPayload part
      (d.fragment.exported env partitionCount dmap part (microsToNanosI64 nowMicros))

def importPartition (dmap : Bytes) (part : UInt32) (payload : Bytes) :
    Except ClientError ℕ × Node :=
  match decodeFragmentPayload payload with
  | .error e => (.error e, n)
  | .ok (embedded, entries) =>
    if embedded ≠ part then
      (.error (.invalidArgument ("fragment payload partition_id " ++ toString embedded ++
        " != verb partition_id " ++ toString part)), n)
    else
      let (d, n) := n.getOrCreate dmap {}
      let (applied, d) := d.importEntries env entries 0
      (applied, n.setDMap dmap d)

def clearPartition (dmap : Bytes) (part : UInt32) : ℕ × Node :=
  match n.dmaps.lookup dmap with
  | none => (0, n)
  | some d =>
    let victims := d.fragment.victims env partitionCount dmap part
    let (deleted, fragment) := d.fragment.deleteAll victims 0
    (deleted, n.setDMap dmap { d with fragment })

def moveFragment (routing : Option Routing) (part : UInt32) (type : PartitionType)
    (dmap payload : Bytes) : Frame × Node :=
  if type ≠ .primary then
    (.error "ERR MOVEFRAGMENT backup-type migrations are not supported in this version", n)
  else if routing.any fun r => !r.ownsPartition part then
    (.error ("MIGRATION not_owner partition " ++ toString part), n)
  else
    match keyStr dmap with
    | .error f => (f, n)
    | .ok () =>
      match n.importPartition env dmap part payload with
      | (.ok _, n) => (.ok, n)
      | (.error e, n) => (mapClientError e, n)

/-- `MOVEFRAGMENT` as it comes off a connection, whose codec refuses an argument that is too long
and reads the arguments in order. -/
def receiveFragment (routing : Option Routing) (part : UInt32) (type : PartitionType)
    (dmap payload : Bytes) : Frame × Node :=
  let tooLarge (arg : Bytes) : Frame :=
    .error ("ERR protocol: bulk too large: " ++ toString arg.length ++ " bytes (max " ++
      toString defaultMaxBulkSize ++ ")")
  if dmap.length > defaultMaxBulkSize then (tooLarge dmap, n)
  else if payload.length > defaultMaxBulkSize then (tooLarge payload, n)
  else n.moveFragment env routing part type dmap payload

end Node

/-- What ships a fragment to a peer, with the state it does so in. -/
structure MigrationTransport (τ : Type*) where
  sendFragment : τ → SocketAddr → UInt32 → PartitionType → Bytes → Bytes →
    Except ClusterError Unit × τ

section Forwarder

variable (env : Env)

/-- Only `+OK` lets the sender clear what it sent. -/
def fragmentReply (peer : SocketAddr) : Except ClusterError Frame → Except ClusterError Unit
  | .ok (.simpleString s) =>
    if s = "OK" then .ok ()
    else .error (.codec ("unexpected MOVEFRAGMENT reply from " ++ peer ++ ": " ++
      (Frame.simpleString s).debug env))
  | .ok (.error e) => .error (.serverGone ("MOVEFRAGMENT rejected by " ++ peer ++ ": " ++ e))
  | .ok other =>
    .error (.codec ("unexpected MOVEFRAGMENT reply from " ++ peer ++ ": " ++ other.debug env))
  | .error e => .error e

/-- The forwarder as a transport to the nodes of a cluster, each with its own routing. -/
def forwarderTransport (routing : SocketAddr → Option Routing) (delivery : Delivery) :
    MigrationTransport Cluster where
  sendFragment c peer part type dmap payload :=
    let (reply, n) := (c peer).receiveFragment env (routing peer) part type dmap payload
    match delivery with
    | .replied => (fragmentReply env peer (.ok reply), update c peer n)
    | .failed true e => (fragmentReply env peer (.error e), update c peer n)
    | .failed false e => (fragmentReply env peer (.error e), c)

end Forwarder

structure MigrationPlan where
  dmap : Bytes
  partitionId : UInt32
  peer : SocketAddr
  deriving DecidableEq

/-- How a migration ends without success. -/
inductive MigrationError where
  | cluster (e : ClusterError)
  | panicked (e : StorageError)

section Balancer

variable {τ : Type*} (env : Env) (partitionCount : UInt32) (transport : MigrationTransport τ)

def migrateOne (n : Node) (t : τ) (plan : MigrationPlan) (nowMicros : UInt64) :
    Except MigrationError Unit × Node × τ :=
  match n.exportPartition env partitionCount plan.dmap plan.partitionId nowMicros with
  | .error e => (.error (.panicked e), n, t)
  | .ok payload =>
    -- A header and no entry.
    if payload.length ≤ 9 then (.ok (), n, t)
    else
      match transport.sendFragment t plan.peer plan.partitionId .primary plan.dmap payload with
      | (.error e, t) => (.error (.cluster e), n, t)
      | (.ok (), t) =>
        let (_, n) := n.clearPartition env partitionCount plan.dmap plan.partitionId
        (.ok (), n, t)

/-- The plan for a partition the node holds entries of; none where the table has no primary for it
or the primary is the node. -/
def planFor (localId : UInt64) (table : RoutingTable) (held : Bytes × UInt32) :
    Option MigrationPlan :=
  match table.primaryFor held.2 with
  | none => none
  | some primary => if primary.id = localId then none else some ⟨held.1, held.2, primary.addr⟩

/-- The plans in turn, each with the reading of the clock its export makes. A failed one is left
for the next tick; a panic ends the task. -/
def migrateAll (clk : MigrationPlan → UInt64) : Node → τ → List MigrationPlan → Node × τ
  | n, t, [] => (n, t)
  | n, t, plan :: plans =>
    match migrateOne env partitionCount transport n t plan (clk plan) with
    | (.error (.panicked _), n, t) => (n, t)
    | (.error (.cluster _), n, t) | (.ok (), n, t) => migrateAll clk n t plans

def runTick (localId : UInt64) (snapshot : Option RoutingTable) (n : Node) (t : τ)
    (clk : MigrationPlan → UInt64) : Node × τ :=
  match snapshot with
  | none => (n, t)
  | some table =>
    let planned := (n.localPartitions env partitionCount).filterMap (planFor localId table)
    migrateAll env partitionCount transport clk n t planned

end Balancer

end Kamino
