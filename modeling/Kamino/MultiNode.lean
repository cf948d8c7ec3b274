import Kamino.Handlers
import Kamino.Remote

/-!
# Scanning a DMap through the cluster-aware client

`DM.SCAN` is of one partition. `CrossPartitionScan` scans a DMap from the client: it opens a cursor
for each partition in turn and drains it.
-/

namespace Kamino

/-- What follows `start` in a text that starts with it. -/
def textAfter (start text : String) : Option String :=
  if start.toList.isPrefixOf text.toList then
    some (String.ofList (text.toList.drop start.toList.length))
  else none

/-- The part of `translate_error` for an `ERR `. -/
def translateErr (rest : String) : RemoteError :=
  let lower := (rest.map Char.toLower).toList
  if "not an integer".toList <:+: lower ∨ "not a number".toList <:+: lower then
    .notANumber "integer" rest
  else if "operation timed out".toList <:+: lower then .timeout
  else if "no such lock".toList <:+: lower then .noSuchLock
  else if "lock not acquired".toList <:+: lower then .lockNotAcquired
  else .server rest

def translateMoved (rest : String) : RemoteError :=
  let parts := rest.toList.span (· ≠ ' ')
  .moved ((Resp.readU32 (String.ofList parts.1)).getD 0) (String.ofList (parts.2.drop 1))

/-- The errors a reply starts with, in the order `translate_error` tries them. -/
def knownErrors : List (String × (String → RemoteError)) :=
  [("MOVED ", translateMoved), ("NOAUTH ", .auth), ("WRONGPASS ", .auth),
    ("CURSOR ", fun _ => .invalidCursor),
    ("CROSSPARTITION ", fun rest => .invalidArgument ("CROSSPARTITION " ++ rest)),
    ("ERR ", translateErr)]

def translateError (msg : String) : RemoteError :=
  (knownErrors.findSome? fun (start, error) => (textAfter start msg).map error).getD (.server msg)

/-- The error's text. -/
def Resp.ProtocolError.text : Resp.ProtocolError → String
  | .incomplete => "incomplete frame"
  | .invalidEncoding msg => "invalid encoding: " ++ msg
  | .bulkTooLarge size max =>
    "bulk too large: " ++ toString size ++ " bytes (max " ++ toString max ++ ")"
  | .arrayTooLarge len max =>
    "array too large: " ++ toString len ++ " elements (max " ++ toString max ++ ")"
  | .inlineCommandRejected msg => "inline command not allowed: " ++ msg
  | .resp3Required kind => "frame type " ++ kind ++ " requires RESP3 — upgrade via HELLO 3 first"

/-- The reply `send` returns: what the client's codec reads of the bytes the server's writes. The
connection stays at RESP2. A reply that is not written, or not to its end, leaves the call waiting
until the server closes the connection. -/
def RemoteClient.received (f64 : Resp.F64Text) (reply : Resp.Frame) :
    Except RemoteError Resp.Frame :=
  match Resp.encodeFrame f64 .resp2 reply [] with
  | (.error _, _) => .error (ConnError.closed "server closed connection").toError
  | (.ok (), bytes) =>
    match Resp.decode f64 {} bytes with
    | .ok (some (frame, _)) => .ok frame
    | .ok none => .error (ConnError.closed "server closed connection").toError
    | .error e => .error (ConnError.protocol e.text).toError

/-- Options of one `scan`. The cursors of this module ignore `count`. -/
structure ScanOptions where
  count : Option ℕ := none
  matchPattern : Option String := none

/-- A key, whose bytes are UTF-8, and its value. -/
abbrev ScanItem := Bytes × Bytes

namespace RemoteDMap

/-- The payload of `DM.SCAN`, key by key. -/
def collectPairs : List Resp.Frame → List ScanItem
  | .bulk (some k) :: .bulk (some v) :: rest =>
    if (Resp.fromUtf8 k).isSome then (k, v) :: collectPairs rest else collectPairs rest
  | _ :: _ :: rest => collectPairs rest
  | _ => []

/-- What `scan` makes of the reply. `debugFrame` is the frame as `{:?}` prints it. -/
def scanReply (debugFrame : Resp.Frame → String) (reply : Resp.Frame) :
    Except RemoteError (List ScanItem) :=
  match reply with
  | .array (some [_, .array (some items)]) => .ok (collectPairs items)
  | .array (some [_, _]) => .error (.protocol "DM.SCAN payload not an array")
  | .error e => .error (translateError e)
  | other => .error (.protocol ("DM.SCAN unexpected reply: " ++ debugFrame other))

def scanCommandOptions (options : ScanOptions) : Resp.ScanCommandOptions where
  matchPattern := options.matchPattern.map Resp.asBytes
  count := (options.count.filter (· < 2 ^ 32)).map UInt32.ofNat

end RemoteDMap

/-- `MultiNodeRemoteClient`: its seeds, the round robin's counter and the addresses it has a
connection to. -/
structure MultiNodeRemoteClient where
  seeds : List SocketAddr
  next : UInt64
  pool : List SocketAddr
  seeds_ne : seeds ≠ []

namespace MultiNodeRemoteClient

variable (c : MultiNodeRemoteClient)

/-- The seed whose turn it is. -/
def seed : SocketAddr :=
  c.seeds.get ⟨c.next.toNat % c.seeds.length, Nat.mod_lt _ (List.length_pos_iff.2 c.seeds_ne)⟩

def pickSeed : SocketAddr × MultiNodeRemoteClient := (c.seed, { c with next := c.next + 1 })

/-- `connect` gives the error of a connection attempt, if there is one. -/
def handle (connect : SocketAddr → Option RemoteError) (addr : SocketAddr) :
    Except RemoteError MultiNodeRemoteClient :=
  if addr ∈ c.pool then .ok c
  else
    match connect addr with
    | some e => .error e
    | none => .ok { c with pool := addr :: c.pool }

end MultiNodeRemoteClient

/-- What the client reaches: itself and the servers, by address. -/
structure ClientSide (P : Type) where
  client : MultiNodeRemoteClient
  nodes : SocketAddr → Resp.World P

/-- What the client does not decide: how a connection attempt ends, the readings of the node that
serves a partition's scan, and the texts of an `f64` and of `{:?}`. -/
structure ClientEnv where
  f64 : Resp.F64Text
  connect : SocketAddr → Option RemoteError
  readings : UInt32 → Readings
  debugFrame : Resp.Frame → String

/-- `MultiNodeDMap::scan`, of the DMap of this name. -/
def MultiNodeDMap.scan {P : Type} (cenv : ClientEnv) (name : String) (part : UInt32)
    (options : ScanOptions) (s : ClientSide P) :
    Except RemoteError (List ScanItem) × ClientSide P :=
  let (addr, client) := s.client.pickSeed
  match client.handle cenv.connect addr with
  | .error e => (.error e, { s with client })
  | .ok client =>
    let node := { s.nodes addr with readings := cenv.readings part }
    let (reply, node) :=
      node.dmScan part (Resp.asBytes name) (RemoteDMap.scanCommandOptions options)
    ((RemoteClient.received cenv.f64 reply).bind (RemoteDMap.scanReply cenv.debugFrame),
      { client, nodes := Function.update s.nodes addr node })

/-- `current` is what is left of the open cursor. -/
structure CrossPartitionScan where
  partitionCount : UInt32
  options : ScanOptions
  nextPartition : UInt32 := 0
  current : Option (List ScanItem) := none

namespace CrossPartitionScan

section Measure

theorem toNat_next {n count : UInt32} (h : ¬ count ≤ n) : (n + 1).toNat = n.toNat + 1 := by
  have hlt : n.toNat < count.toNat := UInt32.lt_iff_toNat_lt.1 (UInt32.not_le.1 h)
  have := count.toNat_lt
  rw [UInt32.toNat_add, UInt32.toNat_one]
  omega

def left (s : CrossPartitionScan) : ℕ := s.partitionCount.toNat - s.nextPartition.toNat

/-- The scan with the next partition's cursor. -/
def opened (s : CrossPartitionScan) (items : Option (List ScanItem)) : CrossPartitionScan :=
  { s with nextPartition := s.nextPartition + 1, current := items }

theorem left_opened {s : CrossPartitionScan} (h : ¬ s.partitionCount ≤ s.nextPartition)
    (items : Option (List ScanItem)) : (s.opened items).left < s.left := by
  have hlt : s.nextPartition.toNat < s.partitionCount.toNat :=
    UInt32.lt_iff_toNat_lt.1 (UInt32.not_le.1 h)
  simp only [left, opened, toNat_next h]
  omega

end Measure

variable {ε σ : Type} (scan : UInt32 → ScanOptions → σ → Except ε (List ScanItem) × σ)

/-- `scan` is the DMap's, in whatever state `σ` it works on. -/
def next (s : CrossPartitionScan) (st : σ) : Except ε (Option ScanItem) × CrossPartitionScan × σ :=
  match s.current with
  | some (item :: rest) => (.ok (some item), { s with current := some rest }, st)
  -- No cursor, or one that is drained and closed.
  | _ =>
    if _h : s.partitionCount ≤ s.nextPartition then (.ok none, { s with current := none }, st)
    else
      match scan s.nextPartition s.options st with
      | (.error e, st) => (.error e, s.opened none, st)
      | (.ok items, st) => next (s.opened (some items)) st
termination_by s.left
decreasing_by exact left_opened _h _

def buffered (s : CrossPartitionScan) : ℕ := (s.current.getD []).length

variable {scan} in
theorem next_lt {s s' : CrossPartitionScan} {st st' : σ} {item : ScanItem}
    (h : next scan s st = (.ok (some item), s', st')) :
    Prod.Lex (· < ·) (· < ·) (s'.left, s'.buffered) (s.left, s.buffered) := by
  fun_induction next scan s st with
  | case1 s st item' rest hcur =>
    cases h
    refine .right _ ?_
    simp [buffered, hcur]
  | case2 s st hdone => cases h
  | case3 s st hdone e st₁ hscan => cases h
  | case4 s st hdone items st₁ hscan hcur ih =>
    refine .left _ _ ?_
    have hopened := left_opened hdone (some items)
    rcases Prod.lex_iff.1 (ih h) with hlt | ⟨heq, -⟩
    · exact hlt.trans hopened
    · exact heq.trans_lt hopened

/-- A caller that asks for the next item until there is none. -/
def drain (s : CrossPartitionScan) (st : σ) : Except ε (List ScanItem) × σ :=
  match _h : next scan s st with
  | (.error e, _, st) => (.error e, st)
  | (.ok none, _, st) => (.ok [], st)
  | (.ok (some item), s', st) =>
    match drain s' st with
    | (.error e, st) => (.error e, st)
    | (.ok items, st) => (.ok (item :: items), st)
termination_by (s.left, s.buffered)
decreasing_by exact next_lt _h

end CrossPartitionScan

end Kamino
