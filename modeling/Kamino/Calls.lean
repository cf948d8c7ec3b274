import Kamino.Migration

/-!
# Reads and read-modify-writes, and all a node is asked to do

`incr` and `get_put` read under the key's guard and then put with the default options, so their
stamp is the one the DMap's own counter claims: the server's `TimestampSource` takes no part in it.
-/

namespace Kamino

/-- `i64::saturating_sub`. -/
def satSub (a b : Int64) : Int64 := Int64.ofIntClamp (a.toInt - b.toInt)

section Integers

/-- `i64::to_string`, as bytes. -/
def i64Text (x : Int64) : Bytes :=
  let digits := (Nat.toDigits 10 x.toInt.natAbs).map fun c => UInt8.ofNat c.toNat
  if x.toInt < 0 then 45 :: digits else digits

/-- The digits of a number after its sign, on top of what has been read. -/
def parseDigits (negative : Bool) : ℤ → Bytes → Except String ℤ
  | n, [] => .ok n
  | n, b :: bs =>
    if 48 ≤ b && b ≤ 57 then
      let d : ℤ := (b - 48).toNat
      let n := if negative then 10 * n - d else 10 * n + d
      if n < -2 ^ 63 then .error "number too small to fit in target type"
      else if 2 ^ 63 ≤ n then .error "number too large to fit in target type"
      else parseDigits negative n bs
    else .error "invalid digit found in string"

/-- `str::parse::<i64>`, with the text of its error. -/
def parseInteger : Bytes → Except String Int64
  | [] => .error "cannot parse integer from empty string"
  | [43] | [45] => .error "invalid digit found in string"
  | 43 :: bs => (parseDigits false 0 bs).map Int64.ofInt
  | 45 :: bs => (parseDigits true 0 bs).map Int64.ofInt
  | bs => (parseDigits false 0 bs).map Int64.ofInt

end Integers

structure GetResponse where
  value : Bytes
  timestamp : Int64
  ttl : Option ℕ

namespace DMap

variable (env : Env) (d : DMap)

def toGetResponse (e : Entry) (nowMicros : UInt64) : GetResponse where
  value := e.value
  timestamp := e.timestampNanos
  ttl :=
    if e.ttlNanos = 0 then none
    else
      let remaining := satSub e.ttlNanos (microsToNanosI64 nowMicros)
      if remaining ≤ 0 then some 0 else some remaining.toInt.toNat

def touchLastAccess (key : Bytes) (entry : Entry) (nowMicros : UInt64) : DMap :=
  match d.fragment.put (env.hash64 key)
      { entry with lastAccessNanos := microsToNanosI64 nowMicros } with
  | .error _ => d
  | .ok fragment => { d with fragment }

/-- The readings are `fetch_live`'s, the response's and the access time. -/
def get (key : Bytes) (clk : ℕ → UInt64) : Except ClientError GetResponse × DMap :=
  match d.fetchLive (env.hash64 key) (clk 0) with
  | (none, d) => (.error .keyNotFound, d)
  | (some entry, d) => (.ok (toGetResponse entry (clk 1)), d.touchLastAccess env key entry (clk 2))

def currentNumber : Option Entry → Except ClientError Int64
  | none => .ok 0
  | some e =>
    match utf8Error e.value 0 with
    | some err => .error (.serialization err)
    | none =>
      match parseInteger e.value with
      | .error err => .error (.notANumber "integer" err)
      | .ok n => .ok n

/-- What `incr`, `incr_by_float` and `get_put` share: a read of the key's live entry, and a `put`
with the default options of what `change` makes of it. The readings are `put`'s four and, after
them, the first `fetch_live`'s. `guard` says whether the key's guard was acquired in time. -/
def readModifyWrite {α : Type} (guard : Bool) (key : Bytes) (clk : ℕ → UInt64)
    (change : Option Entry → Except ClientError (Bytes × α)) : Except ClientError α × DMap :=
  if !guard then (.error .timeout, d)
  else
    let (existing, d) := d.fetchLive (env.hash64 key) (clk 4)
    match change existing with
    | .error e => (.error e, d)
    | .ok (value, answer) =>
      match d.put env key value {} clk with
      | (.error e, d) => (.error e, d)
      | (.ok (), d) => (.ok answer, d)

/-- What `incr` puts and what it answers. -/
def incremented (delta : Int64) (existing : Option Entry) : Except ClientError (Bytes × Int64) :=
  match currentNumber existing with
  | .error e => .error e
  | .ok current =>
    let new := satAdd current delta
    .ok (i64Text new, new)

def incr (guard : Bool) (key : Bytes) (delta : Int64) (clk : ℕ → UInt64) :
    Except ClientError Int64 × DMap :=
  d.readModifyWrite env guard key clk (incremented delta)

def decr (guard : Bool) (key : Bytes) (delta : Int64) (clk : ℕ → UInt64) :
    Except ClientError Int64 × DMap :=
  d.incr env guard key (-delta) clk

/-- What `get_put` puts and what it answers. -/
def exchanged (value : Bytes) (nowMicros : UInt64) (existing : Option Entry) :
    Except ClientError (Bytes × Option GetResponse) :=
  .ok (value, existing.map fun e => toGetResponse e nowMicros)

def getPut (guard : Bool) (key value : Bytes) (clk : ℕ → UInt64) :
    Except ClientError (Option GetResponse) × DMap :=
  d.readModifyWrite env guard key clk (exchanged value (clk 5))

/-- The readings are `fetch_live`'s and the one the new expiry is reckoned from; `duration` is in
nanoseconds. -/
def expire (guard : Bool) (key : Bytes) (duration : ℕ) (clk : ℕ → UInt64) :
    Except ClientError Unit × DMap :=
  if !guard then (.error .timeout, d)
  else
    match d.fetchLive (env.hash64 key) (clk 0) with
    | (none, d) => (.error .keyNotFound, d)
    | (some entry, d) =>
      let now := microsToNanosI64 (clk 1)
      let newTtl := if duration = 0 then 0 else satAdd now (i64OrMax duration)
      match d.fragment.put (env.hash64 key)
          { entry with ttlNanos := newTtl, lastAccessNanos := now } with
      | .error e => (.error (.storage e), d)
      | .ok fragment => (.ok (), { d with fragment })

end DMap

namespace Node

variable (env : Env) (n : Node)

/-- A handler that opens the key's DMap and answers with what one call on it returns. -/
def onDMap (dmap key : Bytes) (call : DMap → Frame × DMap) : Frame × Node :=
  match n.openKey dmap key with
  | (.error f, n) => (f, n)
  | (.ok d, n) =>
    let (reply, d) := call d
    (reply, n.setDMap dmap d)

def dmIncr (guard : Bool) (dmap key : Bytes) (delta : Int64) (clk : ℕ → UInt64) : Frame × Node :=
  n.onDMap dmap key fun d =>
    match d.incr env guard key delta clk with
    | (.ok v, d) => (.integer v.toInt, d)
    | (.error e, d) => (mapClientError e, d)

def dmDecr (guard : Bool) (dmap key : Bytes) (delta : Int64) (clk : ℕ → UInt64) : Frame × Node :=
  n.onDMap dmap key fun d =>
    match d.decr env guard key delta clk with
    | (.ok v, d) => (.integer v.toInt, d)
    | (.error e, d) => (mapClientError e, d)

/-- `dm_get` for a peer. -/
def dmGetPeer (dmap key : Bytes) (clk : ℕ → UInt64) : Frame × Node :=
  n.onDMap dmap key fun d =>
    match d.get env key clk with
    | (.ok resp, d) => (.bulk (some resp.value), d)
    | (.error .keyNotFound, d) => (.bulk none, d)
    | (.error e, d) => (mapClientError e, d)

def dmGetPut (guard : Bool) (dmap key value : Bytes) (clk : ℕ → UInt64) : Frame × Node :=
  n.onDMap dmap key fun d =>
    match d.getPut env guard key value clk with
    | (.ok prev, d) => (.bulk (prev.map GetResponse.value), d)
    | (.error e, d) => (mapClientError e, d)

end Node

inductive NodeOp where
  /-- A client's `DM.PUT`, up to its commit here. -/
  | put (rd : Readings) (dmap key value : Bytes) (options : PutOptions)
  /-- A peer's `DM.PUT`. -/
  | putPeer (clk : ℕ → UInt64) (dmap key value : Bytes) (options : PutOptions)
  | incr (guard : Bool) (clk : ℕ → UInt64) (dmap key : Bytes) (delta : Int64)
  | decr (guard : Bool) (clk : ℕ → UInt64) (dmap key : Bytes) (delta : Int64)
  | getPut (guard : Bool) (clk : ℕ → UInt64) (dmap key value : Bytes)
  | get (clk : ℕ → UInt64) (dmap key : Bytes)
  | del (dmap : Bytes) (keys : List Bytes)
  | moveFragment (routing : Option Routing) (part : UInt32) (type : PartitionType)
      (dmap payload : Bytes)

def Node.apply (env : Env) (n : Node) : NodeOp → Node
  | .put rd dmap key value o => (n.commitPut env rd dmap key value o).2
  | .putPeer clk dmap key value o => (n.dmPutPeer env clk dmap key value o).2
  | .incr guard clk dmap key delta => (n.dmIncr env guard dmap key delta clk).2
  | .decr guard clk dmap key delta => (n.dmDecr env guard dmap key delta clk).2
  | .getPut guard clk dmap key value => (n.dmGetPut env guard dmap key value clk).2
  | .get clk dmap key => (n.dmGetPeer env dmap key clk).2
  | .del dmap keys => (n.dmDelLocal env dmap keys).2
  | .moveFragment routing part type dmap payload =>
    (n.receiveFragment env routing part type dmap payload).2

end Kamino
