import Kamino.Entry

/-!
# The environment, put options, clock readings and the client's errors

A clock reading is a `u64` of microseconds, and becomes saturating signed nanoseconds. A
`Duration` is its number of nanoseconds.
-/

namespace Kamino

/-- What a node takes from outside: the hasher, the sample `choose_multiple` draws at each round of
an eviction, and how `{:?}` writes a string and a byte string. -/
structure Env where
  hash64 : Bytes → UInt64
  chooseMultiple : ℕ → List (UInt64 × Int64) → ℕ → List (UInt64 × Int64)
  debugStr : String → String
  debugBytes : Bytes → String

/-- The client's errors that the modelled calls return. -/
inductive ClientError where
  | keyNotFound
  | keyAlreadyExists
  | keyNotExists
  | lockNotAcquired
  | noSuchLock
  | timeout
  | serialization (msg : String)
  | storage (e : StorageError)
  | invalidArgument (msg : String)
  | notANumber (expected got : String)
  deriving DecidableEq, Repr

section Saturating

/-- `i64::saturating_add`. -/
def satAdd (a b : Int64) : Int64 := Int64.ofIntClamp (a.toInt + b.toInt)

/-- `i64::saturating_mul`. -/
def satMul (a b : Int64) : Int64 := Int64.ofIntClamp (a.toInt * b.toInt)

/-- `u64::saturating_mul`. -/
def satMulU64 (a b : UInt64) : UInt64 := UInt64.ofNat (min (a.toNat * b.toNat) (2 ^ 64 - 1))

/-- `i64::try_from(n).unwrap_or(i64::MAX)`, on any unsigned `n`. -/
def i64OrMax (n : ℕ) : Int64 := if n < 2 ^ 63 then Int64.ofNat n else Int64.maxValue

end Saturating

def microsToNanosI64 (micros : UInt64) : Int64 :=
  if micros.toNat < 2 ^ 63 then satMul (Int64.ofNat micros.toNat) 1000 else Int64.maxValue

structure PutOptions where
  ex : Option UInt64 := none
  px : Option UInt64 := none
  exat : Option UInt64 := none
  pxat : Option UInt64 := none
  nx : Bool := false
  xx : Bool := false
  timestamp : Option Int64 := none
  deriving DecidableEq

namespace PutOptions

def validate (o : PutOptions) : Except ClientError Unit :=
  if o.nx && o.xx then .error (.invalidArgument "nx and xx are mutually exclusive")
  else
    let count := [o.ex.isSome, o.px.isSome, o.exat.isSome, o.pxat.isSome].countP id
    if count > 1 then .error (.invalidArgument "at most one of ex/px/exat/pxat may be set")
    else .ok ()

def resolveTtlNanos (o : PutOptions) (nowMicros : UInt64) (defaultTtl : Option ℕ) :
    Except ClientError Int64 :=
  match o.validate with
  | .error e => .error e
  | .ok () =>
    let nowNanos := microsToNanosI64 nowMicros
    match o.ex, o.px, o.exat, o.pxat, defaultTtl with
    | some s, _, _, _, _ => .ok (satAdd nowNanos (i64OrMax (satMulU64 s 1000000000).toNat))
    | _, some ms, _, _, _ => .ok (satAdd nowNanos (i64OrMax (satMulU64 ms 1000000).toNat))
    | _, _, some s, _, _ => .ok (i64OrMax (satMulU64 s 1000000000).toNat)
    | _, _, _, some ms, _ => .ok (i64OrMax (satMulU64 ms 1000000).toNat)
    | _, _, _, _, some d => .ok (if d = 0 then 0 else satAdd nowNanos (i64OrMax d))
    | _, _, _, _, none => .ok 0

end PutOptions

inductive EvictionPolicy where
  | none
  | lru
  deriving DecidableEq

structure DMapOptions where
  ttl : Option ℕ := none
  maxKeys : Option ℕ := none
  maxInuse : Option ℕ := none
  lruSamples : Option ℕ := none
  evictionPolicy : Option EvictionPolicy := none

/-- The stamp `next_lww_timestamp` claims, from the counter it finds. -/
def nextLwwTimestamp (prev now : Int64) : Int64 := max (satAdd prev 1) now

/-- `put_internal`'s entry and the counter it leaves, from its three readings of the clock: at the
start, for the TTL and for the stamp. -/
def putEntry (ttl : Option ℕ) (key value : Bytes) (o : PutOptions) (clk : ℕ → UInt64)
    (monotonicTs : Int64) : Except ClientError Entry × Int64 :=
  match o.resolveTtlNanos (clk 1) ttl with
  | .error e => (.error e, monotonicTs)
  | .ok ttlNanos =>
    let (timestamp, monotonicTs) := match o.timestamp with
      | none =>
        let ts := nextLwwTimestamp monotonicTs (microsToNanosI64 (clk 2))
        (ts, ts)
      | some ts => (ts, max monotonicTs ts)
    (.ok { key, ttlNanos, timestampNanos := timestamp,
           lastAccessNanos := microsToNanosI64 (clk 0), value }, monotonicTs)

end Kamino
