import Kamino.Calls
import Kamino.Lib.Prog

/-!
# The operations on a key, step by step

What an `EmbeddedDMap` does for one key, as programs whose requests are its atomic steps: the calls
on the fragment, each of which holds the fragment's lock by itself, and the updates of the stamp
counter.
-/

namespace Kamino

open ExceptT

inductive FragmentReq where
  | get (hkey : UInt64)
  | put (hkey : UInt64) (entry : Entry)
  | delete (hkey : UInt64)
  /-- `next_lww_timestamp`, at its reading of the clock. -/
  | nextStamp (now : Int64)
  /-- `observe_lww_timestamp`. -/
  | observeStamp (ts : Int64)

@[reducible] def FragmentReq.Answer : FragmentReq → Type
  | get _ => Except StorageError (Option Entry)
  | put _ _ => Except StorageError Unit
  | delete _ => Except StorageError Bool
  | nextStamp _ => Int64
  | observeStamp _ => Unit

/-- An `async fn` of the DMap that returns a `Result`. -/
abbrev KeyTask (α : Type) := ExceptT ClientError (Prog FragmentReq FragmentReq.Answer) α

namespace KeyTask

variable {α : Type}

def fragmentGet (hkey : UInt64) : KeyTask (Option Entry) :=
  mk (.ask (.get hkey) fun r => .ret (r.mapError .storage))

def fragmentPut (hkey : UInt64) (entry : Entry) : KeyTask Unit :=
  mk (.ask (.put hkey entry) fun r => .ret (r.mapError .storage))

def fragmentDelete (hkey : UInt64) : KeyTask Bool :=
  mk (.ask (.delete hkey) fun r => .ret (r.mapError .storage))

/-- The stamp of a put: the one given, or the next one. -/
def stamp (given : Option Int64) (nowMicros : UInt64) : KeyTask Int64 :=
  match given with
  | none => mk (.ask (.nextStamp (microsToNanosI64 nowMicros)) fun ts => .ret (.ok ts))
  | some ts => mk (.ask (.observeStamp ts) fun _ => .ret (.ok ts))

/-- Only a panic gets past a call whose result is not looked at. -/
def unheeded : Except ClientError α → Except ClientError Unit
  | .error (.storage (.panicked msg)) => .error (.storage (.panicked msg))
  | _ => .ok ()

def ignore (task : KeyTask α) : KeyTask Unit := mk (task.run >>= fun r => .ret (unheeded r))

def ofExcept (r : Except ClientError α) : KeyTask α := mk (.ret r)

def exec {σ : Type} (h : Prog.Handler FragmentReq FragmentReq.Answer σ) (s : σ)
    (task : KeyTask α) : Except ClientError α × σ :=
  task.run.run h s

section Operations

variable (env : Env) (ttl : Option ℕ) (key : Bytes) (clk : ℕ → UInt64)

def fetchLive (nowMicros : UInt64) : KeyTask (Option Entry) := do
  match ← fragmentGet (env.hash64 key) with
  | none => return none
  | some entry =>
    if entry.isExpired (microsToNanosI64 nowMicros) then
      ignore (fragmentDelete (env.hash64 key))
      return none
    else return some entry

def putInternal (value : Bytes) (o : PutOptions) : KeyTask Unit := do
  ofExcept o.validate
  let existingLive ← fetchLive env key (clk 3)
  if o.nx && existingLive.isSome then throw .keyAlreadyExists
  else if o.xx && existingLive.isNone then throw .keyNotExists
  else
    let ttlNanos ← ofExcept (o.resolveTtlNanos (clk 1) ttl)
    let timestamp ← stamp o.timestamp (clk 2)
    fragmentPut (env.hash64 key)
      { key, ttlNanos, timestampNanos := timestamp,
        lastAccessNanos := microsToNanosI64 (clk 0), value }

def touchLastAccess (entry : Entry) (nowMicros : UInt64) : KeyTask Unit :=
  ignore (fragmentPut (env.hash64 key)
    { entry with lastAccessNanos := microsToNanosI64 nowMicros })

def get : KeyTask GetResponse := do
  match ← fetchLive env key (clk 0) with
  | none => throw .keyNotFound
  | some entry =>
    touchLastAccess env key entry (clk 2)
    return DMap.toGetResponse entry (clk 1)

def delete : KeyTask Bool := fragmentDelete (env.hash64 key)

def readModifyWrite (change : Option Entry → Except ClientError (Bytes × α)) : KeyTask α := do
  let existing ← fetchLive env key (clk 4)
  let (value, answer) ← ofExcept (change existing)
  putInternal env ttl key clk value {}
  return answer

def incr (delta : Int64) : KeyTask Int64 := readModifyWrite env ttl key clk (DMap.incremented delta)

/-- `wrapping_neg` is the negation of an `i64`. -/
def decr (delta : Int64) : KeyTask Int64 := incr env ttl key clk (-delta)

def getPut (value : Bytes) : KeyTask (Option GetResponse) :=
  readModifyWrite env ttl key clk (DMap.exchanged value (clk 5))

def expire (duration : ℕ) : KeyTask Unit := do
  match ← fetchLive env key (clk 0) with
  | none => throw .keyNotFound
  | some entry =>
    let now := microsToNanosI64 (clk 1)
    fragmentPut (env.hash64 key)
      { entry with
        ttlNanos := if duration = 0 then 0 else satAdd now (i64OrMax duration)
        lastAccessNanos := now }

end Operations

end KeyTask

inductive KeyOp where
  | put (value : Bytes) (options : PutOptions)
  | get
  | delete
  | incr (delta : Int64)
  | decr (delta : Int64)
  | getPut (value : Bytes)
  /-- A duration in nanoseconds. -/
  | expire (duration : ℕ)

deriving instance DecidableEq for GetResponse

inductive KeyAnswer where
  | done
  | got (response : GetResponse)
  | deleted (found : Bool)
  | number (n : Int64)
  | previous (response : Option GetResponse)
  deriving DecidableEq

def KeyOp.task (env : Env) (ttl : Option ℕ) (key : Bytes) (clk : ℕ → UInt64) :
    KeyOp → KeyTask KeyAnswer
  | put value o => (fun _ => .done) <$> KeyTask.putInternal env ttl key clk value o
  | get => .got <$> KeyTask.get env key clk
  | delete => .deleted <$> KeyTask.delete env key
  | incr delta => .number <$> KeyTask.incr env ttl key clk delta
  | decr delta => .number <$> KeyTask.decr env ttl key clk delta
  | getPut value => .previous <$> KeyTask.getPut env ttl key clk value
  | expire duration => (fun _ => .done) <$> KeyTask.expire env key clk duration

namespace DMap

def handle : Prog.Handler FragmentReq FragmentReq.Answer DMap
  | .get hkey, d => (.ok (d.fragment.lookup hkey), d)
  | .put hkey entry, d =>
    match d.fragment.put hkey entry with
    | .error e => (.error e, d)
    | .ok fragment => (.ok (), { d with fragment })
  | .delete hkey, d =>
    let (deleted, fragment) := d.fragment.delete hkey
    (.ok deleted, { d with fragment })
  | .nextStamp now, d =>
    let ts := nextLwwTimestamp d.monotonicTs now
    (ts, { d with monotonicTs := ts })
  | .observeStamp ts, d => ((), { d with monotonicTs := max d.monotonicTs ts })

end DMap

end Kamino
