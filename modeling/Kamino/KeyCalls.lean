import Kamino.Locker
import Kamino.Options

/-!
# Concurrent calls on one key

The calls an `EmbeddedDMap` runs on one key, as a machine whose steps are the atomic ones: a
fragment call, a locker step, a claim of a stamp.
-/

namespace Kamino

open Function

inductive Call where
  | get
  | put (value : Bytes) (options : PutOptions)
  | delete
  /-- A lease of `Duration` nanoseconds, if any. -/
  | acquireLock (token : Bytes) (lease : Option ℕ)
  | unlock (token : Bytes)
  | lease (token : Bytes) (duration : ℕ)
  deriving DecidableEq

inductive Stage where
  | locking
  | ready
  /-- `acquire_lock` found the key taken, and sleeps or gives up. -/
  | refused
  /-- `fetch_live` read an entry expired at its reading of the clock, and is to delete it. -/
  | expired (entry : Entry) (now : Int64)
  /-- The call read what it needed and is to make the entry it writes. -/
  | checked (existing : Option Entry)
  | writing (entry : Entry)
  | deleting
  | evicting
  | leaving
  deriving DecidableEq

inductive KeyEvent where
  | start (t : ℕ) (call : Call)
  | locker (e : LockerEvent)
  | read (t : ℕ) (micros : UInt64)
  | lazyDelete (t : ℕ)
  | retry (t : ℕ)
  | giveUp (t : ℕ)
  | prepare (t : ℕ) (clk : ℕ → UInt64)
  | write (t : ℕ)
  | remove (t : ℕ)
  | evict (t : ℕ)
  | finish (t : ℕ)

def LockerEvent.task : LockerEvent → ℕ
  | lookup t _ => t
  | count t | lock t | timeout t | cancel t | sub t => t
  | reapLock t | reapLoad t | reapRemove t | release t => t

def KeyEvent.task : KeyEvent → ℕ
  | start t _ | read t _ | lazyDelete t | retry t | giveUp t => t
  | prepare t _ | write t | remove t | evict t | finish t => t
  | locker e => e.task

structure KeyConfig where
  name : String
  key : Bytes
  options : DMapOptions

/-- A token `acquire_lock` has written and no `unlock` has deleted, and whether `acquire_lock` has
returned it. -/
structure Holder where
  task : ℕ
  token : Bytes
  returned : Bool
  deriving DecidableEq

/-- The holder once `t`'s call has returned. -/
def Holder.returnTo (t : ℕ) (h : Holder) : Holder :=
  if h.task = t then { h with returned := true } else h

structure KeyState where
  /-- The key's entry, in a fragment that is a map. -/
  cell : Option Entry
  monotonicTs : Int64
  locker : Locker
  calls : ℕ → Option (Call × Stage)
  held : List Holder

namespace Call

def lockOptions (lease : Option ℕ) : PutOptions :=
  { nx := true
    px := lease.map fun l =>
      let millis := l / 1000000
      if millis < 2 ^ 64 then UInt64.ofNat millis else 18446744073709551615 }

/-- The stage a call starts at; none where it returns at once. -/
def start : Call → Option Stage
  | get => some .ready
  | put _ o =>
    match o.validate with
    | .ok () => some .ready
    | .error _ => none
  | delete => some .deleting
  | acquireLock _ _ => some .ready
  | unlock _ | lease _ _ => some .locking

/-- The stage `fetch_live`'s answer takes a call to; none where the call returns. -/
def found : Call → Option Entry → Option Stage
  | get, none => none
  | get, some e => some (.checked (some e))
  | put _ o, existing =>
    if o.nx && existing.isSome then none
    else if o.xx && existing.isNone then none
    else some (.checked existing)
  | delete, _ => none
  | acquireLock _ _, none => some (.checked none)
  | acquireLock _ _, some _ => some .refused
  | unlock _, none => some .leaving
  | unlock token, some e => if e.value ≠ token then some .leaving else some .deleting
  | lease _ _, none => some .leaving
  | lease token _, some e =>
    if e.value ≠ token then some .leaving else some (.checked (some e))

/-- The stage after a write; none where the call returns. -/
def written : Call → Option Stage
  | put _ _ | acquireLock _ _ => some .evicting
  | lease _ _ => some .leaving
  | _ => none

/-- The stage after a write the engine refused. -/
def writeFailed : Call → Option Stage
  | lease _ _ => some .leaving
  | _ => none

/-- The holder a write makes of the task that runs the call. -/
def newHolder (t : ℕ) : Call → List Holder
  | acquireLock token _ => [⟨t, token, false⟩]
  | _ => []

end Call

/-- What a locker step does to the call of its task. -/
def Stage.onLocker (name : LockName) : Stage → LockerEvent → Option Stage
  | locking, .lookup _ name' => if name' = name then some locking else none
  | locking, .count _ => some locking
  | locking, .lock _ => some ready
  | locking, .timeout _ => some leaving
  | leaving, .sub _ | leaving, .reapLock _ | leaving, .reapLoad _ | leaving, .reapRemove _
  | leaving, .release _ => some leaving
  | _, _ => none

namespace KeyState

def new (cell : Option Entry) (monotonicTs : Int64) : KeyState where
  cell := cell
  monotonicTs := monotonicTs
  locker := .new
  calls := fun _ => none
  held := []

def goto (s : KeyState) (t : ℕ) (call : Call) (stage : Option Stage) : KeyState :=
  { s with calls := update s.calls t (stage.map fun stage => (call, stage)) }

def lockName (cfg : KeyConfig) : LockName := (cfg.name, cfg.key)

/-- The entry a call is to write, and the stamp counter. -/
def prepared (cfg : KeyConfig) (s : KeyState) (clk : ℕ → UInt64) :
    Call → Option Entry → Option (Except ClientError Entry × Int64)
  | .get, some e =>
    some (.ok { e with lastAccessNanos := microsToNanosI64 (clk 0) }, s.monotonicTs)
  | .put value o, _ => some (putEntry cfg.options.ttl cfg.key value o clk s.monotonicTs)
  | .acquireLock token l, _ =>
    some (putEntry cfg.options.ttl cfg.key token (Call.lockOptions l) clk s.monotonicTs)
  | .lease _ duration, some e =>
    let now := microsToNanosI64 (clk 0)
    let newTtl := if duration = 0 then 0 else satAdd now (i64OrMax duration)
    some (.ok { e with ttlNanos := newTtl, lastAccessNanos := now }, s.monotonicTs)
  | _, _ => none

/-- `fragment.put` of the entry a call is to write. -/
def put (s : KeyState) (t : ℕ) (call : Call) (entry : Entry) : KeyState :=
  if entry.Encodable then
    { s with
      cell := some entry
      held := s.held ++ call.newHolder t }.goto t call call.written
  else s.goto t call call.writeFailed

/-- LRU eviction is on and some limit is set. -/
def evicts (cfg : KeyConfig) : Bool :=
  cfg.options.evictionPolicy = some .lru &&
    (cfg.options.maxKeys.isSome || cfg.options.maxInuse.isSome)

def step (cfg : KeyConfig) (s : KeyState) : KeyEvent → Option KeyState
  | .start t call =>
    if s.calls t = none ∧ s.locker.pc t = .idle then some (s.goto t call call.start) else none
  | .locker e =>
    match s.locker.step e with
    | none => none
    | some locker =>
      match s.calls e.task with
      | none => some { s with locker }
      | some (call, stage) =>
        match stage.onLocker (lockName cfg) e with
        | none => none
        | some stage => some ({ s with locker }.goto e.task call (some stage))
  | .read t micros =>
    match s.calls t with
    | some (call, .ready) =>
      match s.cell with
      | none => some (s.goto t call (call.found none))
      | some e =>
        let now := microsToNanosI64 micros
        if e.isExpired now then some (s.goto t call (some (.expired e now)))
        else some (s.goto t call (call.found (some e)))
    | _ => none
  | .lazyDelete t =>
    match s.calls t with
    | some (call, .expired _ _) => some ({ s with cell := none }.goto t call (call.found none))
    | _ => none
  | .retry t =>
    match s.calls t with
    | some (call, .refused) => some (s.goto t call (some .ready))
    | _ => none
  | .giveUp t =>
    match s.calls t with
    | some (call, .refused) => some (s.goto t call none)
    | _ => none
  | .prepare t clk =>
    match s.calls t with
    | some (call, .checked existing) =>
      match prepared cfg s clk call existing with
      | none => none
      | some (.error _, ts) => some ({ s with monotonicTs := ts }.goto t call call.writeFailed)
      | some (.ok entry, ts) =>
        some ({ s with monotonicTs := ts }.goto t call (some (.writing entry)))
    | _ => none
  | .write t =>
    match s.calls t with
    | some (call, .writing entry) => some (s.put t call entry)
    | _ => none
  | .remove t =>
    match s.calls t with
    | some (.delete, .deleting) => some ({ s with cell := none }.goto t .delete none)
    | some (.unlock token, .deleting) =>
      some ({ s with
        cell := none
        held := s.held.filter fun h => h.token ≠ token }.goto t (.unlock token) (some .leaving))
    | _ => none
  | .evict t =>
    match s.calls t with
    | some (_, .evicting) => if evicts cfg then some { s with cell := none } else none
    | _ => none
  | .finish t =>
    match s.calls t with
    | some (call, .evicting) =>
      some ({ s with held := s.held.map (Holder.returnTo t) }.goto t call none)
    | some (call, .leaving) =>
      if s.locker.pc t = .idle then some (s.goto t call none) else none
    | _ => none

/-- The tokens returned by `acquire_lock` and not yet unlocked. -/
def holders (s : KeyState) : List Holder := s.held.filter (·.returned)

end KeyState

end Kamino
