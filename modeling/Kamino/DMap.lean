import Kamino.Options
import Kamino.Lib.HMap

/-!
# A DMap on one node

An `EmbeddedDMap` keeps one fragment, and a fragment holds what its engine's contract says: at most
one entry a hash. `put` overwrites, `put_lww` writes only over a smaller stamp.
-/

namespace Kamino

/-- The entries an engine holds, by hash, if it is the map its contract says. `RamBlock` is one
while no overwrite leaves the old copy live in a full head. -/
abbrev Fragment := HMap UInt64 Entry

namespace Fragment

def put (f : Fragment) (hkey : UInt64) (entry : Entry) : Except StorageError Fragment :=
  match entry.encodeInto [] with
  | .error e => .error e
  | .ok _ => .ok (f.insert hkey entry)

def putLww (f : Fragment) (hkey : UInt64) (entry : Entry) : Except StorageError (Bool × Fragment) :=
  match f.lookup hkey with
  | some existing =>
    if existing.timestampNanos ≥ entry.timestampNanos then .ok (false, f)
    else (f.put hkey entry).map fun f => (true, f)
  | none => (f.put hkey entry).map fun f => (true, f)

def delete (f : Fragment) (hkey : UInt64) : Bool × Fragment :=
  ((f.lookup hkey).isSome, f.erase hkey)

def len (f : Fragment) : ℕ := f.entries.length

def inuse (f : Fragment) : ℕ := HMap.total (fun _ e => e.encodedLen) f

/-- `min_by_key` on the access time: the first of the oldest. -/
def oldest : List (UInt64 × Int64) → Option (UInt64 × Int64)
  | [] => none
  | p :: ps =>
    match oldest ps with
    | none => some p
    | some q => if p.2 ≤ q.2 then some p else some q

/-- `LruSampler::evict_one`, with the sample its random choice draws from the fragment's keys. -/
def evictOne (f : Fragment) (samples : ℕ)
    (choose : List (UInt64 × Int64) → ℕ → List (UInt64 × Int64)) : Bool × Fragment :=
  if samples = 0 then (false, f)
  else
    let keys := f.entries.map fun p => (p.1, p.2.lastAccessNanos)
    if keys = [] then (false, f)
    else
      match oldest (choose keys samples) with
      | none => (false, f)
      | some victim => f.delete victim.1

theorem evictOne_len {f f' : Fragment} {samples : ℕ}
    {choose : List (UInt64 × Int64) → ℕ → List (UInt64 × Int64)}
    (h : f.evictOne samples choose = (true, f')) : f'.len < f.len := by
  unfold evictOne at h
  split at h
  · simp at h
  dsimp only at h
  split at h
  · simp at h
  split at h
  · simp at h
  rename_i victim _
  simp only [delete, Prod.mk.injEq] at h
  obtain ⟨hsome, rfl⟩ := h
  obtain ⟨e, he⟩ := Option.isSome_iff_exists.1 hsome
  exact Nat.lt_of_succ_le (HMap.length_erase he).le

end Fragment

structure DMap where
  options : DMapOptions
  fragment : Fragment
  monotonicTs : Int64

namespace DMap

def new (options : DMapOptions) : DMap := ⟨options, ∅, 0⟩

def overLimit (o : DMapOptions) (f : Fragment) : Bool :=
  o.maxKeys.any (fun m => f.len > m) || o.maxInuse.any fun m => f.inuse > m

def evictLoop (env : Env) (o : DMapOptions) (round : ℕ) (f : Fragment) : Fragment :=
  if overLimit o f then
    match h : f.evictOne (o.lruSamples.getD 5) (env.chooseMultiple round) with
    | (false, f') => f'
    | (true, f') => evictLoop env o (round + 1) f'
  else f
termination_by f.len
decreasing_by exact Fragment.evictOne_len h

def evictIfNeeded (env : Env) (d : DMap) : DMap :=
  if d.options.evictionPolicy = some .lru then
    { d with fragment := evictLoop env d.options 0 d.fragment }
  else d

def fetchLive (d : DMap) (hkey : UInt64) (nowMicros : UInt64) : Option Entry × DMap :=
  match d.fragment.lookup hkey with
  | none => (none, d)
  | some entry =>
    if entry.isExpired (microsToNanosI64 nowMicros) then
      (none, { d with fragment := d.fragment.erase hkey })
    else (some entry, d)

/-- The readings are `putEntry`'s three and, last, `fetch_live`'s. -/
def put (env : Env) (d : DMap) (key value : Bytes) (o : PutOptions) (clk : ℕ → UInt64) :
    Except ClientError Unit × DMap :=
  match o.validate with
  | .error e => (.error e, d)
  | .ok () =>
    let hkey := env.hash64 key
    let (existingLive, d) := d.fetchLive hkey (clk 3)
    if o.nx && existingLive.isSome then (.error .keyAlreadyExists, d)
    else if o.xx && existingLive.isNone then (.error .keyNotExists, d)
    else
      match putEntry d.options.ttl key value o clk d.monotonicTs with
      | (.error e, monotonicTs) => (.error e, { d with monotonicTs })
      | (.ok entry, monotonicTs) =>
        match d.fragment.put hkey entry with
        | .error e => (.error (.storage e), { d with monotonicTs })
        | .ok fragment => (.ok (), { d with fragment, monotonicTs }.evictIfNeeded env)

def putLww (env : Env) (d : DMap) (key value : Bytes) (o : PutOptions) (clk : ℕ → UInt64) :
    Except ClientError Bool × DMap :=
  match o.validate with
  | .error e => (.error e, d)
  | .ok () =>
    match o.timestamp with
    | none =>
      (.error (.invalidArgument "put_lww requires an explicit timestamp (primary's LWW stamp)"), d)
    | some timestamp =>
      let d := { d with monotonicTs := max d.monotonicTs timestamp }
      let hkey := env.hash64 key
      match o.resolveTtlNanos (clk 1) d.options.ttl with
      | .error e => (.error e, d)
      | .ok ttlNanos =>
        let entry : Entry :=
          { key, ttlNanos, timestampNanos := timestamp,
            lastAccessNanos := microsToNanosI64 (clk 0), value }
        match d.fragment.putLww hkey entry with
        | .error e => (.error (.storage e), d)
        | .ok (false, _) => (.ok false, d)
        | .ok (true, fragment) => (.ok true, { d with fragment }.evictIfNeeded env)

def delete (env : Env) (d : DMap) (key : Bytes) : Bool × DMap :=
  let (deleted, fragment) := d.fragment.delete (env.hash64 key)
  (deleted, { d with fragment })

end DMap

end Kamino
