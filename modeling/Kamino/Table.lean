import Kamino.Entry
import Kamino.Lib.HMap
import Kamino.Lib.SortedSet
import Mathlib.Data.Rat.Defs
import Mathlib.Algebra.Order.Ring.Unbundled.Rat

/-!
# Tables

An append-only block of records with an index from hash keys to offsets.
-/

namespace Kamino

/-- A call's result, and the state it leaves behind. -/
abbrev Outcome (σ α : Type) := Except StorageError α × σ

inductive TableState where
  | readWrite
  | readOnly
  | recycled
  deriving DecidableEq, Repr

structure Table where
  memory : Bytes
  /-- `memory.capacity()`, as asked for in `with_capacity`: no append outgrows it. -/
  capacity : ℕ
  hkeys : HMap UInt64 ℕ
  offsetIndex : SortedSet ℕ
  offset : ℕ
  garbageBytes : ℕ
  liveBytes : ℕ
  state : TableState

/-- Narrow a byte offset to `u32`. -/
def offsetToU32 (off : ℕ) : Except StorageError ℕ :=
  if off ≤ 4294967295 then .ok off
  else .error (.panicked "table offsets must fit in u32 (≤ 4 GiB tables)")

namespace Table

def withCapacity (capacity : ℕ) : Table where
  memory := []
  capacity := capacity
  hkeys := ∅
  offsetIndex := .empty
  offset := 0
  garbageBytes := 0
  liveBytes := 0
  state := .readWrite

def len (t : Table) : ℕ := t.hkeys.entries.length

def inuse (t : Table) : ℕ := t.liveBytes

def garbageRatio (t : Table) : ℚ :=
  if t.offset = 0 then 0 else (t.garbageBytes : ℚ) / (t.offset : ℚ)

def decodeAt (t : Table) (off : ℕ) : Except StorageError Entry :=
  if t.memory.length < off then
    .error (.panicked "range start index out of range for slice")
  else match Entry.decode (t.memory.drop off) with
    | .ok (entry, _) => .ok entry
    | .error e => .error e

/-- What `append` and `delete` do to the record that just lost its key. -/
def demote (t : Table) (off : ℕ) : Outcome Table Unit :=
  match offsetToU32 off with
  | .error e => (.error e, t)
  | .ok o =>
    let t := { t with offsetIndex := t.offsetIndex.remove o }
    match t.decodeAt off with
    | .error e => (.error e, t)
    | .ok prev =>
      (.ok (), { t with garbageBytes := t.garbageBytes + prev.encodedLen,
                        liveBytes := t.liveBytes - prev.encodedLen })

/-- The end of `append`: the new record enters the offset index. -/
def promote (t : Table) (start need : ℕ) : Outcome Table Bool :=
  match offsetToU32 start with
  | .error e => (.error e, t)
  | .ok o => (.ok true, { t with offsetIndex := t.offsetIndex.insert o,
                                 liveBytes := t.liveBytes + need })

/-- A release build does not check that the table is writable. -/
def append (t : Table) (hkey : UInt64) (entry : Entry) : Outcome Table Bool :=
  let need := entry.encodedLen
  if t.offset + need > t.capacity then (.ok false, t)
  else match entry.encodeInto t.memory with
    | .error e => (.error e, t)
    | .ok memory =>
      let start := t.offset
      let prev := t.hkeys.lookup hkey
      let t := { t with memory := memory, offset := t.offset + need,
                        hkeys := t.hkeys.insert hkey start }
      match prev with
      | none => t.promote start need
      | some prevOff =>
        match t.demote prevOff with
        | (.error e, t) => (.error e, t)
        | (.ok (), t) => t.promote start need

def get (t : Table) (hkey : UInt64) : Except StorageError (Option Entry) :=
  match t.hkeys.lookup hkey with
  | none => .ok none
  | some off =>
    match t.decodeAt off with
    | .error e => .error e
    | .ok entry => .ok (some entry)

def delete (t : Table) (hkey : UInt64) : Outcome Table Bool :=
  match t.hkeys.lookup hkey with
  | none => (.ok false, t)
  | some off =>
    match { t with hkeys := t.hkeys.erase hkey }.demote off with
    | (.error e, t) => (.error e, t)
    | (.ok (), t) => (.ok true, t)

/-- `scan`'s inversion of `hkeys` into offset → hash key. -/
def offToHkey : List (Sigma fun _ : UInt64 => ℕ) → HMap ℕ UInt64 →
    Except StorageError (HMap ℕ UInt64)
  | [], m => .ok m
  | ⟨hk, off⟩ :: rest, m =>
    match offsetToU32 off with
    | .error e => .error e
    | .ok o => offToHkey rest (m.insert o hk)

section Scan

variable {σ : Type} (callback : σ → UInt64 → Entry → Bool × σ)

/-- `scan`'s loop over the offset index. The callback's own state is `σ`. -/
def scanOffsets (t : Table) (inv : HMap ℕ UInt64) : List ℕ → σ → Outcome σ Bool
  | [], s => (.ok true, s)
  | off :: rest, s =>
    match inv.lookup off with
    | none => t.scanOffsets inv rest s
    | some hk =>
      match t.decodeAt off with
      | .error e => (.error e, s)
      | .ok entry =>
        match callback s hk entry with
        | (true, s) => t.scanOffsets inv rest s
        | (false, s) => (.ok false, s)

def scan (t : Table) (s : σ) : Outcome σ Bool :=
  match offToHkey t.hkeys.entries ∅ with
  | .error e => (.error e, s)
  | .ok inv => t.scanOffsets callback inv t.offsetIndex.toList s

end Scan

def sealed (t : Table) : Table :=
  if t.state = .readWrite then { t with state := .readOnly } else t

def recycle (t : Table) : Table := { t with state := .recycled }

end Table

/-- Copy every live entry from `src` into a fresh table. -/
def compactTable (src : Table) (capacity : ℕ) : Except StorageError Table :=
  let live := src.inuse
  let cap := max capacity live
  -- The callback's state is the new table and the error that stopped it.
  let callback := fun (s : Table × Option StorageError) hk entry =>
    match s.1.append hk entry with
    | (.error e, dst) => (false, (dst, some e))
    | (.ok _, dst) => (true, (dst, s.2))
  match src.scan callback (Table.withCapacity cap, none) with
  | (.error e, _) => .error e
  | (.ok _, (_, some e)) => .error e
  | (.ok _, (dst, none)) => .ok dst

end Kamino
