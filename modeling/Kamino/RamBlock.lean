import Kamino.Lib.Overlay
import Kamino.Table

/-!
# The in-memory engine

A list of tables, the last one writable. A write goes to the last table, with a fresh one pushed
when the record does not fit; a read walks the tables newest first.
-/

namespace Kamino

structure RamBlock where
  tables : List Table
  tableCapacity : ℕ
  maxGarbageRatio : ℚ

namespace RamBlock

/-- `RamBlock::new`, past its assertion that the capacity is positive. -/
def new (tableCapacity : ℕ) (maxGarbageRatio : ℚ) : RamBlock where
  tables := [Table.withCapacity tableCapacity]
  tableCapacity := tableCapacity
  maxGarbageRatio := maxGarbageRatio

def liveTables (rb : RamBlock) : List Table := rb.tables.filter (·.state ≠ .recycled)

def ensureWritableFor (rb : RamBlock) (need : ℕ) : RamBlock :=
  let fresh := Table.withCapacity (max need rb.tableCapacity)
  match rposition (·.state = .readWrite) rb.tables with
  | some idx =>
    match rb.tables[idx]? with
    | some head =>
      if head.offset + need ≤ head.capacity then rb
      else { rb with tables := rb.tables.set idx head.sealed ++ [fresh] }
    | none => rb
  | none => { rb with tables := rb.tables ++ [fresh] }

/-- The newest table with a live entry for `hkey`. -/
def findLive (rb : RamBlock) (hkey : UInt64) : Option ℕ :=
  rposition (fun t => t.state ≠ .recycled ∧ (t.hkeys.lookup hkey).isSome) rb.tables

/-- `self.tables[idx].delete(hkey)`. -/
def deleteAt (rb : RamBlock) (idx : ℕ) (hkey : UInt64) : Outcome RamBlock Bool :=
  match rb.tables[idx]? with
  | none => (.error (.panicked "index out of bounds"), rb)
  | some t =>
    match t.delete hkey with
    | (r, t) => (r, { rb with tables := rb.tables.set idx t })

/-- The end of `put`: make room, then append to the last table. -/
def writeHead (rb : RamBlock) (hkey : UInt64) (entry : Entry) : Outcome RamBlock Unit :=
  let rb := rb.ensureWritableFor entry.encodedLen
  match rb.tables.getLast? with
  | none => (.error (.panicked "ensure_writable_for guarantees"), rb)
  | some head =>
    match head.append hkey entry with
    | (r, head) =>
      let rb := { rb with tables := rb.tables.dropLast ++ [head] }
      match r with
      | .error e => (.error e, rb)
      | .ok true => (.ok (), rb)
      | .ok false => (.error (.panicked "fresh head must accept appends"), rb)

def put (rb : RamBlock) (hkey : UInt64) (entry : Entry) : Outcome RamBlock Unit :=
  match rb.findLive hkey with
  | none => rb.writeHead hkey entry
  | some idx =>
    -- A copy in a sealed table is dropped here; one in the head is left to `append`.
    if (rb.tables[idx]?.map (·.state)) = some .readOnly then
      match rb.deleteAt idx hkey with
      | (.error e, rb) => (.error e, rb)
      | (.ok _, rb) => rb.writeHead hkey entry
    else rb.writeHead hkey entry

/-- `get`'s walk, newest table first. -/
def getFrom (hkey : UInt64) : List Table → Except StorageError (Option Entry)
  | [] => .ok none
  | t :: rest =>
    match t.get hkey with
    | .error e => .error e
    | .ok (some e) => .ok (some e)
    | .ok none => getFrom hkey rest

def get (rb : RamBlock) (hkey : UInt64) : Except StorageError (Option Entry) :=
  getFrom hkey rb.liveTables.reverse

def putLww (rb : RamBlock) (hkey : UInt64) (entry : Entry) : Outcome RamBlock Bool :=
  match rb.get hkey with
  | .error e => (.error e, rb)
  | .ok existing =>
    if existing.any (fun existing => existing.timestampNanos ≥ entry.timestampNanos) then
      (.ok false, rb)
    else match rb.put hkey entry with
      | (.error e, rb) => (.error e, rb)
      | (.ok (), rb) => (.ok true, rb)

def delete (rb : RamBlock) (hkey : UInt64) : Outcome RamBlock Bool :=
  match rb.findLive hkey with
  | none => (.ok false, rb)
  | some idx => rb.deleteAt idx hkey

section Scan

variable {σ : Type} (callback : σ → UInt64 → Entry → Bool × σ)

/-- `scan`'s loop over the live tables. -/
def scanTables : List Table → σ → Outcome σ Unit
  | [], s => (.ok (), s)
  | t :: rest, s =>
    match t.scan callback s with
    | (.error e, s) => (.error e, s)
    | (.ok false, s) => (.ok (), s)
    | (.ok true, s) => scanTables rest s

def scan (rb : RamBlock) (s : σ) : Outcome σ Unit := scanTables callback rb.liveTables s

end Scan

def len (rb : RamBlock) : ℕ := (rb.liveTables.map Table.len).sum

def inuse (rb : RamBlock) : ℕ := (rb.liveTables.map Table.inuse).sum

/-- `compact`'s first loop: the bytes reclaimed and the tables to put in place. -/
def replacements (maxGarbageRatio : ℚ) : ℕ → List Table → Except StorageError (ℕ × List (ℕ × Table))
  | _, [] => .ok (0, [])
  | idx, t :: rest =>
    if t.state ≠ .readOnly ∨ t.garbageRatio ≤ maxGarbageRatio then
      replacements maxGarbageRatio (idx + 1) rest
    else
      let before := t.inuse + t.garbageBytes
      match compactTable t t.capacity with
      | .error e => .error e
      | .ok new =>
        match replacements maxGarbageRatio (idx + 1) rest with
        | .error e => .error e
        | .ok (reclaimed, rs) => .ok (before - new.inuse + reclaimed, (idx, new) :: rs)

/-- `compact`'s second loop. The table recycled is dropped by the assignment after it. -/
def install : List (ℕ × Table) → List Table → List Table
  | [], tables => tables
  | (idx, new) :: rs, tables => install rs (tables.set idx new.sealed)

def compact (rb : RamBlock) : Outcome RamBlock ℕ :=
  match replacements rb.maxGarbageRatio 0 rb.tables with
  | .error e => (.error e, rb)
  | .ok (reclaimed, rs) => (.ok reclaimed, { rb with tables := install rs rb.tables })

end RamBlock

inductive EngineOp where
  | put (hkey : UInt64) (entry : Entry)
  | putLww (hkey : UInt64) (entry : Entry)
  | delete (hkey : UInt64)
  | compact

def RamBlock.apply (rb : RamBlock) : EngineOp → RamBlock
  | .put hkey entry => (rb.put hkey entry).2
  | .putLww hkey entry => (rb.putLww hkey entry).2
  | .delete hkey => (rb.delete hkey).2
  | .compact => rb.compact.2

def RamBlock.run (rb : RamBlock) (ops : List EngineOp) : RamBlock := ops.foldl RamBlock.apply rb

end Kamino
