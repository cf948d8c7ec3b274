import Kamino.Lib.SipHash
import Kamino.RamBlock

/-!
# Export and import of an engine

An export is a format tag, the number of entries and their records, in the order a scan visits them.
-/

namespace Kamino

open LittleEndian

/-- `ExportFormat::EntriesV1 as u8`. -/
def entriesV1 : UInt8 := 1

/-- `DefaultHasher` is SipHash-1-3 with zero keys. A slice is hashed after its length. -/
def hashKey (key : Bytes) : UInt64 := SipHash.hash13 0 0 (toLe 8 key.length ++ key)

namespace RamBlock

/-- The callback `export` scans with. Its state is the buffer and the error that stopped it. -/
def exportEntry (s : Bytes × Option StorageError) (_hk : UInt64) (e : Entry) :
    Bool × (Bytes × Option StorageError) :=
  match e.encodeInto s.1 with
  | .error err => (false, (s.1, some err))
  | .ok buf => (true, (buf, s.2))

/-- `export`. -/
def exportData (rb : RamBlock) : Except StorageError Bytes :=
  let count := rb.len
  if count > 4294967295 then
    .error (.importFormat ("export count " ++ toString count ++ " exceeds u32 capacity"))
  else match rb.scan exportEntry (entriesV1 :: toLe 4 count, none) with
    | (.error e, _) => .error e
    | (.ok _, (_, some e)) => .error e
    | (.ok _, (buf, none)) => .ok buf

/-- The checks `import` starts with, to the number of entries. -/
def importHeader (data : Bytes) : Except StorageError ℕ :=
  match data with
  | [] => .error (.importFormat "empty payload")
  | tag :: _ =>
    if tag ≠ entriesV1 then .error (.importFormat ("unknown format tag " ++ toString tag.toNat))
    else if data.length < 5 then .error (.importFormat "missing count header")
    else .ok (ofLe ((data.drop 1).take 4))

/-- `import`'s loop. What it does with an entry is `put_lww`, written out. -/
def importEntries : ℕ → Bytes → RamBlock → Outcome RamBlock Unit
  | 0, _, rb => (.ok (), rb)
  | count + 1, buf, rb =>
    match Entry.decode buf with
    | .error e => (.error e, rb)
    | .ok (entry, used) =>
      match rb.putLww (hashKey entry.key) entry with
      | (.error e, rb) => (.error e, rb)
      | (.ok _, rb) => importEntries count (buf.drop used) rb

/-- `import`. -/
def importData (rb : RamBlock) (data : Bytes) : Outcome RamBlock Unit :=
  match importHeader data with
  | .error e => (.error e, rb)
  | .ok count => importEntries count (data.drop 5) rb

end RamBlock

/-- The calls that change an engine, with the import. -/
inductive EngineCall where
  | op (op : EngineOp)
  | importData (data : Bytes)

/-- The engine a call leaves. -/
def RamBlock.call (rb : RamBlock) : EngineCall → RamBlock
  | .op op => rb.apply op
  | .importData data => (rb.importData data).2

/-- The engine after the calls in order. -/
def RamBlock.calls (rb : RamBlock) (cs : List EngineCall) : RamBlock := cs.foldl RamBlock.call rb

end Kamino
