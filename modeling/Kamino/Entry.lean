import Kamino.Lib.LittleEndian
import Mathlib.Data.List.Basic

/-!
# Entries and their records

An `Entry` is what every engine stores under a hash key. Its record is one length byte, the key,
three little-endian `i64`s, the value's `u32` length and the value.
-/

namespace Kamino

open LittleEndian

abbrev Bytes := List UInt8

/-- The storage layer's errors. A panic is one more way for a call to end without a result. -/
inductive StorageError where
  | keyTooLarge (got max : ℕ)
  | valueTooLarge (got max : ℕ)
  | truncated (need : ℕ)
  | corruption (msg : String)
  | regex (msg : String)
  | importFormat (msg : String)
  | engineFull
  | panicked (msg : String)
  deriving DecidableEq, Repr

/-- `key_len(1) + ttl(8) + ts(8) + last_access(8) + val_len(4)`. -/
def headerOverhead : ℕ := 1 + 8 + 8 + 8 + 4

/-- `u8::MAX`. -/
def maxKeyLen : ℕ := 255

/-- `u32::MAX`. -/
def maxValueLen : ℕ := 4294967295

/-- The sentinel for an entry that never expires. -/
def noTtl : Int64 := 0

structure Entry where
  key : Bytes
  ttlNanos : Int64
  timestampNanos : Int64
  lastAccessNanos : Int64
  value : Bytes
  deriving DecidableEq, Repr

/-- `i64::to_le_bytes`. -/
def i64ToLeBytes (x : Int64) : Bytes := toLe 8 x.toUInt64.toNat

/-- `i64::from_le_bytes`. -/
def i64FromLeBytes (bs : Bytes) : Int64 := (UInt64.ofNat (ofLe bs)).toInt64

namespace Entry

def encodedLen (e : Entry) : ℕ := headerOverhead + e.key.length + e.value.length

def isExpired (e : Entry) (nowNanos : Int64) : Bool :=
  e.ttlNanos != noTtl && decide (e.ttlNanos ≤ nowNanos)

/-- The bytes `encode_into` appends once both lengths fit their fields. -/
def record (e : Entry) : Bytes :=
  UInt8.ofNat e.key.length :: (e.key ++ (i64ToLeBytes e.ttlNanos ++
    (i64ToLeBytes e.timestampNanos ++ (i64ToLeBytes e.lastAccessNanos ++
      (toLe 4 e.value.length ++ e.value)))))

def encodeInto (e : Entry) (buf : Bytes) : Except StorageError Bytes :=
  if e.key.length > maxKeyLen then .error (.keyTooLarge e.key.length maxKeyLen)
  else if e.value.length > maxValueLen then .error (.valueTooLarge e.value.length maxValueLen)
  else .ok (buf ++ e.record)

/-- Both lengths fit their fields, so `encode_into` succeeds. -/
def Encodable (e : Entry) : Prop := e.key.length ≤ maxKeyLen ∧ e.value.length ≤ maxValueLen

instance (e : Entry) : Decidable e.Encodable := inferInstanceAs (Decidable (_ ∧ _))

def decode (buf : Bytes) : Except StorageError (Entry × ℕ) :=
  match buf with
  | [] => .error (.truncated 1)
  | b :: _ =>
    let keyLen := b.toNat
    let fixedAfterKey := 8 + 8 + 8 + 4
    let headerEnd := 1 + keyLen + fixedAfterKey
    if buf.length < headerEnd then .error (.truncated (headerEnd - buf.length))
    else
      let key := (buf.drop 1).take keyLen
      let ttlNanos := i64FromLeBytes ((buf.drop (1 + keyLen)).take 8)
      let timestampNanos := i64FromLeBytes ((buf.drop (1 + keyLen + 8)).take 8)
      let lastAccessNanos := i64FromLeBytes ((buf.drop (1 + keyLen + 16)).take 8)
      let valLen := ofLe ((buf.drop (1 + keyLen + 24)).take 4)
      if valLen > maxValueLen then
        .error (.corruption
          ("value length " ++ toString valLen ++ " exceeds max " ++ toString maxValueLen))
      else
        let total := headerEnd + valLen
        if buf.length < total then .error (.truncated (total - buf.length))
        else .ok ({ key, ttlNanos, timestampNanos, lastAccessNanos,
                    value := (buf.drop headerEnd).take valLen }, total)

end Entry

end Kamino
