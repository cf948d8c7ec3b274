import Kamino.Options

/-!
# Reply frames and error texts

The frames that `DM.PUT` and `DM.DEL` answer with, and the texts of the errors that end up in them.
-/

namespace Kamino

inductive Frame where
  | simpleString (s : String)
  | error (s : String)
  | integer (n : ℤ)
  | bulk (b : Option Bytes)
  deriving DecidableEq

namespace Frame

def ok : Frame := .simpleString "OK"

/-- The derived `{:?}` of a frame. -/
def debug (env : Env) : Frame → String
  | simpleString s => "SimpleString(" ++ env.debugStr s ++ ")"
  | error s => "Error(" ++ env.debugStr s ++ ")"
  | integer n => "Integer(" ++ toString n ++ ")"
  | bulk none => "Bulk(BulkString(None))"
  | bulk (some b) => "Bulk(BulkString(Some(" ++ env.debugBytes b ++ ")))"

end Frame

inductive ClusterError where
  | io (msg : String)
  | codec (msg : String)
  | handshake (msg : String)
  | serverGone (msg : String)
  | timeout (msg : String)
  | moved (msg : String)
  deriving DecidableEq

def ClusterError.text : ClusterError → String
  | io msg => "transport I/O error: " ++ msg
  | codec msg => "malformed SWIM message: " ++ msg
  | handshake msg => "cluster handshake rejected: " ++ msg
  | serverGone msg => "server gone: " ++ msg
  | timeout msg => "forwarded RPC timed out: " ++ msg
  | moved msg => "MOVED: " ++ msg

def StorageError.text : StorageError → String
  | keyTooLarge got max =>
    "key too large: " ++ toString got ++ " bytes (max " ++ toString max ++ ")"
  | valueTooLarge got max =>
    "value too large: " ++ toString got ++ " bytes (max " ++ toString max ++ ")"
  | truncated need => "entry buffer truncated: need " ++ toString need ++ " more bytes"
  | corruption msg => "corrupted entry: " ++ msg
  | regex msg => "invalid regex pattern: " ++ msg
  | importFormat msg => "import format error: " ++ msg
  | engineFull => "engine is full"
  | panicked msg => msg

def mapClientError : ClientError → Frame
  | .keyNotFound => .bulk none
  | .keyAlreadyExists | .keyNotExists => .bulk none
  | .lockNotAcquired => .error "ERR lock not acquired"
  | .noSuchLock => .error "ERR no such lock"
  | .timeout => .error "ERR operation timed out"
  | .storage (.keyTooLarge _ _) => .error "ERR key too large"
  | .storage (.valueTooLarge _ _) => .error "ERR value too large"
  | .storage .engineFull => .error "ERR engine is full"
  | .storage e => .error ("ERR storage error: " ++ e.text)
  | .notANumber expected got => .error ("ERR value is not an " ++ expected ++ ": " ++ got)
  | .invalidArgument msg => .error ("ERR " ++ msg)
  | .serialization msg => .error ("ERR serialization: " ++ msg)

section Utf8

/-- The text of `from_utf8`'s error at byte `validUpTo`. -/
def utf8Text (validUpTo : ℕ) : Option ℕ → String
  | some errorLen => "invalid utf-8 sequence of " ++ toString errorLen ++ " bytes from index " ++
      toString validUpTo
  | none => "incomplete utf-8 byte sequence from index " ++ toString validUpTo

def continuation (b : UInt8) : Bool := 0x80 ≤ b && b ≤ 0xBF

/-- The second bytes that may follow a leading byte of three. -/
def second3 (first b : UInt8) : Bool :=
  if first = 0xE0 then 0xA0 ≤ b && b ≤ 0xBF
  else if first = 0xED then 0x80 ≤ b && b ≤ 0x9F
  else continuation b

/-- The second bytes that may follow a leading byte of four. -/
def second4 (first b : UInt8) : Bool :=
  if first = 0xF0 then 0x90 ≤ b && b ≤ 0xBF
  else if first = 0xF4 then 0x80 ≤ b && b ≤ 0x8F
  else continuation b

/-- `std::str::from_utf8`: the text of its error, if it has one. -/
def utf8Error : Bytes → ℕ → Option String
  | [], _ => none
  | first :: rest, i =>
    if first < 0x80 then utf8Error rest (i + 1)
    else if 0xC2 ≤ first && first ≤ 0xDF then
      match rest with
      | [] => some (utf8Text i none)
      | b :: rest =>
        if continuation b then utf8Error rest (i + 2) else some (utf8Text i (some 1))
    else if 0xE0 ≤ first && first ≤ 0xEF then
      match rest with
      | [] => some (utf8Text i none)
      | b :: rest =>
        if second3 first b then
          match rest with
          | [] => some (utf8Text i none)
          | c :: rest =>
            if continuation c then utf8Error rest (i + 3) else some (utf8Text i (some 2))
        else some (utf8Text i (some 1))
    else if 0xF0 ≤ first && first ≤ 0xF4 then
      match rest with
      | [] => some (utf8Text i none)
      | b :: rest =>
        if second4 first b then
          match rest with
          | [] => some (utf8Text i none)
          | c :: rest =>
            if continuation c then
              match rest with
              | [] => some (utf8Text i none)
              | d :: rest =>
                if continuation d then utf8Error rest (i + 4) else some (utf8Text i (some 3))
            else some (utf8Text i (some 2))
        else some (utf8Text i (some 1))
    else some (utf8Text i (some 1))

/-- The bytes of U+FFFD. -/
def replacement : Bytes := [0xEF, 0xBF, 0xBD]

/-- `String::from_utf8_lossy`, as the bytes of the string: each longest part that could have begun
a character, and each byte that could not, gives one U+FFFD. -/
def fromUtf8Lossy : Bytes → Bytes
  | [] => []
  | first :: rest =>
    if first < 0x80 then first :: fromUtf8Lossy rest
    else if 0xC2 ≤ first && first ≤ 0xDF then
      match rest with
      | [] => replacement
      | b :: rest =>
        if continuation b then first :: b :: fromUtf8Lossy rest
        else replacement ++ fromUtf8Lossy (b :: rest)
    else if 0xE0 ≤ first && first ≤ 0xEF then
      match rest with
      | [] => replacement
      | b :: rest =>
        if second3 first b then
          match rest with
          | [] => replacement
          | c :: rest =>
            if continuation c then first :: b :: c :: fromUtf8Lossy rest
            else replacement ++ fromUtf8Lossy (c :: rest)
        else replacement ++ fromUtf8Lossy (b :: rest)
    else if 0xF0 ≤ first && first ≤ 0xF4 then
      match rest with
      | [] => replacement
      | b :: rest =>
        if second4 first b then
          match rest with
          | [] => replacement
          | c :: rest =>
            if continuation c then
              match rest with
              | [] => replacement
              | d :: rest =>
                if continuation d then first :: b :: c :: d :: fromUtf8Lossy rest
                else replacement ++ fromUtf8Lossy (d :: rest)
            else replacement ++ fromUtf8Lossy (c :: rest)
        else replacement ++ fromUtf8Lossy (b :: rest)
    else replacement ++ fromUtf8Lossy rest

end Utf8

/-- `str::parse::<i64>`. -/
def parseI64 (s : String) : Option ℤ :=
  let digits (ds : List Char) : Option ℤ :=
    if ds ≠ [] ∧ ds.all Char.isDigit then
      some (ds.foldl (fun n d => 10 * n + (d.toNat - '0'.toNat)) 0)
    else none
  let parsed := match s.toList with
    | '-' :: ds => (digits ds).map fun n => -n
    | '+' :: ds => digits ds
    | ds => digits ds
  parsed.filter fun n => -2 ^ 63 ≤ n ∧ n < 2 ^ 63

end Kamino
