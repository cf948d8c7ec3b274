import Kamino.Frame
import Kamino.Lib.Chunks
import Kamino.Lib.Parse

/-!
# The RESP codec

The frames of RESP2 and RESP3, and how `RespCodec` reads and writes them.
-/

namespace Kamino.Resp

inductive ProtocolVersion where
  | resp2
  | resp3
  deriving DecidableEq

/-- A frame. A double is given by its bits. -/
inductive Frame where
  | simpleString (s : String)
  | error (s : String)
  | integer (n : Int64)
  | bulk (b : Option Bytes)
  | array (items : Option (List Frame))
  | map (pairs : List (Frame × Frame))
  | set (items : List Frame)
  | push (items : List Frame)
  | boolean (b : Bool)
  | double (bits : UInt64)
  | null
  | bigNumber (s : String)

namespace Frame

def requiresResp3 : Frame → Bool
  | map _ | set _ | push _ | boolean _ | double _ | null | bigNumber _ => true
  | _ => false

def kind : Frame → String
  | simpleString _ => "SimpleString"
  | error _ => "Error"
  | integer _ => "Integer"
  | bulk _ => "Bulk"
  | array _ => "Array"
  | map _ => "Map"
  | set _ => "Set"
  | push _ => "Push"
  | boolean _ => "Boolean"
  | double _ => "Double"
  | null => "Null"
  | bigNumber _ => "BigNumber"

end Frame

inductive ProtocolError where
  | incomplete
  | invalidEncoding (msg : String)
  | bulkTooLarge (size max : ℕ)
  | arrayTooLarge (len max : ℕ)
  | inlineCommandRejected (msg : String)
  | resp3Required (kind : String)
  deriving DecidableEq

def maxDepth : ℕ := 32

structure RespCodec where
  version : ProtocolVersion := .resp2
  maxBulkSize : UInt64 := 512 * 1024 * 1024
  maxArrayLen : UInt64 := 1048576

/-- How the standard library reads and prints an `f64`, given by its bits. -/
structure F64Text where
  parse : String → Option UInt64
  display : UInt64 → String

namespace F64Text

def infinity : UInt64 := 0x7FF0000000000000
def negInfinity : UInt64 := 0xFFF0000000000000
def nan : UInt64 := 0x7FF8000000000000

def isNan (bits : UInt64) : Bool := infinity < bits &&& 0x7FFFFFFFFFFFFFFF
def isInfinite (bits : UInt64) : Bool := bits &&& 0x7FFFFFFFFFFFFFFF = infinity

end F64Text

section Bytes

def asBytes (s : String) : Bytes := s.toByteArray.data.toList

/-- `std::str::from_utf8`. -/
def fromUtf8 (b : Bytes) : Option String := String.fromUTF8? ⟨b.toArray⟩

def cr : UInt8 := 13
def lf : UInt8 := 10
def crlf : Bytes := [cr, lf]

def isAsciiDigit (b : UInt8) : Bool := 48 ≤ b && b ≤ 57
def isAsciiAlphabetic (b : UInt8) : Bool := (65 ≤ b && b ≤ 90) || (97 ≤ b && b ≤ 122)
def toAsciiUppercase (b : UInt8) : UInt8 := if 97 ≤ b && b ≤ 122 then b - 32 else b

/-- `0x{:02x}`. -/
def hexByte (b : UInt8) : String :=
  "0x" ++ String.ofList [Nat.digitChar (b.toNat / 16), Nat.digitChar (b.toNat % 16)]

end Bytes

section Decoder

abbrev Parser := Parse ProtocolError UInt8

def invalid {α : Type} (msg : String) : Parser α := Parse.fail (.invalidEncoding msg)

def readLine : Parser Bytes
  | [] => .error .incomplete
  | b :: rest =>
    if b = cr ∧ rest.head? = some lf then .ok ([], 2)
    else (readLine rest).map fun (line, n) => (b :: line, n + 1)

def utf8Line (what : String) (line : Bytes) : Parser String :=
  match fromUtf8 line with
  | some s => pure s
  | none => invalid (what ++ " not utf-8")

def parseI64 (line : Bytes) : Parser ℤ := do
  let s ← utf8Line "integer" line
  match Kamino.parseI64 s with
  | some n => pure n
  | none => invalid ("bad integer: " ++ s)

def bulkPayload (len : ℕ) : Parser Bytes := fun rest =>
  if rest.length < len + 2 then .error .incomplete
  else if (rest.drop len).take 2 ≠ crlf then
    .error (.invalidEncoding "bulk missing trailing CRLF")
  else .ok (rest.take len, len + 2)

def parseBulk (maxBulk : UInt64) : Parser Frame := do
  let line ← readLine
  let len ← parseI64 line
  if len = -1 then pure (.bulk none)
  else if len < 0 then invalid ("negative bulk length " ++ toString len)
  else if maxBulk.toNat < len.toNat then
    Parse.fail (.bulkTooLarge len.toNat maxBulk.toNat)
  else do
    let payload ← bulkPayload len.toNat
    pure (.bulk (some payload))

/-- The number of elements an aggregate's header announces. -/
def parseCount (kind : String) (maxArray : UInt64) (n : ℤ) : Parser ℕ :=
  if n < 0 then invalid ("negative " ++ kind ++ " length " ++ toString n)
  else if maxArray.toNat < n.toNat then Parse.fail (.arrayTooLarge n.toNat maxArray.toNat)
  else pure n.toNat

section Aggregates

variable (maxArray : UInt64) (item : Parser Frame)

def parseArray : Parser Frame := do
  let line ← readLine
  let n ← parseI64 line
  if n = -1 then pure (.array none)
  else do
    let count ← parseCount "array" maxArray n
    let items ← item.times count
    pure (.array (some items))

def parseElements {α : Type} (kind : String) (element : Parser α) (frame : List α → Frame) :
    Parser Frame := do
  let line ← readLine
  let n ← parseI64 line
  let count ← parseCount kind maxArray n
  let items ← element.times count
  pure (frame items)

def parseSet : Parser Frame := parseElements maxArray "set" item .set

def parsePush : Parser Frame := parseElements maxArray "push" item .push

def parsePair : Parser (Frame × Frame) := do
  let k ← item
  let v ← item
  pure (k, v)

def parseMap : Parser Frame := parseElements maxArray "map" (parsePair item) .map

end Aggregates

def parseBoolean : Parser Frame := do
  let line ← readLine
  if line = asBytes "t" then pure (.boolean true)
  else if line = asBytes "f" then pure (.boolean false)
  else invalid "invalid boolean"

def parseDouble (f64 : F64Text) : Parser Frame := do
  let line ← readLine
  let s ← utf8Line "double" line
  if s = "inf" ∨ s = "+inf" then pure (.double F64Text.infinity)
  else if s = "-inf" then pure (.double F64Text.negInfinity)
  else if s = "nan" then pure (.double F64Text.nan)
  else
    match f64.parse s with
    | some d => pure (.double d)
    | none => invalid ("bad double: " ++ s)

def parseNull : Parser Frame := do
  let line ← readLine
  if line ≠ [] then invalid "null frame has no payload" else pure .null

def isBigNumber (s : String) : Bool :=
  match asBytes s with
  | [] => false
  | first :: rest =>
    (isAsciiDigit first || first = 43 || first = 45) && rest.all isAsciiDigit

def parseBigNumber : Parser Frame := do
  let line ← readLine
  let s ← utf8Line "big number" line
  if isBigNumber s then pure (.bigNumber s) else invalid ("bad big number: " ++ s)

/-- A frame that only RESP3 has. -/
def resp3Only (c : RespCodec) (lead : UInt8) (p : Parser Frame) : Parser Frame :=
  if c.version = .resp3 then p
  else invalid ("RESP3-only prefix " ++ hexByte lead ++ " on RESP2 connection")

variable (f64 : F64Text) (c : RespCodec)

/-- What follows the leading byte of a frame, given how its elements are parsed. -/
def parseBody (item : Parser Frame) (lead : UInt8) : Parser Frame :=
  if lead = '+'.toUInt8 then do
    let line ← readLine
    let s ← utf8Line "simple string" line
    pure (.simpleString s)
  else if lead = '-'.toUInt8 then do
    let line ← readLine
    let s ← utf8Line "error" line
    pure (.error s)
  else if lead = ':'.toUInt8 then do
    let line ← readLine
    let v ← parseI64 line
    pure (.integer (Int64.ofInt v))
  else if lead = '$'.toUInt8 then parseBulk c.maxBulkSize
  else if lead = '*'.toUInt8 then parseArray c.maxArrayLen item
  else if lead = '%'.toUInt8 then resp3Only c lead (parseMap c.maxArrayLen item)
  else if lead = '~'.toUInt8 then resp3Only c lead (parseSet c.maxArrayLen item)
  else if lead = '>'.toUInt8 then resp3Only c lead (parsePush c.maxArrayLen item)
  else if lead = '#'.toUInt8 then resp3Only c lead parseBoolean
  else if lead = ','.toUInt8 then resp3Only c lead (parseDouble f64)
  else if lead = '_'.toUInt8 then resp3Only c lead parseNull
  else if lead = '('.toUInt8 then resp3Only c lead parseBigNumber
  else invalid ("unknown prefix " ++ hexByte lead)

def nextByte : Parser UInt8
  | [] => .error .incomplete
  | b :: _ => .ok (b, 1)

/-- A frame below which that many levels are left. -/
def parseLevel : ℕ → Parser Frame
  | 0 => invalid ("nesting deeper than " ++ toString maxDepth)
  | left + 1 => do
    let lead ← nextByte
    parseBody f64 c (parseLevel left) lead

def parseFrame (depth : ℕ) : Parser Frame := parseLevel f64 c (maxDepth + 1 - depth)

def isKnownPrefix (b : UInt8) (version : ProtocolVersion) : Bool :=
  if b ∈ ['+', '-', ':', '$', '*'].map Char.toUInt8 then true
  else if b ∈ ['%', '~', '>', '#', ',', '_', '('].map Char.toUInt8 then version = .resp3
  else false

def matchInlinePing : Bytes → Option ℕ
  | p :: i :: n :: g :: rest =>
    if [p, i, n, g].map toAsciiUppercase ≠ asBytes "PING" then none
    else if rest.head? = some lf then some 5
    else if rest.take 2 = crlf then some 6
    else none
  | _ => none

def pingFrame : Frame := .array (some [.bulk (some (asBytes "PING"))])

/-- A frame comes with the number of bytes the buffer is advanced by. -/
def decode : Bytes → Except ProtocolError (Option (Frame × ℕ))
  | [] => .ok none
  | first :: rest =>
    match matchInlinePing (first :: rest) with
    | some consumed => .ok (some (pingFrame, consumed))
    | none =>
      if ¬ isKnownPrefix first c.version then
        if isAsciiAlphabetic first then
          .error (.inlineCommandRejected "only PING is accepted inline")
        else .error (.invalidEncoding ("unexpected leading byte " ++ hexByte first))
      else
        match parseFrame f64 c 0 (first :: rest) with
        | .ok frame => .ok (some frame)
        | .error .incomplete => .ok none
        | .error e => .error e

end Decoder

section Encoder

abbrev Encoder := Bytes → Except ProtocolError Unit × Bytes

def extend (bytes : Bytes) : Encoder := fun dst => (.ok (), dst ++ bytes)

def reject (e : ProtocolError) : Encoder := fun dst => (.error e, dst)

def andThen (p q : Encoder) : Encoder := fun dst =>
  match p dst with
  | (.ok (), dst) => q dst
  | (.error e, dst) => (.error e, dst)

/-- A line of text that may not hold a line break. -/
def encodeLine (lead : Char) (what s : String) : Encoder :=
  if (asBytes s).any (fun b => b = cr || b = lf) then
    reject (.invalidEncoding (what ++ " contains CR/LF"))
  else extend (lead.toUInt8 :: asBytes s ++ crlf)

def header (lead : Char) (n : ℕ) : Encoder := extend (lead.toUInt8 :: asBytes (toString n) ++ crlf)

def displayDouble (f64 : F64Text) (d : UInt64) : String :=
  if F64Text.isNan d then "nan"
  else if F64Text.isInfinite d then if d = F64Text.infinity then "inf" else "-inf"
  else f64.display d

variable (f64 : F64Text) (version : ProtocolVersion)

def versioned (frame : Frame) (body : Encoder) : Encoder :=
  if version = .resp2 ∧ frame.requiresResp3 then reject (.resp3Required frame.kind) else body

mutual

def encodeFrame (frame : Frame) : Encoder :=
  versioned version frame <|
    match frame with
    | .simpleString s => encodeLine '+' "simple string" s
    | .error s => encodeLine '-' "error string" s
    | .integer i => extend (':'.toUInt8 :: asBytes (toString i.toInt) ++ crlf)
    | .bulk none => extend (asBytes "$-1\r\n")
    | .bulk (some b) => andThen (header '$' b.length) (extend (b ++ crlf))
    | .array none => extend (asBytes "*-1\r\n")
    | .array (some items) => andThen (header '*' items.length) (encodeItems items)
    | .map pairs => andThen (header '%' pairs.length) (encodePairs pairs)
    | .set items => andThen (header '~' items.length) (encodeItems items)
    | .push items => andThen (header '>' items.length) (encodeItems items)
    | .boolean b => extend (asBytes (if b then "#t\r\n" else "#f\r\n"))
    | .double d => extend (','.toUInt8 :: asBytes (displayDouble f64 d) ++ crlf)
    | .null => extend (asBytes "_\r\n")
    | .bigNumber s => extend ('('.toUInt8 :: asBytes s ++ crlf)

def encodeItems : List Frame → Encoder
  | [] => extend []
  | item :: items => andThen (encodeFrame item) (encodeItems items)

def encodePairs : List (Frame × Frame) → Encoder
  | [] => extend []
  | (k, v) :: pairs => andThen (encodeFrame k) (andThen (encodeFrame v) (encodePairs pairs))

end

end Encoder

end Kamino.Resp
