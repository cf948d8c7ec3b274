import Kamino.Session

/-!
# Reading and printing commands

`Command::parse` takes a command off an array of bulk strings, and `Command::to_frame` prints it as
one, which is how a node forwards a command.
-/

namespace Kamino

def PartitionType.asU8 : PartitionType → UInt8
  | primary => 0
  | backup => 1

def PartitionType.fromU8 (byte : UInt8) : Option PartitionType :=
  if byte = 0 then some primary else if byte = 1 then some backup else none

end Kamino

namespace Kamino.Resp

inductive ArityHint where
  | exactly (n : ℕ)
  | atLeast (n : ℕ)
  | range (min max : ℕ)
  deriving DecidableEq

def ArityHint.text : ArityHint → String
  | exactly n => toString n
  | atLeast n => "at least " ++ toString n
  | range min max => toString min ++ "..=" ++ toString max

inductive CommandError where
  | notAnArray
  | unknownCommand (verb : String)
  | wrongArity (command : String) (expected : ArityHint) (got : ℕ)
  | invalidArgument (command reason : String)
  | conflictingOptions (command detail : String)
  deriving DecidableEq

def CommandError.text : CommandError → String
  | notAnArray => "expected array of bulk strings"
  | unknownCommand verb => "unknown command: " ++ verb
  | wrongArity command expected got => "wrong number of arguments for " ++ command ++
      ": expected " ++ expected.text ++ ", got " ++ toString got
  | invalidArgument command reason => "invalid argument for " ++ command ++ ": " ++ reason
  | conflictingOptions command detail =>
    "conflicting options for " ++ command ++ ": " ++ detail

section Text

/-- `String::from_utf8_lossy`. -/
def lossy (b : Bytes) : String := (fromUtf8 (fromUtf8Lossy b)).getD ""

/-- What `{:?}` writes for a character of a string. -/
def escapeDebug (printable : Char → Bool) (c : Char) : String :=
  if c = Char.ofNat 0 then "\\0"
  else if c = '\t' then "\\t"
  else if c = '\r' then "\\r"
  else if c = '\n' then "\\n"
  else if c = '"' then "\\\""
  else if c = '\\' then "\\\\"
  else if printable c then c.toString
  else "\\u\x7b" ++ String.ofList (Nat.toDigits 16 c.toNat) ++ "\x7d"

/-- `{:?}` of a string. -/
def debugStr (printable : Char → Bool) (s : String) : String :=
  "\"" ++ String.join (s.toList.map (escapeDebug printable)) ++ "\""

/-- The digits of an unsigned number that may have a plus sign. -/
def parseNat (s : String) : Option ℕ :=
  let digits (ds : List Char) : Option ℕ :=
    if ds ≠ [] ∧ ds.all Char.isDigit then some (Nat.ofDigitChars 10 ds 0) else none
  match s.toList with
  | '+' :: ds => digits ds
  | ds => digits ds

/-- `str::parse::<u8>`. -/
def readU8 (s : String) : Option UInt8 := ((parseNat s).filter (· < 2 ^ 8)).map UInt8.ofNat

/-- `str::parse::<u32>`. -/
def readU32 (s : String) : Option UInt32 := ((parseNat s).filter (· < 2 ^ 32)).map UInt32.ofNat

/-- `str::parse::<u64>`. -/
def readU64 (s : String) : Option UInt64 := ((parseNat s).filter (· < 2 ^ 64)).map UInt64.ofNat

/-- `str::parse::<i64>`. -/
def readI64 (s : String) : Option Int64 := (Kamino.parseI64 s).map Int64.ofInt

/-- Equality without regard to the case of ASCII letters. -/
def eqAsciiCi (arg : Bytes) (lit : String) : Bool :=
  arg.map toAsciiUppercase = (asBytes lit).map toAsciiUppercase

end Text

section Parsers

variable (printable : Char → Bool) (f64 : F64Text)

/-- `parse_int`, at the type `read` reads. -/
def parseInt {α : Type} (read : String → Option α) (bytes : Bytes) (command field : String) :
    Except CommandError α :=
  match fromUtf8 bytes with
  | none => .error (.invalidArgument command (field ++ " not utf-8"))
  | some s =>
    match read s with
    | none => .error (.invalidArgument command
        (field ++ " not a valid integer (" ++ debugStr printable s ++ ")"))
    | some n => .ok n

def parseFloat (bytes : Bytes) (command field : String) : Except CommandError UInt64 :=
  match fromUtf8 bytes with
  | none => .error (.invalidArgument command (field ++ " not utf-8"))
  | some s =>
    match f64.parse s with
    | none => .error (.invalidArgument command
        (field ++ " not a valid float (" ++ debugStr printable s ++ ")"))
    | some d => .ok d

/-- An option given for the first time. -/
def once {α β : Type} (command name : String) (current : Option α)
    (value : Except CommandError β) : Except CommandError β :=
  if current.isSome then
    .error (.conflictingOptions command (name ++ " specified more than once"))
  else value

def parsePing : List Bytes → Except CommandError Command
  | [] => .ok (.ping none)
  | [message] => .ok (.ping (some message))
  | args => .error (.wrongArity "PING" (.range 0 1) args.length)

def parseAuth : List Bytes → Except CommandError Command
  | [password] => .ok (.auth none password)
  | [username, password] => .ok (.auth (some username) password)
  | args => .error (.wrongArity "AUTH" (.range 1 2) args.length)

/-- The `AUTH` and `SETNAME` clauses of `HELLO`, in any order; the last of a kind counts. -/
def helloClauses : List Bytes → HelloArgs → Except CommandError HelloArgs
  | [], hello => .ok hello
  | tok :: rest, hello =>
    if eqAsciiCi tok "AUTH" then
      match rest with
      | user :: pass :: rest => helloClauses rest { hello with auth := some (some user, pass) }
      | _ => .error (.invalidArgument "HELLO" "AUTH requires username and password")
    else if eqAsciiCi tok "SETNAME" then
      match rest with
      | name :: rest => helloClauses rest { hello with clientName := some name }
      | [] => .error (.invalidArgument "HELLO" "SETNAME requires a value")
    else
      .error (.invalidArgument "HELLO" ("unexpected token " ++ debugStr printable (lossy tok)))

def parseHello : List Bytes → Except CommandError Command
  | [] => .ok (.hello {})
  | first :: rest =>
    if !eqAsciiCi first "AUTH" && !eqAsciiCi first "SETNAME" then do
      let version ← parseInt printable readU32 first "HELLO" "protover"
      let hello ← helloClauses printable rest { protocolVersion := some version }
      pure (.hello hello)
    else do
      let hello ← helloClauses printable (first :: rest) {}
      pure (.hello hello)

def parseBare (command : String) (cmd : Command) : List Bytes → Except CommandError Command
  | [] => .ok cmd
  | args => .error (.wrongArity command (.exactly 0) args.length)

def parseQuit : List Bytes → Except CommandError Command := parseBare "QUIT" .quit

def parseStats : List Bytes → Except CommandError Command := parseBare "STATS" .stats

def parseClusterMembers : List Bytes → Except CommandError Command :=
  parseBare "CLUSTER.MEMBERS" .clusterMembers

def parseClusterRoutingTable : List Bytes → Except CommandError Command :=
  parseBare "CLUSTER.ROUTINGTABLE" .clusterRoutingTable

def parseClusterReady : List Bytes → Except CommandError Command :=
  parseBare "CLUSTER.READY" .clusterReady

def parseInternalUpdateRouting : List Bytes → Except CommandError Command
  | [table] => .ok (.internalNodeUpdateRouting table)
  | args => .error (.wrongArity "INTERNAL.NODE.UPDATEROUTING" (.exactly 1) args.length)

def parseInternalLengthOfPart : List Bytes → Except CommandError Command
  | [partition] => do
    let part ← parseInt printable readU32 partition "INTERNAL.NODE.LENGTHOFPART" "partition_id"
    pure (.internalNodeLengthOfPart part)
  | args => .error (.wrongArity "INTERNAL.NODE.LENGTHOFPART" (.exactly 1) args.length)

def parseInternalGetWithTs : List Bytes → Except CommandError Command
  | [dmap, key] => .ok (.internalNodeGetWithTs dmap key)
  | args => .error (.wrongArity "INTERNAL.NODE.GETWITHTS" (.exactly 2) args.length)

def parseInternalMoveFragment : List Bytes → Except CommandError Command
  | [partition, type, dmap, payload] => do
    let part ← parseInt printable readU32 partition "INTERNAL.NODE.MOVEFRAGMENT" "partition_id"
    let byte ← parseInt printable readU8 type "INTERNAL.NODE.MOVEFRAGMENT" "partition_type"
    match PartitionType.fromU8 byte with
    | none => .error (.invalidArgument "INTERNAL.NODE.MOVEFRAGMENT"
        ("unknown partition_type byte " ++ toString byte.toNat))
    | some partitionType => pure (.internalNodeMoveFragment part partitionType dmap payload)
  | args => .error (.wrongArity "INTERNAL.NODE.MOVEFRAGMENT" (.exactly 4) args.length)

def putOptions : List Bytes → PutOptions → Except CommandError PutOptions
  | [], o => .ok o
  | tok :: rest, o =>
    if eqAsciiCi tok "EX" then
      match rest with
      | [] => .error (.invalidArgument "DM.PUT" "EX requires a value")
      | v :: rest => do
        let ex ← once "DM.PUT" "EX" o.ex (parseInt printable readU64 v "DM.PUT" "EX")
        putOptions rest { o with ex := some ex }
    else if eqAsciiCi tok "PX" then
      match rest with
      | [] => .error (.invalidArgument "DM.PUT" "PX requires a value")
      | v :: rest => do
        let px ← once "DM.PUT" "PX" o.px (parseInt printable readU64 v "DM.PUT" "PX")
        putOptions rest { o with px := some px }
    else if eqAsciiCi tok "EXAT" then
      match rest with
      | [] => .error (.invalidArgument "DM.PUT" "EXAT requires a value")
      | v :: rest => do
        let exat ← once "DM.PUT" "EXAT" o.exat (parseInt printable readU64 v "DM.PUT" "EXAT")
        putOptions rest { o with exat := some exat }
    else if eqAsciiCi tok "PXAT" then
      match rest with
      | [] => .error (.invalidArgument "DM.PUT" "PXAT requires a value")
      | v :: rest => do
        let pxat ← once "DM.PUT" "PXAT" o.pxat (parseInt printable readU64 v "DM.PUT" "PXAT")
        putOptions rest { o with pxat := some pxat }
    else if eqAsciiCi tok "NX" then putOptions rest { o with nx := true }
    else if eqAsciiCi tok "XX" then putOptions rest { o with xx := true }
    else if eqAsciiCi tok "TS" then
      match rest with
      | [] => .error (.invalidArgument "DM.PUT" "TS requires a value")
      | v :: rest => do
        let ts ← once "DM.PUT" "TS" o.timestamp (parseInt printable readI64 v "DM.PUT" "TS")
        putOptions rest { o with timestamp := some ts }
    else
      .error (.invalidArgument "DM.PUT" ("unknown option " ++ debugStr printable (lossy tok)))

def expiryCount (o : PutOptions) : ℕ :=
  ([o.ex.isSome, o.px.isSome, o.exat.isSome, o.pxat.isSome].filter id).length

def parseDmPut : List Bytes → Except CommandError Command
  | dmap :: key :: value :: rest => do
    let o ← putOptions printable rest {}
    if o.nx && o.xx then
      .error (.conflictingOptions "DM.PUT" "NX and XX are mutually exclusive")
    else if 1 < expiryCount o then
      .error (.conflictingOptions "DM.PUT" "EX, PX, EXAT and PXAT are mutually exclusive")
    else pure (.dmPut dmap key value o)
  | args => .error (.wrongArity "DM.PUT" (.atLeast 3) args.length)

def parseDmGet : List Bytes → Except CommandError Command
  | [dmap, key] => .ok (.dmGet dmap key)
  | args => .error (.wrongArity "DM.GET" (.exactly 2) args.length)

def parseDmDel : List Bytes → Except CommandError Command
  | dmap :: key :: keys => .ok (.dmDel dmap (key :: keys))
  | args => .error (.wrongArity "DM.DEL" (.atLeast 2) args.length)

/-- A verb with a DMap, a key and a number. -/
def parseNumbered {α : Type} (read : String → Option α) (command field : String)
    (cmd : Bytes → Bytes → α → Command) : List Bytes → Except CommandError Command
  | [dmap, key, raw] => do
    let n ← parseInt printable read raw command field
    pure (cmd dmap key n)
  | args => .error (.wrongArity command (.exactly 3) args.length)

def parseDmExpire : List Bytes → Except CommandError Command :=
  parseNumbered printable readU64 "DM.EXPIRE" "seconds" .dmExpire

def parseDmPexpire : List Bytes → Except CommandError Command :=
  parseNumbered printable readU64 "DM.PEXPIRE" "milliseconds" .dmPexpire

def parseDmIncr : List Bytes → Except CommandError Command :=
  parseNumbered printable readI64 "DM.INCR" "delta" .dmIncr

def parseDmDecr : List Bytes → Except CommandError Command :=
  parseNumbered printable readI64 "DM.DECR" "delta" .dmDecr

def parseDmGetput : List Bytes → Except CommandError Command
  | [dmap, key, value] => .ok (.dmGetPut dmap key value)
  | args => .error (.wrongArity "DM.GETPUT" (.exactly 3) args.length)

def parseDmIncrbyfloat : List Bytes → Except CommandError Command
  | [dmap, key, raw] => do
    let delta ← parseFloat printable f64 raw "DM.INCRBYFLOAT" "delta"
    pure (.dmIncrByFloat dmap key delta)
  | args => .error (.wrongArity "DM.INCRBYFLOAT" (.exactly 3) args.length)

def parseDmDestroy : List Bytes → Except CommandError Command
  | [dmap] => .ok (.dmDestroy dmap)
  | args => .error (.wrongArity "DM.DESTROY" (.exactly 1) args.length)

def scanOptions : List Bytes → ScanCommandOptions → Except CommandError ScanCommandOptions
  | [], o => .ok o
  | tok :: rest, o =>
    if eqAsciiCi tok "MATCH" then
      match rest with
      | [] => .error (.invalidArgument "DM.SCAN" "MATCH requires a pattern")
      | pat :: rest => do
        let pat ← once "DM.SCAN" "MATCH" o.matchPattern (.ok pat)
        scanOptions rest { o with matchPattern := some pat }
    else if eqAsciiCi tok "COUNT" then
      match rest with
      | [] => .error (.invalidArgument "DM.SCAN" "COUNT requires a value")
      | v :: rest => do
        let count ← once "DM.SCAN" "COUNT" o.count (parseInt printable readU32 v "DM.SCAN" "COUNT")
        scanOptions rest { o with count := some count }
    else
      .error (.invalidArgument "DM.SCAN" ("unknown option " ++ debugStr printable (lossy tok)))

def parseDmScan : List Bytes → Except CommandError Command
  | partition :: dmap :: cursor :: rest => do
    let part ← parseInt printable readU32 partition "DM.SCAN" "partID"
    let cursor ← parseInt printable readU64 cursor "DM.SCAN" "cursor"
    let o ← scanOptions printable rest {}
    pure (.dmScan part dmap cursor o)
  | args => .error (.wrongArity "DM.SCAN" (.atLeast 3) args.length)

def parseMessage (command : String) (cmd : Bytes → Bytes → Command) :
    List Bytes → Except CommandError Command
  | [channel, message] => .ok (cmd channel message)
  | args => .error (.wrongArity command (.exactly 2) args.length)

def parseInternalPublish : List Bytes → Except CommandError Command :=
  parseMessage "INTERNAL.NODE.PUBLISH" .internalNodePublish

def parsePublish : List Bytes → Except CommandError Command := parseMessage "PUBLISH" .publish

def parseChannels (command : String) (cmd : List Bytes → Command) :
    List Bytes → Except CommandError Command
  | [] => .error (.wrongArity command (.atLeast 1) 0)
  | channel :: channels => .ok (cmd (channel :: channels))

def parseSubscribe : List Bytes → Except CommandError Command :=
  parseChannels "SUBSCRIBE" .subscribe

def parsePsubscribe : List Bytes → Except CommandError Command :=
  parseChannels "PSUBSCRIBE" .psubscribe

def parsePubsub : List Bytes → Except CommandError Command
  | [] => .error (.wrongArity "PUBSUB" (.atLeast 1) 0)
  | sub :: rest =>
    if eqAsciiCi sub "CHANNELS" then
      match rest with
      | [] => .ok (.pubsubChannels none)
      | [pattern] => .ok (.pubsubChannels (some pattern))
      -- The count stands for any number above one.
      | _ => .error (.wrongArity "PUBSUB CHANNELS" (.range 0 1) 2)
    else if eqAsciiCi sub "NUMSUB" then .ok (.pubsubNumsub rest)
    else if eqAsciiCi sub "NUMPAT" then
      match rest with
      | [] => .ok .pubsubNumpat
      | _ => .error (.wrongArity "PUBSUB NUMPAT" (.exactly 0) 1)
    else
      .error (.invalidArgument "PUBSUB" ("unknown subcommand " ++ debugStr printable (lossy sub)))

end Parsers

inductive Verb where
  | ping | auth | hello | quit | stats
  | dmPut | dmGet | dmDel | dmExpire | dmPexpire | dmIncr | dmDecr | dmGetput | dmIncrbyfloat
  | dmDestroy | dmScan
  | clusterMembers | clusterRoutingTable | clusterReady
  | internalUpdateRouting | internalLengthOfPart | internalGetWithTs | internalMoveFragment
  | internalPublish
  | subscribe | psubscribe | unsubscribe | punsubscribe | publish | pubsub
  deriving DecidableEq

namespace Verb

def name : Verb → String
  | ping => "PING"
  | auth => "AUTH"
  | hello => "HELLO"
  | quit => "QUIT"
  | stats => "STATS"
  | dmPut => "DM.PUT"
  | dmGet => "DM.GET"
  | dmDel => "DM.DEL"
  | dmExpire => "DM.EXPIRE"
  | dmPexpire => "DM.PEXPIRE"
  | dmIncr => "DM.INCR"
  | dmDecr => "DM.DECR"
  | dmGetput => "DM.GETPUT"
  | dmIncrbyfloat => "DM.INCRBYFLOAT"
  | dmDestroy => "DM.DESTROY"
  | dmScan => "DM.SCAN"
  | clusterMembers => "CLUSTER.MEMBERS"
  | clusterRoutingTable => "CLUSTER.ROUTINGTABLE"
  | clusterReady => "CLUSTER.READY"
  | internalUpdateRouting => "INTERNAL.NODE.UPDATEROUTING"
  | internalLengthOfPart => "INTERNAL.NODE.LENGTHOFPART"
  | internalGetWithTs => "INTERNAL.NODE.GETWITHTS"
  | internalMoveFragment => "INTERNAL.NODE.MOVEFRAGMENT"
  | internalPublish => "INTERNAL.NODE.PUBLISH"
  | subscribe => "SUBSCRIBE"
  | psubscribe => "PSUBSCRIBE"
  | unsubscribe => "UNSUBSCRIBE"
  | punsubscribe => "PUNSUBSCRIBE"
  | publish => "PUBLISH"
  | pubsub => "PUBSUB"

/-- In the order `parse` tries them. -/
def all : List Verb :=
  [ping, auth, hello, quit, stats, dmPut, dmGet, dmDel, dmExpire, dmPexpire, dmIncr, dmDecr,
    dmGetput, dmIncrbyfloat, dmDestroy, dmScan, clusterMembers, clusterRoutingTable, clusterReady,
    internalUpdateRouting, internalLengthOfPart, internalGetWithTs, internalMoveFragment,
    internalPublish, subscribe, psubscribe, unsubscribe, punsubscribe, publish, pubsub]

/-- The verb in the first 32 bytes of an argument, in upper case. -/
def ofBytes (b : Bytes) : Option Verb :=
  all.find? fun v => asBytes v.name = (b.take 32).map toAsciiUppercase

variable (printable : Char → Bool) (f64 : F64Text)

def parse : Verb → List Bytes → Except CommandError Command
  | ping => parsePing
  | auth => parseAuth
  | hello => parseHello printable
  | quit => parseQuit
  | stats => parseStats
  | dmPut => parseDmPut printable
  | dmGet => parseDmGet
  | dmDel => parseDmDel
  | dmExpire => parseDmExpire printable
  | dmPexpire => parseDmPexpire printable
  | dmIncr => parseDmIncr printable
  | dmDecr => parseDmDecr printable
  | dmGetput => parseDmGetput
  | dmIncrbyfloat => parseDmIncrbyfloat printable f64
  | dmDestroy => parseDmDestroy
  | dmScan => parseDmScan printable
  | clusterMembers => parseClusterMembers
  | clusterRoutingTable => parseClusterRoutingTable
  | clusterReady => parseClusterReady
  | internalUpdateRouting => parseInternalUpdateRouting
  | internalLengthOfPart => parseInternalLengthOfPart printable
  | internalGetWithTs => parseInternalGetWithTs
  | internalMoveFragment => parseInternalMoveFragment printable
  | internalPublish => parseInternalPublish
  | subscribe => parseSubscribe
  | psubscribe => parsePsubscribe
  | unsubscribe => fun channels => .ok (.unsubscribe channels)
  | punsubscribe => fun patterns => .ok (.punsubscribe patterns)
  | publish => parsePublish
  | pubsub => parsePubsub printable

end Verb

def bulkArg : Frame → Except CommandError Bytes
  | .bulk (some b) => .ok b
  | .bulk none => .error (.invalidArgument "<unknown>" "null bulk in command array")
  | _ => .error .notAnArray

namespace Command

variable (printable : Char → Bool) (f64 : F64Text)

def ofArgs (verb : Bytes) (args : List Bytes) : Except CommandError Command :=
  match Verb.ofBytes verb with
  | none => .error (.unknownCommand (lossy verb))
  | some v => v.parse printable f64 args

def parse (frame : Frame) : Except CommandError Command :=
  match frame with
  | .array (some (item :: items)) => do
    let verb ← bulkArg item
    let args ← items.mapM bulkArg
    ofArgs printable f64 verb args
  | _ => .error .notAnArray

def optionParts (name : String) (value : Option Bytes) : List Bytes :=
  match value with
  | none => []
  | some v => [asBytes name, v]

def flagParts (name : String) (flag : Bool) : List Bytes := if flag then [asBytes name] else []

def natText (n : ℕ) : Bytes := asBytes (toString n)

def putOptionsParts (o : PutOptions) : List Bytes :=
  optionParts "EX" (o.ex.map fun s => natText s.toNat) ++
    (optionParts "PX" (o.px.map fun ms => natText ms.toNat) ++
    (optionParts "EXAT" (o.exat.map fun s => natText s.toNat) ++
    (optionParts "PXAT" (o.pxat.map fun ms => natText ms.toNat) ++
    (flagParts "NX" o.nx ++
    (flagParts "XX" o.xx ++
    optionParts "TS" (o.timestamp.map fun ts => asBytes (toString ts.toInt)))))))

def authParts : Option (Option Bytes × Bytes) → List Bytes
  | none => []
  | some (user, pass) => [asBytes "AUTH", user.getD (asBytes "default"), pass]

def helloParts (args : HelloArgs) : List Bytes :=
  args.protocolVersion.toList.map (fun v => natText v.toNat) ++
    (authParts args.auth ++ optionParts "SETNAME" args.clientName)

def scanOptionsParts (o : ScanCommandOptions) : List Bytes :=
  optionParts "MATCH" o.matchPattern ++ optionParts "COUNT" (o.count.map fun c => natText c.toNat)

/-- What `to_frame` prints: the verb and its arguments. -/
def parts : Command → List Bytes
  | ping message => asBytes "PING" :: message.toList
  | auth username password => asBytes "AUTH" :: (username.toList ++ [password])
  | hello args => asBytes "HELLO" :: helloParts args
  | quit => [asBytes "QUIT"]
  | stats => [asBytes "STATS"]
  | dmPut dmap key value o => asBytes "DM.PUT" :: dmap :: key :: value :: putOptionsParts o
  | dmGet dmap key => [asBytes "DM.GET", dmap, key]
  | dmDel dmap keys => asBytes "DM.DEL" :: dmap :: keys
  | dmExpire dmap key seconds => [asBytes "DM.EXPIRE", dmap, key, natText seconds.toNat]
  | dmPexpire dmap key milliseconds =>
    [asBytes "DM.PEXPIRE", dmap, key, natText milliseconds.toNat]
  | dmIncr dmap key delta => [asBytes "DM.INCR", dmap, key, asBytes (toString delta.toInt)]
  | dmDecr dmap key delta => [asBytes "DM.DECR", dmap, key, asBytes (toString delta.toInt)]
  | dmGetPut dmap key value => [asBytes "DM.GETPUT", dmap, key, value]
  | dmIncrByFloat dmap key delta =>
    [asBytes "DM.INCRBYFLOAT", dmap, key, asBytes (displayDouble f64 delta)]
  | dmDestroy dmap => [asBytes "DM.DESTROY", dmap]
  | dmScan part dmap cursor o => asBytes "DM.SCAN" :: natText part.toNat :: dmap ::
      natText cursor.toNat :: scanOptionsParts o
  | clusterMembers => [asBytes "CLUSTER.MEMBERS"]
  | clusterRoutingTable => [asBytes "CLUSTER.ROUTINGTABLE"]
  | clusterReady => [asBytes "CLUSTER.READY"]
  | internalNodeUpdateRouting table => [asBytes "INTERNAL.NODE.UPDATEROUTING", table]
  | internalNodeLengthOfPart part =>
    [asBytes "INTERNAL.NODE.LENGTHOFPART", natText part.toNat]
  | internalNodeGetWithTs dmap key => [asBytes "INTERNAL.NODE.GETWITHTS", dmap, key]
  | internalNodeMoveFragment part type dmap payload =>
    [asBytes "INTERNAL.NODE.MOVEFRAGMENT", natText part.toNat, natText type.asU8.toNat, dmap,
      payload]
  | internalNodePublish channel message => [asBytes "INTERNAL.NODE.PUBLISH", channel, message]
  | subscribe channels => asBytes "SUBSCRIBE" :: channels
  | psubscribe patterns => asBytes "PSUBSCRIBE" :: patterns
  | unsubscribe channels => asBytes "UNSUBSCRIBE" :: channels
  | punsubscribe patterns => asBytes "PUNSUBSCRIBE" :: patterns
  | publish channel message => [asBytes "PUBLISH", channel, message]
  | pubsubChannels pattern => asBytes "PUBSUB" :: asBytes "CHANNELS" :: pattern.toList
  | pubsubNumsub channels => asBytes "PUBSUB" :: asBytes "NUMSUB" :: channels
  | pubsubNumpat => [asBytes "PUBSUB", asBytes "NUMPAT"]

def frameOf (parts : List Bytes) : Frame := .array (some (parts.map fun b => .bulk (some b)))

def toFrame (cmd : Command) : Frame := frameOf (cmd.parts f64)

end Command

end Kamino.Resp
