import Kamino.Command

/-!
# The remote client's connection

The callers of a `RemoteClient` share one connection.
-/

namespace Kamino

/-- The errors of the client's surface that `remote.rs` returns. -/
inductive RemoteError where
  | moved (partition : UInt32) (addr : String)
  | auth (msg : String)
  | invalidCursor
  | invalidArgument (msg : String)
  | notANumber (expected got : String)
  | timeout
  | noSuchLock
  | lockNotAcquired
  | server (msg : String)
  | protocol (msg : String)
  | serverGone (reason : String)
  deriving DecidableEq, Repr

inductive ConnError where
  | closed (reason : String)
  | protocol (msg : String)

def ConnError.toError : ConnError → RemoteError
  | .closed reason => .serverGone reason
  | .protocol msg => .protocol msg

namespace Remote

def commandQueueSize : ℕ := 1024

/-- A command and the slot of the call that waits for its reply. -/
structure Request where
  slot : ℕ
  cmd : Resp.Command

/-- Where a call of `send` is. -/
inductive CallState where
  /-- In `cmd_tx.send`, not in the queue yet. -/
  | sending
  | waiting
  | done (result : Except RemoteError Resp.Frame)
  | abandoned

/-- What the slot receives reaches a call that still waits. -/
def CallState.receive (result : Except RemoteError Resp.Frame) : CallState → CallState
  | .waiting => .done result
  | call => call

/-- Where the writer task is in its loop. -/
inductive Writer where
  /-- At the `select!`, about to poll the cancellation. -/
  | ready
  /-- Not cancelled when polled; about to poll the queue. -/
  | polled
  | got (r : Request)
  /-- Not cancelled when checked again; about to push the slot. -/
  | passed (r : Request)
  | writing
  /-- The write has failed; about to fail what is in flight. -/
  | failing (msg : String)
  | cancelling
  /-- Out of the loop. -/
  | leaving
  /-- All done but for the drop of the queue's receiver. -/
  | returning
  | stopped

inductive Reader where
  | ready
  | got (frame : Resp.Frame)
  | holding (slot : ℕ) (frame : Resp.Frame)
  | failing (e : ConnError)
  | cancelling
  | stopped

structure Conn where
  calls : ℕ → Option (Resp.Command × CallState)
  queue : List Request
  inFlight : List ℕ
  cancelled : Bool
  /-- Some handle of the client is left. -/
  senders : Bool
  writer : Writer
  reader : Reader
  /-- The requests written, in order. One counts from the push of its slot on: the server may answer
  it before the write is over. -/
  wire : List Request
  /-- How many frames the reader has got. -/
  taken : ℕ

inductive Event where
  | call (id : ℕ) (cmd : Resp.Command)
  | enqueue (id : ℕ)
  | abandon (id : ℕ)
  | dropClient
  | writer
  | writeError (msg : String)
  | frame
  | decodeError (msg : String)
  | serverClose
  | reader
  | idle

namespace Conn

def init : Conn where
  calls _ := none
  queue := []
  inFlight := []
  cancelled := false
  senders := true
  writer := .ready
  reader := .ready
  wire := []
  taken := 0

variable (s : Conn)

/-- The slots receive `result`. -/
def answer (slots : List ℕ) (result : Except RemoteError Resp.Frame) : Conn :=
  { s with calls := fun id =>
      if id ∈ slots then (s.calls id).map fun call => (call.1, call.2.receive result)
      else s.calls id }

def failAll (e : ConnError) : Conn :=
  { s.answer s.inFlight (.error e.toError) with inFlight := [] }

/-- `cmd_rx` is dropped, and with it the slots in it. -/
def dropQueue : Conn :=
  { s.answer (s.queue.map (·.slot)) (.error (.serverGone "response slot dropped")) with
    queue := [] }

def setCall (id : ℕ) (cmd : Resp.Command) (call : CallState) : Conn :=
  { s with calls := Function.update s.calls id (some (cmd, call)) }

/-- `cmd_tx.send`, once it need not wait. -/
def enqueue (id : ℕ) : Option Conn :=
  match s.calls id, s.writer with
  | some (cmd, .sending), .stopped =>
    some (s.setCall id cmd (.done (.error (.serverGone "writer queue closed"))))
  | some (cmd, .sending), _ =>
    if s.queue.length < commandQueueSize then
      some { s with
        calls := Function.update s.calls id (some (cmd, .waiting))
        queue := s.queue ++ [⟨id, cmd⟩] }
    else none
  | _, _ => none

def writerStep : Option Conn :=
  match s.writer with
  | .ready => some { s with writer := if s.cancelled then .leaving else .polled }
  | .polled =>
    match s.queue with
    | r :: rest => some { s with queue := rest, writer := .got r }
    | [] => some { s with writer := if s.senders then .ready else .leaving }
  | .got r =>
    if s.cancelled then
      some { s.answer [r.slot] (.error (.serverGone "server closed connection")) with
        writer := .ready }
    else some { s with writer := .passed r }
  | .passed r =>
    some { s with inFlight := s.inFlight ++ [r.slot], wire := s.wire ++ [r], writer := .writing }
  | .writing => some { s with writer := .ready }
  | .failing msg => some { s.failAll (.protocol msg) with writer := .cancelling }
  | .cancelling => some { s with cancelled := true, writer := .returning }
  | .leaving =>
    let reason := if s.cancelled then "server closed connection" else "client dropped"
    some { s.failAll (.closed reason) with writer := .returning }
  | .returning => some { s.dropQueue with writer := .stopped }
  | .stopped => none

def readerStep : Option Conn :=
  match s.reader with
  | .got frame =>
    match s.inFlight with
    | slot :: rest => some { s with inFlight := rest, reader := .holding slot frame }
    -- No slot matches the frame, which is discarded.
    | [] => some { s with reader := .ready }
  | .holding slot frame => some { s.answer [slot] (.ok frame) with reader := .ready }
  | .failing e => some { s.failAll e with reader := .cancelling }
  | .cancelling => some { s with cancelled := true, reader := .stopped }
  | .ready | .stopped => none

/-- What the reader's `stream.next()` gives it. -/
def receive (next : Reader) (frames : ℕ) : Option Conn :=
  match s.reader with
  | .ready => some { s with reader := next, taken := s.taken + frames }
  | _ => none

def step (answers : ℕ → Resp.Frame) : Event → Option Conn
  | .call id cmd =>
    match s.calls id with
    | none => if s.senders then some (s.setCall id cmd .sending) else none
    | some _ => none
  | .enqueue id => s.enqueue id
  | .abandon id =>
    match s.calls id with
    | some (cmd, .sending) | some (cmd, .waiting) => some (s.setCall id cmd .abandoned)
    | _ => none
  | .dropClient => some { s with senders := false }
  | .writer => s.writerStep
  | .writeError msg =>
    match s.writer with
    | .writing => some { s with writer := .failing msg }
    | _ => none
  -- An answer comes once its request is on the wire.
  | .frame => if s.taken < s.wire.length then s.receive (.got (answers s.taken)) 1 else none
  | .decodeError msg => s.receive (.failing (.protocol msg)) 0
  | .serverClose => s.receive (.failing (.closed "server closed connection")) 0
  | .reader => s.readerStep
  | .idle => some s

end Conn

end Remote

end Kamino
