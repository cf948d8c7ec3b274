import Kamino.Codec
import Mathlib.Logic.Function.Basic

/-!
# A pooled connection of the forwarder

A caller takes a permit, puts its request into the writer's queue and waits for its slot; the writer
pushes the slot onto `in_flight` and writes the request; the reader gives each frame it reads to the
slot at the front.
-/

namespace Kamino

open Function

/-- A validated configuration allows a request in flight. -/
structure ForwarderConfig where
  addr : String
  inflightPerConn : ℕ
  pos : 0 < inflightPerConn

def mapReply (frame : Resp.Frame) : Except ClusterError Resp.Frame :=
  match frame with
  | .error e =>
    if "MOVED ".toList.isPrefixOf e.toList then
      .error (.moved (String.ofList (e.toList.drop "MOVED ".length)))
    else .ok frame
  | frame => .ok frame

/-- Where a call of `send_request` stands. -/
inductive CallStage where
  | idle
  | calling
  | done (res : Except ClusterError Resp.Frame)

inductive WriterPhase where
  | idle
  | got (r : ℕ)
  /-- `terminal` was not set. -/
  | checked (r : ℕ)
  /-- The slot is on `in_flight` and the request not yet on the wire. -/
  | pushed (r : ℕ)
  | wrote
  | failing (reason : String)
  /-- `fail_all` has run and `terminal` is not yet stored. -/
  | failed
  | ended
  deriving DecidableEq

inductive ReaderPhase where
  /-- At `stream.next`. -/
  | idle
  | got (frame : Resp.Frame)
  | popped (slot : Option ℕ) (frame : Resp.Frame)
  | failing (reason : String)
  /-- `fail_all` has run and `terminal` is not yet stored. -/
  | failed
  | ended
  | aborted

inductive PoolEvent where
  | call (r : ℕ)
  | acquire (r : ℕ)
  | enqueue (r : ℕ)
  | timeout (r : ℕ) (msg : String)
  | recv
  | check
  | push
  | wire
  | sent
  | writeError (e : String)
  | channelClosed
  | writerFailAll
  | writerTerminal
  /-- The peer answers the next request. -/
  | answer (frame : Resp.Frame)
  | read
  | pop
  | deliver
  | decodeError (e : String)
  | peerClosed
  | readerFailAll
  | readerTerminal
  | shutdown
  | abortWriter
  | abortReader
  /-- Both tasks are gone, and `in_flight` with them. -/
  | dropSlots
  /-- The last handle of the connection is dropped, and the queue closes. -/
  | dropPool

structure PoolConn where
  permits : ℕ
  acquiring : List ℕ := []
  /-- Callers that hold a permit and wait for room in the queue. -/
  sending : List ℕ := []
  stage : ℕ → CallStage := fun _ => .idle
  queue : List ℕ := []
  writer : WriterPhase := .idle
  inFlight : List ℕ := []
  reader : ReaderPhase := .idle
  terminal : Bool := false
  aborting : Bool := false
  dropped : Bool := false
  /-- The requests on the wire, in order. -/
  written : List ℕ := []
  /-- What the peer answered so far. -/
  replies : List Resp.Frame := []
  /-- How many replies the reader has read. -/
  read : ℕ := 0

/-- A slot's `send`; a caller that has given up is not there to receive it. -/
def settle (stage : ℕ → CallStage) (r : ℕ) (res : Except ClusterError Resp.Frame) : ℕ → CallStage :=
  match stage r with
  | .calling => update stage r (.done res)
  | _ => stage

def settleAll (stage : ℕ → CallStage) (rs : List ℕ) (res : Except ClusterError Resp.Frame) :
    ℕ → CallStage :=
  rs.foldl (fun stage r => settle stage r res) stage

namespace PoolConn

def start (cfg : ForwarderConfig) : PoolConn := { permits := max cfg.inflightPerConn 1 }

def failAll (c : PoolConn) (reason : String) : PoolConn :=
  { c with
    stage := settleAll c.stage c.inFlight (.error (.serverGone reason))
    permits := c.permits + c.inFlight.length
    inFlight := [] }

/-- The writer's end of the queue is dropped with what is in it. -/
def dropQueue (cfg : ForwarderConfig) (c : PoolConn) : PoolConn :=
  { c with
    stage := settleAll c.stage c.queue
      (.error (.serverGone ("response slot dropped for " ++ cfg.addr)))
    permits := c.permits + c.queue.length
    queue := [] }

variable (cfg : ForwarderConfig) (c : PoolConn)

/-- The steps of `send_request`. -/
def callStep (r : ℕ) : Option PoolConn :=
  match c.stage r with
  | .idle =>
    if c.dropped then none
    else if c.terminal then
      some { c with
        stage := update c.stage r
          (.done (.error (.serverGone ("connection to " ++ cfg.addr ++ " closed")))) }
    else some { c with stage := update c.stage r .calling, acquiring := r :: c.acquiring }
  | _ => none

def acquireStep (r : ℕ) : Option PoolConn :=
  if r ∈ c.acquiring ∧ 0 < c.permits then
    some { c with
      permits := c.permits - 1
      acquiring := c.acquiring.erase r
      sending := r :: c.sending }
  else none

def enqueueStep (r : ℕ) : Option PoolConn :=
  if r ∉ c.sending then none
  else if c.writer = .ended then
    some { c with
      sending := c.sending.erase r
      permits := c.permits + 1
      stage := settle c.stage r (.error (.serverGone ("writer queue closed for " ++ cfg.addr))) }
  else if c.queue.length < max cfg.inflightPerConn 1 then
    some { c with sending := c.sending.erase r, queue := c.queue ++ [r] }
  else none

/-- The caller's future is dropped, with the permit it may hold. -/
def timeoutStep (r : ℕ) (msg : String) : Option PoolConn :=
  match c.stage r with
  | .calling =>
    some { c with
      stage := update c.stage r (.done (.error (.timeout msg)))
      acquiring := c.acquiring.erase r
      sending := c.sending.erase r
      permits := if r ∈ c.sending then c.permits + 1 else c.permits }
  | _ => none

/-- The steps of `WriterTask::run`. -/
def writerStep : WriterPhase → PoolEvent → Option PoolConn
  | .idle, .recv =>
    match c.queue with
    | r :: queue => some { c with writer := .got r, queue := queue }
    | [] => none
  | .idle, .channelClosed =>
    if c.dropped ∧ c.queue = [] then some { c with writer := .failing "writer channel closed" }
    else none
  | .got r, .check =>
    if c.terminal then
      some { c with
        writer := .idle
        permits := c.permits + 1
        stage := settle c.stage r
          (.error (.serverGone ("connection to " ++ cfg.addr ++ " closed"))) }
    else some { c with writer := .checked r }
  | .checked r, .push => some { c with writer := .pushed r, inFlight := c.inFlight ++ [r] }
  | .pushed r, .wire => some { c with writer := .wrote, written := c.written ++ [r] }
  | .wrote, .sent => some { c with writer := .idle }
  | .pushed _, .writeError e | .wrote, .writeError e =>
    some { c with writer := .failing ("write failed: " ++ e) }
  | .failing reason, .writerFailAll => some { c.failAll reason with writer := .failed }
  | .failed, .writerTerminal => some (dropQueue cfg { c with writer := .ended, terminal := true })
  | .idle, .abortWriter | .pushed _, .abortWriter | .wrote, .abortWriter =>
    if c.aborting then some (dropQueue cfg { c with writer := .ended }) else none
  | _, _ => none

/-- The steps of `ReaderTask::run`. -/
def readerStep : ReaderPhase → PoolEvent → Option PoolConn
  | .idle, .read =>
    match c.replies[c.read]? with
    | some frame => some { c with reader := .got frame, read := c.read + 1 }
    | none => none
  | .got frame, .pop =>
    some { c with reader := .popped c.inFlight.head? frame, inFlight := c.inFlight.tail }
  | .popped (some r) frame, .deliver =>
    some { c with
      reader := .idle
      permits := c.permits + 1
      stage := settle c.stage r (mapReply frame) }
  | .popped none _, .deliver => some { c with reader := .idle }
  | .idle, .decodeError e => some { c with reader := .failing ("decode error: " ++ e) }
  | .idle, .peerClosed => some { c with reader := .failing "peer closed connection" }
  | .failing reason, .readerFailAll => some { c.failAll reason with reader := .failed }
  | .failed, .readerTerminal => some { c with reader := .ended, terminal := true }
  | .idle, .abortReader => if c.aborting then some { c with reader := .aborted } else none
  | _, _ => none

def dropSlotsStep : Option PoolConn :=
  match c.writer, c.reader with
  | .ended, .ended | .ended, .aborted =>
    some (c.failAll ("response slot dropped for " ++ cfg.addr))
  | _, _ => none

def step : PoolEvent → Option PoolConn
  | .call r => callStep cfg c r
  | .acquire r => acquireStep c r
  | .enqueue r => enqueueStep cfg c r
  | .timeout r msg => timeoutStep c r msg
  | .answer frame =>
    if c.replies.length < c.written.length then some { c with replies := c.replies ++ [frame] }
    else none
  | .shutdown => some { c with terminal := true, aborting := true }
  | .dropSlots => dropSlotsStep cfg c
  | .dropPool =>
    if c.acquiring = [] ∧ c.sending = [] then some { c with dropped := true } else none
  | .recv => writerStep cfg c c.writer .recv
  | .check => writerStep cfg c c.writer .check
  | .push => writerStep cfg c c.writer .push
  | .wire => writerStep cfg c c.writer .wire
  | .sent => writerStep cfg c c.writer .sent
  | .writeError e => writerStep cfg c c.writer (.writeError e)
  | .channelClosed => writerStep cfg c c.writer .channelClosed
  | .writerFailAll => writerStep cfg c c.writer .writerFailAll
  | .writerTerminal => writerStep cfg c c.writer .writerTerminal
  | .abortWriter => writerStep cfg c c.writer .abortWriter
  | .read => readerStep c c.reader .read
  | .pop => readerStep c c.reader .pop
  | .deliver => readerStep c c.reader .deliver
  | .decodeError e => readerStep c c.reader (.decodeError e)
  | .peerClosed => readerStep c c.reader .peerClosed
  | .readerFailAll => readerStep c c.reader .readerFailAll
  | .readerTerminal => readerStep c c.reader .readerTerminal
  | .abortReader => readerStep c c.reader .abortReader

def unanswered : ℕ := c.written.length - c.read

end PoolConn

end Kamino
