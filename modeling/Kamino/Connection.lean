import Kamino.Handlers

/-!
# The connection loop

`run_connection` takes up a frame of the client's or a message for one of its subscriptions, sends
the replies one after the other and goes on.
-/

namespace Kamino.Resp

/-- `Command::parse`, with the text of its error. -/
def Command.parseText (printable : Char → Bool) (f64 : F64Text) (frame : Frame) :
    Except String Command :=
  (Command.parse printable f64 frame).mapError CommandError.text

def deliverMessageFrame (msg : PubSub.DeliveredMessage) (version : ProtocolVersion) : Frame :=
  let items : List Frame := match msg.pattern with
    | none => [World.text "message", .bulk (some msg.channel), .bulk (some msg.payload)]
    | some p => [World.text "pmessage", .bulk (some p), .bulk (some msg.channel),
        .bulk (some msg.payload)]
  match version with
  | .resp3 => .push items
  | .resp2 => .array (some items)

inductive Incoming (P : Type) where
  | frame (frame : Frame) (world : World P)
  | message (msg : PubSub.DeliveredMessage)

/-- What a turn sends, and the connection after it has been sent, unless it is closed then. -/
structure Turn where
  replies : List Frame
  next : Option Session

namespace Session

variable {P : Type} (printable : Char → Bool) (f64 : F64Text) (ctx : ServerContext) (st : Session)

def turn : Incoming P → Turn
  | .frame frame w =>
    let served := serve (World.backend ctx f64) ctx st (Command.parseText printable f64) frame w
    ⟨served.frames, if served.closed then none else some served.session⟩
  -- The loop listens for messages in pub/sub mode only.
  | .message msg =>
    ⟨if st.inPubsubMode then [deliverMessageFrame msg st.version] else [], some st⟩

def step (i : Incoming P) : Option Session :=
  let t := st.turn printable f64 ctx i
  match encodeItems f64 st.version t.replies [] with
  | (.ok (), _) => t.next
  | (.error _, _) => none

end Session

end Kamino.Resp
