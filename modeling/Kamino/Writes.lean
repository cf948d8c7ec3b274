import Kamino.Handlers

/-!
# A client's write of one key

The commands a client writes a key with, on the node they are routed to.
-/

namespace Kamino

open Function

inductive KeyWrite where
  | put (value : Bytes) (options : PutOptions)
  | incr (delta : Int64)
  | decr (delta : Int64)
  | getPut (value : Bytes)
  | expire (seconds : UInt64)
  | pexpire (milliseconds : UInt64)

/-- The node's own store answers. -/
def onSelf (srv : Server) (c : Cluster) (r : Frame × Node) : Frame × Cluster :=
  (r.1, update c srv.self r.2)

/-- `dispatch` of a client's write. `guard` says whether the key's guard was acquired in time. -/
def dispatchWrite (env : Env) (srv : Server) (c : Cluster) (rd : Readings) (guard : Bool)
    (links : ℕ → Link) (dmap key : Bytes) : KeyWrite → Frame × Cluster
  | .put value o => dmPut env srv c rd links false dmap key value o
  | .incr delta => onSelf srv c ((c srv.self).dmIncr env guard dmap key delta rd.clk)
  | .decr delta => onSelf srv c ((c srv.self).dmDecr env guard dmap key delta rd.clk)
  | .getPut value => onSelf srv c ((c srv.self).dmGetPut env guard dmap key value rd.clk)
  | .expire seconds => onSelf srv c
      ((c srv.self).dmExpire env guard dmap key (seconds.toNat * 10 ^ 9) rd.clk)
  | .pexpire milliseconds => onSelf srv c
      ((c srv.self).dmExpire env guard dmap key (milliseconds.toNat * 10 ^ 6) rd.clk)

/-- The replies that say that the key was written. -/
def KeyWrite.succeeds : KeyWrite → Frame → Bool
  | .put .., reply => reply = .ok
  | .incr _, .integer _ | .decr _, .integer _ => true
  | .getPut _, .bulk _ => true
  | .expire _, reply | .pexpire _, reply => reply = .integer 1
  | _, _ => false

end Kamino
