import Kamino.KeyCalls
import Kamino.KeyOps

/-!
# Concurrent read-modify-writes of one key

Any number of tasks, each with one `incr`, `decr`, `get_put` or `expire` call on the same key of a
DMap.
-/

namespace Kamino

open Function

/-- The operations that run under the key's guard. -/
def KeyOp.takesGuard : KeyOp → Bool
  | incr _ | decr _ | getPut _ | expire _ => true
  | put _ _ | get | delete => false

/-- The key, and each task's call with what it reads off the clock. -/
structure RmwConfig where
  env : Env
  name : String
  key : Bytes
  op : ℕ → KeyOp
  clk : ℕ → ℕ → UInt64
  takesGuard : ∀ t, (op t).takesGuard = true

abbrev KeyResult := Except ClientError KeyAnswer

inductive RmwStage where
  | idle
  | locking
  /-- What is left of the operation's program. -/
  | running (rest : Prog FragmentReq FragmentReq.Answer KeyResult)
  /-- The operation has its result, and the guard is being dropped. -/
  | leaving (result : KeyResult)
  | done (result : KeyResult)

structure RmwState where
  dmap : DMap
  locker : Locker
  stage : ℕ → RmwStage

inductive RmwEvent where
  | start (t : ℕ)
  | locker (e : LockerEvent)
  /-- One atomic step of the operation. -/
  | request (t : ℕ)
  /-- The operation has no more requests to make. -/
  | result (t : ℕ)
  | finish (t : ℕ)

namespace RmwStage

def isRunning : RmwStage → Bool
  | running _ => true
  | _ => false

def result? : RmwStage → Option KeyResult
  | leaving r | done r => some r
  | _ => none

end RmwStage

namespace RmwConfig

def lockName (cfg : RmwConfig) : LockName := (cfg.name, cfg.key)

def program (cfg : RmwConfig) (ttl : Option ℕ) (t : ℕ) :
    Prog FragmentReq FragmentReq.Answer KeyResult :=
  ((cfg.op t).task cfg.env ttl cfg.key (cfg.clk t)).run

end RmwConfig

/-- What a locker step does to the call of its task. -/
def RmwStage.onLocker (name : LockName) (program : Prog FragmentReq FragmentReq.Answer KeyResult) :
    RmwStage → LockerEvent → Option RmwStage
  | locking, .lookup _ name' => if name' = name then some locking else none
  | locking, .count _ => some locking
  | locking, .lock _ => some (running program)
  | leaving r, .sub _ | leaving r, .reapLock _ | leaving r, .reapLoad _ | leaving r, .reapRemove _
  | leaving r, .release _ => some (leaving r)
  | _, _ => none

namespace RmwState

def new (dmap : DMap) : RmwState := ⟨dmap, .new, fun _ => .idle⟩

def goto (s : RmwState) (t : ℕ) (stage : RmwStage) : RmwState :=
  { s with stage := update s.stage t stage }

def step (cfg : RmwConfig) (s : RmwState) : RmwEvent → Option RmwState
  | .start t =>
    match s.stage t with
    | .idle => some (s.goto t .locking)
    | _ => none
  | .locker e =>
    match s.locker.step e with
    | none => none
    | some locker =>
      match (s.stage e.task).onLocker cfg.lockName (cfg.program s.dmap.options.ttl e.task) e with
      | none => none
      | some stage => some ({ s with locker }.goto e.task stage)
  | .request t =>
    match s.stage t with
    | .running (.ask i k) =>
      let (answer, dmap) := DMap.handle i s.dmap
      some ({ s with dmap }.goto t (.running (k answer)))
    | _ => none
  | .result t =>
    match s.stage t with
    | .running (.ret r) => some (s.goto t (.leaving r))
    | _ => none
  | .finish t =>
    match s.stage t with
    | .leaving r => if s.locker.pc t = .idle then some (s.goto t (.done r)) else none
    | _ => none

/-- At most one task has a guard for the key. -/
def Exclusive (cfg : RmwConfig) (s : RmwState) : Prop :=
  ∀ t t', s.locker.Guards t cfg.lockName → s.locker.Guards t' cfg.lockName → t = t'

/-- No call under way reads the clock past the expiry of the key's entry. -/
def Fresh (cfg : RmwConfig) (s : RmwState) : Prop :=
  ∀ t, (s.stage t).isRunning = true →
    ∀ e, s.dmap.fragment.lookup (cfg.env.hash64 cfg.key) = some e →
    ∀ n, e.isExpired (microsToNanosI64 (cfg.clk t n)) = false

end RmwState

end Kamino
