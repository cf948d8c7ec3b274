import Kamino.KeyOps
import Kamino.RamBlock

/-!
# A DMap on the in-memory engine

The operations on a key over a `RamBlock` instead of what an engine's contract says a fragment
holds. The calls come one after another, so that a guard is acquired at once.
-/

namespace Kamino

structure EngineDMap where
  engine : RamBlock
  monotonicTs : Int64

/-- A call on a key, and what it reads off the clock. -/
structure KeyCall where
  key : Bytes
  op : KeyOp
  clk : ℕ → UInt64

namespace EngineDMap

def new (tableCapacity : ℕ) (maxGarbageRatio : ℚ) : EngineDMap :=
  ⟨.new tableCapacity maxGarbageRatio, 0⟩

def handle : Prog.Handler FragmentReq FragmentReq.Answer EngineDMap
  | .get hkey, d => (d.engine.get hkey, d)
  | .put hkey entry, d =>
    let (r, engine) := d.engine.put hkey entry
    (r, { d with engine })
  | .delete hkey, d =>
    let (r, engine) := d.engine.delete hkey
    (r, { d with engine })
  | .nextStamp now, d =>
    let ts := nextLwwTimestamp d.monotonicTs now
    (ts, { d with monotonicTs := ts })
  | .observeStamp ts, d => ((), { d with monotonicTs := max d.monotonicTs ts })

variable (env : Env) (ttl : Option ℕ)

def call (d : EngineDMap) (c : KeyCall) : Except ClientError KeyAnswer × EngineDMap :=
  KeyTask.exec handle d (c.op.task env ttl c.key c.clk)

def answers : EngineDMap → List KeyCall → List (KeyCall × Except ClientError KeyAnswer)
  | _, [] => []
  | d, c :: cs => (c, (d.call env ttl c).1) :: answers (d.call env ttl c).2 cs

end EngineDMap

end Kamino
