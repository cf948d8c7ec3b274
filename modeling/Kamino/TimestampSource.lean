import Kamino.Options
import Kamino.Lib.Runs

/-!
# The primary's timestamp source

`TimestampSource` under any number of tasks. `next` loads the last stamp and tries to exchange it
for a later one until it succeeds; `observe` raises it in one step.
-/

namespace Kamino

open Function

/-- A call of `next` under way: its reading of the wall clock, the stamp it has loaded, and the
stamps that calls finished before it had returned or observed. -/
structure NextCall where
  wall : ℕ
  prev : Option Int64
  earlier : List Int64

structure TimestampSource where
  last : Int64
  calls : ℕ → Option NextCall
  /-- What `next` returned, each with the stamps of the calls finished before it. -/
  returned : List (Int64 × List Int64)
  /-- The stamps returned or observed so far. -/
  finished : List Int64

namespace TimestampSource

def new : TimestampSource := ⟨0, fun _ => none, [], []⟩

inductive Event where
  | next (task wall : ℕ)
  | load (task : ℕ)
  | compareExchangeWeak (task : ℕ) (spurious : Bool)
  | observe (observed : Int64)

variable (s : TimestampSource)

def setCall (task : ℕ) (call : NextCall) : TimestampSource :=
  { s with calls := update s.calls task (some call) }

def step : Event → Option TimestampSource
  | .next task wall =>
    match s.calls task with
    | none => some (s.setCall task ⟨wall, none, s.finished⟩)
    | some _ => none
  | .load task =>
    match s.calls task with
    | some ⟨wall, none, earlier⟩ => some (s.setCall task ⟨wall, some s.last, earlier⟩)
    | _ => none
  | .compareExchangeWeak task spurious =>
    match s.calls task with
    | some ⟨wall, some prev, earlier⟩ =>
      if s.last = prev ∧ ¬ spurious then
        let candidate := nextLwwTimestamp prev (i64OrMax wall)
        some ⟨candidate, update s.calls task none, (candidate, earlier) :: s.returned,
          candidate :: s.finished⟩
      else some (s.setCall task ⟨wall, none, earlier⟩)
    | _ => none
  | .observe observed =>
    some { s with last := max s.last observed, finished := observed :: s.finished }

/-- Every stamp is above those of the calls finished before its own began, and no two are equal. -/
def Strict : Prop :=
  (∀ p ∈ s.returned, ∀ x ∈ p.2, x < p.1) ∧ (s.returned.map Prod.fst).Nodup

end TimestampSource

end Kamino
