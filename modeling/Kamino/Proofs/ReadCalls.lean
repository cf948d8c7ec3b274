import Kamino.Proofs.KeyCalls

/-!
# Reads that write

`get` deletes an entry it found expired and writes back the one it found live, each in a step after
its read. Beside the calls runs a shadow of the cell that `get` does not change.
-/

namespace Kamino

open Function Runs

def Entry.core (e : Entry) : Bytes × Int64 × Int64 × Bytes :=
  (e.key, e.ttlNanos, e.timestampNanos, e.value)

theorem Entry.isExpired_congr {e e' : Entry} (h : e.core = e'.core) (now : Int64) :
    e.isExpired now = e'.isExpired now := by
  unfold Entry.core at h
  simp only [Prod.mk.injEq] at h
  unfold Entry.isExpired
  rw [h.2.1]

/-- The calls on a key, with what the steps of `put` and `delete` alone make of the cell and the
clock readings so far. -/
structure Shadowed where
  state : KeyState
  shadow : Option Entry
  readings : List Int64

namespace Shadowed

def new (cell : Option Entry) (ts : Int64) : Shadowed := ⟨.new cell ts, cell, []⟩

/-- What a step does to the shadow: nothing if it is a `get`'s. -/
def cast (s : KeyState) (shadow : Option Entry) : KeyEvent → Option Entry
  | .write t =>
    match s.calls t with
    | some (.get, _) => shadow
    | some (_, .writing entry) => if entry.Encodable then some entry else shadow
    | _ => shadow
  | .lazyDelete t =>
    match s.calls t with
    | some (.get, _) => shadow
    | _ => none
  | .remove _ | .evict _ => none
  | _ => shadow

def step (cfg : KeyConfig) (x : Shadowed) (ev : KeyEvent) : Option Shadowed :=
  match x.state.step cfg ev with
  | none => none
  | some s => some {
      state := s
      shadow := cast x.state x.shadow ev
      readings := match ev with
        | .read _ micros => microsToNanosI64 micros :: x.readings
        | _ => x.readings }

def Touching : Option (Call × Stage) → Prop
  | some (.get, .checked _) | some (.get, .writing _) => True
  | _ => False

def Reading : Option (Call × Stage) → Prop
  | some (.get, .checked _) | some (.get, .writing _) | some (.get, .expired _ _) => True
  | _ => False

/-- Clients get, put and delete; no `put` writes while a `get` is between its read and its last
step, and no step of a `put` or a `delete` removes while a `get` is between its read and its write
back. -/
def ReadStep (x : Shadowed) : KeyEvent → Prop
  | .start _ call => call = .get ∨ (∃ value o, call = .put value o) ∨ call = .delete
  | .write t => ∀ value o entry, x.state.calls t = some (.put value o, .writing entry) →
      ∀ t', ¬ Reading (x.state.calls t')
  | .lazyDelete t => ∀ value o e now, x.state.calls t = some (.put value o, .expired e now) →
      ∀ t', ¬ Touching (x.state.calls t')
  | .remove _ | .evict _ => ∀ t', ¬ Touching (x.state.calls t')
  | _ => True

/-- The cell is the shadow but for its access time, or is empty where the shadow's entry is
expired. -/
def Agrees (x : Shadowed) : Prop :=
  x.state.cell.map Entry.core = x.shadow.map Entry.core ∨
    x.state.cell = none ∧ ∃ e now, x.shadow = some e ∧ now ∈ x.readings ∧ e.isExpired now = true

def Knows (shadow : Option Entry) (readings : List Int64) : Stage → Prop
  | .ready => True
  | .expired _ now => now ∈ readings ∧ ∀ e, shadow = some e → e.isExpired now = true
  | .checked existing => ∃ e, existing = some e ∧ shadow.map Entry.core = some e.core
  | .writing e => shadow.map Entry.core = some e.core
  | _ => False

def CallOk (shadow : Option Entry) (readings : List Int64) : Option (Call × Stage) → Prop
  | some (.get, stage) => Knows shadow readings stage
  | some (.delete, stage) => stage = .deleting
  | some (.put _ _, _) | none => True
  | _ => False

structure Inv (x : Shadowed) : Prop where
  agrees : x.Agrees
  calls : ∀ t, CallOk x.shadow x.readings (x.state.calls t)

theorem Inv.new (cell : Option Entry) (ts : Int64) : (new cell ts).Inv :=
  ⟨.inl rfl, fun _ => trivial⟩

variable {call : Call}

section Calls

variable {shadow shadow' : Option Entry} {readings : List Int64} {c : Option (Call × Stage)}

theorem CallOk.cons (h : CallOk shadow readings c) (now : Int64) :
    CallOk shadow (now :: readings) c := by
  rcases c with _ | ⟨_ | ⟨v, o⟩ | _ | ⟨token, l⟩ | token | ⟨token, d⟩, stage⟩
  case some.get =>
    rcases stage
    case expired => exact ⟨List.mem_cons_of_mem _ h.1, h.2⟩
    all_goals exact h
  all_goals exact h

theorem CallOk.of_not_reading (h : CallOk shadow readings c) (hr : ¬ Reading c) :
    CallOk shadow' readings c := by
  rcases c with _ | ⟨_ | ⟨v, o⟩ | _ | ⟨token, l⟩ | token | ⟨token, d⟩, stage⟩
  case some.get => rcases stage <;> first | exact h | exact absurd trivial hr
  all_goals exact h

theorem CallOk.of_not_touching (h : CallOk shadow readings c) (ht : ¬ Touching c) :
    CallOk none readings c := by
  rcases c with _ | ⟨_ | ⟨v, o⟩ | _ | ⟨token, l⟩ | token | ⟨token, d⟩, stage⟩
  case some.get =>
    rcases stage
    case expired => exact ⟨h.1, nofun⟩
    all_goals first | exact h | exact absurd trivial ht
  all_goals exact h

theorem CallOk.kind {stage : Stage} (h : CallOk shadow readings (some (call, stage)))
    (hs : stage ≠ .deleting) :
    (call = .get ∧ Knows shadow readings stage) ∨ ∃ value o, call = .put value o := by
  rcases call with _ | ⟨v, o⟩ | _ | ⟨token, l⟩ | token | ⟨token, d⟩
  · exact .inl ⟨rfl, h⟩
  · exact .inr ⟨v, o, rfl⟩
  · exact absurd h hs
  all_goals exact h.elim

theorem callOk_put (shadow : Option Entry) (readings : List Int64) (value : Bytes)
    (o : PutOptions) (stage : Option Stage) :
    CallOk shadow readings (stage.map fun st => (.put value o, st)) := by
  rcases stage <;> trivial

theorem callOk_goto {s : KeyState} {t : ℕ} {stage : Option Stage}
    (hself : CallOk shadow readings (stage.map fun st => (call, st)))
    (hother : ∀ t', t' ≠ t → CallOk shadow readings (s.calls t')) (t' : ℕ) :
    CallOk shadow readings ((s.goto t call stage).calls t') := by
  by_cases ht : t' = t
  · rw [ht, KeyState.goto_calls_self]
    exact hself
  · rw [KeyState.goto_calls_ne ht]
    exact hother t' ht

end Calls

variable {cfg : KeyConfig} {x x' : Shadowed}

theorem Agrees.of_cell (h : x.Agrees) {e : Entry} (hc : x.state.cell = some e) :
    x.shadow.map Entry.core = some e.core := by
  rcases h with h | ⟨hn, -⟩
  · rw [← h, hc]
    rfl
  · rw [hc] at hn
    cases hn

theorem Inv.goto (i : x.Inv) {s : KeyState} {t : ℕ} {stage : Option Stage}
    {readings : List Int64} (hcell : s.cell = x.state.cell) (hcalls : s.calls = x.state.calls)
    (hr : readings = x.readings ∨ ∃ now, readings = now :: x.readings)
    (hself : CallOk x.shadow readings (stage.map fun st => (call, st))) :
    Inv ⟨s.goto t call stage, x.shadow, readings⟩ := by
  refine ⟨?_, callOk_goto hself fun t' _ => ?_⟩
  · rcases i.agrees with h | ⟨hn, e, now, he, hmem, hx⟩
    · exact .inl (by rw [← h]; simp only [KeyState.goto_cell, hcell])
    refine .inr ⟨hcell.trans hn, e, now, he, ?_, hx⟩
    rcases hr with rfl | ⟨now', rfl⟩
    · exact hmem
    · exact List.mem_cons_of_mem _ hmem
  · rw [hcalls]
    rcases hr with rfl | ⟨now', rfl⟩
    · exact i.calls t'
    · exact (i.calls t').cons now'

theorem Inv.taskOk (i : x.Inv) {t : ℕ} {c : Call × Stage} (hc : x.state.calls t = some c) :
    CallOk x.shadow x.readings (some c) :=
  hc ▸ i.calls t

/-- A step by the rules keeps the cell with its shadow. -/
theorem Inv.step {ev : KeyEvent} (i : x.Inv) (hg : x.ReadStep ev)
    (hs : x.step cfg ev = some x') : x'.Inv := by
  unfold Shadowed.step at hs
  split at hs
  · cases hs
  rename_i s hstep
  cases hs
  cases KeyState.steps_of_step hstep with
  | start hc hl =>
    refine i.goto rfl rfl (.inl rfl) ?_
    rcases hg with rfl | ⟨value, o, rfl⟩ | rfl
    · trivial
    · exact callOk_put _ _ value o _
    · rfl
  | lockerFree hl hc => exact ⟨i.agrees, i.calls⟩
  | @lockerCall e l call stage stage' hl hc ho =>
    refine i.goto rfl rfl (.inl rfl) ?_
    rcases (i.taskOk hc).kind (by rintro rfl; cases ho) with ⟨rfl, hknows⟩ | ⟨v, o, rfl⟩
    · rcases stage <;> first | exact hknows.elim | exact absurd ho (by simp [Stage.onLocker])
    · exact callOk_put _ _ v o (some stage')
  | readNone hc he =>
    refine i.goto rfl rfl (.inr ⟨_, rfl⟩) ?_
    rcases (i.taskOk hc).kind (by simp) with ⟨rfl, -⟩ | ⟨v, o, rfl⟩
    · trivial
    · exact callOk_put _ _ v o _
  | readExpired hc he hx =>
    refine i.goto rfl rfl (.inr ⟨_, rfl⟩) ?_
    rcases (i.taskOk hc).kind (by simp) with ⟨rfl, -⟩ | ⟨v, o, rfl⟩
    · refine ⟨List.mem_cons_self, fun e' he' => ?_⟩
      have hcore := i.agrees.of_cell he
      rw [he', Option.map_some, Option.some.injEq] at hcore
      rw [Entry.isExpired_congr hcore, hx]
    · trivial
  | @readLive t m call e hc he hx =>
    refine i.goto rfl rfl (.inr ⟨_, rfl⟩) ?_
    rcases (i.taskOk hc).kind (by simp) with ⟨rfl, -⟩ | ⟨v, o, rfl⟩
    · exact ⟨e, rfl, i.agrees.of_cell he⟩
    · exact callOk_put _ _ v o _
  | @lazyDelete t call e now hc =>
    rcases (i.taskOk hc).kind (by simp) with ⟨rfl, hnow, hexp⟩ | ⟨v, o, rfl⟩ <;>
      simp only [cast, hc]
    · refine ⟨?_, callOk_goto trivial fun t' _ => i.calls t'⟩
      rcases hsh : x.shadow with _ | e'
      · exact .inl rfl
      · exact .inr ⟨rfl, e', now, rfl, hnow, hexp e' hsh⟩
    · exact ⟨.inl rfl, callOk_goto (callOk_put _ _ v o _)
        fun t' _ => (i.calls t').of_not_touching (hg v o e now hc t')⟩
  | retry hc | prepareFailed hc hp =>
    refine i.goto rfl rfl (.inl rfl) ?_
    rcases (i.taskOk hc).kind (by simp) with ⟨rfl, -⟩ | ⟨v, o, rfl⟩ <;> trivial
  | giveUp hc | finishEvicting hc | finishLeaving hc hl => exact i.goto rfl rfl (.inl rfl) trivial
  | prepare hc hp =>
    refine i.goto rfl rfl (.inl rfl) ?_
    rcases (i.taskOk hc).kind (by simp) with ⟨rfl, e, rfl, hcore⟩ | ⟨v, o, rfl⟩
    · cases hp
      exact hcore
    · trivial
  | @write t call entry hc he =>
    rcases (i.taskOk hc).kind (by simp) with ⟨rfl, hcore⟩ | ⟨v, o, rfl⟩ <;> simp only [cast, hc]
    · exact ⟨.inl hcore.symm, callOk_goto trivial fun t' _ => i.calls t'⟩
    · rw [if_pos he]
      exact ⟨.inl rfl, callOk_goto trivial
        fun t' _ => (i.calls t').of_not_reading (hg v o entry hc t')⟩
  | writeFailed hc he =>
    rcases (i.taskOk hc).kind (by simp) with ⟨rfl, -⟩ | ⟨v, o, rfl⟩ <;> simp only [cast, hc]
    · exact i.goto rfl rfl (.inl rfl) trivial
    · rw [if_neg he]
      exact i.goto rfl rfl (.inl rfl) trivial
  | removeDelete hc =>
    exact ⟨.inl rfl, callOk_goto trivial fun t' _ => (i.calls t').of_not_touching (hg t')⟩
  | removeUnlock hc => exact (i.taskOk hc).elim
  | evict hc he => exact ⟨.inl rfl, fun t' => (i.calls t').of_not_touching (hg t')⟩

/-- In a run whose steps all meet `ReadStep`, the stored value and timestamp are what the steps of
`put` and `delete` alone make them, apart from an expired entry taken away. -/
theorem stored_eq_shadow (cfg : KeyConfig) (cell : Option Entry) (ts : Int64)
    (evs : List KeyEvent) (x : Shadowed) (hg : Guarded (step cfg) ReadStep (new cell ts) evs)
    (hx : exec (step cfg) (new cell ts) evs = some x) :
    x.state.cell.map (fun e => (e.value, e.timestampNanos))
      = x.shadow.map (fun e => (e.value, e.timestampNanos)) ∨
    x.state.cell = none ∧
      ∃ e now, x.shadow = some e ∧ now ∈ x.readings ∧ e.isExpired now = true := by
  have i : x.Inv := hg.invariant (fun _ _ _ i hg hs => i.step hg hs) (.new cell ts) hx
  refine i.agrees.imp_left fun h => ?_
  have := congrArg (Option.map fun c : Bytes × Int64 × Int64 × Bytes =>
    (c.2.2.2, c.2.2.1)) h
  rw [Option.map_map, Option.map_map] at this
  exact this

def overwriting : List KeyEvent :=
  [.start 0 .get, .read 0 9, .prepare 0 fun _ => 9, .write 0, .start 1 (.put [6] {}), .read 1 9,
    .prepare 1 fun _ => 9, .write 1, .finish 1]

theorem stored_eq_shadow_overwritten : ∃ x,
    exec (step ⟨"d", [1], {}⟩) (new (some ⟨[1], 0, 1, 0, [5]⟩) 1) overwriting = some x ∧
    (x.state.cell.map (fun e => (e.value, e.timestampNanos))
      = x.shadow.map (fun e => (e.value, e.timestampNanos)) ∨
    x.state.cell = none ∧
      ∃ e now, x.shadow = some e ∧ now ∈ x.readings ∧ e.isExpired now = true) := by
  have hg : Guarded (step ⟨"d", [1], {}⟩) ReadStep (new (some ⟨[1], 0, 1, 0, [5]⟩) 1)
      overwriting := by
    refine .cons (.inl rfl) rfl (.cons trivial rfl (.cons trivial rfl (.cons nofun rfl
      (.cons (.inr (.inl ⟨_, _, rfl⟩)) rfl (.cons trivial rfl (.cons trivial rfl
      (.cons (fun _ _ _ _ t' => ?_) rfl (.cons trivial rfl trivial))))))))
    rcases t' with _ | _ | n <;> exact id
  exact ⟨_, rfl, stored_eq_shadow _ _ _ _ _ hg rfl⟩

/-- A `get` whose write back comes after a `delete` brings the entry back. -/
theorem get_restores_deleted : ∃ x,
    exec (step ⟨"d", [1], {}⟩) (new (some ⟨[1], 0, 1, 0, [5]⟩) 1) [.start 0 .get, .read 0 9,
      .start 1 .delete, .remove 1, .prepare 0 fun _ => 9, .write 0] = some x ∧
    x.state.cell.map (fun e => (e.value, e.timestampNanos)) = some ([5], 1) ∧ x.shadow = none :=
  ⟨_, rfl, rfl, rfl⟩

end Shadowed

end Kamino
