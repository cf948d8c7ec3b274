import Kamino.KeyCalls
import Kamino.Proofs.Locker

/-!
# What one step of the calls on a key can do

`KeyState.Steps` is `KeyState.step` read backwards: for each way the step can go, the stage the
task's call was in and the state it leaves.
-/

namespace Kamino

open Function Runs

namespace KeyState

inductive Steps (cfg : KeyConfig) (s : KeyState) : KeyEvent → KeyState → Prop where
  | start {t call} (hc : s.calls t = none) (hl : s.locker.pc t = .idle) :
      Steps cfg s (.start t call) (s.goto t call call.start)
  | lockerFree {e l} (hl : s.locker.step e = some l) (hc : s.calls e.task = none) :
      Steps cfg s (.locker e) { s with locker := l }
  | lockerCall {e l call stage stage'} (hl : s.locker.step e = some l)
      (hc : s.calls e.task = some (call, stage))
      (ho : stage.onLocker (lockName cfg) e = some stage') :
      Steps cfg s (.locker e) ({ s with locker := l }.goto e.task call (some stage'))
  | readNone {t m call} (hc : s.calls t = some (call, .ready)) (he : s.cell = none) :
      Steps cfg s (.read t m) (s.goto t call (call.found none))
  | readExpired {t m call e} (hc : s.calls t = some (call, .ready)) (he : s.cell = some e)
      (hx : e.isExpired (microsToNanosI64 m) = true) :
      Steps cfg s (.read t m) (s.goto t call (some (.expired e (microsToNanosI64 m))))
  | readLive {t m call e} (hc : s.calls t = some (call, .ready)) (he : s.cell = some e)
      (hx : e.isExpired (microsToNanosI64 m) = false) :
      Steps cfg s (.read t m) (s.goto t call (call.found (some e)))
  | lazyDelete {t call e now} (hc : s.calls t = some (call, .expired e now)) :
      Steps cfg s (.lazyDelete t) ({ s with cell := none }.goto t call (call.found none))
  | retry {t call} (hc : s.calls t = some (call, .refused)) :
      Steps cfg s (.retry t) (s.goto t call (some .ready))
  | giveUp {t call} (hc : s.calls t = some (call, .refused)) :
      Steps cfg s (.giveUp t) (s.goto t call none)
  | prepareFailed {t clk call existing err ts} (hc : s.calls t = some (call, .checked existing))
      (hp : prepared cfg s clk call existing = some (.error err, ts)) :
      Steps cfg s (.prepare t clk) ({ s with monotonicTs := ts }.goto t call call.writeFailed)
  | prepare {t clk call existing entry ts} (hc : s.calls t = some (call, .checked existing))
      (hp : prepared cfg s clk call existing = some (.ok entry, ts)) :
      Steps cfg s (.prepare t clk)
        ({ s with monotonicTs := ts }.goto t call (some (.writing entry)))
  | write {t call entry} (hc : s.calls t = some (call, .writing entry)) (he : entry.Encodable) :
      Steps cfg s (.write t) ({ s with
        cell := some entry
        held := s.held ++ call.newHolder t }.goto t call call.written)
  | writeFailed {t call entry} (hc : s.calls t = some (call, .writing entry))
      (he : ¬ entry.Encodable) : Steps cfg s (.write t) (s.goto t call call.writeFailed)
  | removeDelete {t} (hc : s.calls t = some (.delete, .deleting)) :
      Steps cfg s (.remove t) ({ s with cell := none }.goto t .delete none)
  | removeUnlock {t token} (hc : s.calls t = some (.unlock token, .deleting)) :
      Steps cfg s (.remove t) ({ s with
        cell := none
        held := s.held.filter fun h => h.token ≠ token }.goto t (.unlock token) (some .leaving))
  | evict {t call} (hc : s.calls t = some (call, .evicting)) (he : evicts cfg = true) :
      Steps cfg s (.evict t) { s with cell := none }
  | finishEvicting {t call} (hc : s.calls t = some (call, .evicting)) : Steps cfg s (.finish t)
        ({ s with held := s.held.map (Holder.returnTo t) }.goto t call none)
  | finishLeaving {t call} (hc : s.calls t = some (call, .leaving))
      (hl : s.locker.pc t = .idle) : Steps cfg s (.finish t) (s.goto t call none)

variable {cfg : KeyConfig} {s s' : KeyState}

/-- The cases of a step, once for all invariants. -/
theorem steps_of_step {ev : KeyEvent} (h : s.step cfg ev = some s') : Steps cfg s ev s' := by
  rcases ev with ⟨t, call⟩ | e | ⟨t, m⟩ | t | t | t | ⟨t, clk⟩ | t | t | t | t <;>
    unfold step at h <;> simp only [] at h
  · split_ifs at h with hc
    cases h
    exact .start hc.1 hc.2
  · split at h
    · cases h
    rename_i l hl
    split at h
    · rename_i hc
      cases h
      exact .lockerFree hl hc
    rename_i call stage hc
    split at h <;> cases h
    rename_i stage' ho
    exact .lockerCall hl hc ho
  · split at h
    · rename_i call hc
      split at h
      · rename_i he
        cases h
        exact .readNone hc he
      rename_i e he
      split_ifs at h with hx
      · cases h
        exact .readExpired hc he hx
      · cases h
        exact .readLive hc he (by simpa using hx)
    · cases h
  · split at h <;> cases h
    rename_i hc
    exact .lazyDelete hc
  · split at h <;> cases h
    rename_i hc
    exact .retry hc
  · split at h <;> cases h
    rename_i hc
    exact .giveUp hc
  · split at h
    · rename_i hc
      split at h <;> cases h
      · rename_i hp
        exact .prepareFailed hc hp
      · rename_i hp
        exact .prepare hc hp
    · cases h
  · split at h <;> cases h
    rename_i call entry hc
    unfold KeyState.put
    split_ifs with he
    · exact .write hc he
    · exact .writeFailed hc he
  · split at h <;> cases h
    · rename_i hc
      exact .removeDelete hc
    · rename_i hc
      exact .removeUnlock hc
  · split at h
    · rename_i hc
      split_ifs at h with he
      cases h
      exact .evict hc he
    · cases h
  · split at h
    · rename_i hc
      cases h
      exact .finishEvicting hc
    · rename_i hc
      split_ifs at h with hl
      cases h
      exact .finishLeaving hc hl
    · cases h

section Frame

variable {t t' : ℕ} {call : Call} {stage : Option Stage}

@[simp] theorem goto_cell : (s.goto t call stage).cell = s.cell := rfl

@[simp] theorem goto_held : (s.goto t call stage).held = s.held := rfl

@[simp] theorem goto_calls_self :
    (s.goto t call stage).calls t = stage.map fun stage => (call, stage) :=
  update_self _ _ _

theorem goto_calls_ne (h : t' ≠ t) : (s.goto t call stage).calls t' = s.calls t' :=
  update_of_ne h _ _

/-- A property of all tasks, where a step changes one of them. -/
theorem forall_tasks {Ok : Option Entry → LockPc → Option (Call × Stage) → Prop} (t : ℕ)
    (hpc : ∀ t', t' ≠ t → s'.locker.pc t' = s.locker.pc t')
    (hcalls : ∀ t', t' ≠ t → s'.calls t' = s.calls t')
    (hself : Ok s'.cell (s'.locker.pc t) (s'.calls t))
    (hother : ∀ t', t' ≠ t → Ok s'.cell (s.locker.pc t') (s.calls t')) (t' : ℕ) :
    Ok s'.cell (s'.locker.pc t') (s'.calls t') := by
  by_cases ht : t' = t
  · rw [ht]
    exact hself
  · rw [hpc t' ht, hcalls t' ht]
    exact hother t' ht

end Frame

end KeyState

variable {e : LockerEvent}

namespace Locker

variable {l l' : Locker} {t : ℕ}

theorem step_pc_ne (h : l.step e = some l') (ht : t ≠ e.task) : l'.pc t = l.pc t := by
  cases steps_of_step h <;> exact update_of_ne ht _ _

theorem lookup_pc {name : LockName} (h : l.step (.lookup t name) = some l') :
    ∃ slot, l'.pc t = .looked name slot := by
  cases steps_of_step h <;> exact ⟨_, update_self _ _ _⟩

theorem count_pc (h : l.step (.count t) = some l') :
    ∃ name slot, l.pc t = .looked name slot ∧ l'.pc t = .waiting name slot := by
  cases steps_of_step h with
  | count hp => exact ⟨_, _, hp, update_self _ _ _⟩

theorem lock_pc (h : l.step (.lock t) = some l') :
    ∃ name slot, l.pc t = .waiting name slot ∧ l'.pc t = .holding name slot := by
  cases steps_of_step h with
  | lock hp ho => exact ⟨_, _, hp, update_self _ _ _⟩

end Locker

/-- The locker position of a task in `acquire` for the name. -/
def LockPc.Locking (name : LockName) (pc : LockPc) : Prop :=
  ∀ n slot, pc.active = some (n, slot) → n = name

variable {name : LockName}

theorem LockPc.locking_of_idle {pc : LockPc} (h : pc = .idle) : pc.Locking name := by
  rw [h]
  exact nofun

def LockPc.Guards (name : LockName) (pc : LockPc) : Prop := ∃ slot, pc = .holding name slot

/-- What the locker owes a call that takes the key's guard, at each stage. -/
def Stage.Lockable (name : LockName) (pc : LockPc) : Stage → Prop
  | .locking => pc.Locking name
  | .leaving => True
  | _ => pc.Guards name

theorem Stage.onLocker_stage {stage stage' : Stage} (h : stage.onLocker name e = some stage') :
    stage' = .locking ∨ stage' = .ready ∨ stage' = .leaving := by
  unfold Stage.onLocker at h
  split at h
  · split_ifs at h
    cases h
    exact .inl rfl
  all_goals cases h
  all_goals simp

/-- A call and its task go through the locker together. -/
theorem Stage.Lockable.step {l l' : Locker}
    {stage stage' : Stage} (hl : l.step e = some l') (ho : stage.onLocker name e = some stage')
    (hs : stage.Lockable name (l.pc e.task)) : stage'.Lockable name (l'.pc e.task) := by
  rcases stage with _ | _ | _ | ⟨_, _⟩ | _ | _ | _ | _ | _
  case locking =>
    rcases e with ⟨u, n⟩ | u | u | u | u | u | u | u | u | u <;>
      simp only [Stage.onLocker, LockerEvent.task] at ho hs ⊢
    case lookup =>
      split_ifs at ho with hn
      cases ho
      obtain ⟨slot, hp⟩ := Locker.lookup_pc hl
      rw [hp]
      intro n' s h
      cases h
      exact hn
    case count =>
      cases ho
      obtain ⟨n, slot, hp, hp'⟩ := Locker.count_pc hl
      rw [hp] at hs
      rw [hp']
      intro n' s h
      cases h
      exact hs _ _ rfl
    case lock =>
      cases ho
      obtain ⟨n, slot, hp, hp'⟩ := Locker.lock_pc hl
      rw [hp] at hs
      rw [hp', hs n slot rfl]
      exact ⟨slot, rfl⟩
    case timeout =>
      cases ho
      trivial
    all_goals exact absurd ho (by simp)
  case leaving =>
    rcases e with ⟨u, n⟩ | u | u | u | u | u | u | u | u | u <;>
      simp only [Stage.onLocker] at ho <;> first | (exfalso; cases ho; done) | (cases ho; trivial)
  all_goals exact absurd ho (by simp [Stage.onLocker])

end Kamino
