import Kamino.Proofs.KeyCalls

/-!
# Locks on a key

`acquire_lock` checks that the key is absent and writes in a later step, so two clients exclude one
another only where no client makes its check while another is between its check and its write
(`LockStep`).
-/

namespace Kamino

open Function Runs List

variable {token : Bytes} {cell : Option Entry} {t : ℕ} {name : LockName} {ev : KeyEvent}
  {pc : LockPc}

namespace KeyState

variable {cfg : KeyConfig} {s s' : KeyState}

theorem putEntry_value {ttl : Option ℕ} {key value : Bytes} {o : PutOptions}
    {clk : ℕ → UInt64} {ts ts' : Int64} {e : Entry}
    (h : putEntry ttl key value o clk ts = (.ok e, ts')) : e.value = value := by
  unfold putEntry at h
  split at h <;> cases h
  rfl

/-! ## Mutual exclusion -/

/-- A call of `acquire_lock` between its check and its write. -/
def Pending : Option (Call × Stage) → Prop
  | some (.acquireLock _ _, .expired _ _) | some (.acquireLock _ _, .checked _)
  | some (.acquireLock _ _, .writing _) => True
  | _ => False

/-- Clients lock and unlock; no lease is found expired and no entry is evicted; a check that finds
the key absent is made while no other `acquire_lock` is between its check and its write; and the
locker's steps are settled. -/
def LockStep (s : KeyState) : KeyEvent → Prop
  | .start _ call => (∃ token l, call = .acquireLock token l) ∨ ∃ token, call = .unlock token
  | .locker e => s.locker.Settled e
  | .read t micros =>
    (∀ e, s.cell = some e → e.isExpired (microsToNanosI64 micros) = false) ∧
    (∀ token l, s.calls t = some (.acquireLock token l, .ready) → s.cell = none →
      ∀ t', ¬ Pending (s.calls t'))
  | .evict _ => False
  | _ => True

def LockOk (name : LockName) (cell : Option Entry) (pc : LockPc) : Option (Call × Stage) → Prop
  | none => True
  | some (.acquireLock _ _, .ready) | some (.acquireLock _ _, .refused)
  | some (.acquireLock _ _, .evicting) => True
  | some (.acquireLock _ _, .checked _) => cell = none
  | some (.acquireLock token _, .writing e) => cell = none ∧ e.value = token
  | some (.unlock _, .locking) => pc.Locking name
  | some (.unlock _, .ready) => pc.Guards name
  | some (.unlock token, .deleting) => pc.Guards name ∧ ∃ e, cell = some e ∧ e.value = token
  | some (.unlock _, .leaving) => True
  | _ => False

structure LockInv (cfg : KeyConfig) (s : KeyState) : Prop where
  locker : s.locker.Inv
  tasks : ∀ t, LockOk (lockName cfg) s.cell (s.locker.pc t) (s.calls t)
  pending : ∀ t t', Pending (s.calls t) → Pending (s.calls t') → t = t'
  held : ∀ h ∈ s.held, ∃ e, s.cell = some e ∧ e.value = h.token
  one : s.held.length ≤ 1

theorem LockInv.new (cfg : KeyConfig) (cell : Option Entry) (ts : Int64) :
    LockInv cfg (.new cell ts) :=
  ⟨.new, fun _ => trivial, fun _ _ h => h.elim, by simp [KeyState.new], Nat.zero_le _⟩

theorem LockInv.move (i : LockInv cfg s) (t : ℕ) (hl : s'.locker.Inv) (hcell : s'.cell = s.cell)
    (hheld : s'.held = s.held) (hpc : ∀ t', t' ≠ t → s'.locker.pc t' = s.locker.pc t')
    (hcalls : ∀ t', t' ≠ t → s'.calls t' = s.calls t')
    (hself : LockOk (lockName cfg) s.cell (s'.locker.pc t) (s'.calls t))
    (hpend : Pending (s'.calls t) → Pending (s.calls t) ∨ ∀ t', ¬ Pending (s.calls t')) :
    LockInv cfg s' := by
  refine ⟨hl, ?_, ?_, by rw [hheld, hcell]; exact i.held, by rw [hheld]; exact i.one⟩
  · refine forall_tasks t hpc hcalls (by rw [hcell]; exact hself) fun t' _ => ?_
    rw [hcell]
    exact i.tasks t'
  have hother : ∀ t', t' ≠ t → Pending (s'.calls t') → Pending (s'.calls t) → False := by
    intro t' ht hp' hp
    rw [hcalls t' ht] at hp'
    rcases hpend hp with hold | hnone
    · exact ht (i.pending t' t hp' hold)
    · exact hnone t' hp'
  intro t₁ t₂ h₁ h₂
  by_cases ht₁ : t₁ = t
  · by_cases ht₂ : t₂ = t
    · rw [ht₁, ht₂]
    · rw [ht₁] at h₁
      exact (hother t₂ ht₂ h₂ h₁).elim
  by_cases ht₂ : t₂ = t
  · rw [ht₂] at h₂
    exact (hother t₁ ht₁ h₁ h₂).elim
  · rw [hcalls t₁ ht₁] at h₁
    rw [hcalls t₂ ht₂] at h₂
    exact i.pending t₁ t₂ h₁ h₂

variable {t : ℕ}

theorem LockInv.goto (i : LockInv cfg s) {call : Call} {stage : Option Stage} {ts : Int64}
    (hself : LockOk (lockName cfg) s.cell (s.locker.pc t) (stage.map fun st => (call, st)))
    (hpend : Pending (stage.map fun st => (call, st)) →
      Pending (s.calls t) ∨ ∀ t', ¬ Pending (s.calls t')) :
    LockInv cfg ({ s with monotonicTs := ts }.goto t call stage) :=
  i.move t i.locker rfl rfl (fun _ _ => rfl) (fun _ ht => goto_calls_ne ht)
    (by rw [goto_calls_self]; exact hself) (by rw [goto_calls_self]; exact hpend)

theorem LockOk.call {call : Call} {stage : Stage} (h : LockOk name cell pc (some (call, stage))) :
    (∃ token l, call = .acquireLock token l) ∨ ∃ token, call = .unlock token := by
  cases call with
  | acquireLock token l => exact .inl ⟨token, l, rfl⟩
  | unlock token => exact .inr ⟨token, rfl⟩
  | _ => exact h.elim

theorem LockOk.acquireLock {call : Call}
    {stage : Stage} (h : LockOk name cell pc (some (call, stage)))
    (hs : stage ≠ .locking ∧ stage ≠ .ready ∧ stage ≠ .deleting ∧ stage ≠ .leaving) :
    ∃ token l, call = .acquireLock token l := by
  rcases h.call with hcall | ⟨token, rfl⟩
  · exact hcall
  · rcases stage <;> first | exact h.elim | simp at hs

section

variable (i : LockInv cfg s)
include i

theorem LockInv.taskOk {c : Call × Stage} (hc : s.calls t = some c) :
    LockOk (lockName cfg) s.cell (s.locker.pc t) (some c) :=
  hc ▸ i.tasks t

theorem LockInv.write {l : Option ℕ}
    {entry : Entry} (hc : s.calls t = some (.acquireLock token l, .writing entry)) :
    LockInv cfg ({ s with
      cell := some entry
      held := s.held ++ (Call.acquireLock token l).newHolder t }.goto t (.acquireLock token l)
        (some .evicting)) := by
  obtain ⟨hnone, hval⟩ := i.taskOk hc
  have hpt : Pending (s.calls t) := by rw [hc]; trivial
  have hheld : s.held = [] := by
    rw [eq_nil_iff_forall_not_mem]
    intro h hh
    obtain ⟨e, he, -⟩ := i.held h hh
    rw [hnone] at he
    cases he
  refine ⟨i.locker, ?_, ?_, ?_, ?_⟩
  · refine forall_tasks (s := s) t (fun _ _ => rfl) (fun _ ht => goto_calls_ne ht) ?_
      fun t' ht => ?_
    · rw [goto_calls_self]
      trivial
    have ok' := i.tasks t'
    have hnp : ¬ Pending (s.calls t') := fun hp => ht (i.pending t' t hp hpt)
    rcases hc' : s.calls t' with _ | ⟨call', stage'⟩
    · trivial
    rw [hc'] at ok' hnp
    rcases ok'.call with ⟨tok, l', rfl⟩ | ⟨tok, rfl⟩
    · rcases stage' <;> first | exact ok' | exact absurd trivial hnp
    rcases stage'
    case deleting =>
      obtain ⟨-, e, he, -⟩ := ok'
      rw [hnone] at he
      cases he
    all_goals exact ok'
  · intro t₁ t₂ h₁ h₂
    have hold : ∀ t', t' ≠ t → Pending (s.calls t') → False :=
      fun t' ht hp => ht (i.pending t' t hp hpt)
    by_cases ht₁ : t₁ = t
    · rw [ht₁, goto_calls_self] at h₁
      exact h₁.elim
    · rw [goto_calls_ne ht₁] at h₁
      exact (hold t₁ ht₁ h₁).elim
  · intro h hh
    simp only [goto_held, hheld, Call.newHolder, nil_append, mem_singleton] at hh
    subst hh
    exact ⟨entry, rfl, hval⟩
  · simp [hheld, Call.newHolder]

theorem LockInv.remove (hc : s.calls t = some (.unlock token, .deleting)) : LockInv cfg ({ s with
      cell := none
      held := s.held.filter fun h => h.token ≠ token }.goto t (.unlock token) (some .leaving)) := by
  obtain ⟨⟨slot, hpc⟩, e, he, hval⟩ := i.taskOk hc
  have hheld : (s.held.filter fun h => h.token ≠ token) = [] := by
    rw [filter_eq_nil_iff]
    intro h hh
    obtain ⟨e', he', hval'⟩ := i.held h hh
    rw [he, Option.some.injEq] at he'
    simp [← hval', ← he', hval]
  refine ⟨i.locker, ?_, ?_, ?_, ?_⟩
  · refine forall_tasks (s := s) t (fun _ _ => rfl) (fun _ ht => goto_calls_ne ht) ?_
      fun t' ht => ?_
    · rw [goto_calls_self]
      trivial
    have ok' := i.tasks t'
    rcases hc' : s.calls t' with _ | ⟨call', stage'⟩
    · trivial
    rw [hc'] at ok'
    rcases ok'.call with ⟨tok, l', rfl⟩ | ⟨tok, rfl⟩
    · rcases stage'
      case writing => exact ⟨rfl, ok'.2⟩
      case checked => rfl
      all_goals exact ok'
    rcases stage'
    case deleting =>
      obtain ⟨⟨slot', hpc'⟩, -⟩ := ok'
      exact absurd (i.locker.holding_unique hpc' hpc) ht
    all_goals exact ok'
  · intro t₁ t₂ h₁ h₂
    have hself : ∀ t', Pending (({ s with
        cell := none
        held := s.held.filter fun h => h.token ≠ token }.goto t (.unlock token)
          (some .leaving)).calls t') → Pending (s.calls t') := by
      intro t' h
      by_cases ht : t' = t
      · rw [ht, goto_calls_self] at h
        exact h.elim
      · rwa [goto_calls_ne ht] at h
    exact i.pending t₁ t₂ (hself t₁ h₁) (hself t₂ h₂)
  · simp only [goto_held, hheld]
    simp
  · simp only [goto_held, hheld]
    simp

theorem LockInv.read {m : UInt64} (hg : s.LockStep (.read t m)) {call : Call}
    (hc : s.calls t = some (call, .ready)) : LockInv cfg (s.goto t call (call.found s.cell)) := by
  have ok := i.taskOk hc
  rcases ok.call with ⟨token, l, rfl⟩ | ⟨token, rfl⟩
  · rcases he : s.cell with _ | e
    · exact i.goto he fun _ => .inr (hg.2 token l hc he)
    · exact i.goto trivial False.elim
  rcases he : s.cell with _ | e
  · exact i.goto trivial False.elim
  simp only [Call.found]
  split_ifs with hv
  · exact i.goto trivial False.elim
  · exact i.goto ⟨ok, e, he, not_not.1 hv⟩ False.elim

/-- A step by the rules keeps the lock with one holder. -/
theorem LockInv.step (hg : s.LockStep ev) (hs : s.step cfg ev = some s') : LockInv cfg s' := by
  cases steps_of_step hs with
  | start hc hl =>
    rcases hg with ⟨token, l, rfl⟩ | ⟨token, rfl⟩
    · exact i.goto trivial False.elim
    · exact i.goto (LockPc.locking_of_idle hl) False.elim
  | lockerFree hl hc =>
    refine i.move _ (i.locker.step hg hl) rfl rfl (fun t' ht => Locker.step_pc_ne hl ht)
      (fun _ _ => rfl) ?_ .inl
    simp only [hc]
    trivial
  | @lockerCall e l call stage stage' hl hc ho =>
    have ok := i.taskOk hc
    refine i.move e.task (i.locker.step hg hl) rfl rfl (fun t' ht => Locker.step_pc_ne hl ht)
      (fun _ ht => goto_calls_ne ht) ?_ ?_ <;> rw [goto_calls_self]
    all_goals rcases ok.call with ⟨token, l', rfl⟩ | ⟨token, rfl⟩
    · rcases stage <;> first | exact ok.elim | exact absurd ho (by simp [Stage.onLocker])
    · have hlock : stage.Lockable (lockName cfg) (s.locker.pc e.task) := by
        rcases stage <;> first | exact ok | exact ok.elim | exact ok.1
      have hlock' := hlock.step hl ho
      rcases Stage.onLocker_stage ho with rfl | rfl | rfl <;> exact hlock'
    · rcases stage <;> first | exact ok.elim | exact absurd ho (by simp [Stage.onLocker])
    · rcases stage' <;> exact False.elim
  | readNone hc he =>
    rw [← he]
    exact i.read hg hc
  | readExpired hc he hx =>
    rw [hg.1 _ he] at hx
    cases hx
  | readLive hc he hx =>
    rw [← he]
    exact i.read hg hc
  | lazyDelete hc =>
    have ok := i.taskOk hc
    rcases ok.call with ⟨token, l, rfl⟩ | ⟨token, rfl⟩ <;> exact ok.elim
  | retry hc | prepareFailed hc hp | writeFailed hc he =>
    obtain ⟨token, l, rfl⟩ := (i.taskOk hc).acquireLock (by simp)
    exact i.goto trivial False.elim
  | giveUp hc => exact i.goto trivial False.elim
  | prepare hc hp =>
    have ok := i.taskOk hc
    obtain ⟨token, l, rfl⟩ := ok.acquireLock (by simp)
    simp only [prepared, Option.some.injEq] at hp
    exact i.goto ⟨ok, putEntry_value hp⟩ fun _ => .inl (by rw [hc]; trivial)
  | write hc he =>
    obtain ⟨token, l, rfl⟩ := (i.taskOk hc).acquireLock (by simp)
    exact i.write hc
  | removeDelete hc => exact (i.taskOk hc).elim
  | removeUnlock hc => exact i.remove hc
  | evict hc he => exact hg.elim
  | @finishEvicting t call hc =>
    have i' : LockInv cfg (s.goto t call none) := i.goto trivial False.elim
    refine ⟨i'.locker, i'.tasks, i'.pending, ?_, ?_⟩
    · intro h hh
      obtain ⟨h₀, hh₀, rfl⟩ := mem_map.1 hh
      obtain ⟨e, he, hv⟩ := i.held h₀ hh₀
      refine ⟨e, he, hv.trans ?_⟩
      unfold Holder.returnTo
      split_ifs <;> rfl
    · simpa using i.one
  | finishLeaving hc hl => exact i.goto trivial False.elim

end

/-- In a run whose steps all meet `LockStep`, at most one client has a token that `acquire_lock`
returned and no `unlock` deleted. -/
theorem holders_le_one (cfg : KeyConfig) (cell : Option Entry) (ts : Int64) (evs : List KeyEvent)
    (s : KeyState) (hg : Guarded (step cfg) LockStep (.new cell ts) evs)
    (hx : exec (step cfg) (.new cell ts) evs = some s) : s.holders.length ≤ 1 := by
  have i : LockInv cfg s := hg.invariant (fun _ _ _ i hg hs => i.step hg hs) (.new cfg cell ts) hx
  exact (length_filter_le _ _).trans i.one

/-- A client locks and unlocks, and another locks. -/
def relocking : List KeyEvent :=
  [.start 0 (.acquireLock [7] none), .read 0 0, .prepare 0 fun _ => 0, .write 0, .finish 0,
    .start 0 (.unlock [7]), .locker (.lookup 0 ("d", [1])), .locker (.count 0), .locker (.lock 0),
    .read 0 0, .remove 0, .start 1 (.acquireLock [8] none), .read 1 0, .prepare 1 fun _ => 0,
    .write 1, .finish 1]

theorem holders_le_one_relocked : ∃ s,
    exec (step ⟨"d", [1], {}⟩) (.new none 0) relocking = some s ∧ s.held = [⟨1, [8], true⟩] ∧
      s.holders.length ≤ 1 := by
  have hg : Guarded (step ⟨"d", [1], {}⟩) LockStep (.new none 0) relocking := by
    refine .cons (.inl ⟨_, _, rfl⟩) rfl (.cons ⟨nofun, fun _ _ _ _ t' => ?_⟩ rfl (.cons trivial rfl
      (.cons trivial rfl (.cons trivial rfl (.cons (.inr ⟨_, rfl⟩) rfl (.cons trivial rfl
      (.cons trivial rfl (.cons trivial rfl (.cons ⟨fun e he => ?_, nofun⟩ rfl (.cons trivial rfl
      (.cons (.inl ⟨_, _, rfl⟩) rfl (.cons ⟨nofun, fun _ _ _ _ t' => ?_⟩ rfl (.cons trivial rfl
      (.cons trivial rfl (.cons trivial rfl trivial)))))))))))))))
    · rcases t' with _ | n <;> exact id
    · cases he
      rfl
    · rcases t' with _ | _ | n <;> exact id
  exact ⟨_, rfl, rfl, holders_le_one _ _ _ _ _ hg rfl⟩

/-- Two clients that both find the key absent both get the lock. -/
theorem two_holders : ∃ s,
    exec (step ⟨"d", [1], {}⟩) (.new none 0) [.start 0 (.acquireLock [7] none),
      .start 1 (.acquireLock [8] none), .read 0 0, .read 1 0, .prepare 0 fun _ => 0,
      .prepare 1 fun _ => 0, .write 0, .finish 0, .write 1, .finish 1] = some s ∧
    s.holders = [⟨0, [7], true⟩, ⟨1, [8], true⟩] :=
  ⟨_, rfl, rfl⟩

end KeyState

/-! ## Tokens -/

/-- A call between its read of the key and the write or the delete that follows from it. -/
def Stage.Within : Stage → Prop
  | .expired _ _ | .checked _ | .writing _ | .deleting => True
  | _ => False

def Stage.Knows (token : Bytes) (cell : Option Entry) : Stage → Prop
  | .expired _ now => ∀ e, cell = some e → e.isExpired now = true
  | .checked existing => (∀ e, existing = some e → e.value = token) ∧
      ∀ e, cell = some e → e.value = token
  | .writing entry => entry.value = token ∧ ∀ e, cell = some e → e.value = token
  | .deleting => ∀ e, cell = some e → e.value = token
  | .evicting => False
  | _ => True

variable {stage : Stage}

theorem Stage.Knows.none (h : stage.Knows token cell) : stage.Knows token none := by
  rcases stage
  case expired => exact nofun
  case checked => exact ⟨h.1, nofun⟩
  case writing => exact ⟨h.1, nofun⟩
  case deleting => exact nofun
  all_goals exact h

theorem Stage.Knows.of_not_within {cell cell' : Option Entry}
    (h : stage.Knows token cell) (hw : ¬ stage.Within) : stage.Knows token cell' := by
  rcases stage <;> first | exact h | exact absurd trivial hw

theorem Stage.Lockable.guards
    (h : stage.Lockable name pc) (hw : stage.Within) : pc.Guards name := by
  rcases stage <;> first | exact hw.elim | exact h

namespace KeyState

variable {cfg : KeyConfig} {s s' : KeyState}

def callToken : Option (Call × Stage) → Option Bytes
  | some (.unlock token, _) | some (.lease token _, _) => some token
  | _ => none

/-- Clients lock, unlock and extend leases; the locker's steps are settled; and `acquire_lock` does
not write while an `unlock` or a `lease` is between its read and its write. -/
def TokenStep (s : KeyState) : KeyEvent → Prop
  | .start _ call => (∃ token l, call = .acquireLock token l) ∨ (∃ token, call = .unlock token) ∨
      ∃ token d, call = .lease token d
  | .locker e => s.locker.Settled e
  | .write t => ∀ token l entry, s.calls t = some (.acquireLock token l, .writing entry) →
      ∀ t' call stage, s.calls t' = some (call, stage) →
        (callToken (some (call, stage))).isSome → ¬ stage.Within
  | _ => True

def TokenOk (name : LockName) (cell : Option Entry) (pc : LockPc) : Option (Call × Stage) → Prop
  | none | some (.acquireLock _ _, _) => True
  | some (.unlock token, stage) => stage.Lockable name pc ∧ stage.Knows token cell
  | some (.lease token _, stage) => stage.Lockable name pc ∧ stage.Knows token cell
  | _ => False

structure TokenInv (cfg : KeyConfig) (s : KeyState) : Prop where
  locker : s.locker.Inv
  tasks : ∀ t, TokenOk (lockName cfg) s.cell (s.locker.pc t) (s.calls t)

/-- A step of an `unlock` or a `lease` takes away or changes no entry but one with its own token,
or one that was expired when it read the clock. -/
def TokenSafe (s : KeyState) (ev : KeyEvent) (s' : KeyState) : Prop :=
  ∀ token e, callToken (s.calls ev.task) = some token → s.cell = some e → s'.cell ≠ some e →
    e.value = token ∨ ∃ call read now, s.calls ev.task = some (call, .expired read now) ∧
      e.isExpired now = true

variable {name : LockName} {cell : Option Entry} {pc : LockPc} {stage : Stage}
  {c : Option (Call × Stage)}

theorem TokenOk.none (h : TokenOk name cell pc c) : TokenOk name none pc c := by
  rcases c with _ | ⟨call, stage⟩
  · trivial
  cases call with
  | acquireLock => trivial
  | unlock | lease => exact ⟨h.1, h.2.none⟩
  | _ => exact h.elim

theorem TokenOk.of_not_within {cell' : Option Entry} (h : TokenOk name cell pc c)
    (hw : ∀ call stage, c = some (call, stage) → (callToken c).isSome → ¬ stage.Within) :
    TokenOk name cell' pc c := by
  rcases c with _ | ⟨call, stage⟩
  · trivial
  cases call with
  | acquireLock => trivial
  | unlock | lease => exact ⟨h.1, h.2.of_not_within (hw _ _ rfl rfl)⟩
  | _ => exact h.elim

theorem TokenInv.new (cfg : KeyConfig) (cell : Option Entry) (ts : Int64) :
    TokenInv cfg (.new cell ts) :=
  ⟨.new, fun _ => trivial⟩

theorem TokenInv.goto (i : TokenInv cfg s) {call : Call} {stage : Option Stage}
    {ts : Int64} {held : List Holder} (hcell : cell = s.cell ∨ cell = none)
    (hself : TokenOk (lockName cfg) cell (s.locker.pc t) (stage.map fun st => (call, st))) :
    TokenInv cfg ({ s with cell := cell, monotonicTs := ts, held := held }.goto t call stage) := by
  refine ⟨i.locker, forall_tasks (s := s) t (fun _ _ => rfl) (fun _ ht => goto_calls_ne ht)
    (by rw [goto_calls_self]; exact hself) fun t' _ => ?_⟩
  rcases hcell with rfl | rfl
  · exact i.tasks t'
  · exact (i.tasks t').none

theorem TokenInv.taskOk (i : TokenInv cfg s) {c : Call × Stage}
    (hc : s.calls t = some c) : TokenOk (lockName cfg) s.cell (s.locker.pc t) (some c) :=
  hc ▸ i.tasks t

theorem TokenOk.kind {call : Call} (h : TokenOk name cell pc (some (call, stage))) :
    (∃ token l, call = .acquireLock token l) ∨
      (∃ token, call = .unlock token ∧ stage.Lockable name pc ∧ stage.Knows token cell) ∨
      ∃ token d, call = .lease token d ∧ stage.Lockable name pc ∧ stage.Knows token cell := by
  cases call with
  | acquireLock token l => exact .inl ⟨token, l, rfl⟩
  | unlock token => exact .inr (.inl ⟨token, rfl, h⟩)
  | lease token d => exact .inr (.inr ⟨token, d, rfl, h⟩)
  | _ => exact h.elim

theorem TokenOk.call {call : Call} (h : TokenOk name cell pc (some (call, stage))) :
    (∃ token l, call = .acquireLock token l) ∨
      ∃ token, callToken (some (call, stage)) = some token ∧
        stage.Lockable name pc ∧ stage.Knows token cell := by
  rcases h.kind with hlock | ⟨token, rfl, h⟩ | ⟨token, d, rfl, h⟩
  · exact .inl hlock
  · exact .inr ⟨token, rfl, h⟩
  · exact .inr ⟨token, rfl, h⟩

theorem TokenOk.of_token {call : Call} {stage' : Stage}
    (ht : callToken (some (call, stage)) = some token)
    (h : stage'.Lockable name pc ∧ stage'.Knows token cell) :
    TokenOk name cell pc (some (call, stage')) := by
  rcases call <;> cases ht <;> exact h

theorem TokenInv.write (i : TokenInv cfg s) {call : Call} {entry : Entry}
    (hg : s.TokenStep (.write t)) (hc : s.calls t = some (call, .writing entry)) :
    TokenInv cfg ({ s with
      cell := some entry
      held := s.held ++ call.newHolder t }.goto t call call.written) := by
  have ok := i.taskOk hc
  refine ⟨i.locker, forall_tasks (s := s) t (fun _ _ => rfl) (fun _ ht => goto_calls_ne ht)
    ?_ fun t' ht => (i.tasks t').of_not_within fun call' stage' hc' htok => ?_⟩
  · rw [goto_calls_self]
    rcases ok.kind with ⟨token, l, rfl⟩ | ⟨token, rfl, -⟩ | ⟨token, d, rfl, -⟩
    · trivial
    · trivial
    · exact ⟨trivial, trivial⟩
  rcases ok.call with ⟨token, l, rfl⟩ | ⟨token, -, hlock, -⟩
  · exact hg token l entry hc t' call' stage' hc' (hc' ▸ htok)
  intro hw
  rw [hc'] at htok
  rcases (i.taskOk hc').call with ⟨token', l', rfl⟩ | ⟨token', -, hlock', -⟩
  · cases htok
  · obtain ⟨slot, hp⟩ := hlock.guards trivial
    obtain ⟨slot', hp'⟩ := hlock'.guards hw
    exact ht (i.locker.holding_unique hp' hp)

theorem TokenInv.readLive (i : TokenInv cfg s) {call : Call} {e : Entry}
    (hc : s.calls t = some (call, .ready)) (he : s.cell = some e) :
    TokenInv cfg (s.goto t call (call.found (some e))) := by
  have hcell : ∀ token, e.value = token → ∀ e', s.cell = some e' → e'.value = token := by
    intro token hv e' he'
    rw [he, Option.some.injEq] at he'
    exact he' ▸ hv
  rcases (i.taskOk hc).kind with ⟨token, l, rfl⟩ | ⟨token, rfl, hlock, -⟩ |
    ⟨token, d, rfl, hlock, -⟩
  · exact i.goto (.inl rfl) trivial
  · simp only [Call.found]
    split_ifs with hv
    · exact i.goto (.inl rfl) ⟨trivial, trivial⟩
    · exact i.goto (.inl rfl) ⟨hlock, hcell token (not_not.1 hv)⟩
  simp only [Call.found]
  split_ifs with hv
  · exact i.goto (.inl rfl) ⟨trivial, trivial⟩
  · refine i.goto (.inl rfl) ⟨hlock, ?_, hcell token (not_not.1 hv)⟩
    rintro e' ⟨⟩
    exact not_not.1 hv

/-- What an `unlock` or a `lease` has read stays true until it writes. -/
theorem TokenInv.step (i : TokenInv cfg s) (hg : s.TokenStep ev)
    (hs : s.step cfg ev = some s') : TokenInv cfg s' := by
  cases steps_of_step hs with
  | start hc hl =>
    rcases hg with ⟨token, l, rfl⟩ | ⟨token, rfl⟩ | ⟨token, d, rfl⟩
    · exact i.goto (.inl rfl) trivial
    · exact i.goto (.inl rfl) ⟨LockPc.locking_of_idle hl, trivial⟩
    · exact i.goto (.inl rfl) ⟨LockPc.locking_of_idle hl, trivial⟩
  | @lockerFree e l hl hc =>
    refine ⟨i.locker.step hg hl, forall_tasks (s := s) e.task
      (fun t' ht => Locker.step_pc_ne hl ht) (fun _ _ => rfl) ?_ fun t' _ => i.tasks t'⟩
    simp only [hc]
    trivial
  | @lockerCall e l call stage stage' hl hc ho =>
    refine ⟨i.locker.step hg hl, forall_tasks (s := s) e.task
      (fun t' ht => Locker.step_pc_ne hl ht) (fun _ ht => goto_calls_ne ht) ?_
      fun t' _ => i.tasks t'⟩
    rw [goto_calls_self]
    rcases (i.taskOk hc).call with ⟨token, l', rfl⟩ | ⟨token, htok, hlock, -⟩
    · trivial
    · refine TokenOk.of_token htok ⟨hlock.step hl ho, ?_⟩
      rcases Stage.onLocker_stage ho with rfl | rfl | rfl <;> trivial
  | readNone hc he =>
    rcases (i.taskOk hc).kind with ⟨token, l, rfl⟩ | ⟨token, rfl, -⟩ | ⟨token, d, rfl, -⟩
    · exact i.goto (.inl rfl) trivial
    · exact i.goto (.inl rfl) ⟨trivial, trivial⟩
    · exact i.goto (.inl rfl) ⟨trivial, trivial⟩
  | readExpired hc he hx =>
    rcases (i.taskOk hc).call with ⟨token, l, rfl⟩ | ⟨token, htok, hlock, -⟩
    · exact i.goto (.inl rfl) trivial
    · refine i.goto (.inl rfl) (TokenOk.of_token htok ⟨hlock, fun e' he' => ?_⟩)
      rw [he, Option.some.injEq] at he'
      exact he' ▸ hx
  | readLive hc he hx => exact i.readLive hc he
  | lazyDelete hc =>
    rcases (i.taskOk hc).kind with ⟨token, l, rfl⟩ | ⟨token, rfl, -⟩ | ⟨token, d, rfl, -⟩
    · exact i.goto (.inr rfl) trivial
    · exact i.goto (.inr rfl) ⟨trivial, trivial⟩
    · exact i.goto (.inr rfl) ⟨trivial, trivial⟩
  | retry hc =>
    rcases (i.taskOk hc).call with ⟨token, l, rfl⟩ | ⟨token, htok, hlock, -⟩
    · exact i.goto (.inl rfl) trivial
    · exact i.goto (.inl rfl) (TokenOk.of_token htok ⟨hlock, trivial⟩)
  | giveUp hc | finishEvicting hc | finishLeaving hc hl => exact i.goto (.inl rfl) trivial
  | prepareFailed hc hp =>
    rcases (i.taskOk hc).kind with ⟨token, l, rfl⟩ | ⟨token, rfl, -⟩ | ⟨token, d, rfl, -⟩
    · exact i.goto (.inl rfl) trivial
    · cases hp
    · exact i.goto (.inl rfl) ⟨trivial, trivial⟩
  | @prepare t clk call existing entry ts hc hp =>
    rcases (i.taskOk hc).kind with ⟨token, l, rfl⟩ | ⟨token, rfl, -⟩ |
      ⟨token, d, rfl, hlock, hread, hcell⟩
    · exact i.goto (.inl rfl) trivial
    · cases hp
    rcases existing with _ | e
    · cases hp
    · cases hp
      exact i.goto (.inl rfl) ⟨hlock, hread e rfl, hcell⟩
  | write hc he => exact i.write hg hc
  | writeFailed hc he =>
    rcases (i.taskOk hc).kind with ⟨token, l, rfl⟩ | ⟨token, rfl, -⟩ | ⟨token, d, rfl, -⟩
    · exact i.goto (.inl rfl) trivial
    · exact i.goto (.inl rfl) trivial
    · exact i.goto (.inl rfl) ⟨trivial, trivial⟩
  | removeDelete hc => exact (i.taskOk hc).elim
  | removeUnlock hc => exact i.goto (.inr rfl) ⟨trivial, trivial⟩
  | evict hc he => exact ⟨i.locker, fun t' => (i.tasks t').none⟩

theorem TokenInv.safe (i : TokenInv cfg s) (hs : s.step cfg ev = some s') : TokenSafe s ev s' := by
  intro token e htok hcell hne
  cases steps_of_step hs with
  | @lazyDelete t call read now hc =>
    simp only [KeyEvent.task, hc] at htok ⊢
    rcases (i.taskOk hc).call with ⟨token, l, rfl⟩ | ⟨token', htok', -, hknows⟩
    · cases htok
    · exact .inr ⟨call, read, now, rfl, hknows e hcell⟩
  | write hc he =>
    simp only [KeyEvent.task, hc] at htok
    rcases (i.taskOk hc).call with ⟨token, l, rfl⟩ | ⟨token', htok', -, hknows⟩
    · cases htok
    · rw [htok, Option.some.injEq] at htok'
      exact .inl (htok' ▸ hknows.2 e hcell)
  | removeDelete hc => exact (i.taskOk hc).elim
  | removeUnlock hc =>
    simp only [KeyEvent.task, hc] at htok
    cases htok
    exact .inl ((i.taskOk hc).2 e hcell)
  | evict hc he =>
    simp only [KeyEvent.task, hc] at htok
    rcases (i.taskOk hc).call with ⟨token, l, rfl⟩ | ⟨token', -, -, hknows⟩
    · cases htok
    · exact hknows.elim
  | _ => exact absurd hcell hne

/-- In a run whose steps all meet `TokenStep`, no step of an `unlock` or a `lease` takes away or
changes a live lock entry with another token. -/
theorem tokens_safe (cfg : KeyConfig) (cell : Option Entry) (ts : Int64) (evs : List KeyEvent)
    (ev : KeyEvent) (s s' : KeyState)
    (hg : Guarded (step cfg) TokenStep (.new cell ts) (evs ++ [ev]))
    (hx : exec (step cfg) (.new cell ts) evs = some s) (hs : s.step cfg ev = some s') :
    TokenSafe s ev s' := by
  have i : TokenInv cfg s :=
    hg.of_append.invariant (fun _ _ _ i hg hs => i.step hg hs) (.new cfg cell ts) hx
  exact i.safe hs

/-- A client locks and is about to write a longer lease. -/
def leasing : List KeyEvent :=
  [.start 0 (.acquireLock [7] (some 1000000)), .read 0 0, .prepare 0 fun _ => 0, .write 0,
    .finish 0, .start 0 (.lease [7] 5000000), .locker (.lookup 0 ("d", [1])), .locker (.count 0),
    .locker (.lock 0), .read 0 0, .prepare 0 fun _ => 0]

theorem tokens_safe_lease : ∃ s s', exec (step ⟨"d", [1], {}⟩) (.new none 0) leasing = some s ∧
    s.step ⟨"d", [1], {}⟩ (.write 0) = some s' ∧ s.cell ≠ s'.cell ∧ TokenSafe s (.write 0) s' := by
  have hg : Guarded (step ⟨"d", [1], {}⟩) TokenStep (.new none 0) (leasing ++ [.write 0]) := by
    refine .cons (.inl ⟨_, _, rfl⟩) rfl (.cons trivial rfl (.cons trivial rfl (.cons ?_ rfl
      (.cons trivial rfl (.cons (.inr (.inr ⟨_, _, rfl⟩)) rfl (.cons trivial rfl
      (.cons trivial rfl (.cons trivial rfl (.cons trivial rfl (.cons trivial rfl
      (.cons nofun rfl trivial)))))))))))
    intro _ _ _ _ t' call stage hc
    rcases t' with _ | n <;> cases hc
    exact nofun
  exact ⟨_, _, rfl, rfl, by decide +kernel, tokens_safe _ _ _ _ _ _ _ hg rfl rfl⟩

/-- A lease that runs out while its holder's `unlock` is under way: the `unlock` deletes the lock
the next client has just taken. -/
theorem unlock_deletes_other : ∃ s s' e,
    exec (step ⟨"d", [1], {}⟩) (.new none 0) [.start 0 (.acquireLock [7] (some 1000000)),
      .read 0 0, .prepare 0 fun _ => 0, .write 0, .finish 0, .start 0 (.unlock [7]),
      .locker (.lookup 0 ("d", [1])), .locker (.count 0), .locker (.lock 0), .read 0 0,
      .start 1 (.acquireLock [8] none), .read 1 2000, .lazyDelete 1, .prepare 1 fun _ => 2000,
      .write 1, .finish 1] = some s ∧ s.step ⟨"d", [1], {}⟩ (.remove 0) = some s' ∧
    s.holders = [⟨0, [7], true⟩, ⟨1, [8], true⟩] ∧ callToken (s.calls 0) = some [7] ∧
    s.cell = some e ∧ e.value = [8] ∧ e.ttlNanos = noTtl ∧ s'.cell = none :=
  ⟨_, _, _, rfl, rfl, rfl, rfl, rfl, rfl, rfl, rfl⟩

end KeyState

end Kamino
