import Kamino.Proofs.KeyCalls
import Kamino.Proofs.KeyOps
import Kamino.Proofs.Numbers
import Kamino.Rmw

/-!
# Read-modify-writes come out one after another

While a task has the key's guard no other takes a step of its operation, so the DMap is always where
the finished operations leave it one after another, and what is left of the operation in hand does
to it what the whole operation does there (`InOrder`).
-/

namespace Kamino

open Function Runs List RmwState DMap RmwConfig RmwStage LockerEvent

namespace RmwState

/-- What a step can do: where its task is before it, and the state it leaves. -/
inductive Steps (cfg : RmwConfig) (s : RmwState) : RmwEvent → RmwState → Prop where
  | start {t} (hs : s.stage t = .idle) : Steps cfg s (.start t) (s.goto t .locking)
  | locker {e l stage} (hl : s.locker.step e = some l)
      (ho : (s.stage e.task).onLocker cfg.lockName (cfg.program s.dmap.options.ttl e.task) e =
        some stage) : Steps cfg s (.locker e) ({ s with locker := l }.goto e.task stage)
  | request {t i k} (hs : s.stage t = .running (.ask i k)) :
      Steps cfg s (.request t) ({ s with dmap := (handle i s.dmap).2 }.goto t
        (.running (k (handle i s.dmap).1)))
  | result {t r} (hs : s.stage t = .running (.ret r)) :
      Steps cfg s (.result t) (s.goto t (.leaving r))
  | finish {t r} (hs : s.stage t = .leaving r) (hl : s.locker.pc t = .idle) :
      Steps cfg s (.finish t) (s.goto t (.done r))

variable {cfg : RmwConfig} {s s' : RmwState}

theorem steps_of_step {ev : RmwEvent} (h : s.step cfg ev = some s') : Steps cfg s ev s' := by
  rcases ev with t | e | t | t | t <;> unfold step at h <;> simp only [] at h
  · split at h <;> cases h
    rename_i hs
    exact .start hs
  · split at h
    · cases h
    rename_i l hl
    split at h <;> cases h
    rename_i stage ho
    exact .locker hl ho
  · split at h <;> cases h
    rename_i i k hs
    exact .request hs
  · split at h <;> cases h
    rename_i r hs
    exact .result hs
  · split at h
    · rename_i r hs
      split_ifs at h with hl
      cases h
      exact .finish hs hl
    · cases h

/-- The locker's own condition for exclusion, on its steps. -/
def Settled (s : RmwState) : RmwEvent → Prop
  | .locker e => s.locker.Settled e
  | _ => True

theorem goto_stage_self (t : ℕ) (stage : RmwStage) : (s.goto t stage).stage t = stage :=
  update_self _ _ _

theorem goto_stage_ne {t t' : ℕ} (stage : RmwStage) (h : t' ≠ t) :
    (s.goto t stage).stage t' = s.stage t' :=
  update_of_ne h _ _

end RmwState

namespace RmwStage

def Lockable (name : LockName) (pc : LockPc) : RmwStage → Prop
  | idle => pc = .idle
  | locking => pc.Locking name
  | running _ => pc.Guards name
  | leaving _ | done _ => True

variable {name : LockName} {program : Prog FragmentReq FragmentReq.Answer KeyResult}
  {e : LockerEvent} {stage stage' : RmwStage}

theorem onLocker_cases (h : stage.onLocker name program e = some stage') :
    stage' = stage ∨ stage = .locking ∧ stage' = .running program := by
  unfold onLocker at h
  split at h
  · split_ifs at h
    cases h
    exact .inl rfl
  · cases h
    exact .inl rfl
  · cases h
    exact .inr ⟨rfl, rfl⟩
  all_goals cases h
  all_goals exact .inl rfl

theorem Lockable.step {l l' : Locker} (hl : l.step e = some l')
    (ho : stage.onLocker name program e = some stage')
    (hs : stage.Lockable name (l.pc e.task)) : stage'.Lockable name (l'.pc e.task) := by
  unfold onLocker at ho
  split at ho
  · split_ifs at ho with hn
    cases ho
    obtain ⟨slot, hp⟩ := Locker.lookup_pc hl
    rw [task, hp]
    intro n' slot' h
    cases h
    exact hn
  · cases ho
    obtain ⟨n, slot, hp, hp'⟩ := Locker.count_pc hl
    rw [task, hp] at hs
    rw [task, hp']
    intro n' slot' h
    cases h
    exact hs _ _ rfl
  · cases ho
    obtain ⟨n, slot, hp, hp'⟩ := Locker.lock_pc hl
    rw [task, hp] at hs
    rw [task, hp', hs n slot rfl]
    exact ⟨slot, rfl⟩
  all_goals cases ho
  all_goals trivial

theorem eq_running_of_isRunning (h : stage.isRunning = true) : ∃ rest, stage = .running rest := by
  cases stage with
  | running rest => exact ⟨rest, rfl⟩
  | _ => cases h

theorem isRunning_of_result {r : KeyResult} (h : stage.result? = some r) :
    stage.isRunning = false := by
  cases stage with
  | running rest => cases h
  | _ => rfl

end RmwStage

/-! ### The sequential order -/

theorem forall_split_snoc {α : Type} {Q : List α → α → Prop} {l : List α} {a : α} :
    (∀ pre b post, l ++ [a] = pre ++ b :: post → Q pre b) ↔
      (∀ pre b post, l = pre ++ b :: post → Q pre b) ∧ Q l a := by
  constructor
  · intro h
    refine ⟨fun pre b post hl => h pre b (post ++ [a]) ?_, h l a [] rfl⟩
    rw [hl, append_assoc, cons_append]
  rintro ⟨h, ha⟩ pre b post hl
  rcases eq_nil_or_concat post with rfl | ⟨post', c, rfl⟩
  · obtain ⟨rfl, hb⟩ := append_inj' hl rfl
    cases hb
    exact ha
  · have hlast : l ++ [a] = (pre ++ b :: post') ++ [c] := by
      rw [hl, concat_eq_append, append_assoc, cons_append]
    exact h pre b post' (append_inj' hlast rfl).1

namespace RmwConfig

variable (cfg : RmwConfig)

def call (d : DMap) (t : ℕ) : KeyResult × DMap :=
  d.call cfg.env cfg.key (cfg.clk t) (cfg.op t)

/-- The tasks' calls one after another, with their results. -/
def sequential (d : DMap) (order : List ℕ) : List (ℕ × KeyResult) × DMap :=
  order.foldl (fun acc t => (acc.1 ++ [(t, (cfg.call acc.2 t).1)], (cfg.call acc.2 t).2)) ([], d)

variable {cfg} {d : DMap}

theorem sequential_snoc (order : List ℕ) (t : ℕ) : cfg.sequential d (order ++ [t]) =
    ((cfg.sequential d order).1 ++ [(t, (cfg.call (cfg.sequential d order).2 t).1)],
      (cfg.call (cfg.sequential d order).2 t).2) := by
  rw [sequential, foldl_append]
  rfl

theorem map_fst_sequential (order : List ℕ) : (cfg.sequential d order).1.map Prod.fst = order := by
  induction order using reverseRecOn with
  | nil => rfl
  | append_singleton order t ih => rw [sequential_snoc, map_append, ih]; rfl

end RmwConfig

namespace DMap

theorem options_handle (i : FragmentReq) (d : DMap) : (handle i d).2.options = d.options := by
  cases i with
  | put hkey entry =>
    unfold handle
    simp only []
    split <;> rfl
  | _ => rfl

end DMap

/-- The calls that have come to a result have done so one after another, and the one under way goes
on from there. `P` is what is known of each where it began. -/
structure InOrder (cfg : RmwConfig) (P : ℕ → DMap → Prop) (d₀ : DMap) (order : List ℕ)
    (s : RmwState) : Prop where
  nodup : order.Nodup
  began : ∀ pre t post, order = pre ++ t :: post → P t (cfg.sequential d₀ pre).2
  results : ∀ t r, (t, r) ∈ (cfg.sequential d₀ order).1 ↔ (s.stage t).result? = some r
  options : s.dmap.options = d₀.options
  between : (∀ t, (s.stage t).isRunning = false) → s.dmap = (cfg.sequential d₀ order).2
  underWay : ∀ t rest, s.stage t = .running rest → P t (cfg.sequential d₀ order).2 ∧
    rest.run handle s.dmap = cfg.call (cfg.sequential d₀ order).2 t
  lockable : ∀ t, (s.stage t).Lockable cfg.lockName (s.locker.pc t)

variable {t : ℕ}

namespace InOrder

variable {cfg : RmwConfig} {P : ℕ → DMap → Prop} {d₀ : DMap} {order : List ℕ} {s s' : RmwState}

theorem new (cfg : RmwConfig) (P : ℕ → DMap → Prop) (d₀ : DMap) :
    InOrder cfg P d₀ [] (.new d₀) where
  nodup := nodup_nil
  began pre t post h := by simp at h
  results t r := by simp [sequential, RmwState.new, result?]
  options := rfl
  between _ := rfl
  underWay t rest h := by cases h
  lockable t := rfl

theorem eq_of_isRunning (h : ∀ t, (s.stage t).Lockable cfg.lockName (s.locker.pc t))
    (hx : s.Exclusive cfg) {t t' : ℕ} (ht : s.locker.Guards t cfg.lockName)
    (ht' : (s.stage t').isRunning = true) : t' = t := by
  obtain ⟨rest, hr⟩ := eq_running_of_isRunning ht'
  have hguards := h t'
  rw [hr] at hguards
  exact hx t' t hguards ht

theorem guards (h : InOrder cfg P d₀ order s) {rest} (hs : s.stage t = .running rest) :
    s.locker.Guards t cfg.lockName := by
  have hl := h.lockable t
  rw [hs] at hl
  exact hl

theorem move (h : InOrder cfg P d₀ order s) (hd : s'.dmap = s.dmap)
    (hs : ∀ t, s'.stage t = s.stage t ∨ (s'.stage t).isRunning = false ∧
      (s.stage t).isRunning = false ∧ (s'.stage t).result? = (s.stage t).result?)
    (hl : ∀ t, (s'.stage t).Lockable cfg.lockName (s'.locker.pc t)) :
    InOrder cfg P d₀ order s' where
  nodup := h.nodup
  began := h.began
  results t r := by
    rw [h.results]
    rcases hs t with hst | ⟨-, -, hst⟩ <;> rw [hst]
  options := by rw [hd, h.options]
  between hnone := by
    rw [hd]
    refine h.between fun t => ?_
    rcases hs t with hst | ⟨-, hst, -⟩
    · rw [← hst, hnone]
    · exact hst
  underWay t rest hrest := by
    rw [hd]
    rcases hs t with hst | ⟨hst, -, -⟩
    · exact h.underWay t rest (hst ▸ hrest)
    · rw [hrest] at hst
      cases hst
  lockable := hl

theorem goto (h : InOrder cfg P d₀ order s) {stage : RmwStage} (hrun : stage.isRunning = false)
    (hrun' : (s.stage t).isRunning = false) (hr : stage.result? = (s.stage t).result?)
    (hl : stage.Lockable cfg.lockName (s.locker.pc t)) :
    InOrder cfg P d₀ order (s.goto t stage) := by
  refine h.move rfl (fun t' => ?_) fun t' => ?_
  · by_cases ht : t' = t
    · rw [ht, goto_stage_self]
      exact .inr ⟨hrun, hrun', hr⟩
    · exact .inl (goto_stage_ne _ ht)
  by_cases ht : t' = t
  · rw [ht, goto_stage_self]
    exact hl
  · rw [goto_stage_ne _ ht]
    exact h.lockable t'

theorem acquire (hp : d₀.options.evictionPolicy ≠ some .lru) (h : InOrder cfg P d₀ order s)
    {l : Locker} (hs : s.stage t = .locking)
    (hs' : s' = { s with locker := l }.goto t (.running (cfg.program s.dmap.options.ttl t)))
    (hl : ∀ t, (s'.stage t).Lockable cfg.lockName (s'.locker.pc t)) (hx : s'.Exclusive cfg)
    (hP : P t s.dmap) : InOrder cfg P d₀ order s' := by
  have hself : s'.stage t = .running (cfg.program s.dmap.options.ttl t) := by
    rw [hs', goto_stage_self]
  have hne : ∀ t', t' ≠ t → s'.stage t' = s.stage t' := fun t' ht => by
    rw [hs', goto_stage_ne _ ht]
  have hd : s'.dmap = s.dmap := by rw [hs']; rfl
  have hguards : s'.locker.Guards t cfg.lockName := by
    have := hl t
    rw [hself] at this
    exact this
  -- Nobody else can be at work: they would have a guard as well.
  have hidle : ∀ t', (s.stage t').isRunning = false := fun t' => by
    by_cases ht : t' = t
    · rw [ht, hs]
      rfl
    · rw [← hne t' ht]
      by_contra hrun
      exact ht (eq_of_isRunning hl hx hguards (Bool.eq_true_of_not_eq_false hrun))
  have hbetween := h.between hidle
  refine ⟨h.nodup, h.began, fun t' r => ?_, by rw [hd, h.options], fun hnone => ?_,
    fun t' rest hrest => ?_, hl⟩
  · rw [h.results]
    by_cases ht : t' = t
    · rw [ht, hself, hs]
      rfl
    · rw [hne t' ht]
  · have := hnone t
    rw [hself] at this
    cases this
  have ht : t' = t := eq_of_isRunning hl hx hguards (by rw [hrest]; rfl)
  rw [ht, hself] at hrest
  cases hrest
  rw [ht, hd, ← hbetween]
  exact ⟨hP, exec_task (h.options ▸ hp) (cfg.op t)⟩

theorem request (h : InOrder cfg P d₀ order s) {i : FragmentReq} {k}
    (hs : s.stage t = .running (.ask i k))
    (hs' : s' = { s with dmap := (handle i s.dmap).2 }.goto t
      (.running (k (handle i s.dmap).1))) (hx : s'.Exclusive cfg) :
    InOrder cfg P d₀ order s' := by
  have hself : s'.stage t = .running (k (handle i s.dmap).1) := by
    rw [hs', goto_stage_self]
  have hne : ∀ t', t' ≠ t → s'.stage t' = s.stage t' := fun t' ht => by
    rw [hs', goto_stage_ne _ ht]
  have hlocker : s'.locker = s.locker := by rw [hs']; rfl
  have hl : ∀ t', (s'.stage t').Lockable cfg.lockName (s'.locker.pc t') := fun t' => by
    rw [hlocker]
    by_cases ht : t' = t
    · rw [ht, hself]
      exact h.guards hs
    · rw [hne t' ht]
      exact h.lockable t'
  refine ⟨h.nodup, h.began, fun t' r => ?_, ?_, fun hnone => ?_, fun t' rest hrest => ?_, hl⟩
  · rw [h.results]
    by_cases ht : t' = t
    · rw [ht, hself, hs]
      rfl
    · rw [hne t' ht]
  · rw [hs', ← h.options]
    exact options_handle i s.dmap
  · have := hnone t
    rw [hself] at this
    cases this
  have ht : t' = t :=
    eq_of_isRunning hl hx (hlocker ▸ h.guards hs) (by rw [hrest]; rfl)
  rw [ht, hself] at hrest
  cases hrest
  rw [ht, hs']
  exact h.underWay t _ hs

theorem result (h : InOrder cfg P d₀ order s) {r : KeyResult} (hs : s.stage t = .running (.ret r))
    (hx : s.Exclusive cfg) : InOrder cfg P d₀ (order ++ [t]) (s.goto t (.leaving r)) := by
  obtain ⟨hP, hcall⟩ := h.underWay t _ hs
  have hseq : cfg.sequential d₀ (order ++ [t]) =
      ((cfg.sequential d₀ order).1 ++ [(t, r)], s.dmap) := by
    rw [sequential_snoc, ← hcall]
    rfl
  have hfresh : t ∉ order := by
    intro hmem
    have hfst : (cfg.sequential d₀ order).1.map Prod.fst = order :=
      map_fst_sequential order
    rw [← hfst] at hmem
    obtain ⟨⟨t', r'⟩, hr, rfl⟩ := mem_map.1 hmem
    have hres := (h.results _ _).1 hr
    rw [hs] at hres
    cases hres
  refine ⟨?_, forall_split_snoc.2 ⟨h.began, hP⟩, fun t' r' => ?_, h.options, fun _ => ?_,
    fun t' rest hrest => ?_, fun t' => ?_⟩
  · rw [nodup_append]
    refine ⟨h.nodup, nodup_singleton t, ?_⟩
    rintro a ha b hb rfl
    exact hfresh (mem_singleton.1 hb ▸ ha)
  · rw [hseq, mem_append, mem_singleton, h.results]
    by_cases ht : t' = t
    · rw [ht, goto_stage_self, hs]
      simp [result?, eq_comm]
    · rw [goto_stage_ne _ ht]
      simp [ht]
  · rw [hseq]
    rfl
  · by_cases ht : t' = t
    · rw [ht, goto_stage_self] at hrest
      cases hrest
    · rw [goto_stage_ne _ ht] at hrest
      exact absurd (eq_of_isRunning h.lockable hx (h.guards hs) (by rw [hrest]; rfl)) ht
  · by_cases ht : t' = t
    · rw [ht, goto_stage_self]
      trivial
    · rw [goto_stage_ne _ ht]
      exact h.lockable t'

/-- A step goes on with the call in hand, or ends it. -/
theorem step (hp : d₀.options.evictionPolicy ≠ some .lru) (h : InOrder cfg P d₀ order s)
    {ev : RmwEvent} (hs : s.step cfg ev = some s') (hx : s'.Exclusive cfg)
    (hP : ∀ t, (s'.stage t).isRunning = true → P t s'.dmap) :
    ∃ order', InOrder cfg P d₀ order' s' := by
  cases steps_of_step hs with
  | @start t hst =>
    have hl := h.lockable t
    rw [hst] at hl
    exact ⟨order, h.goto rfl (by rw [hst]; rfl) (by rw [hst]; rfl) (LockPc.locking_of_idle hl)⟩
  | @locker e l stage hl ho =>
    have hpc : ∀ t, t ≠ e.task → l.pc t = s.locker.pc t := fun t ht => Locker.step_pc_ne hl ht
    have hlockable : ∀ t, (({ s with locker := l } : RmwState).goto e.task stage).stage t
        |>.Lockable cfg.lockName (l.pc t) := fun t => by
      by_cases ht : t = e.task
      · rw [ht, goto_stage_self]
        exact RmwStage.Lockable.step hl ho (h.lockable e.task)
      · rw [goto_stage_ne _ ht, hpc t ht]
        exact h.lockable t
    rcases onLocker_cases ho with rfl | ⟨hst, rfl⟩
    · refine ⟨order, h.move rfl (fun t => .inl ?_) hlockable⟩
      by_cases ht : t = e.task
      · rw [ht, goto_stage_self]
      · rw [goto_stage_ne _ ht]
    · refine ⟨order, acquire hp h hst rfl hlockable hx (hP e.task ?_)⟩
      rw [goto_stage_self]
      rfl
  | request hst => exact ⟨order, h.request hst rfl hx⟩
  | @result t r hst => exact ⟨order ++ [t], h.result hst hx⟩
  | @finish t r hst hl => exact ⟨order, h.goto rfl (by rw [hst]; rfl) (by rw [hst]; rfl) trivial⟩

end InOrder

/-! ### Increments -/

namespace RmwConfig

variable (cfg : RmwConfig) {d : DMap} {t : ℕ}

def entryIn (d : DMap) : Option Entry := d.fragment.lookup (cfg.env.hash64 cfg.key)

def numberIn (d : DMap) : Except ClientError Int64 := currentNumber (cfg.entryIn d)

/-- The key's entry has not expired at any reading of the task. -/
def FreshIn (t : ℕ) (d : DMap) : Prop :=
  ∀ e, cfg.entryIn d = some e → ∀ n, e.isExpired (microsToNanosI64 (cfg.clk t n)) = false

variable {cfg}

theorem fetchLive_of_fresh (h : cfg.FreshIn t d) (n : ℕ) :
    d.fetchLive (cfg.env.hash64 cfg.key) (cfg.clk t n) = (cfg.entryIn d, d) := by
  unfold fetchLive
  rcases he : d.fragment.lookup (cfg.env.hash64 cfg.key) with _ | e
  · simp only [entryIn, he]
  · simp only [entryIn, he, h e he n, Bool.false_eq_true, if_false]

theorem put_of_fresh (hp : d.options.evictionPolicy ≠ some .lru) (h : cfg.FreshIn t d)
    (value : Bytes) : ∃ entry : Entry, entry.key = cfg.key ∧ entry.value = value ∧
      (∀ fragment, d.fragment.put (cfg.env.hash64 cfg.key) entry = .ok fragment →
        d.put cfg.env cfg.key value {} (cfg.clk t) =
          (.ok (), { d with fragment, monotonicTs := entry.timestampNanos })) ∧
      ∀ e, d.fragment.put (cfg.env.hash64 cfg.key) entry = .error e →
        d.put cfg.env cfg.key value {} (cfg.clk t) =
          (.error (.storage e), { d with monotonicTs := entry.timestampNanos }) := by
  have hvalid : ({} : PutOptions).validate = .ok () := rfl
  obtain ⟨ttl, httl⟩ : ∃ ttl, ({} : PutOptions).resolveTtlNanos (cfg.clk t 1) d.options.ttl =
      .ok ttl := by
    unfold PutOptions.resolveTtlNanos
    rw [hvalid]
    rcases d.options.ttl with _ | ttl <;> exact ⟨_, rfl⟩
  refine ⟨{ key := cfg.key, ttlNanos := ttl
            timestampNanos := nextLwwTimestamp d.monotonicTs (microsToNanosI64 (cfg.clk t 2))
            lastAccessNanos := microsToNanosI64 (cfg.clk t 0), value }, rfl, rfl,
    fun fragment hput => ?_, fun e hput => ?_⟩
  · unfold put
    simp only [hvalid, fetchLive_of_fresh h, putEntry, httl, Bool.false_and, Bool.false_eq_true,
      if_false, hput]
    exact congrArg (Prod.mk _) (evictIfNeeded_of_not_lru hp)
  · unfold put
    simp only [hvalid, fetchLive_of_fresh h, putEntry, httl, Bool.false_and, Bool.false_eq_true,
      if_false, hput]

theorem currentNumber_text {e : Entry} {n : Int64} (h : e.value = i64Text n) :
    currentNumber (some e) = .ok n := by
  simp only [currentNumber, h, utf8Error_i64Text, parseInteger_i64Text]

section Incr

variable {delta : Int64} (hp : d.options.evictionPolicy ≠ some .lru) (h : cfg.FreshIn t d)
  (hop : cfg.op t = .incr delta)
include hp h hop

theorem call_incr_ok (hkey : cfg.key.length ≤ maxKeyLen) {n : Int64}
    (hn : cfg.numberIn d = .ok n) : (cfg.call d t).1 = .ok (.number (satAdd n delta)) ∧
      (cfg.entryIn (cfg.call d t).2).map (·.value) = some (i64Text (satAdd n delta)) ∧
      (cfg.call d t).2.options = d.options := by
  obtain ⟨entry, hk, hv, hput, -⟩ := put_of_fresh hp h (i64Text (satAdd n delta))
  have hlen := length_i64Text (satAdd n delta)
  have hencodes : entry.Encodable :=
    ⟨hk ▸ hkey, hv ▸ hlen.trans (by decide)⟩
  have hfragment : d.fragment.put (cfg.env.hash64 cfg.key) entry =
      .ok (d.fragment.insert (cfg.env.hash64 cfg.key) entry) := by
    rw [Fragment.put, Entry.encodeInto_ok hencodes]
  have hcall : cfg.call d t = (.ok (.number (satAdd n delta)),
      { d with fragment := d.fragment.insert (cfg.env.hash64 cfg.key) entry
               monotonicTs := entry.timestampNanos }) := by
    unfold call
    rw [hop, DMap.call]
    unfold incr readModifyWrite incremented
    unfold numberIn at hn
    simp only [Bool.not_true, Bool.false_eq_true, if_false, fetchLive_of_fresh h, hn,
      hput _ hfragment]
    rfl
  rw [hcall]
  refine ⟨rfl, ?_, rfl⟩
  simp only [entryIn, HMap.lookup_insert_eq_ite, if_true, Option.map_some, hv]

theorem call_incr_error (hbad : ∀ n, cfg.numberIn d = .ok n → maxKeyLen < cfg.key.length) :
    (∃ e, (cfg.call d t).1 = .error e) ∧ cfg.entryIn (cfg.call d t).2 = cfg.entryIn d ∧
      (cfg.call d t).2.options = d.options := by
  unfold call
  rw [hop, DMap.call]
  unfold incr readModifyWrite incremented
  unfold numberIn at hbad
  simp only [Bool.not_true, Bool.false_eq_true, if_false, fetchLive_of_fresh h]
  rcases hn : currentNumber (cfg.entryIn d) with e | n
  · exact ⟨⟨e, rfl⟩, rfl, rfl⟩
  obtain ⟨entry, hk, hv, -, hput⟩ := put_of_fresh hp h (i64Text (satAdd n delta))
  have hencodes : ¬ entry.Encodable := fun hencodes =>
    absurd (hk ▸ hencodes.1) (Nat.not_le.2 (hbad n hn))
  obtain ⟨e, he⟩ := Entry.encodeInto_error hencodes []
  have hfragment : d.fragment.put (cfg.env.hash64 cfg.key) entry = .error e := by
    rw [Fragment.put, he]
  simp only [hput e hfragment]
  exact ⟨⟨_, rfl⟩, rfl, trivial⟩

end Incr

def total (delta : ℕ → Int64) (n : Int64) (order : List ℕ) : Int64 :=
  order.foldl (fun n t => satAdd n (delta t)) n

theorem total_snoc (delta : ℕ → Int64) (n : Int64) (order : List ℕ) (t : ℕ) :
    total delta n (order ++ [t]) = satAdd (total delta n order) (delta t) := by
  rw [total, foldl_append]
  rfl

section Incrs

variable {delta : ℕ → Int64} (hp : d.options.evictionPolicy ≠ some .lru)
  (hop : ∀ t, cfg.op t = .incr (delta t))
include hp hop

theorem sequential_incrs_ok (hkey : cfg.key.length ≤ maxKeyLen) {n : Int64}
    (hn : cfg.numberIn d = .ok n) (order : List ℕ)
    (h : ∀ pre t post, order = pre ++ t :: post → cfg.FreshIn t (cfg.sequential d pre).2) :
    (∀ pre t post, order = pre ++ t :: post →
      (t, .ok (.number (total delta n (pre ++ [t])))) ∈ (cfg.sequential d order).1) ∧
    cfg.numberIn (cfg.sequential d order).2 = .ok (total delta n order) ∧
    (order ≠ [] → (cfg.entryIn (cfg.sequential d order).2).map (·.value) =
      some (i64Text (total delta n order))) ∧
    (cfg.sequential d order).2.options = d.options := by
  induction order using reverseRecOn with
  | nil => exact ⟨fun pre t post h => by simp at h, hn, fun h => absurd rfl h, rfl⟩
  | append_singleton order t ih =>
    obtain ⟨hpre, hfresh⟩ := forall_split_snoc.1 h
    obtain ⟨hresults, hnumber, -, hopt⟩ := ih hpre
    obtain ⟨hr, hvalue, hopt'⟩ := call_incr_ok (hopt ▸ hp) hfresh (hop t) hkey hnumber
    rw [sequential_snoc, total_snoc]
    refine ⟨forall_split_snoc.2 ⟨fun pre t' post hl => ?_, ?_⟩, ?_, fun _ => hvalue,
      hopt'.trans hopt⟩
    · exact mem_append_left _ (hresults pre t' post hl)
    · rw [total_snoc, hr]
      exact mem_append_right _ (mem_singleton_self _)
    · obtain ⟨e, he, hv⟩ := Option.map_eq_some_iff.1 hvalue
      rw [numberIn, he]
      exact currentNumber_text hv

theorem sequential_incrs_error
    (hbad : ∀ n, cfg.numberIn d = .ok n → maxKeyLen < cfg.key.length) (order : List ℕ)
    (h : ∀ pre t post, order = pre ++ t :: post → cfg.FreshIn t (cfg.sequential d pre).2) :
    (∀ t r, (t, r) ∈ (cfg.sequential d order).1 → ∃ e, r = .error e) ∧
      cfg.entryIn (cfg.sequential d order).2 = cfg.entryIn d ∧
      (cfg.sequential d order).2.options = d.options := by
  induction order using reverseRecOn with
  | nil => exact ⟨fun t r h => by simp [sequential] at h, rfl, rfl⟩
  | append_singleton order t ih =>
    obtain ⟨hpre, hfresh⟩ := forall_split_snoc.1 h
    obtain ⟨hresults, hentry, hopt⟩ := ih hpre
    obtain ⟨⟨e, he⟩, hentry', hopt'⟩ := call_incr_error (hopt ▸ hp) hfresh (hop t)
      (by rw [numberIn, hentry]; exact hbad)
    rw [sequential_snoc]
    refine ⟨fun t' r hmem => ?_, hentry'.trans hentry, hopt'.trans hopt⟩
    rcases mem_append.1 hmem with hmem | hmem
    · exact hresults t' r hmem
    · cases mem_singleton.1 hmem
      exact ⟨e, he⟩

end Incrs

end RmwConfig

variable {es : List RmwEvent}

/-! ### Every interleaving -/

section Interleavings

variable {cfg : RmwConfig} {d₀ : DMap}

/-- Every step of the run leaves a state with the property. -/
abbrev Throughout (cfg : RmwConfig) (d₀ : DMap) (Q : RmwState → Prop) (es : List RmwEvent) : Prop :=
  Guarded (step cfg) (fun s e => ∀ s' ∈ s.step cfg e, Q s') (.new d₀) es

/-- The calls of a run come out one after another. -/
theorem inOrder_of_run {P : ℕ → DMap → Prop} (hp : d₀.options.evictionPolicy ≠ some .lru)
    {s : RmwState} (hx : exec (step cfg) (.new d₀) es = some s)
    (hexcl : Throughout cfg d₀ (RmwState.Exclusive cfg) es)
    (hP : Throughout cfg d₀ (fun s => ∀ t, (s.stage t).isRunning = true → P t s.dmap) es) :
    ∃ order, InOrder cfg P d₀ order s := by
  have hstep : ∀ s e s', (∃ order, InOrder cfg P d₀ order s) →
      ((∀ s' ∈ s.step cfg e, s'.Exclusive cfg) ∧
        ∀ s' ∈ s.step cfg e, ∀ t, (s'.stage t).isRunning = true → P t s'.dmap) →
      s.step cfg e = some s' → ∃ order, InOrder cfg P d₀ order s' :=
    fun s e s' ⟨_, h⟩ hg hs => h.step hp hs (hg.1 s' hs) (hg.2 s' hs)
  exact Guarded.invariant hstep ⟨[], .new cfg P d₀⟩ (hexcl.and hP) hx

theorem exclusive_of_settled (h : Guarded (step cfg) RmwState.Settled (.new d₀) es) :
    Throughout cfg d₀ (RmwState.Exclusive cfg) es := by
  have hkeep : ∀ (s : RmwState) (e : RmwEvent) (s' : RmwState), s.locker.Inv → s.Settled e →
      s.step cfg e = some s' → s'.locker.Inv := by
    intro s e s' i hset hs
    cases steps_of_step hs with
    | locker hl ho => exact i.step hset hl
    | _ => exact i
  refine (Guarded.congr (fun s => s.locker.Inv) hkeep (fun s e i hset => ?_) Locker.Inv.new h).1 h
  refine ⟨fun _ s' hs t t' ⟨slot, hpc⟩ ⟨slot', hpc'⟩ => ?_, fun _ => hset⟩
  exact (hkeep s e s' i hset hs).holding_unique hpc hpc'

/-- In every interleaving of guarded calls on a key, if no two tasks have its guard at once, the
results and what the DMap is left with are those of the calls one after another in some order. With
increments only and no entry past its expiry, each adds to what those before it have left, unless
there is no number to add to or the key is too long: then all of them fail and nothing changes. -/
theorem calls_in_some_order (hp : d₀.options.evictionPolicy ≠ some .lru) (es : List RmwEvent)
    (s : RmwState) (hx : exec (step cfg) (.new d₀) es = some s)
    (hexcl : Throughout cfg d₀ (RmwState.Exclusive cfg) es)
    (hdone : ∀ t, (s.stage t).isRunning = false) :
    ∃ order : List ℕ, order.Nodup ∧
      (∀ t r, (t, r) ∈ (cfg.sequential d₀ order).1 ↔ (s.stage t).result? = some r) ∧
      (cfg.sequential d₀ order).2 = s.dmap ∧
      ∀ delta : ℕ → Int64, (∀ t, cfg.op t = .incr (delta t)) →
        Throughout cfg d₀ (RmwState.Fresh cfg) es →
        (∀ n, cfg.numberIn d₀ = .ok n → cfg.key.length ≤ maxKeyLen →
          (∀ pre t post, order = pre ++ t :: post →
            (s.stage t).result? = some (.ok (.number (total delta n (pre ++ [t]))))) ∧
          cfg.numberIn s.dmap = .ok (total delta n order) ∧
          (order ≠ [] → (cfg.entryIn s.dmap).map (·.value) =
            some (i64Text (total delta n order)))) ∧
        ((∀ n, cfg.numberIn d₀ = .ok n → maxKeyLen < cfg.key.length) →
          (∀ t r, (s.stage t).result? = some r → ∃ e, r = .error e) ∧
          cfg.entryIn s.dmap = cfg.entryIn d₀) := by
  by_cases hfresh : Throughout cfg d₀ (RmwState.Fresh cfg) es
  · obtain ⟨order, h⟩ := inOrder_of_run (P := cfg.FreshIn) hp hx hexcl hfresh
    have hdmap := h.between hdone
    refine ⟨order, h.nodup, h.results, hdmap.symm, fun delta hop _ =>
      ⟨fun n hn hkey => ?_, fun hbad => ?_⟩⟩
    · obtain ⟨hresults, hnumber, hvalue, -⟩ :=
        sequential_incrs_ok hp hop hkey hn order h.began
      rw [hdmap]
      exact ⟨fun pre t post hl => (h.results _ _).1 (hresults pre t post hl), hnumber, hvalue⟩
    · obtain ⟨hresults, hentry, -⟩ := sequential_incrs_error hp hop hbad order h.began
      rw [hdmap]
      exact ⟨fun t r hr => hresults t r ((h.results t r).2 hr), hentry⟩
  · have htrue : Throughout cfg d₀ (fun s => ∀ t, (s.stage t).isRunning = true → True) es :=
      Guarded.of_forall (fun _ _ _ _ _ _ => trivial) es _
    obtain ⟨order, h⟩ := inOrder_of_run (P := fun _ _ => True) hp hx hexcl htrue
    exact ⟨order, h.nodup, h.results, (h.between hdone).symm, fun _ _ hf => absurd hf hfresh⟩

end Interleavings

def RmwEvent.task : RmwEvent → ℕ
  | start t | request t | result t | finish t => t
  | locker e => e.task

theorem RmwState.stage_of_not_task {cfg : RmwConfig} {s s' : RmwState} (ht : ∀ e ∈ es, e.task ≠ t)
    (hx : exec (step cfg) s es = some s') : s'.stage t = s.stage t := by
  have hkeep : ∀ (u : RmwState) (e : RmwEvent) (u' : RmwState), u.stage t = s.stage t →
      e.task ≠ t → u.step cfg e = some u' → u'.stage t = s.stage t := by
    intro u e u' hu hne hs
    cases steps_of_step hs <;> exact (goto_stage_ne _ (Ne.symm hne)).trans hu
  exact exec_invariant hkeep rfl ht hx

/-- Two increments of a new key, by five and by minus three. -/
def twoIncrs : RmwConfig where
  env := ⟨fun key => (key.headD 0).toUInt64, fun _ keys n => keys.take n, fun s => s, fun _ => ""⟩
  name := "d"
  key := [1]
  op t := .incr (if t = 0 then 5 else -3)
  clk _ _ := 0
  takesGuard _ := rfl

/-- The second call comes to its result while the first one waits for the guard. -/
def overtaking : List RmwEvent :=
  [.start 0, .start 1, .locker (.lookup 0 ("d", [1])), .locker (.lookup 1 ("d", [1])),
    .locker (.count 1), .locker (.count 0), .locker (.lock 1), .request 1, .request 1, .request 1,
    .request 1, .result 1, .locker (.sub 1), .locker (.release 1), .finish 1, .locker (.lock 0),
    .request 0, .request 0, .request 0, .request 0, .result 0]

theorem calls_in_some_order_overtaking : ∃ s, ∃ order : List ℕ,
    exec (step twoIncrs) (.new (.new {})) overtaking = some s ∧ order.Nodup ∧
      (∀ t r, (t, r) ∈ (twoIncrs.sequential (.new {}) order).1 ↔ (s.stage t).result? = some r) ∧
      (s.stage 0).result? = some (.ok (.number 2)) ∧
      (s.stage 1).result? = some (.ok (.number (-3))) ∧
      twoIncrs.numberIn s.dmap =
        .ok (total (fun t => if t = 0 then 5 else -3) 0 order) := by
  have hset : Guarded (step twoIncrs) RmwState.Settled (.new (.new {})) overtaking := by
    repeat refine .cons trivial rfl ?_
    trivial
  have hfresh : Throughout twoIncrs (.new {}) (RmwState.Fresh twoIncrs) overtaking := by
    have hzero : Throughout twoIncrs (.new {})
        (fun s => ∀ e ∈ twoIncrs.entryIn s.dmap, e.ttlNanos = 0) overtaking := by
      decide +kernel
    refine hzero.mono fun s e h s' hs t _ entry hentry n => ?_
    rw [Entry.isExpired, h s' hs entry hentry]
    rfl
  obtain ⟨s, hx, h0, h1⟩ : ∃ s, exec (step twoIncrs) (.new (.new {})) overtaking = some s ∧
      (s.stage 0).result? = some (.ok (.number 2)) ∧
      (s.stage 1).result? = some (.ok (.number (-3))) := ⟨_, rfl, rfl, rfl⟩
  have hidle : ∀ t, (s.stage t).isRunning = false := by
    intro t
    rcases t with _ | _ | t
    · exact isRunning_of_result h0
    · exact isRunning_of_result h1
    · have htasks : ∀ e ∈ overtaking, e.task < 2 := by decide
      rw [stage_of_not_task (fun e he => by have := htasks e he; omega) hx]
      rfl
  obtain ⟨order, hnodup, hresults, -, hincrs⟩ :=
    calls_in_some_order (by decide) _ s hx (exclusive_of_settled hset) hidle
  exact ⟨s, order, hx, hnodup, hresults, h0, h1,
    ((hincrs _ (fun _ => rfl) hfresh).1 0 rfl (by decide)).2.1⟩

end Kamino
