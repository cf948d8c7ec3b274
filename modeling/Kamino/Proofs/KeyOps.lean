import Kamino.KeyOps
import Kamino.Proofs.DMap

/-!
# The programs of the key operations
-/

namespace Kamino

namespace KeyTask

open Prog

variable {α β σ : Type} (h : Handler FragmentReq FragmentReq.Answer σ) (s : σ)

def followedBy (r : Except ClientError α × σ) (f : α → σ → Except ClientError β × σ) :
    Except ClientError β × σ :=
  match r with
  | (.error e, s) => (.error e, s)
  | (.ok a, s) => f a s

@[simp] theorem followedBy_ok (a : α) (f : α → σ → Except ClientError β × σ) :
    followedBy (.ok a, s) f = f a s := rfl

@[simp] theorem followedBy_error (e : ClientError) (f : α → σ → Except ClientError β × σ) :
    followedBy (.error e, s) f = (.error e, s) := rfl

@[simp] theorem exec_pure (a : α) : exec h s (pure a : KeyTask α) = (.ok a, s) := rfl

@[simp] theorem exec_throw (e : ClientError) : exec h s (throw e : KeyTask α) = (.error e, s) := rfl

@[simp] theorem exec_ofExcept (r : Except ClientError α) : exec h s (ofExcept r) = (r, s) := rfl

@[simp] theorem exec_bind (x : KeyTask α) (f : α → KeyTask β) :
    exec h s (x >>= f) = followedBy (exec h s x) fun a s => exec h s (f a) := by
  have hrun := run_bind h (ExceptT.bindCont f) x.run s
  refine hrun.trans ?_
  unfold exec
  rcases x.run.run h s with ⟨_ | a, s'⟩ <;> rfl

@[simp] theorem exec_map (g : α → β) (x : KeyTask α) :
    exec h s (g <$> x) = followedBy (exec h s x) fun a s => (.ok (g a), s) :=
  exec_bind h s x fun a => pure (g a)

@[simp] theorem exec_ite (c : Prop) [Decidable c] (x y : KeyTask α) :
    exec h s (if c then x else y) = if c then exec h s x else exec h s y := by
  split <;> rfl

@[simp] theorem exec_ignore (x : KeyTask α) :
    exec h s (ignore x) = (unheeded (exec h s x).1, (exec h s x).2) :=
  run_bind h (fun r => .ret (unheeded r)) x.run s

@[simp] theorem exec_fragmentGet (hkey : UInt64) : exec h s (fragmentGet hkey) =
    ((h (.get hkey) s).1.mapError .storage, (h (.get hkey) s).2) := rfl

@[simp] theorem exec_fragmentPut (hkey : UInt64) (entry : Entry) :
    exec h s (fragmentPut hkey entry) =
      ((h (.put hkey entry) s).1.mapError .storage, (h (.put hkey entry) s).2) := rfl

@[simp] theorem exec_fragmentDelete (hkey : UInt64) : exec h s (fragmentDelete hkey) =
    ((h (.delete hkey) s).1.mapError .storage, (h (.delete hkey) s).2) := rfl

@[simp] theorem exec_stamp_none (nowMicros : UInt64) : exec h s (stamp none nowMicros) =
    (.ok (h (.nextStamp (microsToNanosI64 nowMicros)) s).1,
      (h (.nextStamp (microsToNanosI64 nowMicros)) s).2) := rfl

@[simp] theorem exec_stamp_some (ts : Int64) (nowMicros : UInt64) :
    exec h s (stamp (some ts) nowMicros) = (.ok ts, (h (.observeStamp ts) s).2) := rfl

end KeyTask

/-! ### On a DMap -/

namespace DMap

def call (env : Env) (d : DMap) (key : Bytes) (clk : ℕ → UInt64) :
    KeyOp → Except ClientError KeyAnswer × DMap
  | .put value o => ((d.put env key value o clk).1.map fun _ => .done,
      (d.put env key value o clk).2)
  | .get => ((d.get env key clk).1.map .got, (d.get env key clk).2)
  | .delete => (.ok (.deleted (d.delete env key).1), (d.delete env key).2)
  | .incr delta => ((d.incr env true key delta clk).1.map .number,
      (d.incr env true key delta clk).2)
  | .decr delta => ((d.decr env true key delta clk).1.map .number,
      (d.decr env true key delta clk).2)
  | .getPut value => ((d.getPut env true key value clk).1.map .previous,
      (d.getPut env true key value clk).2)
  | .expire duration => ((d.expire env true key duration clk).1.map fun _ => .done,
      (d.expire env true key duration clk).2)

open KeyTask

variable {env : Env} {d : DMap} {key : Bytes} {clk : ℕ → UInt64}

theorem exec_fetchLive (now : UInt64) : exec handle d (KeyTask.fetchLive env key now) =
    (.ok (d.fetchLive (env.hash64 key) now).1, (d.fetchLive (env.hash64 key) now).2) := by
  unfold KeyTask.fetchLive DMap.fetchLive
  rw [exec_bind, exec_fragmentGet]
  rcases hl : d.fragment.lookup (env.hash64 key) with _ | entry
  · simp [handle, hl, Except.mapError]
  simp only [handle, hl, Except.mapError, followedBy_ok]
  rw [exec_ite]
  split_ifs
  · simp [handle, unheeded, Except.mapError, Fragment.delete]
  · rfl

theorem exec_putInternal (hp : d.options.evictionPolicy ≠ some .lru) (value : Bytes)
    (o : PutOptions) : exec handle d (KeyTask.putInternal env d.options.ttl key clk value o) =
      d.put env key value o clk := by
  unfold KeyTask.putInternal DMap.put
  rw [exec_bind, exec_ofExcept]
  rcases o.validate with e | _
  · rfl
  rw [followedBy_ok, exec_bind, exec_fetchLive, followedBy_ok]
  have hopt := fetchLive_options d (env.hash64 key) (clk 3)
  simp only []
  generalize d.fetchLive (env.hash64 key) (clk 3) = fetched at hopt ⊢
  obtain ⟨existing, d'⟩ := fetched
  rw [exec_ite, exec_ite, exec_throw, exec_throw, ← hopt]
  split_ifs
  · rfl
  · rfl
  rw [putEntry, exec_bind, exec_ofExcept]
  rcases o.resolveTtlNanos (clk 1) d'.options.ttl with e | ttlNanos
  · rfl
  rw [← hopt] at hp
  rw [followedBy_ok, exec_bind]
  rcases o.timestamp with _ | ts
  on_goal 1 => rw [exec_stamp_none]
  on_goal 2 => rw [exec_stamp_some]
  all_goals
    rw [followedBy_ok, exec_fragmentPut]
    simp only [handle]
    generalize d'.fragment.put _ _ = stored
    cases stored <;> simp [Except.mapError, evictIfNeeded, hp]

theorem unheeded_put {f : Fragment} {hkey : UInt64} {entry : Entry} {e : StorageError}
    (hput : f.put hkey entry = .error e) :
    unheeded (.error (.storage e) : Except ClientError Unit) = .ok () := by
  unfold Fragment.put Entry.encodeInto at hput
  split_ifs at hput <;> cases hput <;> rfl

theorem exec_touch (entry : Entry) (now : UInt64) :
    exec handle d (KeyTask.touchLastAccess env key entry now) =
      (.ok (), d.touchLastAccess env key entry now) := by
  unfold KeyTask.touchLastAccess DMap.touchLastAccess
  rw [exec_ignore, exec_fragmentPut]
  simp only [handle]
  rcases hput : d.fragment.put (env.hash64 key)
    { entry with lastAccessNanos := microsToNanosI64 now } with e | f
  · simp [Except.mapError, unheeded_put hput]
  · rfl

theorem exec_get : exec handle d (KeyTask.get env key clk) = d.get env key clk := by
  unfold KeyTask.get DMap.get
  rw [exec_bind, exec_fetchLive, followedBy_ok]
  rcases d.fetchLive (env.hash64 key) (clk 0) with ⟨_ | entry, d'⟩
  · rfl
  · simp only []
    rw [exec_bind, exec_touch]
    rfl

theorem exec_readModifyWrite {α : Type} (hp : d.options.evictionPolicy ≠ some .lru)
    (change : Option Entry → Except ClientError (Bytes × α)) :
    exec handle d (KeyTask.readModifyWrite env d.options.ttl key clk change) =
      d.readModifyWrite env true key clk change := by
  unfold KeyTask.readModifyWrite DMap.readModifyWrite
  rw [exec_bind, exec_fetchLive, followedBy_ok]
  have hopt := fetchLive_options d (env.hash64 key) (clk 4)
  simp only [Bool.not_true, Bool.false_eq_true, if_false]
  generalize d.fetchLive (env.hash64 key) (clk 4) = fetched at hopt ⊢
  obtain ⟨existing, d'⟩ := fetched
  simp only [] at hopt ⊢
  rw [exec_bind, exec_ofExcept]
  rcases change existing with e | ⟨value, answer⟩
  · rfl
  rw [followedBy_ok, exec_bind, ← hopt, exec_putInternal (hopt ▸ hp)]
  simp only []
  rcases d'.put env key value {} clk with ⟨_ | _, _⟩ <;> rfl

theorem exec_expire (duration : ℕ) : exec handle d (KeyTask.expire env key clk duration) =
    d.expire env true key duration clk := by
  unfold KeyTask.expire DMap.expire
  rw [exec_bind, exec_fetchLive, followedBy_ok]
  simp only [Bool.not_true, Bool.false_eq_true, if_false]
  rcases d.fetchLive (env.hash64 key) (clk 0) with ⟨_ | entry, d'⟩
  · rfl
  simp only []
  rw [exec_fragmentPut]
  simp only [handle]
  generalize d'.fragment.put _ _ = stored
  cases stored <;> rfl

/-- Run by themselves on a `DMap`, the programs do what the DMap's calls do. -/
theorem exec_task (hp : d.options.evictionPolicy ≠ some .lru) (op : KeyOp) :
    exec handle d (op.task env d.options.ttl key clk) = d.call env key clk op := by
  cases op with
  | put value o =>
    rw [KeyOp.task, exec_map, exec_putInternal hp, call]
    rcases d.put env key value o clk with ⟨_ | _, _⟩ <;> rfl
  | get =>
    rw [KeyOp.task, exec_map, exec_get, call]
    rcases d.get env key clk with ⟨_ | _, _⟩ <;> rfl
  | delete => rfl
  | incr delta =>
    rw [KeyOp.task, exec_map, KeyTask.incr, exec_readModifyWrite hp, call, DMap.incr]
    rcases d.readModifyWrite env true key clk _ with ⟨_ | _, _⟩ <;> rfl
  | decr delta =>
    rw [KeyOp.task, exec_map, KeyTask.decr, KeyTask.incr, exec_readModifyWrite hp, call, DMap.decr,
      DMap.incr]
    rcases d.readModifyWrite env true key clk _ with ⟨_ | _, _⟩ <;> rfl
  | getPut value =>
    rw [KeyOp.task, exec_map, KeyTask.getPut, exec_readModifyWrite hp, call, DMap.getPut]
    rcases d.readModifyWrite env true key clk _ with ⟨_ | _, _⟩ <;> rfl
  | expire duration =>
    rw [KeyOp.task, exec_map, exec_expire, call]
    rcases d.expire env true key duration clk with ⟨_ | _, _⟩ <;> rfl

end DMap

/-! ### Blind to stamps -/

structure Entry.Same (e e' : Entry) : Prop where
  key : e.key = e'.key
  ttlNanos : e.ttlNanos = e'.ttlNanos
  lastAccessNanos : e.lastAccessNanos = e'.lastAccessNanos
  value : e.value = e'.value

theorem Entry.Same.refl (e : Entry) : e.Same e := ⟨rfl, rfl, rfl, rfl⟩

theorem Entry.Same.isExpired {e e' : Entry} (h : e.Same e') (now : Int64) :
    e.isExpired now = e'.isExpired now := by
  simp only [Entry.isExpired, h.ttlNanos]

theorem Entry.Same.currentNumber {e e' : Entry} (h : e.Same e') :
    DMap.currentNumber (some e) = DMap.currentNumber (some e') := by
  simp only [DMap.currentNumber, h.value]

def GetResponse.Same (r r' : GetResponse) : Prop := r.value = r'.value ∧ r.ttl = r'.ttl

theorem Entry.Same.toGetResponse {e e' : Entry} (h : e.Same e') (now : UInt64) :
    (DMap.toGetResponse e now).Same (DMap.toGetResponse e' now) := by
  simp [GetResponse.Same, DMap.toGetResponse, h.value, h.ttlNanos]

/-- Answers that agree in all but the stamps they carry. -/
inductive KeyAnswer.Same : KeyAnswer → KeyAnswer → Prop
  | done : Same .done .done
  | got {r r'} : r.Same r' → Same (.got r) (.got r')
  | deleted (found) : Same (.deleted found) (.deleted found)
  | number (n) : Same (.number n) (.number n)
  | previous {r r'} : Option.Rel GetResponse.Same r r' → Same (.previous r) (.previous r')

inductive ExceptRel {ε α β : Type} (V : α → β → Prop) : Except ε α → Except ε β → Prop
  | error (e) : ExceptRel V (.error e) (.error e)
  | ok {a b} : V a b → ExceptRel V (.ok a) (.ok b)

/-- Requests at one hash that differ in nothing but stamps. -/
inductive FragmentReq.Same (hkey : UInt64) : FragmentReq → FragmentReq → Prop
  | get : Same hkey (.get hkey) (.get hkey)
  | put {e e'} : e.Same e' → Same hkey (.put hkey e) (.put hkey e')
  | delete : Same hkey (.delete hkey) (.delete hkey)
  | nextStamp (now) : Same hkey (.nextStamp now) (.nextStamp now)
  | observeStamp (ts) : Same hkey (.observeStamp ts) (.observeStamp ts)

def FragmentReq.AnswerSame : ∀ i j : FragmentReq, i.Answer → j.Answer → Prop
  | .get _, .get _, r, r' => ExceptRel (Option.Rel Entry.Same) r r'
  | .put _ _, .put _ _, r, r' => r = r'
  | .delete _, .delete _, r, r' => r = r'
  | .nextStamp _, .nextStamp _, _, _ => True
  | .observeStamp _, .observeStamp _, _, _ => True
  | _, _, _, _ => False

namespace KeyTask

open Prog

variable {α β α' β' : Type} {hkey : UInt64} {V : α → β → Prop} {W : α' → β' → Prop}

/-- Tasks that make the same requests up to stamps and end with related results. -/
def Same (hkey : UInt64) (V : α → β → Prop) (x : KeyTask α) (y : KeyTask β) : Prop :=
  Rel (FragmentReq.Same hkey) FragmentReq.AnswerSame (ExceptRel V) x.run y.run

theorem Same.pure {a : α} {b : β} (h : V a b) :
    Same hkey V (pure a : KeyTask α) (pure b : KeyTask β) := .ok h

theorem Same.throw (e : ClientError) :
    Same hkey V (throw e : KeyTask α) (throw e : KeyTask β) := .error e

theorem Same.ofExcept (r : Except ClientError α) : Same hkey Eq (ofExcept r) (ofExcept r) := by
  rcases r with e | a
  · exact .error e
  · exact .ok rfl

theorem Same.bind {x : KeyTask α} {y : KeyTask β} {f : α → KeyTask α'} {g : β → KeyTask β'}
    (hx : Same hkey V x y) (hf : ∀ a b, V a b → Same hkey W (f a) (g b)) :
    Same hkey W (x >>= f) (y >>= g) := by
  refine Rel.bind (fun r r' hr => ?_) hx
  cases hr with
  | error e => exact .error e
  | ok hv => exact hf _ _ hv

theorem Same.map {x : KeyTask α} {y : KeyTask β} {f : α → α'} {g : β → β'}
    (hx : Same hkey V x y) (hf : ∀ a b, V a b → W (f a) (g b)) :
    Same hkey W (f <$> x) (g <$> y) :=
  hx.bind fun a b hv => .pure (hf a b hv)

theorem Same.fragmentGet :
    Same hkey (Option.Rel Entry.Same) (fragmentGet hkey) (fragmentGet hkey) := by
  refine ⟨.get, fun r r' hr => ?_⟩
  cases hr with
  | error e => exact .error (ClientError.storage e)
  | ok hv => exact .ok hv

theorem Same.fragmentPut {e e' : Entry} (h : e.Same e') :
    Same hkey Eq (fragmentPut hkey e) (fragmentPut hkey e') := by
  refine ⟨.put h, fun r r' hr => ?_⟩
  obtain rfl : r = r' := hr
  exact Same.ofExcept (r.mapError ClientError.storage)

theorem Same.fragmentDelete : Same hkey Eq (fragmentDelete hkey) (fragmentDelete hkey) := by
  refine ⟨.delete, fun r r' hr => ?_⟩
  obtain rfl : r = r' := hr
  exact Same.ofExcept (r.mapError ClientError.storage)

theorem Same.stamp (given : Option Int64) (now : UInt64) :
    Same hkey (fun _ _ => True) (stamp given now) (stamp given now) := by
  rcases given with _ | ts
  · exact ⟨.nextStamp _, fun _ _ _ => .ok trivial⟩
  · exact ⟨.observeStamp ts, fun _ _ _ => .ok trivial⟩

theorem Same.ignore {x y : KeyTask α} (h : Same hkey Eq x y) :
    Same hkey Eq (ignore x) (ignore y) := by
  refine Rel.bind (fun r r' hr => ?_) h
  obtain rfl : r = r' := by
    cases hr with
    | error => rfl
    | ok hv => rw [hv]
  exact Same.ofExcept (unheeded r)

section Operations

variable (env : Env) (ttl : Option ℕ) (key : Bytes) (clk : ℕ → UInt64)

theorem same_fetchLive (now : UInt64) : Same (env.hash64 key) (Option.Rel Entry.Same)
    (fetchLive env key now) (fetchLive env key now) := by
  refine Same.fragmentGet.bind fun o o' ho => ?_
  cases ho with
  | none => exact .pure .none
  | some h =>
    simp only [h.isExpired]
    split_ifs
    · exact Same.fragmentDelete.ignore.bind fun _ _ _ => .pure .none
    · exact .pure (.some h)

theorem same_putInternal (value : Bytes) (o : PutOptions) :
    Same (env.hash64 key) Eq (putInternal env ttl key clk value o)
      (putInternal env ttl key clk value o) := by
  refine (Same.ofExcept _).bind fun _ _ _ => (same_fetchLive env key _).bind fun e e' he => ?_
  have hsome : e.isSome = e'.isSome := by cases he <;> rfl
  have hnone : e.isNone = e'.isNone := by cases he <;> rfl
  rw [hsome, hnone]
  split_ifs
  · exact .throw _
  · exact .throw _
  · refine (Same.ofExcept _).bind fun t t' ht => (Same.stamp _ _).bind fun ts ts' _ => ?_
    exact .fragmentPut ⟨rfl, ht, rfl, rfl⟩

theorem same_touch {e e' : Entry} (h : e.Same e') (now : UInt64) : Same (env.hash64 key) Eq
    (touchLastAccess env key e now) (touchLastAccess env key e' now) := by
  refine Same.ignore (Same.fragmentPut ?_)
  exact ⟨h.key, h.ttlNanos, rfl, h.value⟩

theorem same_get : Same (env.hash64 key) GetResponse.Same (get env key clk) (get env key clk) := by
  refine (same_fetchLive env key _).bind fun o o' ho => ?_
  cases ho with
  | none => exact .throw _
  | some h =>
    exact (same_touch env key h _).bind fun _ _ _ => .pure (h.toGetResponse _)

theorem same_incr (delta : Int64) : Same (env.hash64 key) Eq (incr env ttl key clk delta)
    (incr env ttl key clk delta) := by
  refine (same_fetchLive env key _).bind fun o o' ho => ?_
  have hcur : DMap.incremented delta o = DMap.incremented delta o' := by
    cases ho with
    | none => rfl
    | some h => rw [DMap.incremented, DMap.incremented, h.currentNumber]
  rw [hcur]
  refine (Same.ofExcept _).bind fun n n' hn => ?_
  rw [hn]
  exact (same_putInternal env ttl key clk _ _).bind fun _ _ _ => .pure rfl

theorem same_getPut (value : Bytes) :
    Same (env.hash64 key) (Option.Rel GetResponse.Same) (getPut env ttl key clk value)
      (getPut env ttl key clk value) := by
  refine (same_fetchLive env key _).bind fun o o' ho =>
    (same_putInternal env ttl key clk _ _).bind fun _ _ _ => .pure ?_
  cases ho with
  | none => exact .none
  | some h => exact .some (h.toGetResponse _)

theorem same_expire (duration : ℕ) : Same (env.hash64 key) Eq (expire env key clk duration)
    (expire env key clk duration) := by
  refine (same_fetchLive env key _).bind fun o o' ho => ?_
  cases ho with
  | none => exact .throw _
  | some h => exact .fragmentPut ⟨h.key, rfl, rfl, h.value⟩

theorem same_task (op : KeyOp) : Same (env.hash64 key) KeyAnswer.Same
    (op.task env ttl key clk) (op.task env ttl key clk) := by
  cases op with
  | put value o => exact (same_putInternal env ttl key clk value o).map fun _ _ _ => .done
  | get => exact (same_get env key clk).map fun _ _ h => .got h
  | delete => exact Same.fragmentDelete.map fun b _ h => h ▸ .deleted b
  | incr delta => exact (same_incr env ttl key clk delta).map fun n _ h => h ▸ .number n
  | decr delta => exact (same_incr env ttl key clk (-delta)).map fun n _ h => h ▸ .number n
  | getPut value => exact (same_getPut env ttl key clk value).map fun _ _ h => .previous h
  | expire duration => exact (same_expire env key clk duration).map fun _ _ _ => .done

end Operations

end KeyTask

end Kamino
