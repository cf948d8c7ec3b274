import Kamino.Lib.Runs
import Mathlib.Algebra.BigOperators.Group.List.Basic
import Mathlib.Algebra.GroupWithZero.Nat
import Mathlib.Data.List.Forall2

/-!
# Requests that start tasks

A request that arrives starts a task: the task replies, or it sends a batch of requests and goes on
with their answers.
-/

namespace Tasks

open Runs List Option

inductive Task (Q R F L : Type*) where
  | done (reply : F)
  | batch (label : L) (sends : List Q) (resume : List R → Task Q R F L)

variable {S E Q R F L : Type*}

/-- The task where a batch is answered before anything else happens. -/
def Task.run (ask : L → List Q → S → List R × S) : Task Q R F L → S → F × S
  | .done reply, s => (reply, s)
  | .batch label sends resume, s =>
    let (answers, s) := ask label sends s
    (resume answers).run ask s

/-- A request that is refused does not start. -/
structure Service (S E Q R F L : Type*) where
  start : S → E → Q → Option (Task Q R F L × S)
  followUp : Q → F → Option Q

inductive Job (Q R F L : Type*) where
  | request (q : Q)
  | waiting (q : Q) (resume : List R → Task Q R F L)

/-- The jobs under way and the labels of the batches sent so far. -/
structure Work (S Q R F L : Type*) where
  state : S
  jobs : List (Job Q R F L)
  batches : List L := []

inductive Event (E R : Type*) where
  | arrive (i : ℕ) (e : E)
  | lose (i : ℕ)
  | answered (i : ℕ) (answers : List R)

namespace Service

variable (svc : Service S E Q R F L)

/-- What a request's task leaves to be done, and the batch it has sent. -/
def settle (q : Q) : Task Q R F L → List (Job Q R F L) × List L
  | .done reply => ((svc.followUp q reply).toList.map .request, [])
  | .batch label sends resume => (.waiting q resume :: sends.map .request, [label])

/-- The work after the `i`-th job has become `task`. -/
def goOn (w : Work S Q R F L) (i : ℕ) (q : Q) (task : Task Q R F L) (s : S) : Work S Q R F L :=
  let (jobs, batches) := svc.settle q task
  ⟨s, w.jobs.eraseIdx i ++ jobs, w.batches ++ batches⟩

def step (w : Work S Q R F L) : Event E R → Option (Work S Q R F L)
  | .arrive i e =>
    match w.jobs[i]? with
    | some (.request q) =>
      (svc.start w.state e q).map fun (task, s) => svc.goOn w i q task s
    | _ => none
  | .lose i =>
    match w.jobs[i]? with
    | some (.request _) => some { w with jobs := w.jobs.eraseIdx i }
    | _ => none
  | .answered i answers =>
    match w.jobs[i]? with
    | some (.waiting q resume) => some (svc.goOn w i q (resume answers) w.state)
    | _ => none

section Cost

variable (cost : Q → ℕ) (counted : L → Bool)

/-- The amount pays for the counted batches the task sends and for the requests in its batches,
whatever they are answered, and for the follow-up of its reply. -/
def Pays (q : Q) : Task Q R F L → ℕ → Prop
  | .done reply, n => ∀ q' ∈ svc.followUp q reply, cost q' ≤ n
  | .batch label sends resume, n => ∃ m,
    (if counted label then 1 else 0) + (sends.map cost).sum + m ≤ n
      ∧ ∀ answers, Pays q (resume answers) m

def PaysJob : Job Q R F L → ℕ → Prop
  | .request q, n => cost q ≤ n
  | .waiting q resume, n => ∀ answers, svc.Pays cost counted q (resume answers) n

/-- The amounts left pay for the jobs. -/
def PaysWork (n : ℕ) (w : Work S Q R F L) : Prop :=
  ∃ ns, List.Forall₂ (svc.PaysJob cost counted) w.jobs ns ∧ w.batches.countP counted + ns.sum ≤ n

variable {svc cost counted}

theorem forall₂_requests (qs : List Q) :
    List.Forall₂ (svc.PaysJob cost counted) (qs.map .request) (qs.map cost) := by
  induction qs with
  | nil => exact .nil
  | cons q qs ih => exact .cons le_rfl ih

variable {q : Q} {task : Task Q R F L} {n i : ℕ} {w : Work S Q R F L}

theorem Pays.settle (h : svc.Pays cost counted q task n) :
    ∃ ns, List.Forall₂ (svc.PaysJob cost counted) (svc.settle q task).1 ns
      ∧ (svc.settle q task).2.countP counted + ns.sum ≤ n := by
  cases task with
  | done reply =>
    simp only [Service.settle]
    rcases hf : svc.followUp q reply with _ | q'
    · exact ⟨[], .nil, Nat.zero_le n⟩
    · rw [Pays] at h
      have hle : cost q' ≤ n := h q' hf
      exact ⟨[cost q'], .cons le_rfl .nil, by simpa using hle⟩
  | batch label sends resume =>
    obtain ⟨m, hle, hres⟩ := h
    refine ⟨m :: sends.map cost, .cons hres (forall₂_requests sends), ?_⟩
    simp only [Service.settle, countP_singleton, sum_cons]
    omega

theorem forall₂_eraseIdx {α β : Type*} {r : α → β → Prop} {as : List α} {bs : List β}
    {a : α} (h : List.Forall₂ r as bs) (ha : as[i]? = some a) :
    ∃ b, bs[i]? = some b ∧ r a b ∧ List.Forall₂ r (as.eraseIdx i) (bs.eraseIdx i) := by
  induction h generalizing i with
  | nil => cases ha
  | cons hab hrest ih =>
    cases i with
    | zero =>
      obtain rfl := Option.some.inj ha
      exact ⟨_, rfl, hab, hrest⟩
    | succ i =>
      obtain ⟨b, hb, hr, htail⟩ := ih ha
      exact ⟨b, hb, hr, .cons hab htail⟩

theorem sum_eraseIdx : ∀ {ns : List ℕ} {i n : ℕ}, ns[i]? = some n → n + (ns.eraseIdx i).sum = ns.sum
  | [], _, _, h => by cases h
  | m :: ns, 0, n, h => by
    obtain rfl := Option.some.inj h
    rfl
  | m :: ns, i + 1, n, h => by
    have ih : n + (ns.eraseIdx i).sum = ns.sum := sum_eraseIdx h
    simp only [eraseIdx_cons_succ, sum_cons]
    omega

theorem PaysWork.take {job : Job Q R F L}
    (h : svc.PaysWork cost counted n w) (hjob : w.jobs[i]? = some job) :
    ∃ m ns, svc.PaysJob cost counted job m
      ∧ List.Forall₂ (svc.PaysJob cost counted) (w.jobs.eraseIdx i) ns
      ∧ w.batches.countP counted + m + ns.sum ≤ n := by
  obtain ⟨ns, hall, hle⟩ := h
  obtain ⟨m, hm, hpays, hrest⟩ := forall₂_eraseIdx hall hjob
  have hsum := sum_eraseIdx hm
  exact ⟨m, ns.eraseIdx i, hpays, hrest, by omega⟩

theorem PaysWork.goOn {m : ℕ} {ns : List ℕ} {s : S} (htask : svc.Pays cost counted q task m)
    (hrest : List.Forall₂ (svc.PaysJob cost counted) (w.jobs.eraseIdx i) ns)
    (hle : w.batches.countP counted + m + ns.sum ≤ n) :
    svc.PaysWork cost counted n (svc.goOn w i q task s) := by
  obtain ⟨ms, hjobs, hms⟩ := htask.settle
  refine ⟨ns ++ ms, rel_append hrest hjobs, ?_⟩
  simp only [Service.goOn, countP_append, sum_append]
  omega

theorem Pays.mono {m : ℕ} (h : svc.Pays cost counted q task n)
    (hle : n ≤ m) : svc.Pays cost counted q task m := by
  cases task with
  | done reply =>
    rw [Pays] at h ⊢
    exact fun q' hq' => (h q' hq').trans hle
  | batch label sends resume =>
    obtain ⟨k, hk, hres⟩ := h
    exact ⟨k, hk.trans hle, hres⟩

/-- A step pays for the requests it sends. -/
theorem PaysWork.step (hstart : ∀ s e q task s', svc.start s e q = some (task, s') →
      svc.Pays cost counted q task (cost q))
    {w' : Work S Q R F L} {e : Event E R} (h : svc.PaysWork cost counted n w)
    (hs : svc.step w e = some w') : svc.PaysWork cost counted n w' := by
  cases e with
  | arrive i e =>
    rcases hjob : w.jobs[i]? with _ | ⟨q⟩ | ⟨q, resume⟩ <;> simp only [Service.step, hjob] at hs
    · cases hs
    · obtain ⟨⟨task, s⟩, hq, rfl⟩ := map_eq_some_iff.1 hs
      obtain ⟨m, ns, hm, hrest, hle⟩ := h.take hjob
      exact .goOn ((hstart _ _ _ _ _ hq).mono hm) hrest hle
    · cases hs
  | lose i =>
    rcases hjob : w.jobs[i]? with _ | ⟨q⟩ | ⟨q, resume⟩ <;> simp only [Service.step, hjob] at hs
    · cases hs
    · cases hs
      obtain ⟨m, ns, -, hrest, hle⟩ := h.take hjob
      exact ⟨ns, hrest, by dsimp only; omega⟩
    · cases hs
  | answered i answers =>
    rcases hjob : w.jobs[i]? with _ | ⟨q⟩ | ⟨q, resume⟩ <;> simp only [Service.step, hjob] at hs
    · cases hs
    · cases hs
    · cases hs
      obtain ⟨m, ns, hm, hrest, hle⟩ := h.take hjob
      exact .goOn (hm answers) hrest hle

end Cost

end Service

end Tasks
