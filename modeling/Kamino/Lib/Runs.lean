import Mathlib.Order.OrderIsoNat

/-!
# Runs of a step function

`exec` runs a partial step function over a list of inputs.
-/

namespace Runs

open List Option

variable {σ ε : Type*} (step : σ → ε → Option σ) (P : σ → ε → Prop)

def exec : σ → List ε → Option σ
  | s, [] => some s
  | s, e :: es =>
    match step s e with
    | none => none
    | some s' => exec s' es

variable {step} in
theorem exec_cons {s s' : σ} {e : ε} {es : List ε} (h : step s e = some s') :
    exec step s (e :: es) = exec step s' es := by
  rw [exec, h]

variable {step} in
theorem exec_append {s s' : σ} {es es' : List ε} (h : exec step s es = some s') :
    exec step s (es ++ es') = exec step s' es' := by
  induction es generalizing s with
  | nil => rw [nil_append, Option.some.inj h]
  | cons e es ih =>
    rcases hs : step s e with _ | s₁ <;> rw [exec, hs] at h
    · cases h
    · rw [cons_append, exec_cons hs]
      exact ih h

/-- Every step the run takes is taken where `P` allows it. -/
def Guarded : σ → List ε → Prop
  | _, [] => True
  | s, e :: es => P s e ∧ ∀ s' ∈ step s e, Guarded s' es

variable {step P}

instance Guarded.decidable [∀ s e, Decidable (P s e)] : ∀ s es, Decidable (Guarded step P s es)
  | _, [] => .isTrue trivial
  | s, e :: es =>
    match h : step s e with
    | none => decidable_of_iff (P s e) (by simp [Guarded, h])
    | some s' =>
      have := Guarded.decidable s' es
      decidable_of_iff (P s e ∧ Guarded step P s' es) (by simp [Guarded, h])

variable {Inv : σ → Prop}

/-- What every allowed step keeps holds after a run of them. -/
theorem Guarded.invariant (hstep : ∀ s e s', Inv s → P s e → step s e = some s' → Inv s') :
    ∀ {es : List ε} {s s' : σ}, Inv s → Guarded step P s es → exec step s es = some s' → Inv s'
  | [], s, s', hs, _, hx => by
    rw [exec, Option.some.injEq] at hx
    exact hx ▸ hs
  | e :: es, s, s', hs, hg, hx => by
    rw [exec] at hx
    split at hx
    · cases hx
    · rename_i s₁ h₁
      exact Guarded.invariant hstep (hstep s e s₁ hs hg.1 h₁) (hg.2 s₁ h₁) hx

/-- Conditions that agree where an invariant holds allow the same runs. -/
theorem Guarded.congr {G Q : σ → ε → Prop} (Inv : σ → Prop)
    (hstep : ∀ s e s', Inv s → P s e → step s e = some s' → Inv s')
    (hpq : ∀ s e, Inv s → G s e → (P s e ↔ Q s e)) :
    ∀ {es : List ε} {s : σ}, Inv s → Guarded step G s es →
      (Guarded step P s es ↔ Guarded step Q s es)
  | [], _, _, _ => Iff.rfl
  | e :: es, s, hs, hg => by
    have htail : P s e → ∀ s' ∈ step s e, Guarded step P s' es ↔ Guarded step Q s' es :=
      fun hp s' hs' => Guarded.congr Inv hstep hpq (hstep s e s' hs hp hs') (hg.2 s' hs')
    have hhead := hpq s e hs hg.1
    constructor
    · rintro ⟨hp, h⟩
      exact ⟨hhead.1 hp, fun s' hs' => (htail hp s' hs').1 (h s' hs')⟩
    · rintro ⟨hq, h⟩
      exact ⟨hhead.2 hq, fun s' hs' => (htail (hhead.2 hq) s' hs').2 (h s' hs')⟩

theorem Guarded.of_forall (h : ∀ s e, P s e) : ∀ (es : List ε) (s : σ), Guarded step P s es
  | [], _ => trivial
  | e :: es, s => ⟨h s e, fun s' _ => Guarded.of_forall h es s'⟩

variable {Q : σ → ε → Prop}

theorem Guarded.mono (h : ∀ s e, P s e → Q s e) : ∀ {es : List ε} {s : σ},
    Guarded step P s es → Guarded step Q s es
  | [], _, _ => trivial
  | e :: _, s, hp => ⟨h s e hp.1, fun s₁ h₁ => (hp.2 s₁ h₁).mono h⟩

theorem Guarded.and : ∀ {es : List ε} {s : σ}, Guarded step P s es →
    Guarded step Q s es → Guarded step (fun s e => P s e ∧ Q s e) s es
  | [], _, _, _ => trivial
  | _ :: _, _, hp, hq => ⟨⟨hp.1, hq.1⟩, fun s₁ h₁ => (hp.2 s₁ h₁).and (hq.2 s₁ h₁)⟩

theorem Guarded.and_forall {Q : ε → Prop} : ∀ {es : List ε} {s : σ}, Guarded step P s es →
    (∀ e ∈ es, Q e) → Guarded step (fun s e => P s e ∧ Q e) s es
  | [], _, _, _ => trivial
  | e :: _, _, hg, hq => ⟨⟨hg.1, hq e mem_cons_self⟩, fun s₁ h₁ =>
    (hg.2 s₁ h₁).and_forall fun e' he' => hq e' (mem_cons_of_mem e he')⟩

/-- What each step under allowed events keeps, a run keeps. -/
theorem exec_invariant {Q : ε → Prop}
    (hstep : ∀ s e s', Inv s → Q e → step s e = some s' → Inv s') {es : List ε} {s s' : σ}
    (hs : Inv s) (hq : ∀ e ∈ es, Q e) (hx : exec step s es = some s') : Inv s' :=
  Guarded.invariant (fun s e s' hinv hp => hstep s e s' hinv hp.2) hs
    (Guarded.and_forall (Guarded.of_forall (fun _ _ => trivial) es s : Guarded step
      (fun _ _ => True) s es) hq) hx

theorem Guarded.of_not_bad {Inv Bad : σ → Prop}
    (hinv : ∀ s e s', Inv s → step s e = some s' → Inv s')
    (hbreak : ∀ s e s', Inv s → ¬ P s e → step s e = some s' → Bad s')
    (hbad : ∀ s e s', Inv s → Bad s → step s e = some s' → Bad s') :
    ∀ {es : List ε} {s s' : σ}, Inv s → exec step s es = some s' → ¬ Bad s' → Guarded step P s es
  | [], _, _, _, _, _ => trivial
  | e :: es, s, s', hs, hx, hend => by
    rcases h₁ : step s e with _ | s₁ <;> rw [exec, h₁] at hx
    · cases hx
    have hi₁ : Inv s₁ := hinv s e s₁ hs h₁
    refine ⟨?_, fun s₂ h₂ => ?_⟩
    · by_contra hp
      have hkeep : ∀ s e s', Inv s ∧ Bad s → True → step s e = some s' → Inv s' ∧ Bad s' :=
        fun s e s' h _ hs => ⟨hinv s e s' h.1 hs, hbad s e s' h.1 h.2 hs⟩
      have hends : Inv s' ∧ Bad s' :=
        exec_invariant hkeep ⟨hi₁, hbreak s e s₁ hs hp h₁⟩ (fun _ _ => trivial) hx
      exact hend hends.2
    · rw [h₁, mem_some_iff] at h₂
      exact h₂ ▸ Guarded.of_not_bad hinv hbreak hbad hi₁ hx hend

theorem guarded_iff_forall : ∀ {es : List ε} {s : σ}, Guarded step P s es ↔
    ∀ pre e post s', es = pre ++ e :: post → exec step s pre = some s' → P s' e
  | [], s => by
    refine iff_of_true trivial fun pre e post s' h _ => ?_
    exact absurd h (by simp)
  | e :: es, s => by
    constructor
    · rintro ⟨hp, htail⟩ (_ | ⟨e', pre⟩) e'' post s' heq hx
      · obtain ⟨rfl, -⟩ := List.cons.inj heq
        exact Option.some.inj hx ▸ hp
      obtain ⟨rfl, rfl⟩ := List.cons.inj heq
      rcases h₁ : step s e with _ | s₁ <;> rw [exec, h₁] at hx
      · cases hx
      · exact guarded_iff_forall.1 (htail s₁ h₁) pre e'' post s' rfl hx
    · intro h
      refine ⟨h [] e es s rfl rfl, fun s₁ h₁ => guarded_iff_forall.2 ?_⟩
      intro pre e' post s' heq hx
      exact h (e :: pre) e' post s' (by rw [heq, cons_append]) ((exec_cons h₁).trans hx)

theorem Guarded.cons {s s' : σ} {e : ε} {es : List ε} (hp : P s e) (hs : step s e = some s')
    (hg : Guarded step P s' es) : Guarded step P s (e :: es) :=
  ⟨hp, fun s₁ h₁ => by rw [hs, mem_some_iff] at h₁; exact h₁ ▸ hg⟩

theorem Guarded.of_append : ∀ {es es' : List ε} {s : σ}, Guarded step P s (es ++ es') →
    Guarded step P s es
  | [], _, _, _ => trivial
  | _ :: _, _, _, hg => ⟨hg.1, fun s₁ h₁ => (hg.2 s₁ h₁).of_append⟩

theorem Guarded.after : ∀ {es es' : List ε} {s s' : σ}, Guarded step P s (es ++ es') →
    exec step s es = some s' → Guarded step P s' es'
  | [], _, _, _, hg, hx => Option.some.inj hx ▸ hg
  | e :: es, _, s, s', hg, hx => by
    rw [exec] at hx
    split at hx
    · cases hx
    · rename_i s₁ h₁
      exact (hg.2 s₁ h₁).after hx

section Total

variable {τ : Type*} {f : σ → ε → σ} {g : τ → ε → τ}

theorem Guarded.foldl_rel {R : σ → τ → Prop} (hstep : ∀ s a e, R s a → P s e → R (f s e) (g a e)) :
    ∀ {es : List ε} {s : σ} {a : τ}, R s a → Guarded (fun s e => some (f s e)) P s es →
      R (es.foldl f s) (es.foldl g a)
  | [], _, _, hr, _ => hr
  | e :: _, s, a, hr, hg => by
    rw [foldl_cons, foldl_cons]
    exact Guarded.foldl_rel hstep (hstep s a e hr hg.1) (hg.2 _ rfl)

theorem Guarded.foldl_invariant (hstep : ∀ s e, Inv s → P s e → Inv (f s e)) {es : List ε} {s : σ}
    (hs : Inv s) (hg : Guarded (fun s e => some (f s e)) P s es) : Inv (es.foldl f s) :=
  Guarded.foldl_rel (R := fun s (_ : Unit) => Inv s) (g := fun a _ => a)
    (fun s _ e hs hp => hstep s e hs hp) (a := ()) hs hg

theorem forall_prefix_iff_guarded
    (hstep : ∀ s e, Inv s → (Inv (f s e) ↔ P s e)) : ∀ {es : List ε} {s : σ}, Inv s →
      ((∀ es', es' <+: es → Inv (es'.foldl f s)) ↔ Guarded (fun s e => some (f s e)) P s es)
  | [], s, hs => by
    refine iff_of_true (fun es' h => ?_) trivial
    rwa [prefix_nil.1 h]
  | e :: es, s, hs => by
    constructor
    · intro h
      have he : Inv (f s e) := h [e] (prefix_append [e] es)
      refine .cons ((hstep s e hs).1 he) rfl ((forall_prefix_iff_guarded hstep he).1 ?_)
      exact fun es' h' => h (e :: es') ((prefix_cons_inj e).2 h')
    rintro ⟨hp, hg⟩ es' h
    rcases es' with _ | ⟨e', es'⟩
    · exact hs
    · obtain ⟨rfl, htail⟩ := cons_prefix_cons.1 h
      have he := (hstep s e' hs).2 hp
      exact (forall_prefix_iff_guarded hstep he).2 (hg _ rfl) es' htail

end Total

section Infinite

/-- The infinite run with the states `σ` and the inputs `ev`. -/
def IsRun (step : σ → ε → Option σ) (S : ℕ → σ) (ev : ℕ → ε) : Prop :=
  ∀ t, step (S t) (ev t) = some (S (t + 1))

/-- The same along an infinite run. -/
theorem IsRun.invariant {S : ℕ → σ} {ev : ℕ → ε} (hrun : IsRun step S ev)
    (hstep : ∀ t s', Inv (S t) → step (S t) (ev t) = some s' → Inv s') {t₀ : ℕ}
    (h₀ : Inv (S t₀)) : ∀ t ≥ t₀, Inv (S t) := by
  intro t ht
  induction t, ht using Nat.le_induction with
  | base => exact h₀
  | succ t _ ih => exact hstep t _ ih (hrun t)

variable {g : ℕ → ℕ}

theorem eventually_const_of_le {t₀ : ℕ} (h : ∀ t ≥ t₀, g (t + 1) ≤ g t) :
    ∃ t₁ ≥ t₀, ∀ t ≥ t₁, g t = g t₁ := by
  have hanti : Antitone fun t => g (t₀ + t) := antitone_nat_of_succ_le fun t =>
    h (t₀ + t) (Nat.le_add_right t₀ t)
  obtain ⟨n, hn⟩ := WellFoundedGT.monotone_chain_condition
    (⟨fun t => OrderDual.toDual (g (t₀ + t)), fun _ _ hab => hanti hab⟩ : ℕ →o ℕᵒᵈ)
  refine ⟨t₀ + n, by omega, fun t ht => ?_⟩
  have := hn (t - t₀) (by omega)
  rw [show t = t₀ + (t - t₀) by omega]
  exact OrderDual.toDual_inj.1 this.symm

theorem eventually_of_descent {Goal : ℕ → Prop} {t₀ : ℕ}
    (hle : ∀ t ≥ t₀, ¬ Goal t → g (t + 1) ≤ g t)
    (hlt : ∀ t ≥ t₀, ∃ u ≥ t, Goal u ∨ g (u + 1) < g u) : ∃ t ≥ t₀, Goal t := by
  by_contra hnever
  simp only [not_exists, not_and] at hnever
  obtain ⟨t₁, ht₁, hconst⟩ := eventually_const_of_le fun t ht => hle t ht (hnever t ht)
  obtain ⟨u, hu, hgoal | hdrop⟩ := hlt t₁ ht₁
  · exact hnever u (ht₁.trans hu) hgoal
  · rw [hconst u hu, hconst (u + 1) (by omega)] at hdrop
    exact lt_irrefl _ hdrop

theorem eventually_const_of_bounded {b : ℕ} (h : ∀ t, g t ≤ g (t + 1))
    (hb : ∀ t, g t ≤ b) : ∃ t₁, ∀ t ≥ t₁, g t = g t₁ := by
  obtain ⟨t₁, -, ht₁⟩ := @eventually_const_of_le (fun t => b - g t) 0
    fun t _ => Nat.sub_le_sub_left (h t) b
  refine ⟨t₁, fun t ht => ?_⟩
  have := ht₁ t ht
  have := hb t
  have := hb t₁
  omega

/-- A sequence with one more element in front. -/
def cons {α : Type*} (x : α) (f : ℕ → α) : ℕ → α
  | 0 => x
  | t + 1 => f t

end Infinite

end Runs
