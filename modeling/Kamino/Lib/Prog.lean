import Mathlib.Logic.Basic

/-!
# Programs and their handlers

A program makes requests and goes on with their answers: a tree that branches on each answer.
-/

/-- A program with requests `ι`, the answers `ρ` to them, and a result in `α`. -/
inductive Prog (ι : Type) (ρ : ι → Type) (α : Type) where
  | ret (a : α)
  | ask (i : ι) (k : ρ i → Prog ι ρ α)

namespace Prog

variable {ι : Type} {ρ : ι → Type} {α β σ τ : Type}

def bind : Prog ι ρ α → (α → Prog ι ρ β) → Prog ι ρ β
  | ret a, f => f a
  | ask i k, f => ask i fun r => (k r).bind f

instance instMonad : Monad (Prog ι ρ) where
  pure := ret
  bind := bind

/-- A handler answers a request out of a state and leaves a state. -/
abbrev Handler (ι : Type) (ρ : ι → Type) (σ : Type) := (i : ι) → σ → ρ i × σ

def run (h : Handler ι ρ σ) : Prog ι ρ α → σ → α × σ
  | ret a, s => (a, s)
  | ask i k, s => (k (h i s).1).run h (h i s).2

theorem run_bind (h : Handler ι ρ σ) (f : α → Prog ι ρ β) : ∀ (p : Prog ι ρ α) (s : σ),
    (p >>= f).run h s = (f (p.run h s).1).run h (p.run h s).2
  | ret _, _ => rfl
  | ask i k, s => run_bind h f (k (h i s).1) (h i s).2

/-- Every request the run makes is made where `P` allows it. -/
def Along (h : Handler ι ρ σ) (P : σ → ι → Prop) : Prog ι ρ α → σ → Prop
  | ret _, _ => True
  | ask i k, s => P s i ∧ (k (h i s).1).Along h P (h i s).2

instance Along.decidable (h : Handler ι ρ σ) (P : σ → ι → Prop) [∀ s i, Decidable (P s i)] :
    ∀ (p : Prog ι ρ α) (s : σ), Decidable (p.Along h P s)
  | ret _, _ => .isTrue trivial
  | ask i k, s =>
    have := Along.decidable h P (k (h i s).1) (h i s).2
    inferInstanceAs (Decidable (P s i ∧ (k (h i s).1).Along h P (h i s).2))

/-- Every request the program can make satisfies `Q`. -/
def Only (Q : ι → Prop) : Prog ι ρ α → Prop
  | ret _ => True
  | ask i k => Q i ∧ ∀ r, (k r).Only Q

variable {P : σ → ι → Prop} {h : Handler ι ρ σ}

/-- A program keeps what each of its requests keeps. -/
theorem Only.invariant {Q : ι → Prop} {Inv : σ → Prop}
    (hreq : ∀ s i, Inv s → P s i → Q i → Inv (h i s).2) :
    ∀ {p : Prog ι ρ α} {s : σ}, p.Only Q → Inv s → p.Along h P s → Inv (p.run h s).2
  | ret _, _, _, hs, _ => hs
  | ask i k, s, hq, hs, ha =>
    Only.invariant (p := k (h i s).1) hreq (hq.2 _) (hreq s i hs ha.1 hq.1) ha.2

section Rel

variable (Q : ι → ι → Prop) (S : ∀ i j, ρ i → ρ j → Prop)

/-- Two programs make `Q`-related requests as long as the answers are `S`-related, and end with
`V`-related results. -/
def Rel (V : α → β → Prop) : Prog ι ρ α → Prog ι ρ β → Prop
  | ret a, ret b => V a b
  | ask i k, ask j l => Q i j ∧ ∀ r r', S i j r r' → Rel V (k r) (l r')
  | ret _, ask _ _ => False
  | ask _ _, ret _ => False

variable {Q S} {α' β' : Type} {V : α → β → Prop} {W : α' → β' → Prop}

theorem Rel.bind {f : α → Prog ι ρ α'} {g : β → Prog ι ρ β'}
    (hf : ∀ a b, V a b → Rel Q S W (f a) (g b)) :
    ∀ {p : Prog ι ρ α} {q : Prog ι ρ β}, Rel Q S V p q → Rel Q S W (p >>= f) (q >>= g)
  | ret a, ret b, h => hf a b h
  | ask _ _, ask _ _, h => ⟨h.1, fun r r' hr => (h.2 r r' hr).bind hf⟩

/-- Related programs give related results under related handlers. -/
theorem Rel.run {g : Handler ι ρ τ} {R : σ → τ → Prop} (hreq : ∀ s t i j, R s t → P s i → Q i j →
      S i j (h i s).1 (g j t).1 ∧ R (h i s).2 (g j t).2) :
    ∀ {p : Prog ι ρ α} {q : Prog ι ρ β} {s : σ} {t : τ}, Rel Q S V p q → R s t →
      p.Along h P s → V (p.run h s).1 (q.run g t).1 ∧ R (p.run h s).2 (q.run g t).2
  | ret _, ret _, _, _, hrel, hst, _ => ⟨hrel, hst⟩
  | ask i k, ask j l, s, t, hrel, hst, ha => by
    obtain ⟨hans, hnext⟩ := hreq s t i j hst ha.1 hrel.1
    exact Rel.run (p := k (h i s).1) (q := l (g j t).1) hreq (hrel.2 _ _ hans) hnext ha.2

theorem Rel.only {Q' : ι → Prop} (hQ : ∀ i j, Q i j → Q' i)
    (hS : ∀ i j r, Q i j → ∃ r', S i j r r') :
    ∀ {p : Prog ι ρ α} {q : Prog ι ρ β}, Rel Q S V p q → p.Only Q'
  | ret _, ret _, _ => trivial
  | ask i _, ask j _, hrel => ⟨hQ i j hrel.1, fun r => by
    obtain ⟨r', hr⟩ := hS i j r hrel.1
    exact (hrel.2 r r' hr).only hQ hS⟩

end Rel

end Prog
