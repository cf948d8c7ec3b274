import Mathlib.Data.List.Basic

/-!
# Parsers that count what they consume

A `Parse` reads a value off the front of its input and says how many symbols that took; its error
`more` asks for more input.
-/

/-- A parser: what it reads and how many symbols that takes. -/
def Parse (ε β α : Type) := List β → Except ε (α × ℕ)

namespace Parse

open List

variable {ε β α γ : Type}

def fail (e : ε) : Parse ε β α := fun _ => .error e

protected def pure (a : α) : Parse ε β α := fun _ => .ok (a, 0)

protected def bind (p : Parse ε β α) (f : α → Parse ε β γ) : Parse ε β γ := fun b =>
  match p b with
  | .error e => .error e
  | .ok (a, n) => (f a (b.drop n)).map fun (c, m) => (c, n + m)

instance : Monad (Parse ε β) where
  pure := Parse.pure
  bind := Parse.bind

/-- The next `n` values of `p`. -/
def times (p : Parse ε β α) : ℕ → Parse ε β (List α)
  | 0 => pure []
  | n + 1 => do
    let a ← p
    let as ← p.times n
    pure (a :: as)

variable {a : α}

section Bind

variable {p : Parse ε β α} {f : α → Parse ε β γ} {b : List β}

theorem bind_error {e : ε} (h : p b = .error e) : (p >>= f) b = .error e := by
  change Parse.bind p f b = _
  simp [Parse.bind, h]

theorem bind_ok {n : ℕ} (h : p b = .ok (a, n)) :
    (p >>= f) b = (f a (b.drop n)).map fun (c, m) => (c, n + m) := by
  change Parse.bind p f b = _
  simp [Parse.bind, h]

theorem of_bind_ok {c : γ} {k : ℕ} (h : (p >>= f) b = .ok (c, k)) :
    ∃ a n m, p b = .ok (a, n) ∧ f a (b.drop n) = .ok (c, m) ∧ k = n + m := by
  rcases hp : p b with e | ⟨a, n⟩
  · rw [bind_error hp] at h
    cases h
  · rw [bind_ok hp] at h
    rcases hf : f a (b.drop n) with e | ⟨c', m⟩ <;> rw [hf] at h <;> cases h
    exact ⟨a, n, m, rfl, hf, rfl⟩

end Bind

/-- `p` asks for `more` only when its answer depends on what follows. -/
structure Incremental (more : ε) (p : Parse ε β α) : Prop where
  le_length : ∀ {b a n}, p b = .ok (a, n) → n ≤ b.length
  stable : ∀ {b}, p b ≠ .error more → ∀ t, p (b ++ t) = p b
  exactly : ∀ {b a n}, p b = .ok (a, n) → p (b.take n) = .ok (a, n)

namespace Incremental

variable {more : ε} {p : Parse ε β α} {f : α → Parse ε β γ} {b : List β}

section

variable (hp : p.Incremental more)
include hp

theorem ok_append {n : ℕ} (h : p b = .ok (a, n)) (t : List β) : p (b ++ t) = .ok (a, n) := by
  rw [hp.stable (by rw [h]; simp) t, h]

theorem error_append {e : ε} (h : p b = .error e)
    (he : e ≠ more) (t : List β) : p (b ++ t) = .error e := by
  rw [hp.stable (by rw [h]; simpa using he) t, h]

theorem of_append {t : List β} {n : ℕ}
    (h : p (b ++ t) = .ok (a, n)) (hn : n ≤ b.length) : p b = .ok (a, n) := by
  have hx := hp.exactly h
  rw [take_append_of_le_length hn] at hx
  have := hp.ok_append hx (b.drop n)
  rwa [take_append_drop] at this

/-- A part of what a parse takes makes it ask for more. -/
theorem take_of_lt {n k : ℕ} (h : p b = .ok (a, n)) (hk : k < n) : p (b.take k) = .error more := by
  by_contra hne
  have hstable := hp.stable hne (b.drop k)
  rw [take_append_drop, h] at hstable
  have := hp.le_length hstable.symm
  simp only [length_take] at this
  omega

end

theorem pure (a : α) : Incremental more (pure a : Parse ε β α) where
  le_length h := by
    cases h
    exact Nat.zero_le _
  stable _ _ := rfl
  exactly h := h

theorem fail (e : ε) : Incremental more (fail e : Parse ε β α) where
  le_length h := nomatch h
  stable _ _ := rfl
  exactly h := nomatch h

theorem bind (hp : p.Incremental more) (hf : ∀ a, (f a).Incremental more) :
    (p >>= f).Incremental more where
  le_length {b c k} h := by
    obtain ⟨a, n, m, hpb, hfb, rfl⟩ := of_bind_ok h
    have hn := hp.le_length hpb
    have hm := (hf a).le_length hfb
    rw [length_drop] at hm
    omega
  stable {b} h t := by
    rcases hpb : p b with e | ⟨a, n⟩
    · rw [bind_error hpb] at h ⊢
      exact bind_error (hp.error_append hpb (fun he => h (by rw [he])) t)
    have hn := hp.le_length hpb
    rw [bind_ok hpb] at h ⊢
    rw [bind_ok (hp.ok_append hpb t), drop_append_of_le_length hn, (hf a).stable _ t]
    intro hfb
    rw [hfb] at h
    exact h rfl
  exactly {b c k} h := by
    obtain ⟨a, n, m, hpb, hfb, rfl⟩ := of_bind_ok h
    have hn := hp.le_length hpb
    have hpt : p (b.take (n + m)) = .ok (a, n) := by
      rw [take_add]
      exact hp.ok_append (hp.exactly hpb) _
    have hlen : (b.take n).length = n := by
      rw [length_take, Nat.min_eq_left hn]
    rw [bind_ok hpt, take_add, drop_left' hlen, (hf a).exactly hfb]
    rfl

theorem ite {q : Parse ε β α} (c : Prop) [Decidable c] (hp : p.Incremental more)
    (hq : q.Incremental more) : (if c then p else q).Incremental more := by
  split_ifs
  · exact hp
  · exact hq

theorem times (hp : p.Incremental more) : ∀ n, (p.times n).Incremental more
  | 0 => pure []
  | n + 1 => hp.bind fun a => (times hp n).bind fun as => pure (a :: as)

end Incremental

/-- `p` reads `a` from exactly `x`, whatever follows. -/
def Parses (p : Parse ε β α) (x : List β) (a : α) : Prop :=
  ∀ t, p (x ++ t) = .ok (a, x.length)

namespace Parses

variable {p : Parse ε β α} {f : α → Parse ε β γ}

theorem pure (a : α) : Parses (pure a : Parse ε β α) [] a := fun _ => rfl

variable {x y : List β} {a : α} {c : γ}

theorem bind (hp : p.Parses x a) (hf : (f a).Parses y c) : (p >>= f).Parses (x ++ y) c := by
  intro t
  rw [append_assoc, bind_ok (hp (y ++ t)), drop_left, hf t, length_append]
  rfl

theorem bind_nil (hp : p.Parses x a) (hf : (f a).Parses [] c) : (p >>= f).Parses x c := by
  have := hp.bind hf
  rwa [append_nil] at this

theorem nil_bind (hp : p.Parses [] a) (hf : (f a).Parses y c) : (p >>= f).Parses y c :=
  hp.bind hf

theorem times_zero : (p.times 0).Parses [] [] := pure []

/-- What is parsed item by item is parsed as a list. -/
theorem times_succ {as : List α} (hp : p.Parses x a)
    (h : (p.times as.length).Parses y as) : (p.times (a :: as).length).Parses (x ++ y) (a :: as) :=
  hp.bind (h.bind_nil (pure (a :: as)))

end Parses

/-- `p` reads nothing from what starts with `x`. -/
def Refuses (p : Parse ε β α) (x : List β) : Prop := ∀ t, ∃ e, p (x ++ t) = .error e

section Refuses

variable {p : Parse ε β α} {f : α → Parse ε β γ} {x y : List β} {a : α}

theorem Refuses.fail (e : ε) : (fail e : Parse ε β α).Refuses x := fun _ => ⟨e, rfl⟩

theorem Refuses.bind (hp : p.Refuses x) : (p >>= f).Refuses x :=
  fun t => (hp t).imp fun _ => bind_error

theorem Parses.bind_refuses (hp : p.Parses x a) (hf : (f a).Refuses y) :
    (p >>= f).Refuses (x ++ y) := by
  intro t
  obtain ⟨e, he⟩ := hf t
  refine ⟨e, ?_⟩
  rw [append_assoc, bind_ok (hp (y ++ t)), drop_left, he]
  rfl

end Refuses

/-- Whatever `p` reads satisfies `P`. -/
def Yields (p : Parse ε β α) (P : α → Prop) : Prop := ∀ b a n, p b = .ok (a, n) → P a

namespace Yields

variable {p q : Parse ε β α} {f : α → Parse ε β γ} {P : α → Prop} {Q : γ → Prop}

theorem any : p.Yields fun _ => True := fun _ _ _ _ => trivial

theorem pure (h : P a) : Yields (pure a : Parse ε β α) P := by
  rintro b _ n ⟨⟩
  exact h

theorem fail (e : ε) : Yields (fail e : Parse ε β α) P := by rintro b _ n ⟨⟩

theorem bind (hp : p.Yields P) (hf : ∀ a, P a → (f a).Yields Q) : (p >>= f).Yields Q := by
  intro b c k h
  obtain ⟨a, n, m, ha, hc, -⟩ := of_bind_ok h
  exact hf a (hp b a n ha) _ c m hc

theorem ite {c : Prop} [Decidable c] (hp : c → p.Yields P) (hq : ¬ c → q.Yields P) :
    (if c then p else q).Yields P := by
  split_ifs with h
  · exact hp h
  · exact hq h

theorem times (hp : p.Yields P) : ∀ n, (p.times n).Yields fun as => as.length = n ∧ ∀ a ∈ as, P a
  | 0 => .pure (by simp)
  | n + 1 => hp.bind fun a ha => (times hp n).bind fun as has => .pure
    ⟨congrArg (· + 1) has.1, forall_mem_cons.2 ⟨ha, has.2⟩⟩

end Yields

end Parse
