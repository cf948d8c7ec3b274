import Mathlib.Data.List.Basic
import Mathlib.Logic.Function.Basic

/-!
# Layers of partial maps

A store kept as a list of partial maps, the newest last: a read takes the newest layer that has the
key.
-/

/-- The last index at which `p` holds. -/
def rposition {α : Type*} (p : α → Bool) : List α → Option ℕ
  | [] => none
  | a :: l =>
    match rposition p l with
    | some i => some (i + 1)
    | none => if p a then some 0 else none

variable {α : Type*}

theorem rposition_eq_none {p : α → Bool} :
    ∀ {l : List α}, rposition p l = none ↔ ∀ a ∈ l, p a = false
  | [] => by simp [rposition]
  | a :: l => by
    have ih := rposition_eq_none (p := p) (l := l)
    simp only [rposition]
    rcases hr : rposition p l with _ | i
    · rw [hr] at ih
      have := ih.1 rfl
      rcases hp : p a
      · simpa [hp] using this
      · simp [hp]
    · rw [hr] at ih
      simp only [reduceCtorEq, List.mem_cons, false_iff]
      intro hall
      exact absurd (ih.2 fun b hb => hall b (.inr hb)) (by simp)

theorem rposition_concat {p : α → Bool} (a : α) :
    ∀ l : List α, rposition p (l ++ [a]) = if p a then some l.length else rposition p l
  | [] => by simp [rposition]
  | b :: l => by
    rw [List.cons_append, rposition, rposition_concat a l]
    rcases hp : p a
    · simp [rposition]
    · simp

theorem rposition_spec {p : α → Bool} :
    ∀ {l : List α} {i : ℕ}, rposition p l = some i → ∃ a, l[i]? = some a ∧ p a = true
  | a :: l, i, h => by
    simp only [rposition] at h
    split at h
    · rename_i j hj
      cases h
      simpa using rposition_spec hj
    · split_ifs at h with hp
      cases h
      exact ⟨a, rfl, hp⟩

theorem rposition_lt {p : α → Bool} {l : List α} {i : ℕ}
    (h : rposition p l = some i) : i < l.length := by
  obtain ⟨a, ha, -⟩ := rposition_spec h
  exact (getElem?_eq_some_iff.1 ha).1

theorem rposition_congr {p q : α → Bool} :
    ∀ {l : List α}, (∀ a ∈ l, p a = q a) → rposition p l = rposition q l
  | [], _ => rfl
  | a :: l, h => by
    rw [rposition, rposition, h a (by simp),
      rposition_congr fun b hb => h b (List.mem_cons_of_mem _ hb)]

namespace Overlay

open List Option

variable {κ ν : Type*}

def read : List (κ → Option ν) → κ → Option ν
  | [], _ => none
  | f :: L, k => (read L k).or (f k)

/-- The layers that have a key. -/
def copies (L : List (κ → Option ν)) (k : κ) : ℕ := L.countP fun f => (f k).isSome

section Read

variable {f : κ → Option ν} {L L' : List (κ → Option ν)} {k : κ}

theorem read_append : ∀ L : List (κ → Option ν), read (L ++ L') k = (read L' k).or (read L k)
  | [] => by simp [read]
  | f :: L => by rw [List.cons_append, read, read, read_append L, Option.or_assoc]

theorem read_concat : read (L ++ [f]) k = (f k).or (read L k) := by
  rw [read_append]
  simp [read]

theorem copies_append : copies (L ++ L') k = copies L k + copies L' k := countP_append

theorem copies_cons : copies (f :: L) k = copies L k + if (f k).isSome then 1 else 0 :=
  countP_cons

theorem read_eq_none : ∀ {L : List (κ → Option ν)}, read L k = none ↔ copies L k = 0
  | [] => by simp [read, copies]
  | f :: L => by
    have ih := read_eq_none (L := L)
    rw [read, copies_cons, or_eq_none_iff, ih]
    rcases hf : f k <;> simp

theorem read_eq_some {v : ν} : ∀ {L : List (κ → Option ν)}, copies L k ≤ 1 →
    (read L k = some v ↔ ∃ f ∈ L, f k = some v)
  | [], _ => by simp [read]
  | f :: L, hc => by
    rw [copies_cons] at hc
    have ih := read_eq_some (L := L) (v := v) (by omega)
    rw [read]
    rcases hf : f k with _ | u
    · rw [or_none, ih]
      simp [hf]
    have hz : copies L k = 0 := by rw [hf] at hc; simp at hc; exact hc
    have hn := read_eq_none.2 hz
    rw [hn] at ih
    have hnot : ¬ ∃ f ∈ L, f k = some v := fun h => by simpa using ih.2 h
    rw [hn, none_or]
    simp [hf, hnot]

end Read

variable [DecidableEq κ]

/-- Drop a key from the newest layer that has it. -/
def eraseNewest (k : κ) : List (κ → Option ν) → List (κ → Option ν)
  | [] => []
  | f :: L => if copies L k = 0 then Function.update f k none :: L else f :: eraseNewest k L

section Erase

variable {L : List (κ → Option ν)} {k k' : κ}

theorem eraseNewest_of_absent : ∀ {L : List (κ → Option ν)}, copies L k = 0 → eraseNewest k L = L
  | [], _ => rfl
  | f :: L, h => by
    rw [copies_cons] at h
    have hf : f k = none := by
      rcases hf : f k with _ | v
      · rfl
      · simp [hf] at h
    rw [eraseNewest, if_pos (by omega), ← hf, Function.update_eq_self]

theorem read_eraseNewest_ne (h : k' ≠ k) :
    ∀ L : List (κ → Option ν), read (eraseNewest k L) k' = read L k'
  | [] => rfl
  | f :: L => by
    rw [eraseNewest]
    split_ifs
    · rw [read, read, Function.update_of_ne h]
    · rw [read, read, read_eraseNewest_ne h L]

theorem copies_eraseNewest_ne (h : k' ≠ k) :
    ∀ L : List (κ → Option ν), copies (eraseNewest k L) k' = copies L k'
  | [] => rfl
  | f :: L => by
    rw [eraseNewest]
    split_ifs
    · rw [copies_cons, copies_cons, Function.update_of_ne h]
    · rw [copies_cons, copies_cons, copies_eraseNewest_ne h L]

theorem copies_eraseNewest : ∀ L : List (κ → Option ν), copies (eraseNewest k L) k = copies L k - 1
  | [] => rfl
  | f :: L => by
    rw [eraseNewest]
    split_ifs with hz
    · rw [copies_cons, copies_cons, Function.update_self, hz]
      rcases f k <;> rfl
    · rw [copies_cons, copies_cons, copies_eraseNewest L]
      omega

/-- A delete hides the key exactly if one layer at most has it. -/
theorem read_eraseNewest_eq_none : read (eraseNewest k L) k = none ↔ copies L k ≤ 1 := by
  rw [read_eq_none, copies_eraseNewest]
  omega

end Erase

end Overlay
