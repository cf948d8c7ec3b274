import Mathlib.Order.Defs.LinearOrder
import Mathlib.Order.Lattice
import Mathlib.Data.List.DropRight

/-!
# Last-writer-wins registers

A register takes stamped writes and clears. A write replaces what the register holds when its stamp
is larger. A clear carries no stamp and empties the register whatever it holds.
-/

namespace Lww

open List

inductive Msg (τ α : Type*) where
  | write (stamp : τ) (value : α)
  | clear
  deriving DecidableEq

variable {τ α : Type*}

def Msg.isWrite : Msg τ α → Bool
  | .write _ _ => true
  | .clear => false

/-- What a register holds when the message is the last operation on it. -/
def Msg.result : Msg τ α → Option (τ × α)
  | .write t v => some (t, v)
  | .clear => none

/-- The messages after the last clear. -/
def sinceClear (ms : List (Msg τ α)) : List (Msg τ α) := ms.rtakeWhile Msg.isWrite

variable {ms : List (Msg τ α)}

theorem sinceClear_subset : sinceClear ms ⊆ ms :=
  (ms.rtakeWhile_suffix Msg.isWrite).subset

@[simp] theorem sinceClear_write (ms : List (Msg τ α)) (t : τ) (v : α) :
    sinceClear (ms ++ [.write t v]) = sinceClear ms ++ [.write t v] :=
  rtakeWhile_concat_pos _ _ _ rfl

@[simp] theorem sinceClear_clear (ms : List (Msg τ α)) : sinceClear (ms ++ [.clear]) = [] :=
  rtakeWhile_concat_neg _ _ _ (by simp [Msg.isWrite])

variable [LinearOrder τ]

/-- A write of `v` stamped `t`, into `r`. -/
def merge (r : Option (τ × α)) (t : τ) (v : α) : Option (τ × α) :=
  match r with
  | some (t', v') => if t ≤ t' then some (t', v') else some (t, v)
  | none => some (t, v)

def apply (r : Option (τ × α)) : Msg τ α → Option (τ × α)
  | .write t v => merge r t v
  | .clear => none

def replay (r : Option (τ × α)) (ms : List (Msg τ α)) : Option (τ × α) := ms.foldl apply r

theorem replay_concat (r : Option (τ × α)) (ms : List (Msg τ α)) (m : Msg τ α) :
    replay r (ms ++ [m]) = apply (replay r ms) m := by
  simp [replay]

theorem merge_ne_none (r : Option (τ × α)) (t : τ) (v : α) : merge r t v ≠ none := by
  unfold merge
  split
  · split_ifs <;> simp
  · simp

variable {r : Option (τ × α)}

theorem merge_eq_new_iff {t : τ} {v : α} :
    merge r t v = some (t, v) ↔ ∀ x ∈ r, x.1 < t ∨ x = (t, v) := by
  rcases r with _ | ⟨t', v'⟩
  · simp [merge]
  · by_cases h : t ≤ t'
    · simp [merge, h, not_lt.2 h]
    · simp [merge, h, not_le.1 h]

theorem le_of_merge {t : τ} {v : α} {x : τ × α} (h : merge r t v = some x) :
    t ≤ x.1 ∧ (x = (t, v) ∨ r = some x) ∧ ∀ y ∈ r, y.1 ≤ x.1 := by
  rcases r with _ | ⟨t', v'⟩
  · simp only [merge, Option.some.injEq] at h
    subst h
    simp
  unfold merge at h
  dsimp only at h
  split_ifs at h with hle
  · cases h
    simp [hle]
  · cases h
    simp [le_of_lt (not_le.1 hle)]

theorem replay_eq_none_iff (ms : List (Msg τ α)) : replay none ms = none ↔ sinceClear ms = [] := by
  induction ms using List.reverseRecOn with
  | nil => simp [replay, sinceClear]
  | append_singleton ms m ih =>
    rw [replay_concat]
    cases m with
    | write t v => simp [apply, merge_ne_none]
    | clear => simp [apply]

/-- What a replay ends with is the newest write since the last clear. -/
theorem replay_newest (ms : List (Msg τ α)) {x : τ × α} (h : replay none ms = some x) :
    .write x.1 x.2 ∈ sinceClear ms ∧ ∀ t v, .write t v ∈ sinceClear ms → t ≤ x.1 := by
  induction ms using List.reverseRecOn generalizing x with
  | nil => simp [replay] at h
  | append_singleton ms m ih =>
    rw [replay_concat] at h
    cases m with
    | clear => simp [apply] at h
    | write t v =>
      obtain ⟨hle, hx, hold⟩ := le_of_merge h
      rw [sinceClear_write]
      constructor
      · rcases hx with rfl | hx
        · simp
        · exact mem_append_left _ (ih hx).1
      intro t' v' hmem
      rcases mem_append.1 hmem with hmem | hmem
      · rcases hr : replay none ms with _ | y
        · rw [(replay_eq_none_iff ms).1 hr] at hmem
          cases hmem
        · exact le_trans ((ih hr).2 t' v' hmem) (hold y hr)
      · simp only [mem_singleton, Msg.write.injEq] at hmem
        exact hmem.1 ▸ hle

/-- The message that decides what `ms` should leave comes late enough: a clear with nothing after
it, a write with no clear after it. -/
def Msg.Last (m : Msg τ α) (ms : List (Msg τ α)) : Prop :=
  match m with
  | .write t v => .write t v ∈ sinceClear ms
  | .clear => sinceClear ms = []

/-- A replay ends with the result of its newest message exactly if that one has the last word. -/
theorem replay_eq_result_iff {m : Msg τ α}
    (hmax : ∀ t v t' v', m = .write t v → .write t' v' ∈ ms → t' < t ∨ (t' = t ∧ v' = v)) :
    replay none ms = m.result ↔ m.Last ms := by
  cases m with
  | clear => exact replay_eq_none_iff ms
  | write t v =>
    constructor
    · exact fun h => (replay_newest ms h).1
    intro hmem
    rcases hr : replay none ms with _ | ⟨t', v'⟩
    · rw [Msg.Last, (replay_eq_none_iff ms).1 hr] at hmem
      cases hmem
    obtain ⟨hin, hle⟩ := replay_newest ms hr
    rcases hmax t v t' v' rfl (sinceClear_subset hin) with hlt | ⟨rfl, rfl⟩
    · exact absurd (hle t v hmem) (not_le.2 hlt)
    · rfl

end Lww
