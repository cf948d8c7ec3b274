import Mathlib.Order.Defs.LinearOrder
import Mathlib.Order.Basic
import Mathlib.Order.Lattice
import Mathlib.Data.List.Basic

/-!
# Sorted sets

A finite set kept as the list of its elements in increasing order. The order is a field, so a
set is enumerated in order without being sorted again, and each element once.
-/

/-- A finite set as its elements in increasing order. -/
structure SortedSet (α : Type*) [LinearOrder α] where
  toList : List α
  sorted : toList.Pairwise (· < ·)

namespace SortedSet

open List

variable {α : Type*} [LinearOrder α]

instance : Membership α (SortedSet α) := ⟨fun s a => a ∈ s.toList⟩

variable {s : SortedSet α} {a : α}

theorem mem_def : a ∈ s ↔ a ∈ s.toList := Iff.rfl

def empty : SortedSet α := ⟨[], .nil⟩

/-- `a` at its place in an increasing list, or the list as it is where `a` is there already. -/
def place (a : α) : List α → List α
  | [] => [a]
  | b :: l => if a < b then a :: b :: l else if a = b then b :: l else b :: place a l

theorem mem_place {a x : α} : ∀ l : List α, x ∈ place a l ↔ x = a ∨ x ∈ l
  | [] => by simp [place]
  | b :: l => by
    have ih := mem_place (a := a) (x := x) l
    unfold place
    split_ifs with h1 h2
    · simp
    · subst h2
      simp
    · simp only [mem_cons, ih]
      tauto

/-- An insertion keeps the order. -/
theorem pairwise_place {a : α} : ∀ l : List α, l.Pairwise (· < ·) → (place a l).Pairwise (· < ·)
  | [], _ => by simp [place]
  | b :: l, h => by
    obtain ⟨hb, hl⟩ := pairwise_cons.1 h
    unfold place
    split_ifs with h1 h2
    · refine pairwise_cons.2 ⟨fun x hx => ?_, h⟩
      rcases mem_cons.1 hx with rfl | hx
      · exact h1
      · exact h1.trans (hb x hx)
    · exact h
    refine pairwise_cons.2 ⟨fun x hx => ?_, pairwise_place l hl⟩
    rcases (mem_place l).1 hx with rfl | hx
    · exact lt_of_le_of_ne (not_lt.1 h1) (Ne.symm h2)
    · exact hb x hx

def insert (a : α) (s : SortedSet α) : SortedSet α := ⟨place a s.toList, pairwise_place _ s.sorted⟩

def remove (a : α) (s : SortedSet α) : SortedSet α :=
  ⟨s.toList.filter (· ≠ a), s.sorted.filter _⟩

@[simp] theorem not_mem_empty (a : α) : a ∉ (empty : SortedSet α) := not_mem_nil

@[simp] theorem mem_insert {x : α} : x ∈ s.insert a ↔ x = a ∨ x ∈ s :=
  mem_place _

@[simp] theorem mem_remove {x : α} : x ∈ s.remove a ↔ x ≠ a ∧ x ∈ s := by
  simp only [mem_def, remove, mem_filter, decide_eq_true_eq]
  exact and_comm

theorem place_of_lt {a : α} : ∀ l : List α, (∀ x ∈ l, x < a) → place a l = l ++ [a]
  | [], _ => rfl
  | b :: l, h => by
    have hb := h b mem_cons_self
    rw [place, if_neg hb.not_gt, if_neg hb.ne', place_of_lt l fun x hx => h x (.tail b hx)]
    rfl

theorem toList_insert (h : ∀ x ∈ s, x < a) : (s.insert a).toList = s.toList ++ [a] :=
  place_of_lt _ h

theorem nodup (s : SortedSet α) : s.toList.Nodup := s.sorted.imp ne_of_lt

end SortedSet
