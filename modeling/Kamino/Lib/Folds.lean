import Mathlib.Data.List.Perm.Basic
import Mathlib.Data.List.Dedup

/-!
# Folds that forget order and repetition

A fold whose operation takes any two of the list's elements in either order, and takes an element a
second time without effect, depends only on which elements the list has.
-/

namespace Folds

open List

variable {α β : Type*} {f : β → α → β} {l l' : List α}

/-- The elements of the list can be taken in any order and again. -/
structure Settles (f : β → α → β) (l : List α) : Prop where
  swap : ∀ a ∈ l, ∀ b ∈ l, ∀ s, f (f s a) b = f (f s b) a
  again : ∀ a ∈ l, ∀ s, f (f s a) a = f s a

theorem Settles.mono (h : Settles f l) (hl : ∀ a ∈ l', a ∈ l) : Settles f l' :=
  ⟨fun a ha b hb => h.swap a (hl a ha) b (hl b hb), fun a ha => h.again a (hl a ha)⟩

theorem Settles.foldl_perm (h : Settles f l) (hp : l.Perm l') (s : β) :
    l.foldl f s = l'.foldl f s :=
  hp.foldl_eq' (fun a ha b hb s => h.swap a ha b hb s) s

theorem Settles.foldl_cons_of_mem {a : α} (h : Settles f (a :: l)) (ha : a ∈ l) (s : β) :
    (a :: l).foldl f s = l.foldl f s := by
  obtain ⟨l₁, l₂, rfl⟩ := append_of_mem ha
  have hfirst : (l₁ ++ a :: l₂).Perm (a :: (l₁ ++ l₂)) := perm_middle
  rw [h.foldl_perm (hfirst.cons a), foldl_cons, foldl_cons,
    h.again a mem_cons_self, (h.mono fun b => mem_cons_of_mem a).foldl_perm hfirst,
    foldl_cons]

theorem Settles.foldl_dedup [DecidableEq α] : ∀ {l : List α}, Settles f l → ∀ s : β,
    l.dedup.foldl f s = l.foldl f s
  | [], _, _ => rfl
  | a :: l, h, s => by
    have htail : Settles f l := h.mono fun b => mem_cons_of_mem a
    by_cases ha : a ∈ l
    · rw [dedup_cons_of_mem ha, htail.foldl_dedup, h.foldl_cons_of_mem ha]
    · rw [dedup_cons_of_notMem ha, foldl_cons, foldl_cons, htail.foldl_dedup]

/-- Lists with the same elements fold to the same. -/
theorem Settles.foldl_eq [DecidableEq α] (h : Settles f l) (hl : ∀ a, a ∈ l ↔ a ∈ l') (s : β) :
    l.foldl f s = l'.foldl f s := by
  have h' : Settles f l' := h.mono fun a => (hl a).2
  have hp : l.dedup.Perm l'.dedup := by
    rw [perm_ext_iff_of_nodup l.nodup_dedup l'.nodup_dedup]
    intro a
    rw [mem_dedup, mem_dedup, hl a]
  rw [← h.foldl_dedup, ← h'.foldl_dedup]
  exact (h.mono fun a => mem_dedup.1).foldl_perm hp s

end Folds
