import Mathlib.Data.Finset.Card
import Mathlib.Data.Finset.Dedup
import Mathlib.Data.List.Nodup

/-!
# Counting a quorum

A coordinator that counts itself and a number of acknowledgements from a list of members has that
many distinct members behind it only if the list repeats nobody it counts.
-/

namespace Quorum

open List

variable {α : Type*}

theorem exists_sublist_between {l₁ l₂ : List α} (h : l₁ <+ l₂) :
    ∀ {m : ℕ}, l₁.length ≤ m → m ≤ l₂.length → ∃ l, l₁ <+ l ∧ l <+ l₂ ∧ l.length = m := by
  induction h with
  | slnil => exact fun _ hle => ⟨[], .slnil, .slnil, (Nat.le_zero.1 hle).symm⟩
  | @cons l₁ l₂ a h ih =>
    intro m hlo hhi
    rcases Nat.lt_or_ge l₂.length m with hm | hm
    · exact ⟨a :: l₂, h.cons a, .refl _, le_antisymm hm hhi⟩
    · obtain ⟨l, hl₁, hl₂, hlen⟩ := ih hlo hm
      exact ⟨l, hl₁, hl₂.cons a, hlen⟩
  | @cons_cons l₁ l₂ a h ih =>
    intro m hlo hhi
    simp only [length_cons] at hlo hhi
    obtain ⟨l, hl₁, hl₂, hlen⟩ := ih (show l₁.length ≤ m - 1 by omega) (by omega)
    exact ⟨a :: l, hl₁.cons_cons a, hl₂.cons_cons a, by rw [length_cons, hlen]; omega⟩

variable [DecidableEq α]

theorem card_toFinset_lt {l : List α} (h : ¬l.Nodup) : l.toFinset.card < l.length := by
  refine lt_of_le_of_ne l.toFinset_card_le fun heq => h ?_
  have hcard : (l : Multiset α).toFinset.card = Multiset.card (l : Multiset α) := heq
  exact Multiset.coe_nodup.1 (Multiset.toFinset_card_eq_card_iff_nodup.1 hcard)

/-- When any `m` of the nodes make more than `m` distinct ones with `x`. -/
theorem forall_card_iff (x : α) (bs : List α) {m : ℕ} (hm : 1 ≤ m) :
    (∀ l, l <+ bs → m ≤ l.length → m < (insert x l.toFinset).card) ↔
      bs.length < m ∨ x ∉ bs ∧ (m = 1 ∨ bs.Nodup) := by
  constructor
  · intro h
    by_contra hne
    push Not at hne
    obtain ⟨hlen, hrep⟩ := hne
    by_cases hx : x ∈ bs
    · obtain ⟨l, hxl, hl, hlm⟩ := exists_sublist_between (singleton_sublist.2 hx) hm hlen
      have hcard := h l hl hlm.ge
      rw [Finset.insert_eq_of_mem (mem_toFinset.2 (singleton_sublist.1 hxl))] at hcard
      have := l.toFinset_card_le
      omega
    obtain ⟨hone, hdup⟩ := hrep hx
    rw [nodup_iff_sublist] at hdup
    push Not at hdup
    obtain ⟨y, hy⟩ := hdup
    have htwo : [y, y].length ≤ m := by
      simp only [length_cons, length_nil]
      omega
    obtain ⟨l, hyl, hl, hlm⟩ := exists_sublist_between hy htwo hlen
    have hcard := h l hl hlm.ge
    have hlt : l.toFinset.card < l.length :=
      card_toFinset_lt fun hn => nodup_iff_sublist.1 hn y hyl
    have := Finset.card_insert_le x l.toFinset
    omega
  · rintro (hlen | ⟨hx, hrep⟩) l hl hlm
    · have := hl.length_le
      omega
    rw [Finset.card_insert_of_notMem (by simpa using fun h => hx (hl.subset h))]
    rcases hrep with rfl | hn
    · have hpos : 0 < l.toFinset.card :=
        Finset.card_pos.2 (toFinset_nonempty_iff l |>.2 (length_pos_iff.1 hlm))
      omega
    · rw [toFinset_card_of_nodup (hl.nodup hn)]
      omega

end Quorum
