import Mathlib.Data.List.AList
import Mathlib.Algebra.BigOperators.Group.List.Basic
import Mathlib.Algebra.Order.BigOperators.Group.List
import Mathlib.Algebra.Module.NatInt
import Mathlib.Algebra.Order.Ring.Nat

/-!
# Finite maps

A hash map as the list of its bindings, each key once. `total` adds a weight up over the
bindings; inserting and erasing move it by the weight of the binding that comes or goes.
-/

/-- A finite map from `κ` to `ν`. -/
abbrev HMap (κ ν : Type*) := AList fun _ : κ => ν

namespace HMap

open List AList

variable {κ ν : Type*} [DecidableEq κ]

instance [DecidableEq ν] : DecidableEq (HMap κ ν) := fun _ _ =>
  decidable_of_iff _ AList.ext_iff.symm

variable {m : HMap κ ν} {a : κ} {b : ν} {f : κ → ν → ℕ}

theorem mem_entries_iff : (⟨a, b⟩ : Sigma fun _ => ν) ∈ m.entries ↔ m.lookup a = some b :=
  mem_lookup_iff.symm

theorem lookup_insert_eq_ite (m : HMap κ ν) (a c : κ) (b : ν) :
    (m.insert a b).lookup c = if c = a then some b else m.lookup c := by
  split_ifs with h
  · rw [h, lookup_insert]
  · exact lookup_insert_ne h

theorem lookup_of_erase {c : κ} (h : (m.erase a).lookup c = some b) : m.lookup c = some b := by
  by_cases hc : c = a
  · rw [hc, lookup_erase] at h
    cases h
  · rwa [lookup_erase_ne hc] at h

/-- The map with every value changed by `f`. -/
def mapValues (f : κ → ν → ν) (m : HMap κ ν) : HMap κ ν where
  entries := m.entries.map fun p => ⟨p.1, f p.1 p.2⟩
  nodupKeys := by
    have hkeys : (m.entries.map fun p => (⟨p.1, f p.1 p.2⟩ : Sigma fun _ => ν)).keys =
        m.entries.keys := by
      simp [List.keys, Function.comp_def]
    rw [List.NodupKeys, hkeys]
    exact m.nodupKeys

theorem lookup_mapValues (f : κ → ν → ν) (m : HMap κ ν) (a : κ) :
    (mapValues f m).lookup a = (m.lookup a).map (f a) := by
  ext b
  rw [← mem_entries_iff, Option.map_eq_some_iff]
  refine mem_map.trans ⟨?_, ?_⟩
  · rintro ⟨⟨a', b'⟩, hp, heq⟩
    cases heq
    exact ⟨b', mem_entries_iff.1 hp, rfl⟩
  · rintro ⟨b', hb, rfl⟩
    exact ⟨⟨a, b'⟩, mem_entries_iff.2 hb, rfl⟩

theorem lookup_foldl_erase (ks : List κ) (m : HMap κ ν) (a : κ) :
    (ks.foldl (fun m k => m.erase k) m).lookup a = if a ∈ ks then none else m.lookup a := by
  induction ks generalizing m with
  | nil => simp
  | cons k ks ih =>
    rw [foldl_cons, ih]
    by_cases ha : a = k
    · subst ha
      simp
    · simp [ha, lookup_erase_ne ha]

/-- The sum of `f` over the bindings. -/
def total (f : κ → ν → ℕ) (m : HMap κ ν) : ℕ := (m.entries.map fun p => f p.1 p.2).sum

variable {g : κ → ν → ℕ}

theorem total_congr (h : ∀ a b, m.lookup a = some b → f a b = g a b) : total f m = total g m := by
  unfold total
  congr 1
  refine map_congr_left fun p hp => h p.1 p.2 ?_
  exact mem_entries_iff.1 hp

omit [DecidableEq κ] in
theorem total_mapValues (f : κ → ν → ℕ) (g : κ → ν → ν) (m : HMap κ ν) :
    total f (mapValues g m) = total (fun a b => f a (g a b)) m := by
  simp [total, mapValues, Function.comp_def]

/-- A total falls if no summand rises and one falls. -/
theorem total_lt_total (h : ∀ a b, m.lookup a = some b → f a b ≤ g a b)
    (hlt : ∃ a b, m.lookup a = some b ∧ f a b < g a b) : total f m < total g m := by
  obtain ⟨a, b, hab, hlt⟩ := hlt
  refine sum_lt_sum _ _ (fun p hp => h p.1 p.2 (mem_entries_iff.1 hp)) ?_
  exact ⟨⟨a, b⟩, mem_entries_iff.2 hab, hlt⟩

theorem total_le {n : ℕ}
    (h : ∀ a b, m.lookup a = some b → f a b ≤ n) : total f m ≤ m.entries.length * n := by
  have hsum := sum_le_card_nsmul (m.entries.map fun p => f p.1 p.2) n (by
    intro x hx
    obtain ⟨p, hp, rfl⟩ := mem_map.1 hx
    exact h p.1 p.2 (mem_entries_iff.1 hp))
  rwa [length_map, smul_eq_mul] at hsum

theorem total_erase (h : m.lookup a = some b) : total f (m.erase a) + f a b = total f m := by
  have hmem : a ∈ m.entries.keys := by
    rw [← AList.keys, ← AList.mem_keys, ← AList.lookup_isSome, h]
    rfl
  obtain ⟨b', l₁, l₂, hnot, hl, herase⟩ := exists_of_kerase hmem
  have hb : b' = b := by
    have hm : (⟨a, b'⟩ : Sigma fun _ => ν) ∈ m.entries := by rw [hl]; simp
    rw [mem_entries_iff, h] at hm
    exact (Option.some.inj hm).symm
  subst hb
  change ((m.entries.kerase a).map _).sum + _ = (m.entries.map _).sum
  rw [herase, hl]
  simp only [map_append, map_cons, sum_append, sum_cons]
  omega

theorem length_erase (h : m.lookup a = some b) :
    (m.erase a).entries.length + 1 = m.entries.length := by
  simpa [total, map_const', sum_replicate_nat] using total_erase (f := fun _ _ => 1) h

theorem length_insert (h : m.lookup a = some b) (c : ν) :
    (m.insert a c).entries.length = m.entries.length := by
  rw [← length_erase h, entries_insert, length_cons]
  rfl

theorem total_insert (m : HMap κ ν) (a : κ) (b : ν) :
    total f (m.insert a b) = f a b + total f (m.erase a) := by
  unfold total
  rw [entries_insert, map_cons, sum_cons]
  rfl

theorem erase_of_none (h : m.lookup a = none) : m.erase a = m := by
  apply ext
  refine kerase_of_notMem_keys ?_
  rwa [lookup_eq_none] at h

end HMap
