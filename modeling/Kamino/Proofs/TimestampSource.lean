import Kamino.Proofs.DMap
import Kamino.TimestampSource

/-!
# Stamps are strictly increasing below the largest one

A stamp that `next` returns is above the last one, which is above all that were returned or observed
before; at the top of the range `next` returns the last one again.
-/

namespace Kamino.TimestampSource

open Function Runs List

variable {s s' : TimestampSource}

structure Inv (s : TimestampSource) : Prop where
  finished_le : ∀ x ∈ s.finished, x ≤ s.last
  earlier_subset : ∀ task, ∀ call ∈ s.calls task, call.earlier ⊆ s.finished
  returned_mem : ∀ p ∈ s.returned, p.1 ∈ s.finished
  strict : s.Strict

theorem Inv.setCall (i : s.Inv) (task : ℕ) (call : NextCall) (h : call.earlier ⊆ s.finished) :
    (s.setCall task call).Inv :=
  ⟨i.finished_le, (forall_update_iff s.calls fun _ c => ∀ call ∈ c, call.earlier ⊆ s.finished).2
    ⟨by simpa using h, fun t _ => i.earlier_subset t⟩, i.returned_mem, i.strict⟩

/-- The stamp that is exchanged is not the largest one. -/
def BelowMax (s : TimestampSource) : Event → Prop
  | .compareExchangeWeak _ _ => s.last < Int64.maxValue
  | _ => True

instance (s : TimestampSource) : ∀ ev, Decidable (s.BelowMax ev)
  | .compareExchangeWeak _ _ => inferInstanceAs (Decidable (s.last < Int64.maxValue))
  | .next _ _ | .load _ | .observe _ => .isTrue trivial

theorem Inv.exchange (i : s.Inv) {task : ℕ} {prev : Option Int64} {wall : ℕ} {earlier : List Int64}
    (hcall : s.calls task = some ⟨wall, prev, earlier⟩) (hmax : s.last < Int64.maxValue)
    {candidate : Int64} (hc : candidate = nextLwwTimestamp s.last (i64OrMax wall)) :
    Inv ⟨candidate, update s.calls task none, (candidate, earlier) :: s.returned,
      candidate :: s.finished⟩ := by
  have habove : ∀ x ∈ s.finished, x < candidate := fun x hx => by
    rw [hc]
    exact lt_nextLwwTimestamp (i.finished_le x hx) (lt_of_le_of_lt (i.finished_le x hx) hmax) _
  have hearlier : earlier ⊆ s.finished := i.earlier_subset task _ hcall
  constructor
  · exact forall_mem_cons.2 ⟨le_rfl, fun x hx => (habove x hx).le⟩
  · refine (forall_update_iff s.calls fun _ c => ∀ call ∈ c, call.earlier ⊆
      candidate :: s.finished).2 ⟨by simp, fun t _ call hcall => ?_⟩
    exact subset_cons_of_subset _ (i.earlier_subset t call hcall)
  · exact forall_mem_cons.2 ⟨mem_cons_self, fun p hp =>
      mem_cons_of_mem _ (i.returned_mem p hp)⟩
  refine ⟨forall_mem_cons.2 ⟨fun x hx => habove x (hearlier hx), i.strict.1⟩,
    nodup_cons.2 ⟨fun hmem => ?_, i.strict.2⟩⟩
  obtain ⟨p, hp, heq⟩ := mem_map.1 hmem
  exact lt_irrefl _ (heq ▸ habove p.1 (i.returned_mem p hp))

/-- Below the largest stamp, every step keeps the stamps in order. -/
theorem Inv.step {ev : Event} (i : s.Inv) (hp : s.BelowMax ev) (h : s.step ev = some s') :
    s'.Inv := by
  cases ev with
  | next task wall =>
    simp only [TimestampSource.step] at h
    split at h <;> cases h
    exact i.setCall task _ (List.Subset.refl _)
  | load task =>
    simp only [TimestampSource.step] at h
    split at h <;> cases h
    rename_i wall earlier hcall
    have hsub : earlier ⊆ s.finished := i.earlier_subset task _ hcall
    exact i.setCall task _ hsub
  | compareExchangeWeak task spurious =>
    simp only [TimestampSource.step] at h
    split at h
    · rename_i wall prev earlier hcall
      split_ifs at h with hcas <;> cases h
      · obtain ⟨rfl, -⟩ := hcas
        exact i.exchange hcall hp rfl
      · have hsub : earlier ⊆ s.finished := i.earlier_subset task _ hcall
        exact i.setCall task _ hsub
    · cases h
  | observe observed =>
    cases h
    exact ⟨forall_mem_cons.2 ⟨le_max_right _ _, fun x hx =>
        le_max_of_le_left (i.finished_le x hx)⟩,
      fun t c hc => subset_cons_of_subset _ (i.earlier_subset t c hc),
      fun p hp => mem_cons_of_mem _ (i.returned_mem p hp), i.strict⟩

/-- While no stamp is exchanged for the largest one, stamps are strictly increasing. -/
theorem strict_of_belowMax {evs : List Event} (hg : Guarded step BelowMax new evs)
    (hs : exec step new evs = some s) : s.Strict :=
  (hg.invariant (fun _ _ _ => Inv.step) ⟨by simp [new], by simp [new], by simp [new],
    by simp [Strict, new]⟩ hs).strict

theorem strict_after_observe :
    let evs := [.observe 5, .next 1 0, .load 1, .compareExchangeWeak 1 false, .next 2 0, .load 2,
      .compareExchangeWeak 2 false]
    ∃ s, exec step new evs = some s ∧ s.returned = [(7, [6, 5]), (6, [5])] ∧ s.Strict := by
  intro evs
  exact ⟨_, rfl, rfl, @strict_of_belowMax _ evs (by decide +zetaReduce) rfl⟩

/-- A client's stamp at the top of the range is returned again. -/
theorem next_repeats_max : ∃ s, exec step new
    [.observe Int64.maxValue, .next 0 0, .load 0, .compareExchangeWeak 0 false] = some s ∧
      ¬ s.Strict :=
  ⟨_, rfl, fun h => absurd (h.1 _ mem_cons_self _ mem_cons_self) (by decide +kernel)⟩

end Kamino.TimestampSource
