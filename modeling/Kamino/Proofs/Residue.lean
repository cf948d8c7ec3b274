import Kamino.Proofs.Locker

/-!
# What the registry is left with

A slot leaves the registry when a task that has brought its count to zero finds it still zero.
-/

namespace Kamino

open Finset Locker LockPc

/-- The name and slot a task refers to, from its lookup to the end of its `reap`. -/
@[simp] def LockPc.refers : LockPc → Option (LockName × ℕ)
  | looked name slot | waiting name slot | holding name slot | timedOut name slot
  | reapLock _ name slot | reapLoad _ name slot | reapRemove _ name slot => some (name, slot)
  | idle | releasing _ _ => none

namespace LockPc

theorem refers_of_counted {p : LockPc} {slot : ℕ} (h : p.counted = some slot) :
    ∃ name, p.refers = some (name, slot) := by
  cases p <;> simp at h ⊢ <;> exact h

end LockPc

namespace Locker

open Function Runs Option

variable {l l' : Locker} {t slot : ℕ} {name : LockName} {p : LockPc} {held : Bool}

@[simp] theorem refers_reaped : (reaped held name slot).refers = none := by
  cases held <;> rfl

@[simp] theorem counted_reaped : (reaped held name slot).counted = none := by
  cases held <;> rfl

@[simp] theorem removing_reaped : (reaped held name slot).removing = none := by
  cases held <;> rfl

/-- A slot has one name and is allocated, and its count covers the tasks counted on it. -/
structure Base (nameOf : ℕ → LockName) (l : Locker) : Prop where
  task : ∀ t name slot, (l.pc t).refers = some (name, slot) → nameOf slot = name ∧ slot < l.next
  lock : ∀ name slot, l.locks name = some slot → nameOf slot = name ∧ slot < l.next
  counted : ∀ slot F, l.Counted slot F → F.card ≤ l.refcount slot

theorem Base.new (nameOf : ℕ → LockName) : new.Base nameOf := by
  refine ⟨by simp [Locker.new], by simp [Locker.new], fun slot F hF => ?_⟩
  have : F = ∅ := eq_empty_of_forall_notMem fun t ht => by
    simpa [Locker.new] using hF t ht
  simp [this]

variable {nameOf : ℕ → LockName} {e : LockerEvent}

theorem Base.pos (b : l.Base nameOf) (h : (l.pc t).counted = some slot) : 0 < l.refcount slot := by
  have := b.counted slot {t} (by simpa [Counted] using h)
  rwa [card_singleton] at this

theorem Base.move (b : l.Base nameOf) (hpc : l'.pc = update l.pc t p)
    (hnext : l'.next = l.next) (hlocks : ∀ n s, l'.locks n = some s → l.locks n = some s)
    (hp : ∀ n s, p.refers = some (n, s) → (l.pc t).refers = some (n, s) ∨ l.locks n = some s)
    (hc : ∀ s, l.refcount s + (if p.counted = some s then 1 else 0) ≤
      l'.refcount s + if (l.pc t).counted = some s then 1 else 0) : l'.Base nameOf := by
  refine ⟨fun t' n s h => ?_, fun n s h => hnext ▸ b.lock n s (hlocks n s h),
    fun s => card_le_of_move (k := 0) hpc (hc s) (b.counted s)⟩
  rw [hnext]
  rcases pc_of_update hpc t' with ⟨rfl, hpc'⟩ | ⟨-, hpc'⟩ <;> rw [hpc'] at h
  · exact (hp n s h).elim (b.task t' n s) (b.lock n s)
  · exact b.task t' n s h

theorem Base.leave (b : l.Base nameOf) (hpc : l'.pc = update l.pc t p)
    (hnext : l'.next = l.next) (hlocks : ∀ n s, l'.locks n = some s → l.locks n = some s)
    (hcount : l'.refcount = l.refcount) (hr : p.refers = none) (hn : p.counted = none) :
    l'.Base nameOf := by
  refine b.move hpc hnext hlocks (fun n s h => ?_) fun s => ?_
  · rw [hr] at h
    cases h
  · rw [hn, hcount, if_neg (by simp)]
    omega

theorem Base.lookupNone (b : l.Base nameOf) :
    (l.grown t name).Base (update nameOf l.next name) := by
  have hold : ∀ n s, nameOf s = n ∧ s < l.next →
      update nameOf l.next name s = n ∧ s < l.next + 1 := by
    rintro n s ⟨hn, hs⟩
    rw [update_of_ne (by omega)]
    exact ⟨hn, by omega⟩
  refine ⟨fun t' n s h => ?_, fun n s h => ?_, fun s F hF => ?_⟩
  · by_cases ht : t' = t
    · simp only [ht, update_self, refers, some.injEq, Prod.mk.injEq] at h
      obtain ⟨rfl, rfl⟩ := h
      exact ⟨update_self _ _ _, Nat.lt_succ_self _⟩
    · simp only [update_of_ne ht] at h
      exact hold n s (b.task t' n s h)
  · by_cases hn : n = name
    · simp only [hn, update_self, some.injEq] at h
      rw [← h, hn]
      exact ⟨update_self _ _ _, Nat.lt_succ_self _⟩
    · simp only [update_of_ne hn] at h
      exact hold n s (b.lock n s h)
  have hF' : l.Counted s F := by
    intro t' ht'
    have := hF t' ht'
    by_cases ht : t' = t
    · simp [ht] at this
    · simpa [update_of_ne ht] using this
  by_cases hs : s = l.next
  · have : F = ∅ := eq_empty_of_forall_notMem fun t' ht' => by
      obtain ⟨n, hn⟩ := refers_of_counted (hF' t' ht')
      have := (b.task t' n s hn).2
      omega
    simp [this]
  · simpa [update_of_ne hs] using b.counted s F hF'

theorem fetchSub_pc (l : Locker) (t : ℕ) (held : Bool) (name : LockName) (slot : ℕ) :
    ∃ p, (l.fetchSub t held name slot).pc = update l.pc t p ∧ p.counted = none ∧
      p.removing = none ∧ ((l.refcount slot = 1 ∧ p.refers = some (name, slot)) ∨
        l.refcount slot ≠ 1 ∧ p.refers = none) := by
  by_cases h : l.refcount slot = 1
  · exact ⟨.reapLock held name slot, by simp [fetchSub, h], rfl, rfl, .inl ⟨h, rfl⟩⟩
  · exact ⟨reaped held name slot, by simp [fetchSub, h], counted_reaped, removing_reaped,
      .inr ⟨h, refers_reaped⟩⟩

theorem refcount_fetchSub (h : 0 < l.refcount slot) (s : ℕ) :
    (l.fetchSub t held name slot).refcount s +
      (if some slot = some s then 1 else 0) = l.refcount s := by
  by_cases hs : slot = s
  · subst hs
    simp only [fetchSub, update_self, if_true]
    omega
  · simp [fetchSub, update_of_ne (Ne.symm hs), hs]

theorem Base.fetchSub (b : l.Base nameOf)
    (hr : (l.pc t).refers = some (name, slot)) (hcount : (l.pc t).counted = some slot) :
    (l.fetchSub t held name slot).Base nameOf := by
  obtain ⟨p, hpc, hnone, -, hrefers⟩ := fetchSub_pc l t held name slot
  refine b.move hpc rfl (fun _ _ h => h) (fun n s h => ?_) fun s => ?_
  · rcases hrefers with ⟨-, hp⟩ | ⟨-, hp⟩ <;> rw [hp] at h
    · exact .inl (hr.trans h)
    · cases h
  · rw [hnone, hcount, refcount_fetchSub (b.pos hcount)]
    simp

theorem locks_of_removed {n : LockName} {s : ℕ}
    (h : (if l.locks name = some slot then update l.locks name none else l.locks) n = some s) :
    l.locks n = some s ∧ (n = name → s ≠ slot) := by
  split_ifs at h with hl
  · by_cases hn : n = name
    · simp [hn] at h
    · rw [update_of_ne hn] at h
      exact ⟨h, fun h' => absurd h' hn⟩
  · exact ⟨h, fun hn hs => hl (hn ▸ hs ▸ h)⟩

theorem Base.step (b : l.Base nameOf) (h : l.step e = some l') : ∃ nameOf', l'.Base nameOf' := by
  cases steps_of_step h with
  | lookupSome hp _ hl =>
    refine ⟨nameOf, b.move rfl rfl (fun _ _ h => h) (fun n s hr => ?_) (by simp)⟩
    simp only [refers, some.injEq, Prod.mk.injEq] at hr
    exact .inr (hr.1 ▸ hr.2 ▸ hl)
  | lookupNone => exact ⟨_, b.lookupNone⟩
  | count hp =>
    refine ⟨nameOf, b.move rfl rfl (fun _ _ h => h) (fun n s hr => .inl ?_) fun s => ?_⟩
    · simpa [hp] using hr
    rename_i slot
    by_cases hs : s = slot
    · simp [hs]
    · simp [update_of_ne hs, Ne.symm hs]
  | lock hp | timeout hp =>
    exact ⟨nameOf, b.move rfl rfl (fun _ _ h => h) (by simp [hp]) (by simp [hp])⟩
  | cancel | release => exact ⟨nameOf, b.leave rfl rfl (fun _ _ h => h) rfl rfl rfl⟩
  | drop hp | bail hp => exact ⟨nameOf, b.fetchSub (by simp [hp]) (by simp [hp])⟩
  | reapLock hp | reapZero hp =>
    exact ⟨nameOf, b.move rfl rfl (fun _ _ h => h) (by simp [hp]) (by simp)⟩
  | reapBusy =>
    exact ⟨nameOf, b.leave rfl rfl (fun _ _ h => h) rfl refers_reaped counted_reaped⟩
  | reapRemove =>
    exact ⟨nameOf, b.leave rfl rfl (fun _ _ h => (locks_of_removed h).1) rfl refers_reaped
      counted_reaped⟩

/-! ### Runs in which no counted task is dropped -/

/-- The count is no more than the tasks counted on the slot. -/
def Covered (l : Locker) (slot : ℕ) : Prop :=
  ∃ F, l.Counted slot F ∧ l.refcount slot ≤ F.card

theorem Base.mem_of_covered {F : Finset ℕ} (b : l.Base nameOf)
    (hF : l.Counted slot F) (hle : l.refcount slot ≤ F.card)
    (h : (l.pc t).counted = some slot) : t ∈ F := by
  by_contra ht
  have hins : l.Counted slot (insert t F) := by
    intro t' ht'
    rcases mem_insert.1 ht' with rfl | ht'
    · exact h
    · exact hF t' ht'
  have := b.counted slot _ hins
  rw [card_insert_of_notMem ht] at this
  omega

theorem Base.covered_of_move (b : l.Base nameOf) (hpc : l'.pc = update l.pc t p)
    (hc : l'.refcount slot + (if (l.pc t).counted = some slot then 1 else 0) ≤
      l.refcount slot + if p.counted = some slot then 1 else 0) (h : l.Covered slot) :
    l'.Covered slot := by
  obtain ⟨F, hF, hle⟩ := h
  have hself : l'.pc t = p := by rw [hpc, update_self]
  have herase : l'.Counted slot (F.erase t) := by
    intro t' ht'
    obtain ⟨hne, ht'⟩ := mem_erase.1 ht'
    rw [hpc, update_of_ne hne]
    exact hF t' ht'
  have hcard : l.refcount slot ≤ (F.erase t).card +
      if (l.pc t).counted = some slot then 1 else 0 := by
    split_ifs with hold
    · rwa [card_erase_add_one (b.mem_of_covered hF hle hold)]
    · rwa [erase_eq_of_notMem fun ht => hold (hF t ht)]
  by_cases hnew : p.counted = some slot
  · refine ⟨insert t (F.erase t), fun t' ht' => ?_, ?_⟩
    · rcases mem_insert.1 ht' with rfl | ht'
      · rwa [hself]
      · exact herase t' ht'
    · rw [if_pos hnew] at hc
      rw [card_insert_of_notMem (notMem_erase t F)]
      omega
  · rw [if_neg hnew] at hc
    exact ⟨F.erase t, herase, by omega⟩

theorem Base.other_of_covered (b : l.Base nameOf) (h : l.Covered slot)
    (hpos : (if (l.pc t).counted = some slot then 1 else 0) < l.refcount slot)
    (hl : l.locks name = some slot) :
    ∃ t', t' ≠ t ∧ (l.pc t').refers = some (name, slot) := by
  obtain ⟨F, hF, hle⟩ := h
  have hcard : 0 < (F.erase t).card := by
    have hmem : t ∈ F → (l.pc t).counted = some slot := hF t
    by_cases ht : t ∈ F
    · rw [if_pos (hmem ht)] at hpos
      rw [card_erase_of_mem ht]
      omega
    · rw [erase_eq_of_notMem ht]
      omega
  obtain ⟨t', ht'⟩ := card_pos.1 hcard
  obtain ⟨hne, ht'⟩ := mem_erase.1 ht'
  obtain ⟨n, hn⟩ := refers_of_counted (hF t' ht')
  have hname : n = name := (b.task t' n slot hn).1.symm.trans (b.lock name slot hl).1
  exact ⟨t', hne, hname ▸ hn⟩

/-- A registered slot is about to be removed, or its count is right and some task refers to it. -/
def Clean (l : Locker) : Prop :=
  ∀ name slot, l.locks name = some slot → (∃ t, (l.pc t).removing = some slot) ∨
    l.Covered slot ∧ ∃ t, (l.pc t).refers = some (name, slot)

theorem Clean.new : Locker.new.Clean := fun _ _ h => absurd h (by simp [Locker.new])

theorem Clean.move (c : l.Clean) (b : l.Base nameOf) (hpc : l'.pc = update l.pc t p)
    (hlocks : ∀ n s, l'.locks n = some s → l.locks n = some s ∧ (l.pc t).removing ≠ some s)
    (hs : ∀ n s, l.locks n = some s → (∀ t', (l.pc t').removing ≠ some s) →
      l'.refcount s + (if (l.pc t).counted = some s then 1 else 0) ≤
        l.refcount s + (if p.counted = some s then 1 else 0) ∧
      ((l.pc t).refers = some (n, s) → p.refers = some (n, s) ∨
        (if (l.pc t).counted = some s then 1 else 0) < l.refcount s)) :
    l'.Clean := by
  have hself : l'.pc t = p := by rw [hpc, update_self]
  have hne : ∀ t', t' ≠ t → l'.pc t' = l.pc t' := fun t' h => by rw [hpc, update_of_ne h]
  intro n s hl
  obtain ⟨hl, hnot⟩ := hlocks n s hl
  by_cases hrem : ∃ t', (l.pc t').removing = some s
  · obtain ⟨t', ht'⟩ := hrem
    refine .inl ⟨t', ?_⟩
    rwa [hne t']
    rintro rfl
    exact hnot ht'
  obtain ⟨hcov, t', ht'⟩ := (c n s hl).resolve_left hrem
  obtain ⟨hc, hr⟩ := hs n s hl fun t' ht' => hrem ⟨t', ht'⟩
  refine .inr ⟨b.covered_of_move hpc hc hcov, ?_⟩
  by_cases ht : t' = t
  · subst ht
    rcases hr ht' with hp | hpos
    · exact ⟨t', by rwa [hself]⟩
    · obtain ⟨t'', hne'', ht''⟩ := b.other_of_covered hcov hpos hl
      exact ⟨t'', by rwa [hne t'' hne'']⟩
  · exact ⟨t', by rwa [hne t' ht]⟩

theorem Clean.lookupNone (c : l.Clean) (b : l.Base nameOf) (hp : l.pc t = .idle) :
    (l.grown t name).Clean := by
  have hne : ∀ t' n s, (l.pc t').refers = some (n, s) ∨ (l.pc t').removing = some s → t' ≠ t := by
    rintro t' n s h rfl
    simp [hp] at h
  intro n s hl
  simp only [] at hl ⊢
  by_cases hn : n = name
  · rw [hn, update_self, some.injEq] at hl
    refine .inr ⟨⟨∅, by simp [Counted], by simp [← hl]⟩, t, ?_⟩
    rw [update_self, hn, ← hl]
    rfl
  rw [update_of_ne hn] at hl
  rcases c n s hl with ⟨t', ht'⟩ | ⟨⟨F, hF, hle⟩, t', ht'⟩
  · exact .inl ⟨t', by rwa [update_of_ne (hne t' n s (.inr ht'))]⟩
  have hs : s ≠ l.next := (b.lock n s hl).2.ne
  refine .inr ⟨⟨F, fun t'' ht'' => ?_, by simpa [update_of_ne hs] using hle⟩, t', ?_⟩
  · obtain ⟨n', hn'⟩ := refers_of_counted (hF t'' ht'')
    simpa [update_of_ne (hne t'' n' s (.inl hn'))] using hF t'' ht''
  · rwa [update_of_ne (hne t' n s (.inl ht'))]

theorem Clean.fetchSub (c : l.Clean) (b : l.Base nameOf)
    (hr : (l.pc t).refers = some (name, slot)) (hcount : (l.pc t).counted = some slot)
    (hrem : (l.pc t).removing = none) : (l.fetchSub t held name slot).Clean := by
  obtain ⟨p, hpc, hnone, -, hrefers⟩ := fetchSub_pc l t held name slot
  have hpos := b.pos hcount
  refine c.move b hpc (fun n s h => ⟨h, by rw [hrem]; simp⟩) fun n s hl _ => ⟨?_, fun hrn => ?_⟩
  · rw [hnone, hcount, refcount_fetchSub hpos]
    simp
  rw [hr, some.injEq, Prod.mk.injEq] at hrn
  obtain ⟨rfl, rfl⟩ := hrn
  rcases hrefers with ⟨-, hp⟩ | ⟨hone, -⟩
  · exact .inl hp
  · rw [if_pos hcount]
    exact .inr (by omega)

/-- An `acquire` is not dropped at its await while its slot is the registered one, unless a task
has found the slot's count zero and is about to remove it. -/
def Kept (l : Locker) : LockerEvent → Prop
  | .cancel t => ∀ name slot, l.pc t = .waiting name slot → l.locks name = some slot →
      ∃ t', (l.pc t').removing = some slot
  | _ => True

theorem Clean.cancel (c : l.Clean) (b : l.Base nameOf)
    (hp : l.pc t = .waiting name slot) (hk : l.Kept (.cancel t)) :
    ({ l with pc := update l.pc t .idle } : Locker).Clean := by
  refine c.move b rfl (fun n s h => ⟨h, by simp [hp]⟩) fun n s hl hno => ?_
  -- a registered slot that nobody is removing is not the cancelled task's
  have hs : slot ≠ s := by
    rintro rfl
    have hn : n = name :=
      (b.lock n slot hl).1.symm.trans (b.task t name slot (by simp [hp])).1
    obtain ⟨t', ht'⟩ := hk name slot hp (hn ▸ hl)
    exact hno t' ht'
  simp [hp, hs]

/-- A step that keeps to its await leaves no slot behind. -/
theorem Clean.step (c : l.Clean) (b : l.Base nameOf)
    (hk : l.Kept e) (h : l.step e = some l') : l'.Clean := by
  cases steps_of_step h with
  | lookupSome hp =>
    exact c.move b rfl (fun n s h => ⟨h, by simp [hp]⟩) fun n s _ _ => by simp [hp]
  | lookupNone hp => exact c.lookupNone b hp
  | count hp =>
    rename_i slot
    refine c.move b rfl (fun n s h => ⟨h, by simp [hp]⟩) fun n s _ _ =>
      ⟨?_, fun hr => .inl (by simpa [hp] using hr)⟩
    by_cases hs : s = slot
    · simp [hp, hs]
    · simp [hp, update_of_ne hs, Ne.symm hs]
  | lock hp | timeout hp | reapLock hp | reapZero hp =>
    exact c.move b rfl (fun n s h => ⟨h, by simp [hp]⟩) fun n s _ _ =>
      ⟨by simp [hp], fun hr => .inl (by simpa [hp] using hr)⟩
  | cancel hp => exact c.cancel b hp hk
  | drop hp | bail hp => exact c.fetchSub b (by simp [hp]) (by simp [hp]) (by simp [hp])
  | reapBusy hp hz =>
    refine c.move b rfl (fun n s h => ⟨h, by simp [hp]⟩) fun n s _ _ => ⟨by simp [hp], fun hr => ?_⟩
    simp only [hp, refers, some.injEq, Prod.mk.injEq] at hr
    rw [hp, ← hr.2]
    exact .inr (Nat.pos_of_ne_zero hz)
  | reapRemove hp =>
    rename_i t held name slot
    have hname := fun n s (hl : l.locks n = some s) (hs : s = slot) =>
      (b.lock n s hl).1.symm.trans (hs ▸ (b.task t name slot (by simp [hp])).1)
    refine c.move b rfl (fun n s h => ?_) fun n s hl hno => ⟨by simp [hp], fun hr => ?_⟩
    · obtain ⟨hl, hne⟩ := locks_of_removed h
      refine ⟨hl, fun hs => ?_⟩
      simp only [hp, removing, some.injEq] at hs
      exact hne (hname n s hl hs.symm) hs.symm
    · simp only [hp, refers, some.injEq, Prod.mk.injEq] at hr
      exact absurd (by simp [hp, hr.2]) (hno t)
  | release hp => exact c.move b rfl (fun n s h => ⟨h, by simp [hp]⟩) fun n s _ _ => by simp [hp]

/-! ### A count that is too high -/

/-- A registered slot that no task is about to remove, with a count above its counted tasks. -/
def Leaked (l : Locker) : Prop :=
  ∃ name slot, l.locks name = some slot ∧ (∀ t, (l.pc t).removing ≠ some slot) ∧
    ∀ F, l.Counted slot F → F.card + 1 ≤ l.refcount slot

theorem Leaked.of_cancel (hp : l.pc t = .waiting name slot) (hl : l.locks name = some slot)
    (hno : ∀ t', (l.pc t').removing ≠ some slot) (b : l.Base nameOf) :
    ({ l with pc := update l.pc t .idle } : Locker).Leaked := by
  refine ⟨name, slot, hl, fun t' => ?_, fun F hF => ?_⟩
  · by_cases ht : t' = t
    · simp [ht]
    · simpa [update_of_ne ht] using hno t'
  have ht : t ∉ F := fun h => by simpa using hF t h
  have hins : l.Counted slot (insert t F) := by
    intro t' ht'
    rcases mem_insert.1 ht' with rfl | hF'
    · simp [hp]
    · have hne : t' ≠ t := fun h => ht (h ▸ hF')
      simpa [update_of_ne hne] using hF t' hF'
  simpa [card_insert_of_notMem ht] using b.counted slot _ hins

theorem Leaked.move (hslot : l.locks name = some slot) (hno : ∀ t, (l.pc t).removing ≠ some slot)
    (hF : ∀ F, l.Counted slot F → F.card + 1 ≤ l.refcount slot)
    (hpc : l'.pc = update l.pc t p)
    (hlocks : l.locks name = some slot → l'.locks name = some slot)
    (hp : p.removing = some slot → l.refcount slot = 0)
    (hc : l.refcount slot + (if p.counted = some slot then 1 else 0) ≤
      l'.refcount slot + if (l.pc t).counted = some slot then 1 else 0) : l'.Leaked := by
  have hpos : 0 < l.refcount slot := (Nat.succ_pos _).trans_le (hF ∅ (by simp [Counted]))
  refine ⟨name, slot, hlocks hslot, fun t' => ?_, card_le_of_move hpc hc hF⟩
  rcases pc_of_update hpc t' with ⟨-, hpc'⟩ | ⟨-, hpc'⟩ <;> rw [hpc']
  · exact fun h => hpos.ne' (hp h)
  · exact hno t'

/-- A leaked slot stays for good. -/
theorem Leaked.step (h : l.Leaked) (b : l.Base nameOf) (hs : l.step e = some l') : l'.Leaked := by
  obtain ⟨name, slot, hl, hno, hF⟩ := h
  have hsub : ∀ {t held n s}, (l.pc t).counted = some s → (l.fetchSub t held n s).Leaked := by
    intro t held n s hcount
    obtain ⟨p, hpc, hnone, hrem, -⟩ := fetchSub_pc l t held n s
    refine Leaked.move hl hno hF hpc id (by rw [hrem]; simp) ?_
    rw [hnone, hcount, refcount_fetchSub (b.pos hcount)]
    simp
  cases steps_of_step hs with
  | lookupSome | cancel | reapLock | release =>
    exact Leaked.move hl hno hF rfl id (by simp) (by simp)
  | lookupNone hp _ hnone =>
    have hlt := (b.lock name slot hl).2
    refine Leaked.move hl hno hF rfl (fun _ => ?_) (by simp) (by simp [update_of_ne hlt.ne])
    simp only []
    rwa [update_of_ne]
    rintro rfl
    rw [hl] at hnone
    cases hnone
  | count hp =>
    rename_i s
    refine Leaked.move hl hno hF rfl id (by simp) ?_
    by_cases hs : slot = s
    · simp [hs]
    · simp [update_of_ne hs, Ne.symm hs]
  | lock hp => exact Leaked.move hl hno hF rfl id (by simp) (by simp [hp])
  | timeout hp => exact Leaked.move hl hno hF rfl id (by simp) (by simp [hp])
  | drop hp => exact hsub (by simp [hp])
  | bail hp => exact hsub (by simp [hp])
  | reapZero _ hz =>
    refine Leaked.move hl hno hF rfl id (fun h => ?_) (by simp)
    simp only [removing, some.injEq] at h
    exact h ▸ hz
  | reapBusy =>
    exact Leaked.move hl hno hF rfl id (by rw [removing_reaped]; simp)
      (by rw [counted_reaped]; simp)
  | reapRemove hp =>
    rename_i t held n s
    refine Leaked.move hl hno hF rfl (fun _ => ?_) (by rw [removing_reaped]; simp)
      (by rw [counted_reaped]; simp)
    simp only []
    split_ifs with hn
    · rw [update_of_ne]
      · exact hl
      · rintro rfl
        rw [hl, some.injEq] at hn
        exact hno t (by simp [hp, hn])
    · exact hl

def Ordered (l : Locker) : Prop := ∃ nameOf, l.Base nameOf

theorem Ordered.new : new.Ordered := ⟨fun _ => ("", []), Base.new _⟩

theorem Ordered.step (e : LockerEvent) (h : l.Ordered) (hs : l.step e = some l') : l'.Ordered := by
  obtain ⟨_, b⟩ := h
  exact b.step hs

theorem leaked_of_not_kept (h : l.Ordered) (hk : ¬ l.Kept e)
    (hs : l.step e = some l') : l'.Leaked := by
  obtain ⟨_, b⟩ := h
  cases steps_of_step hs with
  | cancel hp =>
    simp only [Kept, not_forall, not_exists] at hk
    obtain ⟨name, slot, hp', hl, hno⟩ := hk
    exact Leaked.of_cancel hp' hl hno b
  | _ => exact absurd trivial hk

theorem clean_of_guarded {es : List LockerEvent} (hx : exec step new es = some l)
    (hg : Guarded step Kept new es) : l.Clean := by
  have hstep : ∀ (l : Locker) e l', l.Ordered ∧ l.Clean → l.Kept e → l.step e = some l' →
      l'.Ordered ∧ l'.Clean := by
    rintro l e l' ⟨⟨nameOf, b⟩, c⟩ hk hs
    exact ⟨b.step hs, c.step b hk hs⟩
  exact (Guarded.invariant hstep ⟨Ordered.new, Clean.new⟩ hg hx).2

/-- Once every task has finished, the registry is empty in just the runs in which no `acquire` is
dropped at its await while its slot is registered and stays so. -/
theorem registry_empty_iff {es : List LockerEvent} (hx : exec step new es = some l)
    (hidle : ∀ t, l.pc t = .idle) :
    (∀ name, l.locks name = none) ↔ Guarded step Kept new es := by
  constructor
  · intro hempty
    have hend : ¬ l.Leaked := by
      rintro ⟨name, slot, hl, -⟩
      rw [hempty name] at hl
      cases hl
    refine Guarded.of_not_bad (fun l e l' h => h.step e) (fun l e l' => leaked_of_not_kept)
      (fun l e l' h hl hs => ?_) Ordered.new hx hend
    obtain ⟨_, b⟩ := h
    exact Leaked.step hl b hs
  · intro hg name
    rcases hl : l.locks name with _ | slot
    · rfl
    · rcases clean_of_guarded hx hg name slot hl with ⟨t, ht⟩ | ⟨-, t, ht⟩ <;> simp [hidle t] at ht

/-- One task holds the lock while another times out on it. -/
def timingOut : List LockerEvent :=
  [.lookup 0 ("d", [1]), .count 0, .lock 0, .lookup 1 ("d", [1]), .count 1, .timeout 1, .sub 1,
    .sub 0, .reapLock 0, .reapLoad 0, .reapRemove 0, .release 0]

theorem registry_empty_timedOut : ∃ l, exec step new timingOut = some l ∧
    (∀ t, l.pc t = .idle) ∧ ∀ name, l.locks name = none := by
  have hg : Guarded step Kept new timingOut := by
    repeat refine .cons trivial rfl ?_
    trivial
  refine ⟨_, rfl, fun t => ?_, (registry_empty_iff rfl fun t => ?_).2 hg⟩ <;>
  · by_cases h₀ : t = 0
    · simp [h₀]
    · by_cases h₁ : t = 1 <;> simp [h₀, h₁, new, fetchSub, reaped]

/-- A waiter whose `acquire` is dropped stays in the count: the holder's `reap` stops at it, and the
slot stays registered with no task left. -/
theorem registry_left_by_cancel : ∃ l,
    exec step new [.lookup 0 ("d", [1]), .count 0, .lock 0, .lookup 1 ("d", [1]), .count 1,
      .cancel 1, .sub 0, .release 0] = some l ∧
    (∀ t, l.pc t = .idle) ∧ l.locks ("d", [1]) = some 0 := by
  refine ⟨_, rfl, fun t => ?_, rfl⟩
  by_cases h₀ : t = 0
  · simp [h₀]
  · by_cases h₁ : t = 1 <;> simp [h₀, h₁, new, fetchSub]

end Locker

end Kamino
