import Kamino.Lib.Runs
import Kamino.Locker
import Mathlib.Data.Finset.Card

/-!
# Mutual exclusion per key

Exclusion on a slot is the inner mutex's.
-/

namespace Kamino

open Locker LockPc Finset

variable {p : LockPc}

namespace LockPc

/-- The name and slot of a task between its lookup and its `fetch_sub`. -/
@[simp] def active : LockPc → Option (LockName × ℕ)
  | looked name slot | waiting name slot | holding name slot | timedOut name slot =>
    some (name, slot)
  | _ => none

@[simp] def counted : LockPc → Option ℕ
  | waiting _ slot | holding _ slot | timedOut _ slot => some slot
  | _ => none

@[simp] def owned : LockPc → Option ℕ
  | holding _ slot | releasing _ slot => some slot
  | reapLock true _ slot | reapLoad true _ slot | reapRemove true _ slot => some slot
  | _ => none

@[simp] def hasMap : LockPc → Bool
  | reapLoad _ _ _ | reapRemove _ _ _ => true
  | _ => false

@[simp] def reaps : LockPc → Option ℕ
  | reapLock _ _ slot | reapLoad _ _ slot | reapRemove _ _ slot => some slot
  | _ => none

@[simp] def removing : LockPc → Option ℕ
  | reapRemove _ _ slot => some slot
  | _ => none

theorem hasMap_of_removing {slot : ℕ} (h : p.removing = some slot) : p.hasMap = true := by
  cases p <;> simp at h ⊢

end LockPc

namespace Locker

open Function Runs Option

/-- The state that the lookup of a name without a slot leaves. -/
abbrev grown (l : Locker) (t : ℕ) (name : LockName) : Locker :=
  { l with
    locks := update l.locks name (some l.next)
    refcount := update l.refcount l.next 0
    owner := update l.owner l.next none
    next := l.next + 1
    pc := update l.pc t (.looked name l.next) }

/-- What a step can do: where its task is before it, and the state it leaves. -/
inductive Steps (l : Locker) : LockerEvent → Locker → Prop where
  | lookupSome {t name slot} (hp : l.pc t = .idle) (hm : l.mapOwner = none)
      (hl : l.locks name = some slot) :
      Steps l (.lookup t name) { l with pc := update l.pc t (.looked name slot) }
  | lookupNone {t name} (hp : l.pc t = .idle) (hm : l.mapOwner = none) (hl : l.locks name = none) :
      Steps l (.lookup t name) (l.grown t name)
  | count {t name slot} (hp : l.pc t = .looked name slot) : Steps l (.count t) { l with
        refcount := update l.refcount slot (l.refcount slot + 1)
        pc := update l.pc t (.waiting name slot) }
  | lock {t name slot} (hp : l.pc t = .waiting name slot) (ho : l.owner slot = none) :
      Steps l (.lock t) { l with
        owner := update l.owner slot (some t)
        pc := update l.pc t (.holding name slot) }
  | timeout {t name slot} (hp : l.pc t = .waiting name slot) :
      Steps l (.timeout t) { l with pc := update l.pc t (.timedOut name slot) }
  | cancel {t name slot} (hp : l.pc t = .waiting name slot) :
      Steps l (.cancel t) { l with pc := update l.pc t .idle }
  | drop {t name slot} (hp : l.pc t = .holding name slot) :
      Steps l (.sub t) (l.fetchSub t true name slot)
  | bail {t name slot} (hp : l.pc t = .timedOut name slot) :
      Steps l (.sub t) (l.fetchSub t false name slot)
  | reapLock {t held name slot} (hp : l.pc t = .reapLock held name slot) (hm : l.mapOwner = none) :
      Steps l (.reapLock t) { l with
        mapOwner := some t
        pc := update l.pc t (.reapLoad held name slot) }
  | reapZero {t held name slot} (hp : l.pc t = .reapLoad held name slot)
      (hz : l.refcount slot = 0) :
      Steps l (.reapLoad t) { l with pc := update l.pc t (.reapRemove held name slot) }
  | reapBusy {t held name slot} (hp : l.pc t = .reapLoad held name slot)
      (hz : l.refcount slot ≠ 0) :
      Steps l (.reapLoad t) { l with
        mapOwner := none
        pc := update l.pc t (reaped held name slot) }
  | reapRemove {t held name slot} (hp : l.pc t = .reapRemove held name slot) :
      Steps l (.reapRemove t) { l with
        locks := if l.locks name = some slot then update l.locks name none else l.locks
        mapOwner := none
        pc := update l.pc t (reaped held name slot) }
  | release {t name slot} (hp : l.pc t = .releasing name slot) : Steps l (.release t) { l with
        owner := update l.owner slot none
        pc := update l.pc t .idle }

variable {l l' : Locker}

theorem steps_of_step {e : LockerEvent} (h : l.step e = some l') : Steps l e l' := by
  rcases e with ⟨t, name⟩ | t | t | t | t | t | t | t | t | t <;> unfold step at h <;>
    simp only [] at h
  · split_ifs at h with hidle
    split at h
    · rename_i slot hl
      cases h
      exact .lookupSome hidle.1 hidle.2 hl
    · rename_i hl
      cases h
      exact .lookupNone hidle.1 hidle.2 hl
  · split at h <;> cases h
    rename_i hp
    exact .count hp
  · split at h
    · rename_i hp
      split_ifs at h with ho
      cases h
      exact .lock hp ho
    · cases h
  · split at h <;> cases h
    rename_i hp
    exact .timeout hp
  · split at h <;> cases h
    rename_i hp
    exact .cancel hp
  · split at h <;> cases h
    · rename_i hp
      exact .drop hp
    · rename_i hp
      exact .bail hp
  · split at h
    · rename_i hp
      split_ifs at h with hm
      cases h
      exact .reapLock hp hm
    · cases h
  · split at h
    · rename_i hp
      split_ifs at h with hz
      · cases h
        exact .reapZero hp hz
      · cases h
        exact .reapBusy hp hz
    · cases h
  · split at h <;> cases h
    rename_i hp
    exact .reapRemove hp
  · split at h <;> cases h
    rename_i hp
    exact .release hp

theorem pc_of_update {t : ℕ} (hpc : l'.pc = update l.pc t p)
    (t' : ℕ) : t' = t ∧ l'.pc t' = p ∨ t' ≠ t ∧ l'.pc t' = l.pc t' := by
  by_cases ht : t' = t
  · exact .inl ⟨ht, by rw [hpc, ht, update_self]⟩
  · exact .inr ⟨ht, by rw [hpc, update_of_ne ht]⟩

def Counted (l : Locker) (slot : ℕ) (F : Finset ℕ) : Prop :=
  ∀ t ∈ F, (l.pc t).counted = some slot

theorem card_le_of_move {t slot k : ℕ} (hpc : l'.pc = update l.pc t p)
    (hc : l.refcount slot + (if p.counted = some slot then 1 else 0) ≤
      l'.refcount slot + if (l.pc t).counted = some slot then 1 else 0)
    (h : ∀ F, l.Counted slot F → F.card + k ≤ l.refcount slot) :
    ∀ F, l'.Counted slot F → F.card + k ≤ l'.refcount slot := by
  intro F hF
  have hself : l'.pc t = p := by rw [hpc, update_self]
  have herase : l.Counted slot (F.erase t) := by
    intro t' ht'
    obtain ⟨hne, ht'⟩ := mem_erase.1 ht'
    have := hF t' ht'
    rwa [hpc, update_of_ne hne] at this
  by_cases hold : (l.pc t).counted = some slot
  · have hins := h (insert t (F.erase t)) fun t' ht' => by
      rcases mem_insert.1 ht' with rfl | ht'
      · exact hold
      · exact herase t' ht'
    rw [if_pos hold] at hc
    by_cases htF : t ∈ F
    · rw [insert_erase htF] at hins
      rw [if_pos (by rw [← hself]; exact hF t htF)] at hc
      omega
    · rw [erase_eq_of_notMem htF, card_insert_of_notMem htF] at hins
      omega
  · have her := h (F.erase t) herase
    rw [if_neg hold] at hc
    by_cases htF : t ∈ F
    · rw [card_erase_of_mem htF] at her
      rw [if_pos (by rw [← hself]; exact hF t htF)] at hc
      omega
    · rw [erase_eq_of_notMem htF] at her
      omega

structure Inv (l : Locker) : Prop where
  allocated : ∀ name slot, l.locks name = some slot → slot < l.next
  unused : ∀ slot, l.next ≤ slot → l.refcount slot = 0
  owned_lt : ∀ t slot, (l.pc t).owned = some slot → slot < l.next
  reap_lt : ∀ t slot, (l.pc t).reaps = some slot → slot < l.next
  active : ∀ t name slot, (l.pc t).active = some (name, slot) → l.locks name = some slot
  counted : ∀ slot (F : Finset ℕ), (∀ t ∈ F, (l.pc t).counted = some slot) →
    F.card ≤ l.refcount slot
  map : ∀ t, (l.pc t).hasMap = true → l.mapOwner = some t
  removing : ∀ t slot, (l.pc t).removing = some slot →
    ∀ t' name, (l.pc t').active ≠ some (name, slot)
  owned : ∀ t slot, (l.pc t).owned = some slot → l.owner slot = some t

theorem Inv.new : Locker.new.Inv := by
  constructor
  case counted => simpa [Locker.new] using fun F h => eq_empty_of_forall_notMem h
  all_goals simp [Locker.new]

/-- What a step of one task has to show: `p` is where it leaves the task. -/
structure Moves (l l' : Locker) (t : ℕ) (p : LockPc) : Prop where
  pc : l'.pc = update l.pc t p
  next : l.next ≤ l'.next
  allocated : ∀ name slot, l'.locks name = some slot → slot < l'.next
  unused : ∀ slot, l'.next ≤ slot → l'.refcount slot = 0
  active : ∀ name slot, p.active = some (name, slot) → l'.locks name = some slot
  active_ne : ∀ t' name slot, t' ≠ t → (l.pc t').active = some (name, slot) →
    l'.locks name = some slot
  counted : ∀ slot, l.refcount slot + (if p.counted = some slot then 1 else 0) ≤
    l'.refcount slot + if (l.pc t).counted = some slot then 1 else 0
  map : p.hasMap = true → l'.mapOwner = some t
  map_ne : ∀ t', t' ≠ t → l.mapOwner = some t' → l'.mapOwner = some t'
  reaps : ∀ slot, p.reaps = some slot → slot < l'.next
  removing : ∀ slot, p.removing = some slot →
    ∀ t' name, t' ≠ t → (l.pc t').active ≠ some (name, slot)
  removing_ne : ∀ name slot, p.active = some (name, slot) → p.removing = none ∧
    ∀ t', t' ≠ t → (l.pc t').removing ≠ some slot
  owned : ∀ slot, p.owned = some slot → slot < l'.next ∧ l'.owner slot = some t
  owned_ne : ∀ t' slot, t' ≠ t → (l.pc t').owned = some slot → l'.owner slot = some t'

theorem Inv.moves {t : ℕ} (i : l.Inv) (m : Moves l l' t p) : l'.Inv := by
  refine ⟨m.allocated, m.unused, fun t' s h => ?_, fun t' s h => ?_, fun t' n s h => ?_,
    fun slot => card_le_of_move (k := 0) m.pc (m.counted slot) (i.counted slot), fun t' h => ?_,
    fun t' s h t'' n h' => ?_, fun t' s h => ?_⟩ <;>
    rcases pc_of_update m.pc t' with ⟨rfl, hpc⟩ | ⟨ht, hpc⟩ <;> rw [hpc] at h
  · exact (m.owned s h).1
  · exact (i.owned_lt t' s h).trans_le m.next
  · exact m.reaps s h
  · exact (i.reap_lt t' s h).trans_le m.next
  · exact m.active n s h
  · exact m.active_ne t' n s ht h
  · exact m.map h
  · exact m.map_ne t' ht (i.map t' h)
  · rcases pc_of_update m.pc t'' with ⟨rfl, hpc'⟩ | ⟨ht', hpc'⟩ <;> rw [hpc'] at h'
    · rw [(m.removing_ne n s h').1] at h
      cases h
    · exact m.removing s h t'' n ht' h'
  · rcases pc_of_update m.pc t'' with ⟨rfl, hpc'⟩ | ⟨ht', hpc'⟩ <;> rw [hpc'] at h'
    · exact (m.removing_ne n s h').2 t' ht h
    · exact i.removing t' s h t'' n h'
  · exact (m.owned s h).2
  · exact m.owned_ne t' s ht h

/-- A load of a zero count is not made while a task has looked the slot up and not counted
itself. -/
def Settled (l : Locker) : LockerEvent → Prop
  | .reapLoad t => ∀ held name slot, l.pc t = .reapLoad held name slot → l.refcount slot = 0 →
      ∀ t' name', l.pc t' ≠ .looked name' slot
  | _ => True

section Step

variable {l l' : Locker} {t : ℕ} {name : LockName} {slot : ℕ} {held : Bool}

theorem Inv.no_removing (i : l.Inv) (hm : l.mapOwner = none) (t' : ℕ) (slot : ℕ) :
    (l.pc t').removing ≠ some slot := by
  intro h
  have := i.map t' (hasMap_of_removing h)
  rw [hm] at this
  cases this

theorem Inv.keeps_owned (i : l.Inv) (h : p.owned = (l.pc t).owned) (s : ℕ)
    (hs : p.owned = some s) : s < l.next ∧ l.owner s = some t :=
  ⟨i.owned_lt t s (h ▸ hs), i.owned t s (h ▸ hs)⟩

theorem owned_reapLock : (reapLock held name slot).owned = (reaped held name slot).owned := by
  cases held <;> rfl

theorem owned_reapLoad : (reapLoad held name slot).owned = (reaped held name slot).owned := by
  cases held <;> rfl

theorem owned_reapRemove : (reapRemove held name slot).owned = (reaped held name slot).owned := by
  cases held <;> rfl

variable (i : l.Inv)
include i

/-- Also what the other steps leave alone. -/
theorem moves_cancel (t : ℕ) : Moves l { l with pc := update l.pc t .idle } t .idle where
  __ := i
  pc := rfl
  next := le_rfl
  active := by simp
  active_ne := fun t' n s _ => i.active t' n s
  counted := by simp
  map := by simp
  map_ne := fun _ _ h => h
  reaps := by simp
  removing := by simp
  removing_ne := by simp
  owned := by simp
  owned_ne := fun t' s _ => i.owned t' s

theorem moves_lookup_some (hm : l.mapOwner = none) (hl : l.locks name = some slot) :
    Moves l { l with pc := update l.pc t (.looked name slot) } t (.looked name slot) where
  __ := moves_cancel i t
  pc := rfl
  active := by simpa using hl
  counted := by simp
  map := by simp
  reaps := by simp
  removing := by simp
  removing_ne := fun _ s _ => ⟨rfl, fun t' _ => i.no_removing hm t' s⟩
  owned := by simp

theorem moves_lookup_none (hm : l.mapOwner = none) (hl : l.locks name = none) :
    Moves l (l.grown t name) t (.looked name l.next) where
  pc := rfl
  next := Nat.le_succ _
  allocated := by
    intro n s h
    simp only [] at h ⊢
    by_cases hn : n = name
    · subst hn
      rw [update_self, some.injEq] at h
      exact h ▸ Nat.lt_succ_self _
    · rw [update_of_ne hn] at h
      exact (i.allocated n s h).trans (Nat.lt_succ_self _)
  unused := by
    intro s h
    simp only [] at h ⊢
    rw [update_of_ne (by omega)]
    exact i.unused s (by omega)
  active := by
    intro n s h
    simp only [active, some.injEq, Prod.mk.injEq] at h
    obtain ⟨rfl, rfl⟩ := h
    exact update_self _ _ _
  active_ne := by
    intro t' n s _ h
    have hn := i.active t' n s h
    simp only []
    rw [update_of_ne]
    · exact hn
    · rintro rfl
      rw [hl] at hn
      cases hn
  counted := by
    intro s
    by_cases hs : s = l.next
    · subst hs
      simp [i.unused l.next le_rfl]
    · simp [update_of_ne hs]
  map := by simp
  map_ne := fun _ _ h => h
  reaps := by simp
  removing := by simp
  removing_ne := fun _ s _ => ⟨rfl, fun t' _ => i.no_removing hm t' s⟩
  owned := by simp
  owned_ne := by
    intro t' s _ h
    have := i.owned_lt t' s h
    simp only []
    rw [update_of_ne (by omega)]
    exact i.owned t' s h

theorem moves_count (hp : l.pc t = .looked name slot) : Moves l { l with
      refcount := update l.refcount slot (l.refcount slot + 1)
      pc := update l.pc t (.waiting name slot) } t (.waiting name slot) where
  __ := moves_cancel i t
  pc := rfl
  unused := by
    intro s h
    have hlt := i.allocated name slot (i.active t name slot (by rw [hp]; rfl))
    simp only [] at h ⊢
    rw [update_of_ne (by omega)]
    exact i.unused s h
  active := fun n s h => i.active t n s (by rw [hp]; exact h)
  counted := by
    intro s
    by_cases hs : s = slot
    · simp [hs]
    · simp [hs, Ne.symm hs]
  map := by simp
  reaps := by simp
  removing := by simp
  removing_ne := fun n s h => ⟨rfl, fun t' _ h' => i.removing t' s h' t n (by rw [hp]; exact h)⟩
  owned := by simp

theorem moves_timeout (hp : l.pc t = .waiting name slot) :
    Moves l { l with pc := update l.pc t (.timedOut name slot) } t (.timedOut name slot) where
  __ := moves_cancel i t
  pc := rfl
  active := fun n s h => i.active t n s (by rw [hp]; exact h)
  counted := by simp [hp]
  map := by simp
  reaps := by simp
  removing := by simp
  removing_ne := fun n s h => ⟨rfl, fun t' _ h' => i.removing t' s h' t n (by rw [hp]; exact h)⟩
  owned := by simp

theorem moves_lock (hp : l.pc t = .waiting name slot) (ho : l.owner slot = none) : Moves l { l with
      owner := update l.owner slot (some t)
      pc := update l.pc t (.holding name slot) } t (.holding name slot) where
  -- the task keeps its slot and its count, as in a timeout
  __ := moves_timeout i hp
  pc := rfl
  owned := by
    intro s h
    simp only [owned, some.injEq] at h
    subst h
    exact ⟨i.allocated name slot (i.active t name slot (by rw [hp]; rfl)), update_self _ _ _⟩
  owned_ne := by
    intro t' s _ h
    have hs := i.owned t' s h
    simp only []
    rw [update_of_ne]
    · exact hs
    · rintro rfl
      rw [ho] at hs
      cases hs

theorem moves_fetchSub (hc : (l.pc t).counted = some slot) (hlt : slot < l.next)
    (ho : held = true → l.owner slot = some t) : Moves l (l.fetchSub t held name slot) t
      (if l.refcount slot = 1 then .reapLock held name slot else reaped held name slot) where
  __ := moves_cancel i t
  pc := rfl
  unused := by
    intro s h
    simp only [fetchSub] at h ⊢
    rw [update_of_ne (by omega)]
    exact i.unused s h
  active := by split_ifs <;> cases held <;> simp [reaped]
  counted := by
    intro s
    have hnone : (if l.refcount slot = 1 then reapLock held name slot
        else reaped held name slot).counted = none := by split_ifs <;> cases held <;> simp [reaped]
    rw [hnone, hc]
    by_cases hs : s = slot
    · subst hs
      simp only [fetchSub, update_self]
      simp
      omega
    · simp [fetchSub, update_of_ne hs]
  map := by split_ifs <;> cases held <;> simp [reaped]
  reaps := by
    intro s h
    split_ifs at h
    · simp only [reaps, some.injEq] at h
      exact h ▸ hlt
    · cases held <;> simp [reaped] at h
  removing := by split_ifs <;> cases held <;> simp [reaped]
  removing_ne := by split_ifs <;> cases held <;> simp [reaped]
  owned := by
    intro s h
    cases held
    · split_ifs at h <;> simp [reaped] at h
    · have hs : slot = s := by split_ifs at h <;> simpa [reaped] using h
      exact ⟨hs ▸ hlt, hs ▸ ho rfl⟩

theorem moves_reapLock (hp : l.pc t = .reapLock held name slot) (hm : l.mapOwner = none) :
    Moves l { l with
      mapOwner := some t
      pc := update l.pc t (.reapLoad held name slot) } t (.reapLoad held name slot) where
  __ := moves_cancel i t
  pc := rfl
  active := by simp
  counted := by simp
  map := fun _ => rfl
  map_ne := by simp [hm]
  reaps := fun s h => i.reap_lt t s (by rw [hp]; exact h)
  removing := by simp
  removing_ne := by simp
  owned := i.keeps_owned (by rw [hp, owned_reapLock, owned_reapLoad])

theorem moves_reapLoad_zero (hp : l.pc t = .reapLoad held name slot)
    (hz : l.refcount slot = 0) (hset : ∀ t' name', l.pc t' ≠ .looked name' slot) :
    Moves l { l with pc := update l.pc t (.reapRemove held name slot) } t
      (.reapRemove held name slot) where
  __ := moves_cancel i t
  pc := rfl
  active := by simp
  counted := by simp
  map := fun _ => i.map t (by rw [hp]; rfl)
  reaps := fun s h => i.reap_lt t s (by rw [hp]; exact h)
  removing := by
    intro s h t' n _ ha
    simp only [removing, some.injEq] at h
    subst h
    have hcount := i.counted slot {t'}
    have hnot : (l.pc t').counted ≠ some slot := by
      intro hc
      have := hcount (by simpa using hc)
      rw [hz, card_singleton] at this
      omega
    have hlook := hset t' n
    rcases hpc : l.pc t' <;> rw [hpc] at ha hnot hlook <;> simp_all
  removing_ne := by simp
  owned := i.keeps_owned (by rw [hp, owned_reapLoad, owned_reapRemove])

theorem moves_reaped (hm : l.mapOwner = some t)
    (hown : (reaped held name slot).owned = (l.pc t).owned)
    {locks : LockName → Option ℕ} (hsub : ∀ n s, locks n = some s → l.locks n = some s)
    (hact : ∀ t' n s, t' ≠ t → (l.pc t').active = some (n, s) → locks n = some s) :
    Moves l { l with
      locks := locks
      mapOwner := none
      pc := update l.pc t (reaped held name slot) } t (reaped held name slot) where
  __ := moves_cancel i t
  pc := rfl
  allocated := fun n s h => i.allocated n s (hsub n s h)
  active := by cases held <;> simp [reaped]
  active_ne := hact
  counted := by cases held <;> simp [reaped]
  map := by cases held <;> simp [reaped]
  map_ne := by
    intro t' ht h
    rw [hm, some.injEq] at h
    exact absurd h.symm ht
  reaps := by cases held <;> simp [reaped]
  removing := by cases held <;> simp [reaped]
  removing_ne := by cases held <;> simp [reaped]
  owned := i.keeps_owned hown

theorem moves_release (hp : l.pc t = .releasing name slot) : Moves l { l with
      owner := update l.owner slot none
      pc := update l.pc t .idle } t .idle where
  __ := moves_cancel i t
  pc := rfl
  active := by simp
  counted := by simp
  map := by simp
  reaps := by simp
  removing := by simp
  removing_ne := by simp
  owned := by simp
  owned_ne := by
    intro t' s ht h
    have hs := i.owned t' s h
    have hslot := i.owned t slot (by rw [hp]; rfl)
    simp only []
    rw [update_of_ne]
    · exact hs
    · rintro rfl
      rw [hs, some.injEq] at hslot
      exact ht hslot

/-- A settled step keeps the slots, counts and owners in line. -/
theorem Inv.step {e : LockerEvent} (hset : l.Settled e) (hs : l.step e = some l') : l'.Inv := by
  cases steps_of_step hs with
  | lookupSome hp hm hl => exact i.moves (moves_lookup_some i hm hl)
  | lookupNone hp hm hl => exact i.moves (moves_lookup_none i hm hl)
  | count hp => exact i.moves (moves_count i hp)
  | lock hp ho => exact i.moves (moves_lock i hp ho)
  | timeout hp => exact i.moves (moves_timeout i hp)
  | cancel hp => exact i.moves (moves_cancel i _)
  | @drop t name slot hp =>
    have hown : (l.pc t).owned = some slot := by rw [hp]; rfl
    exact i.moves (moves_fetchSub i (by rw [hp]; rfl) (i.owned_lt t slot hown)
      fun _ => i.owned t slot hown)
  | @bail t name slot hp =>
    exact i.moves (moves_fetchSub i (by rw [hp]; rfl)
      (i.allocated name slot (i.active t name slot (by rw [hp]; rfl))) (by simp))
  | reapLock hp hm => exact i.moves (moves_reapLock i hp hm)
  | reapZero hp hz => exact i.moves (moves_reapLoad_zero i hp hz (hset _ _ _ hp hz))
  | @reapBusy t held name slot hp hz =>
    exact i.moves (moves_reaped i (i.map t (by rw [hp]; rfl)) (by rw [hp, owned_reapLoad])
      (fun _ _ h => h) fun t' n s _ => i.active t' n s)
  | @reapRemove t held name slot hp =>
    refine i.moves (moves_reaped i (i.map t (by rw [hp]; rfl))
      (by rw [hp, owned_reapRemove]) (fun n s h => ?_) fun t' n s _ h => ?_)
    · split_ifs at h
      · by_cases hn : n = name
        · rw [hn, update_self] at h
          cases h
        · rwa [update_of_ne hn] at h
      · exact h
    have hl := i.active t' n s h
    split_ifs with hr
    · rw [update_of_ne]
      · exact hl
      · rintro rfl
        rw [hr, some.injEq] at hl
        exact i.removing t slot (by rw [hp]; rfl) t' n (hl ▸ h)
    · exact hl
  | release hp => exact i.moves (moves_release i hp)

end Step

theorem Inv.holding_unique {l : Locker} (i : l.Inv) {t t' : ℕ} {name : LockName} {slot slot' : ℕ}
    (hp : l.pc t = .holding name slot) (hp' : l.pc t' = .holding name slot') : t = t' := by
  have hl := i.active t name slot (by rw [hp]; rfl)
  rw [i.active t' name slot' (by rw [hp']; rfl), some.injEq] at hl
  subst hl
  have ho := i.owned t slot' (by rw [hp]; rfl)
  rw [i.owned t' slot' (by rw [hp']; rfl), some.injEq] at ho
  exact ho.symm

/-- In every run whose steps are all settled, a name has at most one unreleased guard. -/
theorem guards_unique (es : List LockerEvent) (l : Locker)
    (hg : Guarded step Settled new es) (hx : exec step new es = some l)
    (t t' : ℕ) (name : LockName) (h : l.Guards t name) (h' : l.Guards t' name) : t = t' := by
  have i : l.Inv := hg.invariant (fun _ _ _ i hset hs => i.step hset hs) Inv.new hx
  obtain ⟨slot, hp⟩ := h
  obtain ⟨slot', hp'⟩ := h'
  exact i.holding_unique hp hp'

def reacquiring : List LockerEvent :=
  [.lookup 0 ("d", [1]), .count 0, .lock 0, .sub 0, .reapLock 0, .reapLoad 0, .reapRemove 0,
    .release 0, .lookup 1 ("d", [1]), .count 1, .lock 1]

theorem guards_unique_reacquired : ∃ l, exec step new reacquiring = some l ∧
    l.Guards 1 ("d", [1]) ∧ ∀ t, l.Guards t ("d", [1]) → t = 1 := by
  have hg : Guarded step Settled new reacquiring := by
    refine .cons trivial rfl (.cons trivial rfl (.cons trivial rfl (.cons trivial rfl
      (.cons trivial rfl (.cons ?_ rfl (.cons trivial rfl (.cons trivial rfl (.cons trivial rfl
      (.cons trivial rfl (.cons trivial rfl trivial))))))))))
    intro held name slot _ _ t' name'
    by_cases ht' : t' = 0
    · simp [ht']
    · simp [ht', new, fetchSub]
  exact ⟨_, rfl, ⟨1, rfl⟩, fun t ht => guards_unique _ _ hg rfl t 1 _ ht ⟨1, rfl⟩⟩

/-- A task that looks a slot up just before the slot is reaped locks it after another task has
locked the name's new slot. -/
theorem two_guards : ∃ l t t' name,
    exec step new [.lookup 0 ("d", [1]), .count 0, .lock 0, .lookup 1 ("d", [1]),
      .sub 0, .reapLock 0, .reapLoad 0, .reapRemove 0, .release 0, .count 1, .lock 1,
      .lookup 2 ("d", [1]), .count 2, .lock 2] = some l ∧
    l.Guards t name ∧ l.Guards t' name ∧ t ≠ t' :=
  ⟨_, 1, 2, ("d", [1]), rfl, ⟨0, rfl⟩, ⟨1, rfl⟩, by decide⟩

end Locker

end Kamino
