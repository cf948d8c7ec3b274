import Mathlib.Data.Nat.Notation
import Mathlib.Logic.Function.Basic

/-!
# The per-key locker

A registry from `(dmap, key)` to slots, each an inner mutex and a count of the tasks that refer to
it. A `LockerEvent` is one atomic step of one task.
-/

namespace Kamino

abbrev LockName := String × List UInt8

inductive LockPc where
  | idle
  | looked (name : LockName) (slot : ℕ)
  | waiting (name : LockName) (slot : ℕ)
  | holding (name : LockName) (slot : ℕ)
  | timedOut (name : LockName) (slot : ℕ)
  /-- `reap` has seen the count go to zero; `held` where a guard is being dropped. -/
  | reapLock (held : Bool) (name : LockName) (slot : ℕ)
  | reapLoad (held : Bool) (name : LockName) (slot : ℕ)
  | reapRemove (held : Bool) (name : LockName) (slot : ℕ)
  | releasing (name : LockName) (slot : ℕ)
  deriving DecidableEq

inductive LockerEvent where
  | lookup (t : ℕ) (name : LockName)
  | count (t : ℕ)
  | lock (t : ℕ)
  | timeout (t : ℕ)
  | cancel (t : ℕ)
  /-- The `fetch_sub` that begins `reap`: a guard's drop, or a timed-out acquire. -/
  | sub (t : ℕ)
  | reapLock (t : ℕ)
  | reapLoad (t : ℕ)
  | reapRemove (t : ℕ)
  | release (t : ℕ)
  deriving DecidableEq

structure Locker where
  locks : LockName → Option ℕ
  refcount : ℕ → ℕ
  /-- The task that holds a slot's inner mutex. -/
  owner : ℕ → Option ℕ
  /-- The task that holds the registry's mutex. -/
  mapOwner : Option ℕ
  /-- The next slot to be allocated. -/
  next : ℕ
  pc : ℕ → LockPc

namespace Locker

open Function

def new : Locker where
  locks := fun _ => none
  refcount := fun _ => 0
  owner := fun _ => none
  mapOwner := none
  next := 0
  pc := fun _ => .idle

/-- Where a task is once `reap` returns. -/
def reaped (held : Bool) (name : LockName) (slot : ℕ) : LockPc :=
  if held then .releasing name slot else .idle

/-- `refcount.fetch_sub(1)`, and whether `reap` goes on. -/
def fetchSub (l : Locker) (t : ℕ) (held : Bool) (name : LockName) (slot : ℕ) : Locker :=
  { l with
    refcount := update l.refcount slot (l.refcount slot - 1)
    pc := update l.pc t
      (if l.refcount slot = 1 then .reapLock held name slot else reaped held name slot) }

def step (l : Locker) : LockerEvent → Option Locker
  | .lookup t name =>
    if l.pc t = .idle ∧ l.mapOwner = none then
      match l.locks name with
      | some slot => some { l with pc := update l.pc t (.looked name slot) }
      | none => some { l with
          locks := update l.locks name (some l.next)
          refcount := update l.refcount l.next 0
          owner := update l.owner l.next none
          next := l.next + 1
          pc := update l.pc t (.looked name l.next) }
    else none
  | .count t =>
    match l.pc t with
    | .looked name slot => some { l with
        refcount := update l.refcount slot (l.refcount slot + 1)
        pc := update l.pc t (.waiting name slot) }
    | _ => none
  | .lock t =>
    match l.pc t with
    | .waiting name slot =>
      if l.owner slot = none then
        some { l with
          owner := update l.owner slot (some t)
          pc := update l.pc t (.holding name slot) }
      else none
    | _ => none
  | .timeout t =>
    match l.pc t with
    | .waiting name slot => some { l with pc := update l.pc t (.timedOut name slot) }
    | _ => none
  | .cancel t =>
    match l.pc t with
    | .waiting _ _ => some { l with pc := update l.pc t .idle }
    | _ => none
  | .sub t =>
    match l.pc t with
    | .holding name slot => some (l.fetchSub t true name slot)
    | .timedOut name slot => some (l.fetchSub t false name slot)
    | _ => none
  | .reapLock t =>
    match l.pc t with
    | .reapLock held name slot =>
      if l.mapOwner = none then
        some { l with
          mapOwner := some t
          pc := update l.pc t (.reapLoad held name slot) }
      else none
    | _ => none
  | .reapLoad t =>
    match l.pc t with
    | .reapLoad held name slot =>
      if l.refcount slot = 0 then
        some { l with pc := update l.pc t (.reapRemove held name slot) }
      else
        some { l with
          mapOwner := none
          pc := update l.pc t (reaped held name slot) }
    | _ => none
  | .reapRemove t =>
    match l.pc t with
    | .reapRemove held name slot => some { l with
        locks := if l.locks name = some slot then update l.locks name none else l.locks
        mapOwner := none
        pc := update l.pc t (reaped held name slot) }
    | _ => none
  | .release t =>
    match l.pc t with
    | .releasing _ slot => some { l with
        owner := update l.owner slot none
        pc := update l.pc t .idle }
    | _ => none

/-- The task has a guard for the name, and has not begun to drop it. -/
def Guards (l : Locker) (t : ℕ) (name : LockName) : Prop :=
  ∃ slot, l.pc t = .holding name slot

end Locker

end Kamino
