import Mathlib.Data.Nat.Notation
import Mathlib.Algebra.Order.Ring.Nat
import Mathlib.Tactic.Ring

/-!
# The glob matcher of pub/sub

`pattern_matches`: two cursors, one into the pattern and one into the candidate, and the place to
go back to when a byte does not match: the last `*` seen, and how far into the candidate that star
reaches so far. Both strings are read as their bytes.
-/

namespace Kamino

/-- Where the matcher's loop is. The text the last star has taken ends before `ci`. -/
structure GlobCursor where
  pi : ℕ
  ci : ℕ
  star : Option ℕ
  matchAfterStar : ℕ
  after_le : matchAfterStar ≤ ci

namespace GlobCursor

def start : GlobCursor := ⟨0, 0, none, 0, le_rfl⟩

def advance (g : GlobCursor) (n : ℕ) : GlobCursor :=
  { g with pi := g.pi + n, ci := g.ci + 1, after_le := g.after_le.trans (Nat.le_succ _) }

def onStar (g : GlobCursor) : GlobCursor :=
  { g with pi := g.pi + 1, star := some g.pi, matchAfterStar := g.ci, after_le := le_rfl }

/-- `mismatch_backtrack`: the last star takes one more byte, if there is a star. -/
def mismatchBacktrack (g : GlobCursor) : Option GlobCursor :=
  g.star.map fun s =>
    { g with
      pi := s + 1
      ci := g.matchAfterStar + 1
      matchAfterStar := g.matchAfterStar + 1
      after_le := le_rfl }

/-- The loop goes on, or `pattern_matches` returns. -/
abbrev Next := Except Bool GlobCursor

def orFail (g : Option GlobCursor) : Next := g.elim (.error false) .ok

/-- Whether a bracket's set, `^` first to negate it, has the byte. -/
def inSet (set : List UInt8) (c : UInt8) : Bool :=
  if set.head? = some 0x5E then !set.tail.contains c else set.contains c

/-- One turn of the loop, with `c` the candidate's byte at `ci`. -/
def turn (pat : List UInt8) (c : UInt8) (g : GlobCursor) : Next :=
  match pat[g.pi]? with
  | none => orFail g.mismatchBacktrack
  | some b =>
    if b = 0x2A then .ok g.onStar
    else if b = 0x3F then .ok (g.advance 1)
    else if b = 0x5B then
      match (pat.drop (g.pi + 1)).findIdx? (· == 0x5D) with
      | none =>
        if b = c then .ok (g.advance 1)
        -- an unclosed bracket that does not match ends the loop, also where it could go back
        else .error g.mismatchBacktrack.isSome
      | some close =>
        if inSet ((pat.drop (g.pi + 1)).take close) c then .ok (g.advance (1 + close + 1))
        else orFail g.mismatchBacktrack
    else if b = c then .ok (g.advance 1)
    else orFail g.mismatchBacktrack

/-- What each turn of the loop makes smaller. -/
def measure (pat cand : List UInt8) (g : GlobCursor) : ℕ :=
  (cand.length - g.matchAfterStar) * (pat.length + 1) + (pat.length - g.pi)

theorem measure_backtrack {pat cand : List UInt8} {g g' : GlobCursor}
    (hc : g.ci < cand.length) (h : g.mismatchBacktrack = some g') :
    g'.measure pat cand < g.measure pat cand := by
  obtain ⟨s, -, rfl⟩ := Option.map_eq_some_iff.1 h
  have := g.after_le
  obtain ⟨n, hn⟩ : ∃ n, cand.length - g.matchAfterStar = n + 1 :=
    Nat.exists_eq_succ_of_ne_zero (by omega)
  have hn' : cand.length - (g.matchAfterStar + 1) = n := by omega
  simp only [measure, hn, hn', Nat.add_mul]
  omega

theorem measure_onStar {pat cand : List UInt8} {g : GlobCursor} (hp : g.pi < pat.length) :
    g.onStar.measure pat cand < g.measure pat cand := by
  have h : (cand.length - g.ci) * (pat.length + 1) ≤
      (cand.length - g.matchAfterStar) * (pat.length + 1) :=
    Nat.mul_le_mul_right _ (Nat.sub_le_sub_left g.after_le _)
  simp only [measure, onStar]
  omega

theorem measure_advance {pat cand : List UInt8} {g : GlobCursor} {n : ℕ}
    (hp : g.pi < pat.length) (hn : 0 < n) :
    (g.advance n).measure pat cand < g.measure pat cand := by
  simp only [measure, advance]
  omega

theorem measure_turn {pat cand : List UInt8} {c : UInt8} {g g' : GlobCursor}
    (hc : g.ci < cand.length) (h : turn pat c g = .ok g') :
    g'.measure pat cand < g.measure pat cand := by
  have hback : orFail g.mismatchBacktrack = .ok g' → g'.measure pat cand < g.measure pat cand := by
    intro h
    rcases hb : g.mismatchBacktrack with _ | g₁ <;> rw [hb] at h
    · cases h
    · cases h
      exact measure_backtrack hc hb
  unfold turn at h
  split at h
  · exact hback h
  rename_i b hb
  have hp : g.pi < pat.length := (List.getElem?_eq_some_iff.1 hb).1
  split at h
  · cases h
    exact measure_onStar hp
  split at h
  · cases h
    exact measure_advance hp Nat.one_pos
  split at h
  · split at h
    · split at h <;> cases h
      exact measure_advance hp Nat.one_pos
    split at h
    · cases h
      exact measure_advance hp (by omega)
    · exact hback h
  split at h
  · cases h
    exact measure_advance hp Nat.one_pos
  · exact hback h

/-- The loop, and the trailing stars skipped when the candidate is used up. -/
def loop (pat cand : List UInt8) (g : GlobCursor) : Bool :=
  if hc : g.ci < cand.length then
    match h : turn pat cand[g.ci] g with
    | .error b => b
    | .ok g' => loop pat cand g'
  else (pat.drop g.pi).all (· == 0x2A)
termination_by g.measure pat cand
decreasing_by exact measure_turn hc h

end GlobCursor

def patternMatches (pattern candidate : List UInt8) : Bool :=
  GlobCursor.start.loop pattern candidate

end Kamino
