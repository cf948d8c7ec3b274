import Kamino.Proofs.Numbers
import Kamino.Proofs.Writes

/-!
# Counters

`incr` adds and `decr` subtracts, within the range of an `i64`, except that `decr` negates what it
subtracts: the least `i64` stays as it is.
-/

namespace Kamino

open DMap Int64

/-- A counter's call returns what `op` makes of the number stored, within the range of an `i64`, and
stores a text that is read back as it; or fails and leaves the entry as it is. -/
def Counts (env : Env) (d : DMap) (key : Bytes) (now : UInt64) (op : ℤ → ℤ)
    (r : Except ClientError Int64 × DMap) : Prop :=
  match currentNumber (d.fetchLive (env.hash64 key) now).1 with
  | .ok v => r.1 = .ok (.ofIntClamp (op v.toInt)) ∧
      ∃ e, r.2.fragment.lookup (env.hash64 key) = some e ∧
        currentNumber (some e) = .ok (.ofIntClamp (op v.toInt))
  | .error _ => (∃ e, r.1 = .error e) ∧
      r.2.fragment.lookup (env.hash64 key) = d.fragment.lookup (env.hash64 key)

variable {env : Env} {d : DMap} {key : Bytes} {clk : ℕ → UInt64} {delta : Int64}
  (hl : d.options.evictionPolicy ≠ some .lru) (hkey : key.length ≤ maxKeyLen)

theorem fetchLive_snd {hkey now : UInt64} {e : Entry} (h : (d.fetchLive hkey now).1 = some e) :
    (d.fetchLive hkey now).2 = d := by
  unfold fetchLive at h ⊢
  split at h
  · cases h
  · split_ifs at h ⊢
    rfl

include hl hkey in
theorem incr_counts :
    Counts env d key (clk 4) (· + delta.toInt) (d.incr env true key delta clk) := by
  unfold Counts
  rcases hn : currentNumber (d.fetchLive (env.hash64 key) (clk 4)).1 with e | v
  · obtain ⟨entry, hlive⟩ : ∃ entry, (d.fetchLive (env.hash64 key) (clk 4)).1 = some entry := by
      rcases hf : (d.fetchLive (env.hash64 key) (clk 4)).1 with _ | entry
      · rw [hf] at hn
        cases hn
      · exact ⟨entry, rfl⟩
    simp only [incr, readModifyWrite, incremented, Bool.not_true, Bool.false_eq_true, if_false, hn]
    rw [fetchLive_snd hlive]
    exact ⟨⟨e, rfl⟩, rfl⟩
  have hfits : Fits key (i64Text (satAdd v delta)) :=
    ⟨hkey, (length_i64Text _).trans (by decide)⟩
  rcases hput : (d.fetchLive (env.hash64 key) (clk 4)).2.put env key (i64Text (satAdd v delta)) {}
    clk with ⟨e | _, d'⟩
  · exact absurd hfits (put_plain_error hput).2
  simp only [incr, readModifyWrite, incremented, Bool.not_true, Bool.false_eq_true,
    if_false, hn, hput]
  have hslot := put_fetched_ok hl hput
  obtain ⟨entry, hentry, hvalue⟩ := Option.map_eq_some_iff.1 hslot
  have hvalue : entry.value = i64Text (satAdd v delta) := congrArg Prod.fst hvalue
  refine ⟨rfl, entry, hentry, ?_⟩
  simp only [currentNumber, hvalue, utf8Error_i64Text, parseInteger_i64Text, satAdd]

include hl hkey in
/-- `incr` always counts, and `decr` unless it is to subtract the least `i64`. -/
theorem counters_iff : Counts env d key (clk 4) (· + delta.toInt) (d.incr env true key delta clk) ∧
      Counts env d key (clk 4) (· - delta.toInt) (d.decr env true key delta clk) ↔
    delta ≠ minValue ∨ ∃ e, currentNumber (d.fetchLive (env.hash64 key) (clk 4)).1 = .error e := by
  rw [and_iff_right (incr_counts hl hkey), decr]
  have hadd := @incr_counts env d key clk (-delta) hl hkey
  unfold Counts at hadd ⊢
  rcases hn : currentNumber (d.fetchLive (env.hash64 key) (clk 4)).1 with e | v
  · rw [hn] at hadd
    exact iff_of_true hadd (.inr ⟨e, rfl⟩)
  rw [hn] at hadd
  by_cases hmin : delta = minValue
  · subst hmin
    refine iff_of_false (fun h => ?_) (by simp)
    have hsame := congrArg toInt (Except.ok.inj (hadd.1.symm.trans h.1))
    have hmin : (-minValue).toInt = -2 ^ 63 := rfl
    have hneg : minValue.toInt = -2 ^ 63 := rfl
    simp only [toInt_clamp, hmin, hneg] at hsame
    have hlo := v.le_toInt
    have hhi := v.toInt_lt
    omega
  · have hneg : v.toInt - delta.toInt = v.toInt + (-delta).toInt := by
      have hlo := delta.le_toInt
      have hhi := delta.toInt_lt
      have hne : delta.toInt ≠ -2 ^ 63 := fun he => hmin (toInt_inj.1 he)
      rw [toInt_neg, Int.bmod_eq_of_le] <;> omega
    dsimp only
    rw [hneg]
    exact iff_of_true hadd (.inl hmin)

theorem counters_five :
    let d := ((new {}).put sumEnv [107] [53] {} fun _ => 0).2
    Counts sumEnv d [107] 0 (· + 1) (d.incr sumEnv true [107] 1 fun _ => 0) ∧
      Counts sumEnv d [107] 0 (· - 1) (d.decr sumEnv true [107] 1 fun _ => 0) := by
  intro d
  refine (@counters_iff sumEnv d [107] (fun _ => 0) 1 ?_ (by decide)).2 (.inl (by decide))
  decide +kernel

/-- Zero less the least `i64` is the greatest, and `decr` returns the least. -/
theorem decr_least : ¬ Counts sumEnv (new {}) [107] 0 (· - minValue.toInt)
      ((new {}).decr sumEnv true [107] minValue fun _ => 0) := by
  intro h
  have hreply : ((new {}).decr sumEnv true [107] minValue fun _ => 0).1
      = .ok minValue := by decide +kernel
  have hmax : ofIntClamp (0 - minValue.toInt) = maxValue := by decide +kernel
  have hsame : Except.ok minValue = .ok (ofIntClamp (0 - minValue.toInt)) :=
    hreply.symm.trans h.1
  rw [hmax] at hsame
  cases hsame

end Kamino
