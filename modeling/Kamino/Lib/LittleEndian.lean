import Mathlib.Tactic.Ring

/-!
# Little-endian numbers

A number below `256 ^ w` as `w` bytes, least significant first, and back.
-/

namespace LittleEndian

/-- The `w` low bytes of `n`, least significant first. -/
def toLe : ℕ → ℕ → List UInt8
  | 0, _ => []
  | w + 1, n => UInt8.ofNat (n % 256) :: toLe w (n / 256)

/-- The number the bytes stand for. -/
def ofLe : List UInt8 → ℕ
  | [] => 0
  | b :: bs => b.toNat + 256 * ofLe bs

@[simp] theorem length_toLe : ∀ w n : ℕ, (toLe w n).length = w
  | 0, _ => rfl
  | w + 1, n => by simp [toLe, length_toLe w]

/-- Reading undoes writing up to the width. -/
theorem ofLe_toLe : ∀ w n : ℕ, ofLe (toLe w n) = n % 256 ^ w
  | 0, n => by simp [toLe, ofLe, Nat.mod_one]
  | w + 1, n => by
    have hb : (UInt8.ofNat (n % 256)).toNat = n % 256 := by
      simp [UInt8.toNat_ofNat']
    rw [toLe, ofLe, ofLe_toLe w, hb, pow_succ, Nat.mul_comm (256 ^ w) 256, Nat.mod_mul]

theorem ofLe_toLe_of_lt {w n : ℕ} (h : n < 256 ^ w) : ofLe (toLe w n) = n := by
  rw [ofLe_toLe, Nat.mod_eq_of_lt h]

/-- Writing undoes reading. -/
theorem toLe_ofLe : ∀ bs : List UInt8, toLe bs.length (ofLe bs) = bs
  | [] => rfl
  | b :: bs => by
    have hb := b.toNat_lt
    have hmod : (b.toNat + 256 * ofLe bs) % 256 = b.toNat := by omega
    have hdiv : (b.toNat + 256 * ofLe bs) / 256 = ofLe bs := by omega
    simp [toLe, ofLe, hmod, hdiv, toLe_ofLe bs]

theorem ofLe_lt : ∀ bs : List UInt8, ofLe bs < 256 ^ bs.length
  | [] => by simp [ofLe]
  | b :: bs => by
    have hb := b.toNat_lt
    have := ofLe_lt bs
    rw [ofLe, List.length_cons, pow_succ]
    omega

end LittleEndian
