import Kamino.Calls

/-!
# A number's text

`parse::<i64>` reads what `to_string` writes. The digits are read from the left, so what has been
read never passes what is read in the end and no step overflows.
-/

namespace Kamino

open List Nat

theorem utf8Error_ascii : ∀ {bytes : Bytes}, (∀ b ∈ bytes, b < 0x80) → ∀ i, utf8Error bytes i = none
  | [], _, i => by rw [utf8Error]
  | b :: bytes, h, i => by
    rw [utf8Error.eq_def]
    simp only []
    rw [if_pos (h b mem_cons_self)]
    exact utf8Error_ascii (fun b' hb' => h b' (mem_cons_of_mem b hb')) (i + 1)

def digitByte (c : Char) : UInt8 := UInt8.ofNat c.toNat

theorem digitByte_toNat {c : Char} (h : c.isDigit = true) :
    (digitByte c).toNat = c.toNat ∧ 48 ≤ c.toNat ∧ c.toNat ≤ 57 := by
  have hc := Char.isDigit_iff_toNat.1 h
  simp only [Char.reduceToNat] at hc
  refine ⟨?_, hc⟩
  rw [digitByte, UInt8.toNat_ofNat']
  omega

theorem le_ofDigitChars : ∀ (ds : List Char) (n : ℕ), n ≤ ofDigitChars 10 ds n
  | [], n => le_rfl
  | d :: ds, n => by
    rw [ofDigitChars_cons]
    exact le_trans (by omega) (le_ofDigitChars ds _)

/-- What `parseDigits` has read, of a number with the magnitude. -/
def signed (negative : Bool) (n : ℕ) : ℤ := if negative then -n else n

theorem parseDigits_digits (negative : Bool) : ∀ (ds : List Char) (n : ℕ),
    (∀ c ∈ ds, c.isDigit = true) →
    -2 ^ 63 ≤ signed negative (ofDigitChars 10 ds n) →
    signed negative (ofDigitChars 10 ds n) < 2 ^ 63 →
    parseDigits negative (signed negative n) (ds.map digitByte) =
      .ok (signed negative (ofDigitChars 10 ds n))
  | [], n, _, _, _ => rfl
  | d :: ds, n, hds, hlo, hhi => by
    obtain ⟨hbyte, h48, h57⟩ := digitByte_toNat (hds d mem_cons_self)
    have hrange : (48 ≤ digitByte d && digitByte d ≤ 57) = true := by
      rw [Bool.and_eq_true, decide_eq_true_iff, decide_eq_true_iff, UInt8.le_iff_toNat_le,
        UInt8.le_iff_toNat_le, hbyte]
      exact ⟨h48, h57⟩
    have hdigit : (digitByte d - 48).toNat = d.toNat - '0'.toNat := by
      rw [UInt8.toNat_sub_of_le _ _ (by rw [UInt8.le_iff_toNat_le, hbyte]; exact h48), hbyte]
      rfl
    have hnext : (if negative = true then 10 * signed negative n - (d.toNat - '0'.toNat : ℕ)
        else 10 * signed negative n + (d.toNat - '0'.toNat : ℕ)) =
        signed negative (10 * n + (d.toNat - '0'.toNat)) := by
      cases negative <;> simp only [signed, Bool.false_eq_true, if_false, if_true] <;> omega
    rw [ofDigitChars_cons] at hlo hhi ⊢
    have hle := le_ofDigitChars ds (10 * n + (d.toNat - '0'.toNat))
    have hbounds : -2 ^ 63 ≤ signed negative (10 * n + (d.toNat - '0'.toNat)) ∧
        signed negative (10 * n + (d.toNat - '0'.toNat)) < 2 ^ 63 := by
      cases negative <;> simp only [signed, Bool.false_eq_true, if_false, if_true] at hlo hhi ⊢ <;>
        omega
    rw [map_cons, parseDigits, if_pos hrange, hdigit]
    simp only [hnext]
    rw [if_neg (by omega), if_neg (by omega)]
    exact parseDigits_digits negative ds _ (fun c hc => hds c (mem_cons_of_mem d hc)) hlo hhi

theorem isDigit_toDigits {n : ℕ} : ∀ c ∈ toDigits 10 n, c.isDigit = true :=
  fun _ hc => isDigit_of_mem_toDigits (by decide) (by decide) hc

theorem i64Text_eq (x : Int64) : i64Text x = (if x.toInt < 0 then [45] else []) ++
    (toDigits 10 x.toInt.natAbs).map digitByte := by
  unfold i64Text
  split_ifs <;> rfl

/-- A number that is printed is read back. -/
theorem parseInteger_i64Text (x : Int64) : parseInteger (i64Text x) = .ok x := by
  have hlo := x.le_toInt
  have hhi := x.toInt_lt
  have hread := parseDigits_digits (decide (x.toInt < 0)) (toDigits 10 x.toInt.natAbs) 0
    isDigit_toDigits
  have hsigned : signed (decide (x.toInt < 0)) x.toInt.natAbs = x.toInt := by
    unfold signed
    split_ifs with h <;> simp only [decide_eq_true_eq] at h <;> omega
  have hzero : signed (decide (x.toInt < 0)) 0 = 0 := by
    unfold signed
    split_ifs <;> rfl
  rw [ofDigitChars_ten_toDigits, hsigned, hzero] at hread
  obtain ⟨d, ds, hds⟩ := exists_cons_of_ne_nil (toDigits_ne_nil (n := x.toInt.natAbs) (b := 10))
  obtain ⟨hbyte, h48, h57⟩ := digitByte_toNat (isDigit_toDigits d (hds ▸ mem_cons_self))
  rw [i64Text_eq]
  specialize hread hlo hhi
  rw [hds, map_cons] at hread ⊢
  by_cases hneg : x.toInt < 0
  · rw [decide_eq_true hneg] at hread
    rw [if_pos hneg, singleton_append, parseInteger, hread]
    · exact congrArg Except.ok x.ofInt_toInt
    · simp
  rw [decide_eq_false hneg] at hread
  have hplus : digitByte d ≠ 43 := fun h => by
    rw [h] at hbyte
    simp at hbyte
    omega
  have hminus : digitByte d ≠ 45 := fun h => by
    rw [h] at hbyte
    simp at hbyte
    omega
  rw [if_neg hneg, nil_append, parseInteger, hread]
  · exact congrArg Except.ok x.ofInt_toInt
  all_goals simp [hplus, hminus]

theorem utf8Error_i64Text (x : Int64) (i : ℕ) : utf8Error (i64Text x) i = none := by
  refine utf8Error_ascii (fun b hb => ?_) i
  rw [i64Text_eq, mem_append] at hb
  rcases hb with hb | hb
  · split_ifs at hb
    · rw [mem_singleton.1 hb]
      decide
    · cases hb
  obtain ⟨c, hc, rfl⟩ := mem_map.1 hb
  obtain ⟨hbyte, -, h57⟩ := digitByte_toNat (isDigit_toDigits c hc)
  rw [UInt8.lt_iff_toNat_lt, hbyte]
  exact lt_of_le_of_lt h57 (by decide)

theorem length_i64Text (x : Int64) : (i64Text x).length ≤ 20 := by
  have hlo := x.le_toInt
  have hhi := x.toInt_lt
  have hdigits : (toDigits 10 x.toInt.natAbs).length ≤ 19 :=
    (length_toDigits_le_iff (by decide) (by decide)).2 (by omega)
  rw [i64Text_eq, length_append, length_map]
  split_ifs <;> simp only [length_cons, length_nil] <;> omega

end Kamino
