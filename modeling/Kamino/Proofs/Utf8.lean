import Kamino.Command
import Kamino.Proofs.RoundTrip

/-!
# UTF-8
-/

namespace Kamino.Resp

open List Option UInt8 String

def IsUtf8 (b : Bytes) : Prop := ∃ s : String, asBytes s = b

variable {b : Bytes}

theorem isUtf8_iff : IsUtf8 b ↔ ∃ cs : List Char, cs.flatMap utf8EncodeChar = b := by
  constructor
  · rintro ⟨s, hs⟩
    exact ⟨s.toList, by rw [← asBytes_eq, hs]⟩
  · rintro ⟨cs, hcs⟩
    exact ⟨ofList cs, by rw [asBytes_eq, toList_ofList, hcs]⟩

theorem IsUtf8.nil : IsUtf8 [] := isUtf8_iff.2 ⟨[], rfl⟩

theorem IsUtf8.append {x b : Bytes} (hx : ∃ c, utf8EncodeChar c = x) (hb : IsUtf8 b) :
    IsUtf8 (x ++ b) := by
  obtain ⟨c, rfl⟩ := hx
  obtain ⟨cs, rfl⟩ := isUtf8_iff.1 hb
  exact isUtf8_iff.2 ⟨c :: cs, flatMap_cons⟩

/-! ### The sequences of one character -/

section Sequences

variable {a b c d : UInt8}

theorem between_iff {lo hi : UInt8} :
    (lo ≤ a && a ≤ hi) = true ↔ lo.toNat ≤ a.toNat ∧ a.toNat ≤ hi.toNat := by
  simp [le_iff_toNat_le]

theorem continuation_iff : continuation b = true ↔ 0x80 ≤ b.toNat ∧ b.toNat ≤ 0xBF := between_iff

theorem second3_iff : second3 a b = true ↔ (0x80 ≤ b.toNat ∧ b.toNat ≤ 0xBF) ∧
    (a.toNat = 0xE0 → 0xA0 ≤ b.toNat) ∧ (a.toNat = 0xED → b.toNat ≤ 0x9F) := by
  unfold second3
  split_ifs <;>
    simp only [between_iff, continuation_iff, ← UInt8.toNat_inj, reduceToNat] at * <;> omega

theorem second4_iff : second4 a b = true ↔ (0x80 ≤ b.toNat ∧ b.toNat ≤ 0xBF) ∧
    (a.toNat = 0xF0 → 0x90 ≤ b.toNat) ∧ (a.toNat = 0xF4 → b.toNat ≤ 0x8F) := by
  unfold second4
  split_ifs <;>
    simp only [between_iff, continuation_iff, ← UInt8.toNat_inj, reduceToNat] at * <;> omega

theorem exists_char {v : ℕ} (h : v.isValidChar) : ∃ c : Char, c.val.toNat = v :=
  ⟨Char.ofNatAux v h, UInt32.toNat_ofNatLT⟩

theorem ofNat_eq_of_toNat {n : ℕ} (h : a.toNat = n) : UInt8.ofNat n = a := by
  rw [← h, UInt8.ofNat_toNat]

theorem exists_encode_one (ha : a < 0x80) : ∃ ch, utf8EncodeChar ch = [a] := by
  simp only [lt_iff_toNat_lt, reduceToNat] at ha
  obtain ⟨ch, hch⟩ := exists_char (.inl (by omega) : a.toNat.isValidChar)
  refine ⟨ch, ?_⟩
  unfold utf8EncodeChar
  dsimp only
  rw [hch, if_pos (by omega), UInt8.ofNat_toNat]

theorem exists_encode_two (ha : (0xC2 ≤ a && a ≤ 0xDF) = true) (hb : continuation b = true) :
    ∃ ch, utf8EncodeChar ch = [a, b] := by
  simp only [between_iff, continuation_iff, reduceToNat] at ha hb
  have hvalid : ((a.toNat - 0xC0) * 64 + (b.toNat - 0x80)).isValidChar := .inl (by omega)
  obtain ⟨ch, hch⟩ := exists_char hvalid
  have hfirst : ofNat (ch.val.toNat / 64 % 32 + 192) = a := ofNat_eq_of_toNat (by omega)
  have hsecond : ofNat (ch.val.toNat % 64 + 128) = b := ofNat_eq_of_toNat (by omega)
  refine ⟨ch, ?_⟩
  unfold utf8EncodeChar
  dsimp only
  rw [if_neg (by omega), if_pos (by omega), hfirst, hsecond]

theorem exists_encode_three (ha : (0xE0 ≤ a && a ≤ 0xEF) = true) (hb : second3 a b = true)
    (hc : continuation c = true) : ∃ ch, utf8EncodeChar ch = [a, b, c] := by
  simp only [between_iff, second3_iff, continuation_iff, reduceToNat] at ha hb hc
  have hvalid :
      ((a.toNat - 0xE0) * 4096 + (b.toNat - 0x80) * 64 + (c.toNat - 0x80)).isValidChar := by
    unfold Nat.isValidChar
    omega
  obtain ⟨ch, hch⟩ := exists_char hvalid
  have hfirst : ofNat (ch.val.toNat / 4096 % 16 + 224) = a := ofNat_eq_of_toNat (by omega)
  have hsecond : ofNat (ch.val.toNat / 64 % 64 + 128) = b := ofNat_eq_of_toNat (by omega)
  have hthird : ofNat (ch.val.toNat % 64 + 128) = c := ofNat_eq_of_toNat (by omega)
  refine ⟨ch, ?_⟩
  unfold utf8EncodeChar
  dsimp only
  rw [if_neg (by omega), if_neg (by omega), if_pos (by omega), hfirst, hsecond, hthird]

theorem exists_encode_four (ha : (0xF0 ≤ a && a ≤ 0xF4) = true) (hb : second4 a b = true)
    (hc : continuation c = true) (hd : continuation d = true) :
    ∃ ch, utf8EncodeChar ch = [a, b, c, d] := by
  simp only [between_iff, second4_iff, continuation_iff, reduceToNat] at ha hb hc hd
  have hvalid : ((a.toNat - 0xF0) * 262144 + (b.toNat - 0x80) * 4096 + (c.toNat - 0x80) * 64 +
      (d.toNat - 0x80)).isValidChar := by
    unfold Nat.isValidChar
    omega
  obtain ⟨ch, hch⟩ := exists_char hvalid
  have hfirst : ofNat (ch.val.toNat / 262144 % 8 + 240) = a := ofNat_eq_of_toNat (by omega)
  have hsecond : ofNat (ch.val.toNat / 4096 % 64 + 128) = b := ofNat_eq_of_toNat (by omega)
  have hthird : ofNat (ch.val.toNat / 64 % 64 + 128) = c := ofNat_eq_of_toNat (by omega)
  have hfourth : ofNat (ch.val.toNat % 64 + 128) = d := ofNat_eq_of_toNat (by omega)
  refine ⟨ch, ?_⟩
  unfold utf8EncodeChar
  dsimp only
  rw [if_neg (by omega), if_neg (by omega), if_neg (by omega), hfirst, hsecond, hthird, hfourth]

end Sequences

/-! ### `from_utf8` -/

theorem isUtf8_of_utf8Error {i : ℕ} (h : utf8Error b i = none) : IsUtf8 b := by
  fun_induction utf8Error b i with
  | case1 => exact .nil
  | case2 i first rest hfirst ih => exact .append (exists_encode_one hfirst) (ih h)
  | case4 i first _ hfirst b rest hb ih => exact .append (exists_encode_two hfirst hb) (ih h)
  | case8 i first _ _ hfirst b hb c rest hc ih =>
    exact .append (exists_encode_three hfirst hb hc) (ih h)
  | case14 i first _ _ _ hfirst b hb c hc d rest hd ih =>
    exact .append (exists_encode_four hfirst hb hc hd) (ih h)
  | _ => cases h

section Skip

variable {a b c d : UInt8} {rest : Bytes} {i : ℕ}

theorem utf8Error_one (ha : a < 0x80) : utf8Error (a :: rest) i = utf8Error rest (i + 1) := by
  rw [utf8Error.eq_def]
  exact if_pos ha

theorem utf8Error_two (ha : (0xC2 ≤ a && a ≤ 0xDF) = true) (hb : continuation b = true) :
    utf8Error (a :: b :: rest) i = utf8Error rest (i + 2) := by
  have h1 : ¬ a < 0x80 := by
    simp only [between_iff, lt_iff_toNat_lt, reduceToNat] at ha ⊢
    omega
  rw [utf8Error.eq_def]
  simp only []
  rw [if_neg h1, if_pos ha, if_pos hb]

theorem utf8Error_three (ha : (0xE0 ≤ a && a ≤ 0xEF) = true) (hb : second3 a b = true)
    (hc : continuation c = true) : utf8Error (a :: b :: c :: rest) i = utf8Error rest (i + 3) := by
  have h1 : ¬ a < 0x80 ∧ ¬ (0xC2 ≤ a && a ≤ 0xDF) = true := by
    simp only [between_iff, lt_iff_toNat_lt, reduceToNat] at ha ⊢
    omega
  rw [utf8Error.eq_def]
  simp only []
  rw [if_neg h1.1, if_neg h1.2, if_pos ha, if_pos hb, if_pos hc]

theorem utf8Error_four (ha : (0xF0 ≤ a && a ≤ 0xF4) = true) (hb : second4 a b = true)
    (hc : continuation c = true) (hd : continuation d = true) :
    utf8Error (a :: b :: c :: d :: rest) i = utf8Error rest (i + 4) := by
  have h1 : ¬ a < 0x80 ∧ ¬ (0xC2 ≤ a && a ≤ 0xDF) = true ∧ ¬ (0xE0 ≤ a && a ≤ 0xEF) = true := by
    simp only [between_iff, lt_iff_toNat_lt, reduceToNat] at ha ⊢
    omega
  rw [utf8Error.eq_def]
  simp only []
  rw [if_neg h1.1, if_neg h1.2.1, if_neg h1.2.2, if_pos ha, if_pos hb, if_pos hc, if_pos hd]

theorem utf8Error_encode (ch : Char) (rest : Bytes) (i : ℕ) :
    ∃ j, utf8Error (utf8EncodeChar ch ++ rest) i = utf8Error rest j := by
  have hvalid : ch.val.toNat.isValidChar := ch.valid
  unfold Nat.isValidChar at hvalid
  unfold utf8EncodeChar
  dsimp only
  generalize ch.val.toNat = v at hvalid
  split_ifs with h1 h2 h3
  · refine ⟨_, utf8Error_one ?_⟩
    simp only [lt_iff_toNat_lt, toNat_ofNat', reduceToNat]
    omega
  · refine ⟨_, utf8Error_two ?_ ?_⟩ <;>
      simp only [between_iff, continuation_iff, toNat_ofNat', reduceToNat] <;> omega
  · refine ⟨_, utf8Error_three ?_ ?_ ?_⟩ <;>
      simp only [between_iff, second3_iff, continuation_iff, toNat_ofNat', reduceToNat] <;> omega
  · refine ⟨_, utf8Error_four ?_ ?_ ?_ ?_⟩ <;>
      simp only [between_iff, second4_iff, continuation_iff, toNat_ofNat', reduceToNat] <;> omega

end Skip

/-- Nothing is wrong exactly in the bytes of a string. -/
theorem utf8Error_eq_none_iff {i : ℕ} : utf8Error b i = none ↔ IsUtf8 b := by
  refine ⟨isUtf8_of_utf8Error, fun h => ?_⟩
  obtain ⟨cs, rfl⟩ := isUtf8_iff.1 h
  clear h
  induction cs generalizing i with
  | nil => rfl
  | cons c cs ih =>
    obtain ⟨j, hj⟩ := utf8Error_encode c (cs.flatMap utf8EncodeChar) i
    rw [flatMap_cons, hj, ih]

/-! ### `from_utf8_lossy` -/

theorem fromUtf8Lossy_induction {motive : Bytes → Bytes → Prop} (nil : motive [] [])
    (char : ∀ x b, (∃ c, utf8EncodeChar c = x) → motive b (fromUtf8Lossy b) →
      motive (x ++ b) (x ++ fromUtf8Lossy b))
    (bad : ∀ x b, (∀ y ∈ x, 0x80 ≤ y) → motive b (fromUtf8Lossy b) →
      motive (x ++ b) (replacement ++ fromUtf8Lossy b)) (b : Bytes) :
    motive b (fromUtf8Lossy b) := by
  have high {a : UInt8} (h : ¬ a < 0x80) : 0x80 ≤ a := UInt8.not_lt.1 h
  have hcont {a : UInt8} (h : continuation a = true) : 0x80 ≤ a := by
    rw [continuation_iff] at h
    exact le_iff_toNat_le.2 h.1
  have hsec3 {a b : UInt8} (h : second3 a b = true) : 0x80 ≤ b :=
    le_iff_toNat_le.2 (second3_iff.1 h).1.1
  have hsec4 {a b : UInt8} (h : second4 a b = true) : 0x80 ≤ b :=
    le_iff_toNat_le.2 (second4_iff.1 h).1.1
  fun_induction fromUtf8Lossy b with
  | case1 => exact nil
  | case2 first rest hfirst ih => exact char [first] rest (exists_encode_one hfirst) ih
  | case3 first hfirst _ | case6 first hfirst _ _ | case11 first hfirst _ _ _ =>
    exact bad [first] [] (by simpa using high hfirst) nil
  | case4 first _ hfirst b rest hb ih => exact char [first, b] rest (exists_encode_two hfirst hb) ih
  | case5 first hfirst _ b rest _ ih | case10 first hfirst _ _ b rest _ ih
  | case17 first hfirst _ _ _ b rest _ ih =>
    exact bad [first] (b :: rest) (by simpa using high hfirst) ih
  | case7 first hfirst _ _ b hb =>
    exact bad [first, b] [] (by simpa using ⟨high hfirst, hsec3 hb⟩) nil
  | case8 first _ _ hfirst b hb c rest hc ih =>
    exact char [first, b, c] rest (exists_encode_three hfirst hb hc) ih
  | case9 first hfirst _ _ b hb c rest _ ih =>
    exact bad [first, b] (c :: rest) (by simpa using ⟨high hfirst, hsec3 hb⟩) ih
  | case12 first hfirst _ _ _ b hb =>
    exact bad [first, b] [] (by simpa using ⟨high hfirst, hsec4 hb⟩) nil
  | case13 first hfirst _ _ _ b hb c hc =>
    exact bad [first, b, c] [] (by simpa using ⟨high hfirst, hsec4 hb, hcont hc⟩) nil
  | case14 first _ _ _ hfirst b hb c hc d rest hd ih =>
    exact char [first, b, c, d] rest (exists_encode_four hfirst hb hc hd) ih
  | case15 first hfirst _ _ _ b hb c hc d rest _ ih =>
    exact bad [first, b, c] (d :: rest) (by simpa using ⟨high hfirst, hsec4 hb, hcont hc⟩) ih
  | case16 first hfirst _ _ _ b hb c rest _ ih =>
    exact bad [first, b] (c :: rest) (by simpa using ⟨high hfirst, hsec4 hb⟩) ih
  | case18 first rest hfirst _ _ _ ih => exact bad [first] rest (by simpa using high hfirst) ih

theorem isUtf8_fromUtf8Lossy (b : Bytes) : IsUtf8 (fromUtf8Lossy b) := by
  induction b using fromUtf8Lossy_induction with
  | nil => exact .nil
  | char x b hx ih => exact .append hx ih
  | bad x b _ ih =>
    exact .append (exists_encode_three (by decide) (by decide) (by decide)) ih

theorem asBytes_lossy (b : Bytes) : asBytes (lossy b) = fromUtf8Lossy b := by
  obtain ⟨s, hs⟩ := isUtf8_fromUtf8Lossy b
  rw [lossy, ← hs, fromUtf8_asBytes, getD_some]

/-- The replacement leaves the ASCII bytes as they are. -/
theorem mem_fromUtf8Lossy_iff {y : UInt8} (hy : y < 0x80) (b : Bytes) :
    y ∈ fromUtf8Lossy b ↔ y ∈ b := by
  induction b using fromUtf8Lossy_induction with
  | nil => rfl
  | char x b _ ih => rw [mem_append, mem_append, ih]
  | bad x b hx ih =>
    have hnot : y ∉ x := fun h => absurd (hx y h) (UInt8.not_le.2 hy)
    have hrep : y ∉ replacement := by
      have hhigh : ∀ z ∈ replacement, 0x80 ≤ z := by simp [replacement]
      exact fun h => absurd (hhigh y h) (UInt8.not_le.2 hy)
    rw [mem_append, mem_append, ih, or_iff_right hnot, or_iff_right hrep]

end Kamino.Resp
