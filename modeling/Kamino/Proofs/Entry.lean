import Kamino.Entry

/-!
# Records
-/

namespace Kamino

open LittleEndian List

theorem i64FromLeBytes_toLe (x : Int64) : i64FromLeBytes (i64ToLeBytes x) = x := by
  have hx : x.toUInt64.toNat < 256 ^ 8 := x.toUInt64.toNat_lt
  rw [i64FromLeBytes, i64ToLeBytes, ofLe_toLe_of_lt hx, UInt64.ofNat_toNat]
  rfl

theorem i64ToLeBytes_fromLe {bs : Bytes} (h : bs.length = 8) :
    i64ToLeBytes (i64FromLeBytes bs) = bs := by
  have hlt := ofLe_lt bs
  rw [h] at hlt
  have hto : (UInt64.ofNat (ofLe bs)).toInt64.toUInt64.toNat = ofLe bs := by
    simp [UInt64.toNat_ofNat_of_lt' hlt]
  rw [i64ToLeBytes, i64FromLeBytes, hto, ← h, toLe_ofLe]

@[simp] theorem length_i64ToLeBytes (x : Int64) : (i64ToLeBytes x).length = 8 := by
  simp [i64ToLeBytes]

theorem exists_field (n : ℕ) (bs : Bytes) (h : n ≤ bs.length) : ∃ x y, bs = x ++ y ∧ x.length = n :=
  ⟨bs.take n, bs.drop n, (take_append_drop n bs).symm, length_take_of_le h⟩

namespace Entry

@[simp] theorem length_record (e : Entry) : e.record.length = e.encodedLen := by
  simp only [record, length_cons, length_append, length_i64ToLeBytes, length_toLe,
    encodedLen, headerOverhead]
  omega

theorem encodeInto_ok {e : Entry} (h : e.Encodable) (buf : Bytes) :
    e.encodeInto buf = .ok (buf ++ e.record) := by
  rw [encodeInto, if_neg (by have := h.1; omega), if_neg (by have := h.2; omega)]

theorem encodeInto_error {e : Entry} (h : ¬ e.Encodable) (buf : Bytes) :
    ∃ err, e.encodeInto buf = .error err := by
  unfold encodeInto
  split_ifs with hk hv
  · exact ⟨_, rfl⟩
  · exact ⟨_, rfl⟩
  · exact absurd ⟨by omega, by omega⟩ h

theorem encodeInto_unit (e : Entry) (buf : Bytes) :
    (e.encodeInto buf).map (fun _ => ()) = (e.encodeInto []).map fun _ => () := by
  unfold encodeInto
  split_ifs <;> rfl

theorem encodedLen_pos (e : Entry) : 0 < e.encodedLen := by
  simp only [encodedLen, headerOverhead]
  omega

section Decode

variable {k t s a v buf : Bytes} {b : UInt8} {e : Entry} {n : ℕ}

/-- The record read field by field. -/
theorem decode_fields (hk : k.length = b.toNat) (ht : t.length = 8) (hs : s.length = 8)
    (ha : a.length = 8) (hv : v.length = 4) (w : Bytes) :
    decode (b :: (k ++ (t ++ (s ++ (a ++ (v ++ w)))))) =
      if w.length < ofLe v then .error (.truncated (ofLe v - w.length))
      else .ok (⟨k, i64FromLeBytes t, i64FromLeBytes s, i64FromLeBytes a, w.take (ofLe v)⟩,
        1 + k.length + 28 + ofLe v) := by
  have hmax := ofLe_lt v
  rw [hv] at hmax
  have hskip (n : ℕ) (x y : Bytes) (hx : x.length ≤ n) :
      (x ++ y).drop n = y.drop (n - x.length) := by
    rw [drop_append, drop_eq_nil_of_le hx, nil_append]
  simp only [decode, ← hk, Nat.add_right_comm, Nat.add_comm 1 k.length, drop_succ_cons, drop_zero]
  simp (disch := omega) only [hskip, Nat.add_sub_cancel_left, Nat.sub_self, ht, hs, ha, hv,
    Nat.reduceSub, Nat.reduceAdd, drop_zero, take_left, take_left' ht,
    take_left' hs, take_left' ha, take_left' hv, length_cons,
    length_append]
  rw [if_neg (by omega), if_neg (by simp only [maxValueLen]; omega)]
  by_cases hlt : w.length < ofLe v
  · rw [if_pos (by omega), if_pos hlt]
    congr 2
    omega
  · rw [if_neg (by omega), if_neg hlt]
    congr 2
    omega

/-- A record decodes to the entry it was written from, whatever follows it. -/
theorem decode_record (h : e.Encodable) (rest : Bytes) :
    decode (e.record ++ rest) = .ok (e, e.encodedLen) := by
  obtain ⟨hk, hv⟩ := h
  simp only [maxKeyLen, maxValueLen] at hk hv
  have hval : ofLe (toLe 4 e.value.length) = e.value.length := ofLe_toLe_of_lt (by omega)
  have hb : e.key.length = (UInt8.ofNat e.key.length).toNat := by
    rw [UInt8.toNat_ofNat', Nat.mod_eq_of_lt (by omega)]
  have hlen : 1 + e.key.length + 28 + e.value.length = e.encodedLen := by
    simp only [encodedLen, headerOverhead]
    omega
  simp only [record, cons_append, append_assoc]
  rw [decode_fields hb (length_i64ToLeBytes _) (length_i64ToLeBytes _) (length_i64ToLeBytes _)
    (length_toLe _ _), hval, if_neg (by simp), take_left, hlen]
  simp only [i64FromLeBytes_toLe]

variable (h : decode buf = .ok (e, n))
include h

/-- What decodes is the record of the entry. -/
theorem decode_ok : n = e.encodedLen ∧ e.Encodable ∧ ∃ rest, buf = e.record ++ rest := by
  rcases buf with _ | ⟨b, tl⟩
  · cases h
  have hb := b.toNat_lt
  have hlen : b.toNat + 28 ≤ tl.length := by
    by_contra hlt
    rw [decode, if_pos (by simp only [length_cons]; omega)] at h
    cases h
  obtain ⟨k, tl, rfl, hk⟩ := exists_field b.toNat tl (by omega)
  rw [length_append, hk] at hlen
  obtain ⟨t, tl, rfl, ht⟩ := exists_field 8 tl (by omega)
  rw [length_append, ht] at hlen
  obtain ⟨s, tl, rfl, hs⟩ := exists_field 8 tl (by omega)
  rw [length_append, hs] at hlen
  obtain ⟨a, tl, rfl, ha⟩ := exists_field 8 tl (by omega)
  rw [length_append, ha] at hlen
  obtain ⟨v, w, rfl, hv⟩ := exists_field 4 tl (by omega)
  have hmax := ofLe_lt v
  rw [hv] at hmax
  rw [decode_fields hk ht hs ha hv] at h
  split_ifs at h with hlt
  cases h
  have hval : (w.take (ofLe v)).length = ofLe v := length_take_of_le (by omega)
  refine ⟨?_, ⟨?_, ?_⟩, w.drop (ofLe v), ?_⟩
  · simp only [encodedLen, headerOverhead, hval]
    omega
  · simp only [maxKeyLen]
    omega
  · simp only [hval, maxValueLen]
    omega
  · have hv' : toLe 4 (ofLe v) = v := by rw [← hv, toLe_ofLe]
    simp [record, hval, hv', hk, i64ToLeBytes_fromLe, ht, hs, ha]

theorem decode_spec : n = e.encodedLen ∧ n ≤ buf.length ∧ e.Encodable := by
  obtain ⟨rfl, henc, rest, rfl⟩ := decode_ok h
  exact ⟨rfl, by simp, henc⟩

theorem decode_append (rest : Bytes) : decode (buf ++ rest) = .ok (e, n) := by
  obtain ⟨rfl, henc, tail, rfl⟩ := decode_ok h
  rw [append_assoc, decode_record henc]

end Decode

end Entry

end Kamino
