import Kamino.Proofs.Decode

/-!
# Encoding and decoding a frame

What the encoder writes for a frame, the decoder reads back.
-/

namespace Kamino.Resp

open Parse List Nat

variable {n : ℤ}

section Text

theorem fromUtf8_asBytes (s : String) : fromUtf8 (asBytes s) = some s := by
  have harray : (⟨(asBytes s).toArray⟩ : ByteArray) = s.toByteArray := by
    rw [asBytes, Array.toArray_toList]
  rw [fromUtf8, harray, String.fromUTF8?, dif_pos s.isValidUTF8]
  rfl

theorem asBytes_eq (s : String) : asBytes s = s.toList.flatMap String.utf8EncodeChar := by
  rw [asBytes, ← String.utf8Encode_toList, utf8Encode]
  simp

theorem utf8EncodeChar_of_ascii {c : Char} (h : c.toNat < 128) :
    String.utf8EncodeChar c = [c.toUInt8] := by
  have hsize : c.utf8Size = 1 := by
    rw [Char.utf8Size_eq_one_iff, UInt32.le_iff_toNat_le]
    exact le_of_lt_succ h
  rw [String.utf8EncodeChar_eq_singleton hsize]
  rfl

theorem asBytes_of_ascii {s : String} (h : ∀ c ∈ s.toList, c.toNat < 128) :
    asBytes s = s.toList.map Char.toUInt8 := by
  rw [asBytes_eq]
  generalize s.toList = l at h
  induction l with
  | nil => rfl
  | cons c l ih =>
    rw [flatMap_cons, utf8EncodeChar_of_ascii (h c mem_cons_self),
      ih fun c' hc' => h c' (mem_cons_of_mem _ hc'), map_cons, singleton_append]

theorem toList_toString (n : ℤ) :
    (toString n).toList = (if n < 0 then ['-'] else []) ++ toDigits 10 n.natAbs := by
  cases n with
  | ofNat m =>
    rw [if_neg (by simp)]
    exact toList_repr
  | negSucc m =>
    rw [if_pos (Int.negSucc_lt_zero m)]
    change ("-" ++ Nat.repr (m + 1)).toList = _
    rw [String.toList_append, toList_repr]
    rfl

theorem isDigit_of_mem_toDigits {n : ℕ} {c : Char} (h : c ∈ toDigits 10 n) : c.isDigit = true :=
  Nat.isDigit_of_mem_toDigits (by decide) (by decide) h

theorem cr_not_mem_toString (n : ℤ) : cr ∉ asBytes (toString n) := by
  have hascii : ∀ c ∈ (toString n).toList, c.toNat < 128 ∧ c.toUInt8 ≠ cr := by
    intro c hc
    rw [toList_toString, mem_append] at hc
    rcases hc with hc | hc
    · split_ifs at hc
      · cases mem_singleton.1 hc
        decide
      · cases hc
    have := Char.isDigit_iff_toNat.1 (isDigit_of_mem_toDigits hc)
    simp only [Char.reduceToNat] at this
    refine ⟨by omega, fun h => ?_⟩
    have hnat := congrArg UInt8.toNat h
    rw [Char.toUInt8, UInt32.toNat_toUInt8] at hnat
    change c.toNat % 2 ^ 8 = 13 at hnat
    omega
  rw [asBytes_of_ascii fun c hc => (hascii c hc).1, mem_map]
  rintro ⟨c, hc, heq⟩
  exact (hascii c hc).2 heq

theorem foldl_digits (ds : List Char) (h : ∀ c ∈ ds, c.isDigit = true) (init : ℕ) :
    ds.foldl (fun (n : ℤ) d => 10 * n + (d.toNat - '0'.toNat)) init =
      (ofDigitChars 10 ds init : ℕ) := by
  induction ds generalizing init with
  | nil => rfl
  | cons d ds ih =>
    have hd := (Char.isDigit_iff_toNat.1 (h d mem_cons_self)).1
    rw [foldl_cons, ofDigitChars_cons, ← ih fun c hc => h c (mem_cons_of_mem _ hc)]
    rw [cast_add, cast_mul, cast_sub hd]
    rfl

theorem parseI64_toString (n : ℤ) :
    Kamino.parseI64 (toString n) = (some n).filter fun n => -2 ^ 63 ≤ n ∧ n < 2 ^ 63 := by
  have hdigits : ∀ c ∈ toDigits 10 n.natAbs, c.isDigit = true :=
    fun c hc => isDigit_of_mem_toDigits hc
  have hne : toDigits 10 n.natAbs ≠ [] := toDigits_ne_nil
  have hvalue := foldl_digits _ hdigits 0
  rw [ofDigitChars_ten_toDigits, cast_zero] at hvalue
  have hall : toDigits 10 n.natAbs ≠ [] ∧ (toDigits 10 n.natAbs).all Char.isDigit = true :=
    ⟨hne, all_eq_true.2 hdigits⟩
  by_cases hn : n < 0
  · have hlist : (toString n).toList = '-' :: toDigits 10 n.natAbs := by
      rw [toList_toString, if_pos hn]
      rfl
    have hneg : -(n.natAbs : ℤ) = n := by omega
    simp only [Kamino.parseI64, hlist, if_pos hall, hvalue, Option.map_some, hneg]
  have hlist : (toString n).toList = toDigits 10 n.natAbs := by
    rw [toList_toString, if_neg hn]
    rfl
  have hpos : (n.natAbs : ℤ) = n := by omega
  obtain ⟨d, ds, hds⟩ := exists_cons_of_ne_nil hne
  have hd := hdigits d (by rw [hds]; exact mem_cons_self)
  have hminus : d ≠ '-' := by
    rintro rfl
    cases hd
  have hplus : d ≠ '+' := by
    rintro rfl
    cases hd
  rw [hds] at hlist hall hvalue
  simp only [Kamino.parseI64, hlist]
  split
  · rename_i h
    exact absurd (cons.inj h).1 hminus
  · rename_i h
    exact absurd (cons.inj h).1 hplus
  · rw [if_pos hall, hvalue, hpos]

end Text

section Lines

theorem readLine_parses {line : Bytes} (h : cr ∉ line) : Parses readLine (line ++ crlf) line := by
  intro t
  induction line with
  | nil => rfl
  | cons b line ih =>
    have hb : b ≠ cr := fun hb => h (hb ▸ mem_cons_self)
    rw [cons_append, cons_append, readLine_cons_of_ne fun hcr => hb hcr.1,
      ih fun hmem => h (mem_cons_of_mem _ hmem)]
    rfl

theorem utf8Line_parses (what s : String) : Parses (utf8Line what (asBytes s)) [] s := by
  rw [utf8Line, fromUtf8_asBytes]
  exact .pure s

theorem parseI64_parses (hlo : -2 ^ 63 ≤ n) (hhi : n < 2 ^ 63) :
    Parses (parseI64 (asBytes (toString n))) [] n := by
  refine (utf8Line_parses "integer" (toString n)).bind (y := []) ?_
  rw [parseI64_toString, Option.filter_some, if_pos (decide_eq_true ⟨hlo, hhi⟩)]
  exact .pure n

theorem bulkPayload_parses (b : Bytes) : Parses (bulkPayload b.length) (b ++ crlf) b := by
  intro t
  have hlen : ¬ (b ++ crlf ++ t).length < b.length + 2 := by
    rw [length_append, length_append, show crlf.length = 2 from rfl]
    omega
  have hend : ((b ++ crlf ++ t).drop b.length).take 2 = crlf := by
    rw [append_assoc, drop_left]
    rfl
  rw [bulkPayload, if_neg hlen, if_neg (not_not.2 hend), append_assoc, take_left, length_append]
  rfl

variable {maxArray : UInt64} {y : Bytes}

theorem parseCount_parses (kind : String) {n : ℕ} (h : n ≤ maxArray.toNat) :
    Parses (parseCount kind maxArray n) [] n := by
  rw [parseCount, if_neg (by omega), Int.toNat_natCast, if_neg (by omega)]
  exact .pure n

variable {line : Bytes} {f : Bytes → Parser Frame} {frame : Frame}

theorem line_parses (h : cr ∉ line) (hf : (f line).Parses [] frame) :
    (readLine >>= f).Parses (line ++ crlf) frame :=
  (readLine_parses h).bind_nil hf

variable {g : ℤ → Parser Frame}

theorem number_parses (hlo : -2 ^ 63 ≤ n) (hhi : n < 2 ^ 63) (hg : (g n).Parses y frame) :
    (readLine >>= fun line => parseI64 line >>= g).Parses
      (asBytes (toString n) ++ crlf ++ y) frame :=
  (readLine_parses (cr_not_mem_toString n)).bind ((parseI64_parses hlo hhi).nil_bind hg)

theorem null_parses (hg : (g (-1)).Parses [] frame) :
    (readLine >>= fun line => parseI64 line >>= g).Parses
      (asBytes (toString (-1 : ℤ)) ++ crlf) frame :=
  line_parses (cr_not_mem_toString (-1)) ((parseI64_parses (by omega) (by omega)).nil_bind hg)

theorem elements_parses {α : Type} {element : Parser α} (kind : String)
    (mk : List α → Frame) {items : List α} (hmax : items.length ≤ maxArray.toNat)
    (hlen : items.length < 2 ^ 63) (h : (element.times items.length).Parses y items) :
    (parseElements maxArray kind element mk).Parses
      (asBytes (toString items.length) ++ crlf ++ y) (mk items) :=
  number_parses (n := items.length) (by omega) (by omega)
    ((parseCount_parses kind hmax).nil_bind (h.bind_nil (.pure _)))

theorem array_parses {item : Parser Frame} {items : List Frame}
    (hmax : items.length ≤ maxArray.toNat) (hlen : items.length < 2 ^ 63)
    (h : (item.times items.length).Parses y items) :
    (parseArray maxArray item).Parses
      (asBytes (toString items.length) ++ crlf ++ y) (.array (some items)) := by
  refine number_parses (n := items.length) (by omega) (by omega) ?_
  rw [if_neg (by omega)]
  exact (parseCount_parses _ hmax).nil_bind (h.bind_nil (.pure _))

theorem array_refuses {item : Parser Frame} {k : ℕ} (hmax : k ≤ maxArray.toNat) (hk : k < 2 ^ 63)
    (h : (item.times k).Refuses y) :
    (parseArray maxArray item).Refuses (asBytes (toString k) ++ crlf ++ y) := by
  refine (readLine_parses (cr_not_mem_toString k)).bind_refuses
    ((parseI64_parses (by omega) (by omega)).bind_refuses ?_)
  rw [if_neg (by omega)]
  exact (parseCount_parses "array" hmax).bind_refuses h.bind

theorem bulk_parses {maxBulk : UInt64} {b : Bytes} (hmax : b.length ≤ maxBulk.toNat)
    (hlen : b.length < 2 ^ 63) (h : (bulkPayload b.length).Parses y b) :
    (parseBulk maxBulk).Parses (asBytes (toString b.length) ++ crlf ++ y) (.bulk (some b)) := by
  refine number_parses (n := b.length) (by omega) (by omega) ?_
  rw [if_neg (by omega), if_neg (by omega), Int.toNat_natCast, if_neg (by omega)]
  exact h.bind_nil (.pure _)

end Lines

section Frames

variable (f64 : F64Text) (c : RespCodec)

theorem parseFrame_eq {depth : ℕ} (h : depth ≤ maxDepth) :
    parseFrame f64 c depth = nextByte >>= parseBody f64 c (parseFrame f64 c (depth + 1)) := by
  rw [parseFrame, parseFrame, Nat.succ_sub h, Nat.add_sub_add_right]
  rfl

variable {f64 c}

theorem parseFrame_parses {depth : ℕ} (h : depth ≤ maxDepth) {lead : UInt8} {y : Bytes}
    {frame : Frame} (hbody : (parseBody f64 c (parseFrame f64 c (depth + 1)) lead).Parses y frame) :
    (parseFrame f64 c depth).Parses (lead :: y) frame := by
  rw [parseFrame_eq f64 c h]
  have hlead : Parses nextByte [lead] lead := fun _ => rfl
  exact hlead.bind hbody

theorem parseFrame_refuses {depth : ℕ} (h : depth ≤ maxDepth) {lead : UInt8} {y : Bytes}
    (hbody : (parseBody f64 c (parseFrame f64 c (depth + 1)) lead).Refuses y) :
    (parseFrame f64 c depth).Refuses (lead :: y) := by
  rw [parseFrame_eq f64 c h]
  have hlead : Parses nextByte [lead] lead := fun _ => rfl
  exact hlead.bind_refuses hbody

/-- An array of more elements than the decoder allows is refused at its header. -/
theorem header_refuses {depth n : ℕ} (h : depth ≤ maxDepth) (hn : c.maxArrayLen.toNat < n) :
    (parseFrame f64 c depth).Refuses ('*'.toUInt8 :: (asBytes (toString n) ++ crlf)) := by
  have hbody : (parseArray c.maxArrayLen (parseFrame f64 c (depth + 1))).Refuses
      (asBytes (toString (n : ℤ)) ++ crlf ++ []) := by
    refine (readLine_parses (cr_not_mem_toString n)).bind_refuses ?_
    by_cases hhi : (n : ℤ) < 2 ^ 63
    · refine (parseI64_parses (by omega) hhi).bind_refuses ?_
      rw [if_neg (by omega), parseCount, if_neg (by omega), Int.toNat_natCast, if_pos hn]
      exact .bind (.fail _)
    · refine .bind ((utf8Line_parses "integer" _).bind_refuses ?_)
      rw [parseI64_toString, Option.filter_some, if_neg (by simpa using hhi)]
      exact .fail _
  rw [append_nil] at hbody
  exact parseFrame_refuses h hbody

theorem resp3Only_eq {lead : UInt8} {p : Parser Frame} (h : c.version = .resp3) :
    resp3Only c lead p = p := if_pos h

end Frames

section Admissible

variable (c : RespCodec)

/-- The decoder takes that many elements. The length of an aggregate is read as an `i64`. -/
def admissibleLen (n : ℕ) : Bool := n ≤ c.maxArrayLen.toNat && n < 2 ^ 63

mutual

/-- The frame is within the decoder's limits at that depth, has no double, and its big numbers are
an optional sign and digits. -/
def admissible (depth : ℕ) : Frame → Bool
  | .bulk (some b) => depth ≤ maxDepth && b.length ≤ c.maxBulkSize.toNat && b.length < 2 ^ 63
  | .array (some items) | .set items | .push items =>
    depth ≤ maxDepth && admissibleLen c items.length && admissibleItems (depth + 1) items
  | .map pairs =>
    depth ≤ maxDepth && admissibleLen c pairs.length && admissiblePairs (depth + 1) pairs
  | .double _ => false
  | .bigNumber s => depth ≤ maxDepth && isBigNumber s
  | _ => depth ≤ maxDepth

def admissibleItems (depth : ℕ) : List Frame → Bool
  | [] => true
  | item :: items => admissible depth item && admissibleItems depth items

def admissiblePairs (depth : ℕ) : List (Frame × Frame) → Bool
  | [] => true
  | (k, v) :: pairs => admissible depth k && admissible depth v && admissiblePairs depth pairs

end

end Admissible

section Encoder

variable {version : ProtocolVersion} {dst : Bytes}

theorem andThen_ok {p q : Encoder} (h : (andThen p q dst).1 = .ok ()) :
    ∃ dst', p dst = (.ok (), dst') ∧ (q dst').1 = .ok () ∧ andThen p q dst = q dst' := by
  unfold andThen at h ⊢
  rcases hp : p dst with ⟨_ | ⟨⟩, dst'⟩ <;> rw [hp] at h
  · cases h
  · exact ⟨dst', rfl, h, rfl⟩

theorem encodeLine_ok {lead : Char} {what s : String}
    (h : (encodeLine lead what s dst).1 = .ok ()) :
    encodeLine lead what s dst = (.ok (), dst ++ lead.toUInt8 :: (asBytes s ++ crlf))
      ∧ cr ∉ asBytes s := by
  unfold encodeLine at h ⊢
  split_ifs at h ⊢ with hany
  · cases h
  · refine ⟨rfl, fun hcr => hany ?_⟩
    exact any_eq_true.2 ⟨cr, hcr, rfl⟩

theorem cr_not_mem_of_isBigNumber {s : String} (h : isBigNumber s = true) : cr ∉ asBytes s := by
  unfold isBigNumber at h
  rcases hb : asBytes s with _ | ⟨first, rest⟩ <;> rw [hb] at h
  · cases h
  simp only [Bool.and_eq_true, all_eq_true] at h
  intro hcr
  rcases mem_cons.1 hcr with rfl | hmem
  · exact absurd h.1 (by decide)
  · exact absurd (h.2 cr hmem) (by decide)

end Encoder

section RoundTrip

variable {f64 : F64Text} {c : RespCodec} {version : ProtocolVersion}

/-- What the encoder wrote is what a parser reads the value from. -/
def Emits (p : Encoder) (dst : Bytes) {α : Type} (q : Parser α) (a : α) : Prop :=
  ∃ bytes, p dst = (.ok (), dst ++ bytes) ∧ q.Parses bytes a

variable {frame : Frame} {dst : Bytes} {α : Type} {lead : Char} {depth : ℕ}

theorem Emits.versioned {body : Encoder}
    {q : Parser α} {a : α} (hv : version = .resp3 → c.version = .resp3)
    (h : (versioned version frame body dst).1 = .ok ())
    (hbody : (frame.requiresResp3 = true → c.version = .resp3) → (body dst).1 = .ok () →
      Emits body dst q a) :
    Emits (versioned version frame body) dst q a := by
  unfold Resp.versioned at h ⊢
  split_ifs at h ⊢ with hgate
  · cases h
  refine hbody (fun hreq => hv ?_) h
  cases version
  · exact absurd ⟨rfl, hreq⟩ hgate
  · rfl

section

variable (hdepth : depth ≤ maxDepth)
include hdepth

theorem Emits.header {n : ℕ} {p : Encoder} {q : Parser α} {a : α}
    (h : Emits p (dst ++ (lead.toUInt8 :: asBytes (toString n) ++ crlf)) q a)
    (hbody : ∀ y, q.Parses y a →
      (parseBody f64 c (parseFrame f64 c (depth + 1)) lead.toUInt8).Parses
        (asBytes (toString n) ++ crlf ++ y) frame) :
    Emits (andThen (Resp.header lead n) p) dst (parseFrame f64 c depth) frame := by
  obtain ⟨y, hp, hq⟩ := h
  refine ⟨lead.toUInt8 :: (asBytes (toString n) ++ crlf ++ y), ?_, ?_⟩
  · change p (dst ++ (lead.toUInt8 :: asBytes (toString n) ++ crlf)) = _
    rw [hp, append_assoc, cons_append, cons_append]
  · exact parseFrame_parses hdepth (hbody y hq)

theorem Emits.line {lead : UInt8} {line : Bytes}
    (hbody : (parseBody f64 c (parseFrame f64 c (depth + 1)) lead).Parses (line ++ crlf) frame) :
    Emits (extend (lead :: line ++ crlf)) dst (parseFrame f64 c depth) frame :=
  ⟨lead :: (line ++ crlf), rfl, parseFrame_parses hdepth hbody⟩

theorem Emits.text {what what' s : String} {mk : String → Frame}
    (hbody : parseBody f64 c (parseFrame f64 c (depth + 1)) lead.toUInt8 =
      (readLine >>= fun line => utf8Line what' line >>= fun s => pure (mk s)))
    (h : (encodeLine lead what s dst).1 = .ok ()) :
    Emits (encodeLine lead what s) dst (parseFrame f64 c depth) (mk s) := by
  obtain ⟨hline, hcr⟩ := encodeLine_ok h
  refine ⟨_, hline, parseFrame_parses hdepth ?_⟩
  rw [hbody]
  exact line_parses hcr ((utf8Line_parses _ s).nil_bind (.pure _))

theorem Emits.elements {kind : String} {element : Parser α}
    {mk : List α → Frame} {items : List α} {p : Encoder} (hmax : items.length ≤ c.maxArrayLen.toNat)
    (hlen : items.length < 2 ^ 63) (h3 : c.version = .resp3)
    (hbody : parseBody f64 c (parseFrame f64 c (depth + 1)) lead.toUInt8 =
      resp3Only c lead.toUInt8 (parseElements c.maxArrayLen kind element mk))
    (h : Emits p (dst ++ (lead.toUInt8 :: asBytes (toString items.length) ++ crlf))
      (element.times items.length) items) :
    Emits (andThen (Resp.header lead items.length) p) dst (parseFrame f64 c depth) (mk items) := by
  refine .header hdepth h fun y hy => ?_
  rw [hbody, resp3Only_eq h3]
  exact elements_parses kind mk hmax hlen hy

end

variable (f64)

mutual

/-- By induction on the frame: the parser at its depth reads exactly the bytes written, whatever
follows them. -/
theorem encodeFrame_emits (hv : version = .resp3 → c.version = .resp3) :
    ∀ (frame : Frame) (depth : ℕ) (dst : Bytes), admissible c depth frame = true →
      (encodeFrame f64 version frame dst).1 = .ok () →
      Emits (encodeFrame f64 version frame) dst (parseFrame f64 c depth) frame
  | .simpleString s, depth, dst, hadm, h | .error s, depth, dst, hadm, h =>
    .versioned hv h fun _ hok => .text (of_decide_eq_true hadm) rfl hok
  | .integer n, depth, dst, hadm, h => by
    refine .versioned hv h fun _ hok => .line (of_decide_eq_true hadm) ?_
    refine line_parses (cr_not_mem_toString n.toInt) ?_
    refine (parseI64_parses n.le_toInt n.toInt_lt).nil_bind ?_
    rw [Int64.ofInt_toInt]
    exact .pure _
  | .bulk none, depth, dst, hadm, h => by
    have hbytes : asBytes "$-1\r\n" = '$'.toUInt8 :: asBytes (toString (-1 : ℤ)) ++ crlf := by
      decide +kernel
    refine .versioned hv h fun _ _ => ?_
    change Emits (extend (asBytes "$-1\r\n")) _ _ _
    rw [hbytes]
    exact .line (of_decide_eq_true hadm) (null_parses (.pure _))
  | .bulk (some b), depth, dst, hadm, h => by
    simp only [admissible, Bool.and_eq_true, decide_eq_true_eq] at hadm
    obtain ⟨⟨hdepth, hmax⟩, hlen⟩ := hadm
    refine .versioned hv h fun _ _ => ?_
    exact .header hdepth ⟨_, rfl, bulkPayload_parses b⟩ fun y hy => bulk_parses hmax hlen hy
  | .array none, depth, dst, hadm, h => by
    have hbytes : asBytes "*-1\r\n" = '*'.toUInt8 :: asBytes (toString (-1 : ℤ)) ++ crlf := by
      decide +kernel
    refine .versioned hv h fun _ _ => ?_
    change Emits (extend (asBytes "*-1\r\n")) _ _ _
    rw [hbytes]
    exact .line (of_decide_eq_true hadm) (null_parses (.pure _))
  | .array (some items), depth, dst, hadm, h => by
    simp only [admissible, admissibleLen, Bool.and_eq_true, decide_eq_true_eq] at hadm
    obtain ⟨⟨hdepth, hmax, hlen⟩, hitems⟩ := hadm
    refine .versioned hv h fun _ hok => ?_
    refine .header hdepth (encodeItems_emits hv items (depth + 1) _ hitems hok) fun y hy => ?_
    exact array_parses hmax hlen hy
  | .map pairs, depth, dst, hadm, h => by
    simp only [admissible, admissibleLen, Bool.and_eq_true, decide_eq_true_eq] at hadm
    obtain ⟨⟨hdepth, hmax, hlen⟩, hpairs⟩ := hadm
    refine .versioned hv h fun h3 hok => .elements hdepth hmax hlen (h3 rfl) rfl ?_
    exact encodePairs_emits hv pairs (depth + 1) _ hpairs hok
  | .set items, depth, dst, hadm, h | .push items, depth, dst, hadm, h => by
    simp only [admissible, admissibleLen, Bool.and_eq_true, decide_eq_true_eq] at hadm
    obtain ⟨⟨hdepth, hmax, hlen⟩, hitems⟩ := hadm
    refine .versioned hv h fun h3 hok => .elements hdepth hmax hlen (h3 rfl) rfl ?_
    exact encodeItems_emits hv items (depth + 1) _ hitems hok
  | .boolean b, depth, dst, hadm, h => by
    have hbytes : asBytes (if b then "#t\r\n" else "#f\r\n") =
        '#'.toUInt8 :: asBytes (if b then "t" else "f") ++ crlf := by
      cases b <;> decide +kernel
    refine .versioned hv h fun h3 _ => ?_
    change Emits (extend (asBytes (if b then "#t\r\n" else "#f\r\n"))) _ _ _
    rw [hbytes]
    refine .line (of_decide_eq_true hadm) ?_
    change (resp3Only c _ parseBoolean).Parses _ _
    rw [resp3Only_eq (h3 rfl)]
    cases b
    · refine line_parses (by decide +kernel) ?_
      rw [if_neg (by decide +kernel)]
      exact .pure _
    · exact line_parses (by decide +kernel) (.pure _)
  | .double d, depth, dst, hadm, h => by
    cases hadm
  | .null, depth, dst, hadm, h => by
    have hbytes : asBytes "_\r\n" = '_'.toUInt8 :: [] ++ crlf := by
      decide +kernel
    refine .versioned hv h fun h3 _ => ?_
    change Emits (extend (asBytes "_\r\n")) _ _ _
    rw [hbytes]
    refine .line (of_decide_eq_true hadm) ?_
    change (resp3Only c _ parseNull).Parses _ _
    rw [resp3Only_eq (h3 rfl)]
    exact line_parses (by simp) (.pure _)
  | .bigNumber s, depth, dst, hadm, h => by
    simp only [admissible, Bool.and_eq_true, decide_eq_true_eq] at hadm
    refine .versioned hv h fun h3 _ => .line hadm.1 ?_
    change (resp3Only c _ parseBigNumber).Parses _ _
    rw [resp3Only_eq (h3 rfl)]
    refine line_parses (cr_not_mem_of_isBigNumber hadm.2) ?_
    refine (utf8Line_parses _ s).nil_bind ?_
    rw [if_pos hadm.2]
    exact .pure _

theorem encodeItems_emits (hv : version = .resp3 → c.version = .resp3) :
    ∀ (items : List Frame) (depth : ℕ) (dst : Bytes), admissibleItems c depth items = true →
      (encodeItems f64 version items dst).1 = .ok () →
      Emits (encodeItems f64 version items) dst ((parseFrame f64 c depth).times items.length) items
  | [], depth, dst, _, _ => ⟨[], rfl, .times_zero⟩
  | item :: items, depth, dst, hadm, h => by
    simp only [admissibleItems, Bool.and_eq_true] at hadm
    obtain ⟨dst', hdst', hok, heq⟩ := andThen_ok h
    obtain ⟨x, hx, hpx⟩ := encodeFrame_emits hv item depth dst hadm.1 (by rw [hdst'])
    cases hdst'.symm.trans hx
    obtain ⟨y, hy, hpy⟩ := encodeItems_emits hv items depth _ hadm.2 hok
    refine ⟨x ++ y, ?_, .times_succ hpx hpy⟩
    rw [encodeItems, heq, hy, append_assoc]

theorem encodePairs_emits (hv : version = .resp3 → c.version = .resp3) :
    ∀ (pairs : List (Frame × Frame)) (depth : ℕ) (dst : Bytes),
      admissiblePairs c depth pairs = true → (encodePairs f64 version pairs dst).1 = .ok () →
      Emits (encodePairs f64 version pairs) dst
        ((parsePair (parseFrame f64 c depth)).times pairs.length) pairs
  | [], depth, dst, _, _ => ⟨[], rfl, .times_zero⟩
  | (k, v) :: pairs, depth, dst, hadm, h => by
    simp only [admissiblePairs, Bool.and_eq_true] at hadm
    obtain ⟨⟨hadmk, hadmv⟩, hadm⟩ := hadm
    obtain ⟨dst', hdst', hokv, heqk⟩ := andThen_ok h
    obtain ⟨x, hx, hpx⟩ := encodeFrame_emits hv k depth dst hadmk (by rw [hdst'])
    cases hdst'.symm.trans hx
    obtain ⟨dst', hdst', hok, heqv⟩ := andThen_ok hokv
    obtain ⟨y, hy, hpy⟩ := encodeFrame_emits hv v depth _ hadmv (by rw [hdst'])
    cases hdst'.symm.trans hy
    obtain ⟨z, hz, hpz⟩ := encodePairs_emits hv pairs depth _ hadm hok
    refine ⟨x ++ y ++ z, ?_, .times_succ (hpx.bind (hpy.bind_nil (.pure (k, v)))) hpz⟩
    rw [encodePairs, heqk, heqv, hz, append_assoc, append_assoc, append_assoc]

end

theorem parseBody_unknown {lead : UInt8} (h : isKnownPrefix lead c.version = false)
    (item : Parser Frame) (b : Bytes) : ∃ e, parseBody f64 c item lead b = .error e := by
  unfold isKnownPrefix at h
  split_ifs at h with h2 h3
  · have hv : ¬ c.version = .resp3 := by simpa using h
    simp only [map_cons, map_nil, mem_cons, not_mem_nil, or_false] at h3
    have hfail (p : Parser Frame) : ∃ e, resp3Only c lead p b = .error e := by
      rw [resp3Only, if_neg hv]
      exact ⟨_, rfl⟩
    rcases h3 with rfl | rfl | rfl | rfl | rfl | rfl | rfl <;> exact hfail _
  simp only [map_cons, map_nil, mem_cons, not_mem_nil, or_false, not_or] at h2 h3
  obtain ⟨p1, p2, p3, p4, p5⟩ := h2
  obtain ⟨q1, q2, q3, q4, q5, q6, q7⟩ := h3
  rw [parseBody, if_neg p1, if_neg p2, if_neg p3, if_neg p4, if_neg p5, if_neg q1, if_neg q2,
    if_neg q3, if_neg q4, if_neg q5, if_neg q6, if_neg q7]
  exact ⟨_, rfl⟩

theorem decode_of_parseFrame {b : Bytes} {frame : Frame} {n : ℕ}
    (h : parseFrame f64 c 0 b = .ok (frame, n)) : decode f64 c b = .ok (some (frame, n)) := by
  obtain ⟨lead, m, k, hlead, hbody, -⟩ := of_bind_ok h
  rcases b with _ | ⟨b, rest⟩ <;> cases hlead
  have hknown : isKnownPrefix lead c.version = true := by
    by_contra hk
    obtain ⟨e, he⟩ := parseBody_unknown f64 (Bool.not_eq_true _ ▸ hk) _ _
    cases he.symm.trans hbody
  exact (decode_known_ok f64 c hknown).2 h

/-- Decoding what the encoder wrote gives the frame back and takes exactly the bytes written. -/
theorem decode_encodeFrame (hv : version = .resp3 → c.version = .resp3) (frame : Frame)
    (hadm : admissible c 0 frame = true) (dst : Bytes)
    (h : (encodeFrame f64 version frame dst).1 = .ok ()) :
    ∃ bytes, encodeFrame f64 version frame dst = (.ok (), dst ++ bytes) ∧
      ∀ rest, decode f64 c (bytes ++ rest) = .ok (some (frame, bytes.length)) := by
  obtain ⟨bytes, henc, hparse⟩ := encodeFrame_emits f64 hv frame 0 dst hadm h
  exact ⟨bytes, henc, fun rest => decode_of_parseFrame f64 (hparse rest)⟩

theorem decode_encodeFrame_nested :
    let f64 : F64Text := ⟨fun _ => none, fun _ => ""⟩
    let c : RespCodec := { version := .resp3 }
    let frame : Frame := .map [(.simpleString "id", .integer (-9223372036854775808)),
      (.bulk (some [0, 13, 10, 255]), .set [.null, .boolean true, .bigNumber "-12", .bulk none]),
      (.array none, .push [.error "ERR é", .array (some [])])]
    ∃ bytes, encodeFrame f64 .resp3 frame [] = (.ok (), [] ++ bytes) ∧
      ∀ rest, decode f64 c (bytes ++ rest) = .ok (some (frame, bytes.length)) :=
  decode_encodeFrame _ (fun _ => rfl) _ (by decide +kernel) [] (by decide +kernel)

end RoundTrip

section Sound

mutual

def hasDouble : Frame → Bool
  | .double _ => true
  | .array (some items) | .set items | .push items => anyDouble items
  | .map pairs => anyDoublePair pairs
  | _ => false

def anyDouble : List Frame → Bool
  | [] => false
  | item :: items => hasDouble item || anyDouble items

def anyDoublePair : List (Frame × Frame) → Bool
  | [] => false
  | (k, v) :: pairs => hasDouble k || hasDouble v || anyDoublePair pairs

end

variable {f64 : F64Text} {c : RespCodec} {version : ProtocolVersion} {depth : ℕ}

/-- What the decoder returns at that depth, doubles apart. -/
def Decodable (c : RespCodec) (depth : ℕ) (frame : Frame) : Prop :=
  hasDouble frame = false → admissible c depth frame = true

theorem admissibleItems_of_decodable {items : List Frame}
    (h : ∀ item ∈ items, Decodable c depth item) (hd : anyDouble items = false) :
    admissibleItems c depth items = true := by
  induction items with
  | nil => rfl
  | cons item items ih =>
    rw [forall_mem_cons] at h
    simp only [anyDouble, Bool.or_eq_false_iff] at hd
    simp [admissibleItems, h.1 hd.1, ih h.2 hd.2]

theorem admissiblePairs_of_decodable {pairs : List (Frame × Frame)}
    (h : ∀ p ∈ pairs, Decodable c depth p.1 ∧ Decodable c depth p.2)
    (hd : anyDoublePair pairs = false) : admissiblePairs c depth pairs = true := by
  induction pairs with
  | nil => rfl
  | cons p pairs ih =>
    rw [forall_mem_cons] at h
    simp only [anyDoublePair, Bool.or_eq_false_iff] at hd
    simp [admissiblePairs, h.1.1 hd.1.1, h.1.2 hd.1.2, ih h.2 hd.2]

theorem parseI64_yields (line : Bytes) : (parseI64 line).Yields fun n => n < 2 ^ 63 := by
  refine .bind .any fun s _ => ?_
  split
  · rename_i n hn
    unfold Kamino.parseI64 at hn
    have hrange := (Option.filter_eq_some_iff.1 hn).2
    exact .pure (of_decide_eq_true hrange).2
  · exact .fail _

theorem parseCount_yields (kind : String) (hn : n < 2 ^ 63) :
    (parseCount kind c.maxArrayLen n).Yields fun k => admissibleLen c k = true := by
  refine .ite (fun _ => .fail _) fun hpos => .ite (fun _ => .fail _) fun hmax => .pure ?_
  simp only [admissibleLen, Bool.and_eq_true, decide_eq_true_eq]
  omega

theorem bulkPayload_yields (len : ℕ) : (bulkPayload len).Yields fun b => b.length = len := by
  intro rest b n h
  unfold bulkPayload at h
  split_ifs at h
  cases h
  rw [length_take]
  omega

theorem times_yields {α : Type} {element : Parser α} {P : α → Prop} {mk : List α → Frame}
    (kind : String) (helement : element.Yields P)
    (h : ∀ items, admissibleLen c items.length = true → (∀ a ∈ items, P a) →
      Decodable c depth (mk items)) (hn : n < 2 ^ 63) :
    (parseCount kind c.maxArrayLen n >>= fun count => element.times count >>= fun items =>
      pure (mk items)).Yields (Decodable c depth) := by
  refine (parseCount_yields kind hn).bind fun k hk => (helement.times k).bind fun items hitems => ?_
  exact .pure (h items (hitems.1.symm ▸ hk) hitems.2)

theorem parseBody_yields {item : Parser Frame} (hdepth : depth ≤ maxDepth)
    (h : item.Yields (Decodable c (depth + 1))) (lead : UInt8) :
    (parseBody f64 c item lead).Yields (Decodable c depth) := by
  have hplain {frame : Frame} (hf : admissible c depth frame = decide (depth ≤ maxDepth)) :
      Decodable c depth frame := fun _ => by rw [hf, decide_eq_true hdepth]
  have hitems {frame : Frame} {items : List Frame} (hlen : admissibleLen c items.length = true)
      (hall : ∀ f ∈ items, Decodable c (depth + 1) f) (hd : hasDouble frame = anyDouble items)
      (hf : admissible c depth frame = (decide (depth ≤ maxDepth) && admissibleLen c items.length &&
        admissibleItems c (depth + 1) items)) : Decodable c depth frame := fun hnone => by
    rw [hf, decide_eq_true hdepth, hlen, admissibleItems_of_decodable hall (hd ▸ hnone)]
    rfl
  have hresp3 {p : Parser Frame} (hp : p.Yields (Decodable c depth)) :
      (resp3Only c lead p).Yields (Decodable c depth) := .ite (fun _ => hp) fun _ => .fail _
  have hline {what : String} {mk : String → Frame}
      (hmk : ∀ s, admissible c depth (mk s) = decide (depth ≤ maxDepth)) :
      Parse.Yields (readLine >>= fun line => utf8Line what line >>= fun s => pure (mk s))
        (Decodable c depth) := .bind .any fun _ _ => .bind .any fun s _ => .pure (hplain (hmk s))
  unfold parseBody
  refine .ite (fun _ => hline fun _ => rfl) fun _ => .ite (fun _ => hline fun _ => rfl) fun _ =>
    .ite (fun _ => ?_) fun _ => .ite (fun _ => ?_) fun _ => .ite (fun _ => ?_) fun _ =>
    .ite (fun _ => hresp3 ?_) fun _ => .ite (fun _ => hresp3 ?_) fun _ =>
    .ite (fun _ => hresp3 ?_) fun _ => .ite (fun _ => hresp3 ?_) fun _ =>
    .ite (fun _ => hresp3 ?_) fun _ => .ite (fun _ => hresp3 ?_) fun _ =>
    .ite (fun _ => hresp3 ?_) fun _ => .fail _
  · exact .bind .any fun _ _ => .bind .any fun _ _ => .pure (hplain rfl)
  · refine .bind .any fun _ _ => .bind (parseI64_yields _) fun n (hn : n < 2 ^ 63) => ?_
    refine .ite (fun _ => .pure (hplain rfl)) fun _ => .ite (fun _ => .fail _) fun hpos => ?_
    refine .ite (fun _ => .fail _) fun hmax => (bulkPayload_yields _).bind fun b hb => .pure ?_
    intro _
    have hb : b.length = n.toNat := hb
    simp only [admissible, hb, Bool.and_eq_true, decide_eq_true_eq]
    omega
  · refine .bind .any fun _ _ => .bind (parseI64_yields _) fun n hn => ?_
    refine .ite (fun _ => .pure (hplain rfl)) fun _ => ?_
    exact times_yields "array" h (fun items hlen hall => hitems hlen hall rfl rfl) hn
  · refine .bind .any fun _ _ => .bind (parseI64_yields _) fun n hn => ?_
    have hpair : (parsePair item).Yields fun p =>
        Decodable c (depth + 1) p.1 ∧ Decodable c (depth + 1) p.2 :=
      .bind h fun k hk => .bind h fun v hv => .pure ⟨hk, hv⟩
    refine times_yields "map" hpair (fun pairs hlen hall hd => ?_) hn
    rw [admissible, decide_eq_true hdepth, hlen, admissiblePairs_of_decodable hall hd]
    rfl
  · exact .bind .any fun _ _ => .bind (parseI64_yields _) fun n hn =>
      times_yields "set" h (fun items hlen hall => hitems hlen hall rfl rfl) hn
  · exact .bind .any fun _ _ => .bind (parseI64_yields _) fun n hn =>
      times_yields "push" h (fun items hlen hall => hitems hlen hall rfl rfl) hn
  · exact .bind .any fun _ _ => .ite (fun _ => .pure (hplain rfl)) fun _ =>
      .ite (fun _ => .pure (hplain rfl)) fun _ => .fail _
  · have hdouble (d : UInt64) : Decodable c depth (.double d) := fun h => by cases h
    refine .bind .any fun _ _ => .bind .any fun s _ => .ite (fun _ => .pure (hdouble _)) fun _ =>
      .ite (fun _ => .pure (hdouble _)) fun _ => .ite (fun _ => .pure (hdouble _)) fun _ => ?_
    split
    · exact .pure (hdouble _)
    · exact .fail _
  · exact .bind .any fun _ _ => .ite (fun _ => .fail _) fun _ => .pure (hplain rfl)
  · refine .bind .any fun _ _ => .bind .any fun s _ => .ite (fun hs => .pure fun _ => ?_)
      fun _ => .fail _
    rw [admissible, decide_eq_true hdepth, hs]
    rfl

theorem parseLevel_yields : ∀ left depth, depth + left = maxDepth + 1 →
    (parseLevel f64 c left).Yields (Decodable c depth)
  | 0, _, _ => .fail _
  | left + 1, depth, hleft => .bind .any fun lead _ =>
    parseBody_yields (by omega) (parseLevel_yields left (depth + 1) (by omega)) lead

theorem readLine_eq {b line : Bytes} {k : ℕ} (h : readLine b = .ok (line, k)) :
    ∃ rest, b = line ++ crlf ++ rest ∧ k = line.length + 2 := by
  induction b generalizing line k with
  | nil => cases h
  | cons x b ih =>
    rcases readLine_ok_cons h with ⟨rfl, hlf, rfl, rfl⟩ | ⟨-, line', m, hr, rfl, rfl⟩
    · obtain ⟨rest, rfl⟩ := head?_eq_some_iff.1 hlf
      exact ⟨rest, rfl, rfl⟩
    · obtain ⟨rest, rfl, rfl⟩ := ih hr
      exact ⟨rest, rfl, rfl⟩

/-- A text that is read back as one big number, with nothing left over, is a number. -/
theorem isBigNumber_of_parses {s : String} {frame : Frame}
    (h : parseBigNumber (asBytes s ++ crlf) = .ok (frame, (asBytes s ++ crlf).length)) :
    isBigNumber s = true := by
  obtain ⟨line, k, m, hline, hnumber, hk⟩ := of_bind_ok h
  obtain ⟨text, i, j, htext, hnum, rfl⟩ := of_bind_ok hnumber
  obtain ⟨rest, heq, rfl⟩ := readLine_eq hline
  rcases hutf : fromUtf8 line with _ | text <;> rw [utf8Line, hutf] at htext <;> cases htext
  split_ifs at hnum with hbig <;> cases hnum
  rw [heq, length_append, length_append, show crlf.length = 2 from rfl] at hk
  obtain rfl : rest = [] := length_eq_zero_iff.1 (by omega)
  rw [append_nil] at heq
  rw [← append_cancel_right heq, fromUtf8_asBytes] at hutf
  exact Option.some.inj hutf ▸ hbig

/-- What the encoder writes for `frame` is read back as `frame'`, with nothing left over. -/
def ReadAs (f64 : F64Text) (version : ProtocolVersion) (c : RespCodec) (dst : Bytes)
    (frame frame' : Frame) : Prop :=
  ∃ bytes, encodeFrame f64 version frame dst = (.ok (), dst ++ bytes) ∧
    decode f64 c bytes = .ok (some (frame', bytes.length))

/-- A frame without doubles is read back as itself exactly if it is within the decoder's limits and
its big numbers are numbers. A big number alone is read back as one frame at all exactly if it is a
number. -/
theorem decode_alone_iff (hv : version = .resp3 → c.version = .resp3) (frame : Frame)
    (hd : hasDouble frame = false) (dst : Bytes)
    (h : (encodeFrame f64 version frame dst).1 = .ok ()) :
    (ReadAs f64 version c dst frame frame ↔ admissible c 0 frame = true) ∧ ∀ s,
      frame = .bigNumber s → ((∃ frame', ReadAs f64 version c dst frame frame') ↔
        isBigNumber s = true) := by
  have hback (hadm : admissible c 0 frame = true) : ReadAs f64 version c dst frame frame := by
    obtain ⟨bytes, henc, hparse⟩ := encodeFrame_emits f64 hv frame 0 dst hadm h
    refine ⟨bytes, henc, decode_of_parseFrame f64 ?_⟩
    simpa using hparse []
  refine ⟨⟨?_, hback⟩, ?_⟩
  · rintro ⟨_ | ⟨first, rest⟩, henc, hdec⟩
    · cases hdec
    rcases decode_cases c first rest with ⟨n, hping⟩ | ⟨hping, hk⟩ | hk
    · rw [decode_of_ping f64 c hping] at hdec
      cases hdec
      -- an inline `PING` starts with a letter, the frame with a star
      have hstar : first = '*'.toUInt8 := by
        simp [pingFrame, encodeFrame, encodeItems, versioned, Frame.requiresResp3, andThen, header,
          extend] at henc
        exact henc.1.symm
      have hunknown := (matchInlinePing_head hping c.version).1
      rw [hstar] at hunknown
      cases hunknown
    · rw [decode_of_unknown f64 c hping hk] at hdec
      cases hdec
    · exact parseLevel_yields _ 0 rfl _ _ _ ((decode_known_ok f64 c hk).1 hdec) hd
  rintro s rfl
  constructor
  · rintro ⟨frame', bytes, henc, hdec⟩
    rcases version with _ | _
    · cases h
    obtain rfl := append_cancel_left (Prod.mk.inj henc).2
    have hknown : isKnownPrefix '('.toUInt8 c.version = true := by
      rw [hv rfl]
      rfl
    have hparse := (decode_known_ok f64 c hknown).1 hdec
    rw [parseFrame_eq f64 c (Nat.zero_le _)] at hparse
    obtain ⟨lead, k, m, hlead, hbody, hk⟩ := of_bind_ok hparse
    cases hlead
    change resp3Only c _ parseBigNumber (asBytes s ++ crlf) = _ at hbody
    rw [resp3Only_eq (hv rfl)] at hbody
    obtain rfl : m = (asBytes s ++ crlf).length := by simpa [Nat.add_comm 1] using hk.symm
    exact isBigNumber_of_parses hbody
  · exact fun hs => ⟨_, hback (by rw [admissible, hs]; rfl)⟩

theorem decode_alone_number :
    let f64 : F64Text := ⟨fun _ => none, fun _ => ""⟩
    let c : RespCodec := { version := .resp3 }
    let frame : Frame := .array (some [.bigNumber "-12", .simpleString "OK"])
    ReadAs f64 .resp3 c [] frame frame ∧
      ¬ ∃ frame', ReadAs f64 .resp3 c [] (.bigNumber "1\r\n+OK") frame' := by
  intro f64 c frame
  refine ⟨(decode_alone_iff (fun _ => rfl) frame rfl [] rfl).1.2 (by decide +kernel), fun h => ?_⟩
  have hnumber := ((decode_alone_iff (fun _ => rfl) _ rfl [] rfl).2 _ rfl).1 h
  exact absurd hnumber (by decide +kernel)

/-- A big number smuggles a second reply into the stream. -/
theorem big_number_splits :
    let f64 : F64Text := ⟨fun _ => none, fun _ => ""⟩
    let c : RespCodec := { version := .resp3 }
    let bytes := asBytes "(1\r\n+OK\r\n"
    encodeFrame f64 .resp3 (.bigNumber "1\r\n+OK") [] = (.ok (), bytes) ∧
      decode f64 c bytes = .ok (some (.bigNumber "1", 4)) ∧
      decode f64 c (bytes.drop 4) = .ok (some (.simpleString "OK", 5)) :=
  ⟨rfl, rfl, rfl⟩

end Sound

end Kamino.Resp
