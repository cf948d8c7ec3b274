import Kamino.Codec

/-!
# Decoding by chunks

Every parser of the codec is incremental: it fails with `incomplete` only when its answer depends on
the bytes to come.
-/

namespace Kamino.Resp

open Chunks List

variable {e : ProtocolError}

section Parsers

theorem readLine_cons_of_ne {b : UInt8} {rest : Bytes} (h : ¬ (b = cr ∧ rest.head? = some lf)) :
    readLine (b :: rest) = (readLine rest).map fun (line, n) => (b :: line, n + 1) := by
  rw [readLine, if_neg h]

variable {line b : Bytes} {n : ℕ}

theorem readLine_ok_cons {b : UInt8} {rest : Bytes} (h : readLine (b :: rest) = .ok (line, n)) :
    (b = cr ∧ rest.head? = some lf ∧ line = [] ∧ n = 2) ∨ ¬ (b = cr ∧ rest.head? = some lf) ∧
        ∃ line' m, readLine rest = .ok (line', m) ∧ line = b :: line' ∧ n = m + 1 := by
  by_cases hb : b = cr ∧ rest.head? = some lf
  · rw [readLine, if_pos hb] at h
    cases h
    exact .inl ⟨hb.1, hb.2, rfl, rfl⟩
  · rw [readLine_cons_of_ne hb] at h
    rcases hr : readLine rest with e | ⟨line', m⟩ <;> rw [hr] at h <;> cases h
    exact .inr ⟨hb, line', m, rfl, rfl, rfl⟩

theorem readLine_error (h : readLine b = .error e) : e = .incomplete := by
  induction b with
  | nil =>
    cases h
    rfl
  | cons b rest ih =>
    by_cases hb : b = cr ∧ rest.head? = some lf
    · rw [readLine, if_pos hb] at h
      cases h
    · rw [readLine_cons_of_ne hb] at h
      rcases hr : readLine rest with e' | _ <;> rw [hr] at h <;> cases h
      exact ih hr

theorem readLine_append (h : readLine b = .ok (line, n)) (t : Bytes) :
    readLine (b ++ t) = .ok (line, n) := by
  induction b generalizing line n with
  | nil => cases h
  | cons b rest ih =>
    rcases readLine_ok_cons h with ⟨rfl, hlf, rfl, rfl⟩ | ⟨hb, line', m, hr, rfl, rfl⟩
    · rw [cons_append, readLine, if_pos ⟨rfl, by rw [head?_append, hlf]; rfl⟩]
    have hne : rest ≠ [] := by
      rintro rfl
      cases hr
    rw [cons_append, readLine_cons_of_ne, ih hr]
    · rfl
    · rwa [head?_append_of_ne_nil _ hne]

theorem readLine_take (h : readLine b = .ok (line, n)) :
    readLine (b.take n) = .ok (line, n) ∧ n ≤ b.length := by
  induction b generalizing line n with
  | nil => cases h
  | cons b rest ih =>
    rcases readLine_ok_cons h with ⟨rfl, hlf, rfl, rfl⟩ | ⟨hb, line', m, hr, rfl, rfl⟩
    · rcases rest with _ | ⟨x, rest⟩
      · cases hlf
      · cases hlf
        exact ⟨rfl, by simp⟩
    obtain ⟨htake, hle⟩ := ih hr
    refine ⟨?_, by simpa using hle⟩
    rw [take_succ_cons, readLine_cons_of_ne, htake]
    · rfl
    rintro ⟨rfl, hlf⟩
    refine hb ⟨rfl, ?_⟩
    rcases rest with _ | ⟨x, rest⟩
    · cases hr
    · rcases m with _ | m
      · cases hlf
      · exact hlf

theorem readLine_incremental : Parse.Incremental .incomplete readLine where
  le_length h := (readLine_take h).2
  stable {b} h t := by
    rcases hb : readLine b with e | ⟨line, n⟩
    · exact absurd (by rw [hb, readLine_error hb]) h
    · exact readLine_append hb t
  exactly h := (readLine_take h).1

theorem utf8Line_incremental (what : String) (line : Bytes) :
    Parse.Incremental .incomplete (utf8Line what line) := by
  unfold utf8Line
  split
  · exact .pure _
  · exact .fail _

theorem parseI64_incremental (line : Bytes) : Parse.Incremental .incomplete (parseI64 line) := by
  refine (utf8Line_incremental _ _).bind fun s => ?_
  split
  · exact .pure _
  · exact .fail _

theorem bulkPayload_incremental (len : ℕ) : Parse.Incremental .incomplete (bulkPayload len) where
  le_length {b a n} h := by
    unfold bulkPayload at h
    split_ifs at h
    cases h
    omega
  stable {b} h t := by
    have hlen : len + 2 ≤ b.length := by
      by_contra hlt
      exact h (by rw [bulkPayload, if_pos (by omega)])
    have happ : len + 2 ≤ (b ++ t).length := by
      rw [length_append]
      omega
    have hdrop : 2 ≤ (b.drop len).length := by
      rw [length_drop]
      omega
    unfold bulkPayload
    rw [if_neg (Nat.not_lt.2 happ), if_neg (Nat.not_lt.2 hlen),
      drop_append_of_le_length (by omega), take_append_of_le_length hdrop,
      take_append_of_le_length (show len ≤ b.length by omega)]
  exactly {b a n} h := by
    unfold bulkPayload at h ⊢
    split_ifs at h with hlen hcrlf
    cases h
    have htake : (b.take (len + 2)).length = len + 2 := by
      rw [length_take]
      omega
    rw [if_neg (by omega), if_neg, take_take, min_eq_left (by omega)]
    rwa [drop_take, take_take, Nat.add_sub_cancel_left, min_self]

theorem parseBulk_incremental (maxBulk : UInt64) :
    Parse.Incremental .incomplete (parseBulk maxBulk) := by
  refine readLine_incremental.bind fun line => (parseI64_incremental line).bind fun len => ?_
  refine .ite _ (.pure _) (.ite _ (.fail _) (.ite _ (.fail _) ?_))
  exact (bulkPayload_incremental _).bind fun payload => .pure _

theorem parseCount_incremental (kind : String) (maxArray : UInt64) (n : ℤ) :
    Parse.Incremental .incomplete (parseCount kind maxArray n) :=
  .ite _ (.fail _) (.ite _ (.fail _) (.pure _))

section Aggregates

variable (maxArray : UInt64) {item : Parser Frame}

theorem parseArray_incremental (h : item.Incremental .incomplete) :
    Parse.Incremental .incomplete (parseArray maxArray item) := by
  refine readLine_incremental.bind fun line => (parseI64_incremental line).bind fun n => ?_
  refine .ite _ (.pure _) ((parseCount_incremental _ _ _).bind fun count => ?_)
  exact (h.times count).bind fun items => .pure _

theorem parseElements_incremental {α : Type} {element : Parser α} (kind : String)
    (h : element.Incremental .incomplete) (frame : List α → Frame) :
    Parse.Incremental .incomplete (parseElements maxArray kind element frame) := by
  refine readLine_incremental.bind fun line => (parseI64_incremental line).bind fun n => ?_
  refine (parseCount_incremental _ _ _).bind fun count => ?_
  exact (h.times count).bind fun items => .pure _

theorem parsePair_incremental (h : item.Incremental .incomplete) :
    Parse.Incremental .incomplete (parsePair item) :=
  h.bind fun _ => h.bind fun _ => .pure _

end Aggregates

theorem parseBoolean_incremental : Parse.Incremental .incomplete parseBoolean :=
  readLine_incremental.bind fun _ => .ite _ (.pure _) (.ite _ (.pure _) (.fail _))

theorem parseDouble_incremental (f64 : F64Text) :
    Parse.Incremental .incomplete (parseDouble f64) := by
  refine readLine_incremental.bind fun line => (utf8Line_incremental _ _).bind fun s => ?_
  refine .ite _ (.pure _) (.ite _ (.pure _) (.ite _ (.pure _) ?_))
  split
  · exact .pure _
  · exact .fail _

theorem parseNull_incremental : Parse.Incremental .incomplete parseNull :=
  readLine_incremental.bind fun _ => .ite _ (.fail _) (.pure _)

theorem parseBigNumber_incremental : Parse.Incremental .incomplete parseBigNumber :=
  readLine_incremental.bind fun _ => (utf8Line_incremental _ _).bind fun _ =>
    .ite _ (.pure _) (.fail _)

variable (f64 : F64Text) (c : RespCodec)

theorem resp3Only_incremental (lead : UInt8) {p : Parser Frame}
    (h : p.Incremental .incomplete) : Parse.Incremental .incomplete (resp3Only c lead p) :=
  .ite _ h (.fail _)

theorem parseBody_incremental {item : Parser Frame} (h : item.Incremental .incomplete)
    (lead : UInt8) : Parse.Incremental .incomplete (parseBody f64 c item lead) := by
  have hset := parseElements_incremental c.maxArrayLen "set" h .set
  have hpush := parseElements_incremental c.maxArrayLen "push" h .push
  have hmap := parseElements_incremental c.maxArrayLen "map" (parsePair_incremental h) .map
  have hline (what : String) (frame : String → Frame) : Parse.Incremental .incomplete
      (readLine >>= fun line => utf8Line what line >>= fun s => pure (frame s)) :=
    readLine_incremental.bind fun _ => (utf8Line_incremental _ _).bind fun _ => .pure _
  have hint : Parse.Incremental .incomplete
      (readLine >>= fun line => parseI64 line >>= fun v => pure (Frame.integer (Int64.ofInt v))) :=
    readLine_incremental.bind fun _ => (parseI64_incremental _).bind fun _ => .pure _
  refine .ite _ (hline _ _) (.ite _ (hline _ _) (.ite _ hint (.ite _ (parseBulk_incremental _)
    (.ite _ (parseArray_incremental _ h) (.ite _ (resp3Only_incremental c _ hmap)
    (.ite _ (resp3Only_incremental c _ hset) (.ite _ (resp3Only_incremental c _ hpush)
    (.ite _ (resp3Only_incremental c _ parseBoolean_incremental)
    (.ite _ (resp3Only_incremental c _ (parseDouble_incremental f64))
    (.ite _ (resp3Only_incremental c _ parseNull_incremental)
    (.ite _ (resp3Only_incremental c _ parseBigNumber_incremental) (.fail _))))))))))))

theorem nextByte_incremental : Parse.Incremental .incomplete nextByte where
  le_length {b a n} h := by
    rcases b with _ | ⟨b, rest⟩ <;> cases h
    simp
  stable {b} h t := by
    rcases b with _ | ⟨b, rest⟩
    · exact absurd rfl h
    · rfl
  exactly {b a n} h := by
    rcases b with _ | ⟨b, rest⟩ <;> cases h
    rfl

theorem parseLevel_incremental : ∀ left, (parseLevel f64 c left).Incremental .incomplete
  | 0 => .fail _
  | left + 1 => nextByte_incremental.bind fun lead =>
    parseBody_incremental f64 c (parseLevel_incremental left) lead

theorem parseFrame_incremental (depth : ℕ) : (parseFrame f64 c depth).Incremental .incomplete :=
  parseLevel_incremental f64 c _

/-- What `parse_frame` says of a buffer it also says of every longer one, but for `Incomplete`, and
it says that of every buffer shorter than the frame. -/
theorem parseFrame_stable (depth : ℕ) (b : Bytes) :
    (∀ frame n, parseFrame f64 c depth b = .ok (frame, n) → n ≤ b.length ∧
        (∀ t, parseFrame f64 c depth (b ++ t) = .ok (frame, n)) ∧
        ∀ k < n, parseFrame f64 c depth (b.take k) = .error .incomplete) ∧
      ∀ e, parseFrame f64 c depth b = .error e → e ≠ .incomplete →
        ∀ t, parseFrame f64 c depth (b ++ t) = .error e := by
  have hp := parseFrame_incremental f64 c depth
  exact ⟨fun frame n h => ⟨hp.le_length h, hp.ok_append h, fun k hk => hp.take_of_lt h hk⟩,
    fun e h he => hp.error_append h he⟩

end Parsers

variable {t : Bytes}

section Ping

variable {b rest : Bytes} {n : ℕ}

theorem matchInlinePing_eq_some (h : matchInlinePing b = some n) :
    ∃ w x y z rest, b = w :: x :: y :: z :: rest
      ∧ [w, x, y, z].map toAsciiUppercase = asBytes "PING"
      ∧ (rest.head? = some lf ∧ n = 5 ∨ rest.take 2 = crlf ∧ n = 6) := by
  rcases b with _ | ⟨w, _ | ⟨x, _ | ⟨y, _ | ⟨z, rest⟩⟩⟩⟩
  any_goals cases h
  rw [matchInlinePing] at h
  split_ifs at h with hword hlf hcrlf
  · cases h
    exact ⟨w, x, y, z, rest, rfl, not_not.1 hword, .inl ⟨hlf, rfl⟩⟩
  · cases h
    exact ⟨w, x, y, z, rest, rfl, not_not.1 hword, .inr ⟨hcrlf, rfl⟩⟩

theorem matchInlinePing_of_lf {w x y z : UInt8}
    (hword : [w, x, y, z].map toAsciiUppercase = asBytes "PING") (h : rest.head? = some lf) :
    matchInlinePing (w :: x :: y :: z :: rest) = some 5 := by
  rw [matchInlinePing, if_neg (not_not.2 hword), if_pos h]

theorem matchInlinePing_of_crlf {w x y z : UInt8}
    (hword : [w, x, y, z].map toAsciiUppercase = asBytes "PING") (h : rest.take 2 = crlf) :
    matchInlinePing (w :: x :: y :: z :: rest) = some 6 := by
  have hhead : rest.head? ≠ some lf := by
    rcases rest with _ | ⟨r, rest⟩
    · simp
    · have hr : r = cr := (cons.inj h).1
      rw [head?_cons, hr]
      decide
  rw [matchInlinePing, if_neg (not_not.2 hword), if_neg hhead, if_pos h]

theorem matchInlinePing_append (h : matchInlinePing b = some n)
    (t : Bytes) : matchInlinePing (b ++ t) = some n := by
  obtain ⟨w, x, y, z, rest, rfl, hword, ⟨hend, rfl⟩ | ⟨hend, rfl⟩⟩ := matchInlinePing_eq_some h
  · have hlf : (rest ++ t).head? = some lf := by
      rw [head?_append, hend]
      rfl
    exact matchInlinePing_of_lf hword hlf
  have hlen : 2 ≤ rest.length := by
    have := congrArg length hend
    rw [length_take, show crlf.length = 2 from rfl] at this
    omega
  have hcrlf : (rest ++ t).take 2 = crlf := by
    rw [take_append_of_le_length hlen, hend]
  exact matchInlinePing_of_crlf hword hcrlf

theorem matchInlinePing_bounds (h : matchInlinePing b = some n) : 0 < n ∧ n ≤ b.length := by
  obtain ⟨w, x, y, z, rest, rfl, -, ⟨hend, rfl⟩ | ⟨hend, rfl⟩⟩ := matchInlinePing_eq_some h
  · rcases rest with _ | ⟨r, rest⟩
    · cases hend
    · simp
  have := congrArg length hend
  rw [length_take, show crlf.length = 2 from rfl] at this
  simp only [length_cons]
  omega

theorem matchInlinePing_of_append
    (h : matchInlinePing (b ++ t) = some n) (hn : n ≤ b.length) : matchInlinePing b = some n := by
  obtain ⟨w, x, y, z, rest, heq, hword, hend⟩ := matchInlinePing_eq_some h
  have hlen : 5 ≤ b.length := by
    rcases hend with ⟨-, rfl⟩ | ⟨-, rfl⟩ <;> omega
  obtain ⟨b', rfl⟩ : ∃ b', b = w :: x :: y :: z :: b' := by
    rcases b with _ | ⟨w', _ | ⟨x', _ | ⟨y', _ | ⟨z', b'⟩⟩⟩⟩
    any_goals simp at hlen
    cases heq
    exact ⟨b', rfl⟩
  have hrest : rest = b' ++ t := by
    cases heq
    rfl
  subst hrest
  rcases hend with ⟨hend, rfl⟩ | ⟨hend, rfl⟩
  · refine matchInlinePing_of_lf hword ?_
    rcases b' with _ | ⟨r, b'⟩
    · simp at hlen
    · exact hend
  · refine matchInlinePing_of_crlf hword ?_
    rwa [take_append_of_le_length (by simpa using hn)] at hend

theorem toAsciiUppercase_eq_P {b : UInt8} (h : toAsciiUppercase b = 80) : b = 80 ∨ b = 112 := by
  unfold toAsciiUppercase at h
  split_ifs at h
  · right
    rw [← UInt8.sub_add_cancel b 32, h]
    rfl
  · exact .inl h

theorem matchInlinePing_head {first : UInt8}
    (h : matchInlinePing (first :: rest) = some n) (version : ProtocolVersion) :
    isKnownPrefix first version = false ∧ isAsciiAlphabetic first = true := by
  obtain ⟨w, x, y, z, rest', heq, hword, -⟩ := matchInlinePing_eq_some h
  cases heq
  have hup : toAsciiUppercase first = 80 := by
    have : asBytes "PING" = [80, 73, 78, 71] := by decide +kernel
    rw [this] at hword
    exact (cons.inj hword).1
  rcases toAsciiUppercase_eq_P hup with rfl | rfl <;> cases version <;> decide

end Ping

section Decode

variable (f64 : F64Text) (c : RespCodec) {b rest : Bytes} {n : ℕ} {first : UInt8} {a : Frame}

theorem decode_of_ping (h : matchInlinePing b = some n) :
    decode f64 c b = .ok (some (pingFrame, n)) := by
  rcases b with _ | ⟨first, rest⟩
  · cases h
  · simp only [decode, h]

def unknownLead (first : UInt8) : ProtocolError :=
  if isAsciiAlphabetic first then .inlineCommandRejected "only PING is accepted inline"
  else .invalidEncoding ("unexpected leading byte " ++ hexByte first)

theorem decode_of_unknown
    (hping : matchInlinePing (first :: rest) = none) (h : isKnownPrefix first c.version = false) :
    decode f64 c (first :: rest) = .error (unknownLead first) := by
  simp only [decode, hping, h, unknownLead]
  split_ifs <;> simp_all

theorem matchInlinePing_of_known (h : isKnownPrefix first c.version = true) :
    matchInlinePing (first :: rest) = none := by
  rcases hm : matchInlinePing (first :: rest) with _ | n
  · rfl
  · rw [(matchInlinePing_head hm c.version).1] at h
    cases h

theorem decode_cases (first : UInt8) (rest : Bytes) :
    (∃ n, matchInlinePing (first :: rest) = some n) ∨
      matchInlinePing (first :: rest) = none ∧ isKnownPrefix first c.version = false ∨
      isKnownPrefix first c.version = true := by
  rcases hm : matchInlinePing (first :: rest) with _ | n
  · cases hk : isKnownPrefix first c.version
    · exact .inr (.inl ⟨rfl, rfl⟩)
    · exact .inr (.inr rfl)
  · exact .inl ⟨n, rfl⟩

theorem decode_known_ok (h : isKnownPrefix first c.version = true) :
    decode f64 c (first :: rest) = .ok (some (a, n)) ↔
      parseFrame f64 c 0 (first :: rest) = .ok (a, n) := by
  simp only [decode, matchInlinePing_of_known c h, h, not_true, if_false]
  rcases parseFrame f64 c 0 (first :: rest) with e | x
  · cases e <;> simp
  · simp

theorem decode_known_error (h : isKnownPrefix first c.version = true) :
    decode f64 c (first :: rest) = .error e ↔
      parseFrame f64 c 0 (first :: rest) = .error e ∧ e ≠ .incomplete := by
  simp only [decode, matchInlinePing_of_known c h, h, not_true, if_false]
  rcases parseFrame f64 c 0 (first :: rest) with e' | x
  · cases e' <;> simp <;> rintro rfl <;> simp
  · simp

theorem parseFrame_pos (h : parseFrame f64 c 0 b = .ok (a, n)) : 0 < n := by
  obtain ⟨lead, m, k, hlead, -, rfl⟩ := Parse.of_bind_ok h
  rcases b with _ | ⟨b, rest⟩ <;> cases hlead
  omega

theorem decode_consumes (h : decode f64 c b = .ok (some (a, n))) : 0 < n ∧ n ≤ b.length := by
  rcases b with _ | ⟨first, rest⟩
  · cases h
  rcases decode_cases c first rest with ⟨m, hm⟩ | ⟨hm, hk⟩ | hk
  · rw [decode_of_ping f64 c hm] at h
    cases h
    exact matchInlinePing_bounds hm
  · rw [decode_of_unknown f64 c hm hk] at h
    cases h
  · rw [decode_known_ok f64 c hk] at h
    exact ⟨parseFrame_pos f64 c h, (parseFrame_incremental f64 c 0).le_length h⟩

theorem decode_append (h : decode f64 c b = .ok (some (a, n))) (t : Bytes) :
    decode f64 c (b ++ t) = .ok (some (a, n)) := by
  rcases b with _ | ⟨first, rest⟩
  · cases h
  rcases decode_cases c first rest with ⟨m, hm⟩ | ⟨hm, hk⟩ | hk
  · rw [decode_of_ping f64 c hm] at h
    cases h
    exact decode_of_ping f64 c (matchInlinePing_append hm t)
  · rw [decode_of_unknown f64 c hm hk] at h
    cases h
  · rw [decode_known_ok f64 c hk] at h
    rw [cons_append, decode_known_ok f64 c hk]
    exact (parseFrame_incremental f64 c 0).ok_append h t

theorem decode_of_append (h : decode f64 c (b ++ t) = .ok (some (a, n))) (hn : n ≤ b.length) :
    decode f64 c b = .ok (some (a, n)) := by
  rcases b with _ | ⟨first, rest⟩
  · have := (decode_consumes f64 c h).1
    simp only [length_nil] at hn
    omega
  rw [cons_append] at h
  rcases decode_cases c first (rest ++ t) with ⟨m, hm⟩ | ⟨hm, hk⟩ | hk
  · rw [decode_of_ping f64 c hm] at h
    cases h
    rw [← cons_append] at hm
    exact decode_of_ping f64 c (matchInlinePing_of_append hm hn)
  · rw [decode_of_unknown f64 c hm hk] at h
    cases h
  · rw [decode_known_ok f64 c hk] at h ⊢
    exact (parseFrame_incremental f64 c 0).of_append h hn

theorem decode_error_append (h : decode f64 c b = .error e)
    (t : Bytes) : decode f64 c (b ++ t) = .error e ∨
      ∃ n, matchInlinePing (b ++ t) = some n ∧ b.length < n := by
  rcases b with _ | ⟨first, rest⟩
  · cases h
  rcases decode_cases c first rest with ⟨m, hm⟩ | ⟨hm, hk⟩ | hk
  · rw [decode_of_ping f64 c hm] at h
    cases h
  · rw [decode_of_unknown f64 c hm hk] at h
    cases h
    rcases hm' : matchInlinePing (first :: rest ++ t) with _ | n
    · exact .inl (decode_of_unknown f64 c hm' hk)
    refine .inr ⟨n, rfl, ?_⟩
    by_contra hle
    rw [matchInlinePing_of_append hm' (by omega)] at hm
    cases hm
  · rw [decode_known_error f64 c hk] at h
    left
    rw [cons_append, decode_known_error f64 c hk]
    exact ⟨(parseFrame_incremental f64 c 0).error_append h.1 h.2 t, h.2⟩

theorem decode_steady : Steady (decode f64 c) where
  empty := rfl
  consumes := decode_consumes f64 c
  final := decode_append f64 c
  exactly := decode_of_append f64 c
  error h t := by
    rcases decode_error_append f64 c h t with h' | ⟨n, hn, hlt⟩
    · exact .inl h'
    · exact .inr ⟨_, n, decode_of_ping f64 c hn, hlt⟩

theorem decode_unfinished_ping (h : matchInlinePing (b ++ t) = some n)
    (hpos : b ≠ []) (hlt : b.length < n) :
    decode f64 c b = .error (.inlineCommandRejected "only PING is accepted inline") := by
  obtain ⟨first, rest, rfl⟩ := exists_cons_of_ne_nil hpos
  have hm : matchInlinePing (first :: rest) = none := by
    rcases hm : matchInlinePing (first :: rest) with _ | m
    · rfl
    have hbound := (matchInlinePing_bounds hm).2
    rw [matchInlinePing_append hm t] at h
    cases h
    omega
  obtain ⟨hk, halpha⟩ := matchInlinePing_head h c.version
  rw [decode_of_unknown f64 c hm hk, unknownLead, if_pos halpha]

end Decode

section Stream

variable (f64 : F64Text) (c : RespCodec)

/-- A chunk ends inside an inline `PING` that the stream has where a frame starts. -/
def SplitsPing (chunks : List Bytes) : Prop :=
  ∃ pre suf, chunks = pre ++ suf ∧ ∃ i fs n, Reaches (decode f64 c) chunks.flatten i fs
    ∧ matchInlinePing (chunks.flatten.drop i) = some n
    ∧ i < pre.flatten.length ∧ pre.flatten.length < i + n

/-- Chunks decode as the whole stream does, unless a cut splits an inline `PING`. -/
theorem decode_chunks_iff (chunks : List Bytes) :
    (feedAll (decode f64 c) chunks).answer = (feedAll (decode f64 c) [chunks.flatten]).answer ↔
      ¬ SplitsPing f64 c chunks := by
  rw [feedAll_eq_iff (decode_steady f64 c)]
  have hsuffix {pre suf : List Bytes} {i : ℕ} (hle : i ≤ pre.flatten.length) :
      (pre ++ suf).flatten.drop i = pre.flatten.drop i ++ suf.flatten := by
    rw [flatten_append, drop_append_of_le_length hle]
  constructor
  · rintro hnone ⟨pre, suf, rfl, i, fs, n, hi, hn, hlt, hend⟩
    have hshort : (pre.flatten.drop i).length < n := by
      rw [length_drop]
      omega
    have herr := decode_unfinished_ping f64 c (hsuffix hlt.le ▸ hn) (by simpa using hlt) hshort
    exact hnone pre suf rfl i fs hi _ n (decode_of_ping f64 c hn) hlt.le hend _ herr
  rintro hsplit pre suf rfl i fs hi a n hn hle hlt e he
  rw [hsuffix hle] at hn
  rcases decode_error_append f64 c he suf.flatten with h | ⟨m, hm, hshort⟩
  · rw [h] at hn
    cases hn
  refine hsplit ⟨pre, suf, rfl, i, fs, m, hi, by rwa [hsuffix hle], ?_, ?_⟩
  · refine lt_of_le_of_ne hle fun heq => ?_
    rw [heq, drop_length] at he
    cases he
  · rw [length_drop] at hshort
    omega

/-- A client's `PING` line that arrives in two packets is refused, though it is answered when it
arrives in one. -/
theorem split_ping_rejected :
    let f64 : F64Text := ⟨fun _ => none, fun _ => ""⟩
    let chunked := feedAll (decode f64 {}) [asBytes "PI", asBytes "NG\r\n"]
    let whole := feedAll (decode f64 {}) [asBytes "PING\r\n"]
    [asBytes "PI", asBytes "NG\r\n"].flatten = asBytes "PING\r\n" ∧ chunked.frames.length = 0
      ∧ chunked.error = some (.inlineCommandRejected "only PING is accepted inline")
      ∧ whole.frames.length = 1 ∧ whole.error = none := by
  decide +kernel

end Stream

end Kamino.Resp
