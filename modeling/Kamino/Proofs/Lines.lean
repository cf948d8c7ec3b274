import Kamino.Handlers
import Kamino.Proofs.Numbers
import Kamino.Proofs.Utf8
import Mathlib.Data.String.Basic

/-!
# Texts on one line, and the frames the encoder takes

The encoder rejects a frame for a line break in a simple string or an error, and under RESP2 for a
kind of RESP3. `{:?}` escapes line breaks, `from_utf8_lossy` keeps them.
-/

namespace Kamino.Resp

open List String

section Characters

theorem mem_utf8EncodeChar_iff {y : UInt8} (hy : y.toNat < 128) (c : Char) :
    y ∈ utf8EncodeChar c ↔ c.val.toNat = y.toNat := by
  unfold utf8EncodeChar
  dsimp only
  split_ifs <;>
    simp only [mem_cons, not_mem_nil, or_false, ← UInt8.toNat_inj, UInt8.toNat_ofNat'] <;>
    omega

theorem mem_asBytes_iff {y : UInt8} (hy : y.toNat < 128) (s : String) :
    y ∈ asBytes s ↔ ∃ c ∈ s.toList, c.val.toNat = y.toNat := by
  rw [asBytes_eq, mem_flatMap]
  simp only [mem_utf8EncodeChar_iff hy]

variable {s t : String}

theorem oneLine_iff : OneLine s ↔ ∀ c ∈ s.toList, c.val.toNat ≠ 13 ∧ c.val.toNat ≠ 10 := by
  unfold OneLine
  rw [mem_asBytes_iff (by decide), mem_asBytes_iff (by decide)]
  constructor
  · rintro ⟨hcr, hlf⟩ c hc
    exact ⟨fun h => hcr ⟨c, hc, h⟩, fun h => hlf ⟨c, hc, h⟩⟩
  · intro h
    exact ⟨fun ⟨c, hc, heq⟩ => (h c hc).1 heq, fun ⟨c, hc, heq⟩ => (h c hc).2 heq⟩

theorem OneLine.of_subset (h : OneLine t) (hsub : s.toList ⊆ t.toList) : OneLine s :=
  oneLine_iff.2 fun c hc => oneLine_iff.1 h c (hsub hc)

@[simp]
theorem oneLine_append : OneLine (s ++ t) ↔ OneLine s ∧ OneLine t := by
  simp only [oneLine_iff, toList_append, forall_mem_append]

theorem OneLine.append (hs : OneLine s) (ht : OneLine t) : OneLine (s ++ t) :=
  oneLine_append.2 ⟨hs, ht⟩

end Characters

section Texts

@[simp]
theorem oneLine_nat (n : ℕ) : OneLine n.repr := by
  rw [oneLine_iff, Nat.toList_repr]
  intro c hc
  have hdigit := Char.isDigit_iff_toNat.1 (isDigit_of_mem_toDigits hc)
  simp only [Char.reduceToNat] at hdigit
  have hval : c.val.toNat = c.toNat := rfl
  omega

@[simp]
theorem oneLine_int (n : ℤ) : OneLine n.repr := by
  cases n with
  | ofNat m => exact oneLine_nat m
  | negSucc m => exact OneLine.append (by decide) (oneLine_nat (m + 1))

@[simp]
theorem oneLine_uint32 (n : UInt32) : OneLine (toString n) := oneLine_nat n.toNat

theorem oneLine_hex (n : ℕ) : OneLine (ofList (Nat.toDigits 16 n)) := by
  have hdigit : ∀ d < 16, d.digitChar.val.toNat ≠ 13 ∧ d.digitChar.val.toNat ≠ 10 := by decide
  rw [oneLine_iff, toList_ofList]
  induction n using Nat.strong_induction_on with
  | h n ih =>
    rw [Nat.toDigits_eq_if (by decide)]
    split_ifs with hlt
    · exact forall_mem_singleton.2 (hdigit n hlt)
    · have hmod := hdigit (n % 16) (Nat.mod_lt n (by decide))
      exact forall_mem_append.2 ⟨ih (n / 16) (by omega), forall_mem_singleton.2 hmod⟩

theorem oneLine_escapeDebug (printable : Char → Bool) (c : Char) :
    OneLine (escapeDebug printable c) := by
  unfold escapeDebug
  split_ifs with hnul htab hcr hlf hquote hslash hprint
  · decide
  · decide
  · decide
  · decide
  · decide
  · decide
  · rw [oneLine_iff, Char.toString_eq_singleton, toList_singleton, forall_mem_singleton]
    have heq {d : Char} (h : c.val.toNat = d.val.toNat) : c = d :=
      Char.ext (UInt32.toNat_inj.1 h)
    exact ⟨fun h => hcr (heq h), fun h => hlf (heq h)⟩
  · exact .append (.append (by decide) (oneLine_hex c.toNat)) (by decide)

@[simp]
theorem oneLine_debugStr (printable : Char → Bool) (s : String) :
    OneLine (debugStr printable s) := by
  refine .append (.append (by decide) ?_) (by decide)
  rw [oneLine_iff, toList_join]
  intro c hc
  obtain ⟨t, ht, hc⟩ := mem_flatMap.1 hc
  obtain ⟨d, -, rfl⟩ := mem_map.1 ht
  exact oneLine_iff.1 (oneLine_escapeDebug printable d) c hc

theorem oneLine_lossy_iff (b : Bytes) : OneLine (lossy b) ↔ cr ∉ b ∧ lf ∉ b := by
  unfold OneLine
  rw [asBytes_lossy, mem_fromUtf8Lossy_iff (by decide), mem_fromUtf8Lossy_iff (by decide)]

theorem extract_subset (s : String) (b e : String.Pos.Raw) : (b.extract s e).toList ⊆ s.toList := by
  have hgo₂ (cs : List Char) (i : String.Pos.Raw) : String.Pos.Raw.extract.go₂ cs i e ⊆ cs := by
    induction cs generalizing i with
    | nil => exact List.Subset.refl _
    | cons c cs ih =>
      rw [String.Pos.Raw.extract.go₂]
      split_ifs
      · exact nil_subset _
      · exact cons_subset_cons c (ih _)
  have hgo₁ (cs : List Char) (i : String.Pos.Raw) : String.Pos.Raw.extract.go₁ cs i b e ⊆ cs := by
    induction cs generalizing i with
    | nil => exact List.Subset.refl _
    | cons c cs ih =>
      rw [String.Pos.Raw.extract.go₁]
      split_ifs
      · exact hgo₂ _ _
      · exact subset_cons_of_subset c (ih _)
  unfold String.Pos.Raw.extract
  dsimp only
  split_ifs
  · exact nil_subset _
  · rw [toList_ofList]
    exact hgo₁ _ _

theorem splitOnAux_subset (s sep : String) (b i j : String.Pos.Raw) (r : List String)
    (hr : ∀ t ∈ r, t.toList ⊆ s.toList) : ∀ t ∈ s.splitOnAux sep b i j r, t.toList ⊆ s.toList := by
  induction b, i, j, r using splitOnAux.induct s sep with
  | case1 b i j r hend =>
    rw [splitOnAux, if_pos hend]
    intro t ht
    rcases mem_cons.1 (mem_reverse.1 ht) with rfl | ht
    · exact extract_subset s b i
    · exact hr t ht
  | case2 b i j r hend heq i' j' hsep ih =>
    rw [splitOnAux, if_neg hend, if_pos heq]
    dsimp only
    rw [if_pos hsep]
    exact ih (forall_mem_cons.2 ⟨extract_subset s b _, hr⟩)
  | case3 b i j r hend heq i' j' hsep ih =>
    rw [splitOnAux, if_neg hend, if_pos heq]
    dsimp only
    rw [if_neg hsep]
    exact ih hr
  | case4 b i j r hend heq ih =>
    rw [splitOnAux, if_neg hend, if_neg heq]
    exact ih hr

theorem OneLine.splitOn {s sep : String} (h : OneLine s) : ∀ t ∈ s.splitOn sep, OneLine t := by
  unfold String.splitOn
  split_ifs
  · exact forall_mem_singleton.2 h
  · exact fun t ht => h.of_subset (splitOnAux_subset s sep 0 0 0 [] (by simp) t ht)

theorem OneLine.intercalate {sep : String} (hsep : OneLine sep) :
    ∀ {ts : List String}, (∀ t ∈ ts, OneLine t) → OneLine (sep.intercalate ts)
  | [], _ => by
    rw [String.intercalate_nil]
    decide
  | [t], h => by
    rw [String.intercalate_singleton]
    exact h t mem_cons_self
  | t :: u :: ts, h => by
    rw [String.intercalate_cons_cons]
    obtain ⟨ht, hts⟩ := forall_mem_cons.1 h
    exact .append (.append ht hsep) (hsep.intercalate hts)

end Texts

/-! ### What the encoder takes -/

section Uniform

variable {p q : Encoder}

/-- Whether the encoder succeeds does not depend on what has been written. -/
def Uniform (p : Encoder) : Prop := ∀ dst dst', (p dst).1 = (p dst').1

theorem Uniform.extend (bytes : Bytes) : Uniform (extend bytes) := fun _ _ => rfl

theorem Uniform.reject (e : ProtocolError) : Uniform (reject e) := fun _ _ => rfl

theorem andThen_fst (dst : Bytes) : (andThen p q dst).1 = .ok () ↔
    (p dst).1 = .ok () ∧ (q (p dst).2).1 = .ok () := by
  unfold andThen
  rcases p dst with ⟨_ | ⟨⟩, dst'⟩
  · simp
  · simp

theorem Uniform.andThen (hp : Uniform p) (hq : Uniform q) : Uniform (andThen p q) := by
  intro dst dst'
  unfold Resp.andThen
  have h := hp dst dst'
  rcases hd : p dst with ⟨e | ⟨⟩, d⟩ <;> rcases hd' : p dst' with ⟨e' | ⟨⟩, d'⟩ <;>
    rw [hd, hd'] at h
  · cases h
    rfl
  · cases h
  · cases h
  · exact hq d d'

end Uniform

/-- The property is kept by the ways an encoder is built. -/
structure Compositional (P : Encoder → Prop) : Prop where
  extend : ∀ bytes, P (extend bytes)
  reject : ∀ e, P (reject e)
  andThen : ∀ {p q}, P p → P q → P (andThen p q)

section Accepted

variable {f64 : F64Text} {version : ProtocolVersion} {frame : Frame}

namespace Compositional

variable {P : Encoder → Prop} (h : Compositional P)
include h

theorem versioned {p : Encoder} (hp : P p) : P (versioned version frame p) := by
  unfold Resp.versioned
  split_ifs
  · exact h.reject _
  · exact hp

theorem encodeLine (lead : Char) (what s : String) : P (encodeLine lead what s) := by
  unfold Resp.encodeLine
  split_ifs
  · exact h.reject _
  · exact h.extend _

mutual

theorem encodeFrame : ∀ frame : Frame, P (encodeFrame f64 version frame)
  | .simpleString s | .error s => h.versioned (h.encodeLine _ _ s)
  | .integer _ | .bulk none | .array none | .boolean _ | .double _ | .null | .bigNumber _ =>
    h.versioned (h.extend _)
  | .bulk (some _) => h.versioned (h.andThen (h.extend _) (h.extend _))
  | .array (some items) | .set items | .push items =>
    h.versioned (h.andThen (h.extend _) (encodeItems items))
  | .map pairs => h.versioned (h.andThen (h.extend _) (encodePairs pairs))

theorem encodeItems : ∀ items : List Frame, P (encodeItems f64 version items)
  | [] => h.extend _
  | item :: items => h.andThen (encodeFrame item) (encodeItems items)

theorem encodePairs : ∀ pairs : List (Frame × Frame), P (encodePairs f64 version pairs)
  | [] => h.extend _
  | (k, v) :: pairs => h.andThen (encodeFrame k) (h.andThen (encodeFrame v) (encodePairs pairs))

end

end Compositional

theorem compositional_uniform : Compositional Uniform := ⟨.extend, .reject, .andThen⟩

theorem compositional_appends : Compositional fun p => ∀ dst, dst <+: (p dst).2 where
  extend bytes dst := prefix_append dst bytes
  reject _ dst := prefix_rfl
  andThen {p q} hp hq dst := by
    have hdst := hp dst
    unfold Resp.andThen
    generalize p dst = result at hdst ⊢
    rcases result with ⟨_ | ⟨⟩, dst'⟩
    · exact hdst
    · exact hdst.trans (hq dst')

/-- The encoder takes the frame. -/
def Accepted (f64 : F64Text) (version : ProtocolVersion) (frame : Frame) : Prop :=
  ∀ dst, (encodeFrame f64 version frame dst).1 = .ok ()

theorem accepted_iff (dst : Bytes) :
    Accepted f64 version frame ↔ (encodeFrame f64 version frame dst).1 = .ok () :=
  ⟨fun h => h dst, fun h dst' => (compositional_uniform.encodeFrame frame dst' dst).trans h⟩

variable {items : List Frame} {s : String}

theorem encodeItems_ok_iff (dst : Bytes) :
    (encodeItems f64 version items dst).1 = .ok () ↔ ∀ f ∈ items, Accepted f64 version f := by
  induction items generalizing dst with
  | nil => simp [encodeItems, extend]
  | cons f fs ih => rw [encodeItems, andThen_fst, ih, ← accepted_iff, forall_mem_cons]

theorem encodeLine_ok_iff {lead : Char} {what : String} {dst : Bytes} :
    (encodeLine lead what s dst).1 = .ok () ↔ OneLine s := by
  have hany : (asBytes s).any (fun b => b = cr || b = lf) = true ↔ ¬ OneLine s := by
    simp only [OneLine, any_eq_true, Bool.or_eq_true, decide_eq_true_eq]
    constructor
    · rintro ⟨b, hb, rfl | rfl⟩ h
      · exact h.1 hb
      · exact h.2 hb
    intro h
    by_cases hcr : cr ∈ asBytes s
    · exact ⟨cr, hcr, .inl rfl⟩
    · exact ⟨lf, not_not.1 fun hlf => h ⟨hcr, hlf⟩, .inr rfl⟩
  unfold encodeLine
  split_ifs with h
  · exact iff_of_false (by simp [reject]) (hany.1 h)
  · exact iff_of_true rfl (not_not.1 (mt hany.2 h))

theorem versioned_of_resp2 {p : Encoder} (h : frame.requiresResp3 = false) :
    versioned version frame p = p := by
  rw [versioned, if_neg (by simp [h])]

@[simp]
theorem accepted_error : Accepted f64 version (.error s) ↔ OneLine s := by
  rw [accepted_iff [], encodeFrame, versioned_of_resp2 rfl, encodeLine_ok_iff]

@[simp]
theorem accepted_simpleString : Accepted f64 version (.simpleString s) ↔ OneLine s := by
  rw [accepted_iff [], encodeFrame, versioned_of_resp2 rfl, encodeLine_ok_iff]

@[simp]
theorem accepted_integer (n : Int64) : Accepted f64 version (.integer n) := by
  rw [accepted_iff [], encodeFrame, versioned_of_resp2 rfl]
  rfl

@[simp]
theorem accepted_bulk (b : Option Bytes) : Accepted f64 version (.bulk b) := by
  rw [accepted_iff [], encodeFrame.eq_def, versioned_of_resp2 rfl]
  cases b <;> rfl

@[simp]
theorem accepted_array :
    Accepted f64 version (.array (some items)) ↔ ∀ f ∈ items, Accepted f64 version f := by
  rw [accepted_iff [], encodeFrame, versioned_of_resp2 rfl, andThen_fst, encodeItems_ok_iff]
  exact and_iff_right rfl

theorem not_accepted_map {pairs : List (Frame × Frame)} : ¬ Accepted f64 .resp2 (.map pairs) := by
  rw [accepted_iff [], encodeFrame, versioned, if_pos ⟨rfl, rfl⟩]
  simp [reject]

theorem accepted_push (h : ∀ f ∈ items, Accepted f64 .resp3 f) :
    Accepted f64 .resp3 (.push items) := by
  rw [accepted_iff [], encodeFrame, versioned, if_neg (by simp), andThen_fst, encodeItems_ok_iff]
  exact ⟨rfl, h⟩

/-- The header of a frame of other frames, and those frames. -/
def Frame.aggregate : Frame → Option (Char × ℕ × List Frame)
  | .array (some items) => some ('*', items.length, items)
  | .map pairs => some ('%', pairs.length, pairs.flatMap fun p => [p.1, p.2])
  | .set items => some ('~', items.length, items)
  | .push items => some ('>', items.length, items)
  | _ => none

theorem encodePairs_eq (pairs : List (Frame × Frame)) : encodePairs f64 version pairs =
    encodeItems f64 version (pairs.flatMap fun p => [p.1, p.2]) := by
  induction pairs with
  | nil => rw [encodePairs, flatMap_nil, encodeItems]
  | cons p pairs ih =>
    rw [encodePairs, ih, flatMap_cons, cons_append, cons_append, nil_append, encodeItems,
      encodeItems]

theorem encodeFrame_aggregate {lead : Char} {n : ℕ}
    (hv : ¬ (version = .resp2 ∧ frame.requiresResp3))
    (ha : frame.aggregate = some (lead, n, items)) (dst : Bytes) :
    encodeFrame f64 version frame dst = encodeItems f64 version items (header lead n dst).2 := by
  rw [encodeFrame.eq_def, versioned, if_neg hv]
  cases frame with
  | array items =>
    rcases items with _ | items <;> cases ha
    rfl
  | map pairs =>
    cases ha
    exact congrFun (encodePairs_eq pairs) _
  | set items | push items =>
    cases ha
    rfl
  | _ => cases ha

theorem encodeItems_error {e : ProtocolError} {dst out : Bytes}
    (h : encodeItems f64 version items dst = (.error e, out)) :
    ∃ before part after written, items = before ++ part :: after ∧
      encodeItems f64 version before dst = (.ok (), written) ∧
      encodeFrame f64 version part written = (.error e, out) := by
  induction items generalizing dst with
  | nil => cases h
  | cons item items ih =>
    rw [encodeItems, andThen] at h
    rcases hitem : encodeFrame f64 version item dst with ⟨_ | ⟨⟩, dst'⟩ <;> rw [hitem] at h
    · cases h
      refine ⟨[], item, items, dst ++ [], rfl, rfl, ?_⟩
      rw [append_nil, hitem]
    · obtain ⟨before, part, after, written, rfl, hbefore, hpart⟩ := ih h
      refine ⟨item :: before, part, after, written, rfl, ?_, hpart⟩
      rw [encodeItems, andThen, hitem]
      exact hbefore

/-- What an encoder that fails leaves in the buffer: what was there, and of a frame of frames that
is not refused itself its header, what comes before the part that is refused, and what that part
leaves. -/
theorem failed_encode_iff {frame : Frame} {e : ProtocolError} (dst : Bytes)
    (h : (encodeFrame f64 version frame dst).1 = .error e) :
    dst <+: (encodeFrame f64 version frame dst).2 ∧ ((encodeFrame f64 version frame dst).2 = dst ↔
        version = .resp2 ∧ frame.requiresResp3 ∨ frame.aggregate = none)
      ∧ (¬ (version = .resp2 ∧ frame.requiresResp3) → ∀ lead n parts,
        frame.aggregate = some (lead, n, parts) → ∃ before part after written,
          parts = before ++ part :: after ∧
          encodeItems f64 version before (header lead n dst).2 = (.ok (), written) ∧
          encodeFrame f64 version part written
            = (.error e, (encodeFrame f64 version frame dst).2)) := by
  refine ⟨compositional_appends.encodeFrame frame dst, ?_, fun hv lead n parts ha => ?_⟩
  · by_cases hv : version = .resp2 ∧ frame.requiresResp3
    · rw [encodeFrame.eq_def, versioned, if_pos hv]
      exact iff_of_true rfl (.inl hv)
    rcases ha : frame.aggregate with _ | ⟨lead, n, parts⟩
    · refine iff_of_true ?_ (.inr rfl)
      rw [encodeFrame.eq_def, versioned, if_neg hv] at h ⊢
      cases frame with
      | simpleString s | error s =>
        dsimp only [encodeLine] at h ⊢
        split_ifs at h ⊢
        · rfl
        · cases h
      | bulk o | array o => rcases o with _ | _ <;> first | cases h | cases ha
      | _ => first | cases h | cases ha
    · refine iff_of_false (fun heq => ?_) (by simp [hv])
      have hlen := (@Compositional.encodeItems f64 version _ compositional_appends parts
        (header lead n dst).2).length_le
      rw [← encodeFrame_aggregate hv ha, heq] at hlen
      simp [header, extend] at hlen
  · rw [encodeFrame_aggregate hv ha] at h ⊢
    exact encodeItems_error (Prod.ext h rfl)

theorem failed_encode_line :
    let f64 : F64Text := ⟨fun _ => none, fun _ => ""⟩
    (encodeFrame f64 .resp2 (.error "a\r\n") [1]).2 = [1] :=
  (@failed_encode_iff _ _ _ (.invalidEncoding "error string contains CR/LF") [1]
    (by decide +kernel)).2.1.2 (.inr rfl)

/-- Of an array whose second item is refused, the header and the first item are written. -/
theorem failed_encode_writes :
    let f64 : F64Text := ⟨fun _ => none, fun _ => ""⟩
    encodeFrame f64 .resp2 (.array (some [.integer 1, .error "a\r\n"])) [] =
      (.error (.invalidEncoding "error string contains CR/LF"), asBytes "*2\r\n:1\r\n") := by
  decide +kernel

end Accepted

end Kamino.Resp
