import Mathlib.Data.List.Induction

/-!
# Decoding a stream chunk by chunk

`feed` appends a chunk to the buffer and decodes until the decoder asks for more. `Reaches d s i fs`
says that the decoder, given the whole stream `s`, has read `fs` by position `i`.
-/

namespace Chunks

open List

variable {ε β α : Type*}

/-- What has been decoded so far, the error if there was one, and the buffer. -/
structure Drained (ε β α : Type*) where
  frames : List α
  error : Option ε
  rest : List β

def Drained.answer (st : Drained ε β α) : List α × Option ε := (st.frames, st.error)

variable (d : List β → Except ε (Option (α × ℕ)))

/-- Calls the decoder until it asks for more or fails. -/
def drain : ℕ → List β → Drained ε β α
  | 0, s => ⟨[], none, s⟩
  | fuel + 1, s =>
    match d s with
    | .error e => ⟨[], some e, s⟩
    | .ok none => ⟨[], none, s⟩
    | .ok (some (a, n)) =>
      let st := drain fuel (s.drop n)
      { st with frames := a :: st.frames }

def feed (st : Drained ε β α) (chunk : List β) : Drained ε β α :=
  match st.error with
  | some _ => st
  | none =>
    let s := st.rest ++ chunk
    let st' := drain d (s.length + 1) s
    { st' with frames := st.frames ++ st'.frames }

def feedAll (chunks : List (List β)) : Drained ε β α :=
  chunks.foldl (feed d) ⟨[], none, []⟩

/-- Given the whole stream, the decoder has read these values by this position. -/
inductive Reaches (s : List β) : ℕ → List α → Prop
  | start : Reaches s 0 []
  | frame {i : ℕ} {fs : List α} {a : α} {n : ℕ} :
    Reaches s i fs → d (s.drop i) = .ok (some (a, n)) → Reaches s (i + n) (fs ++ [a])

/-- The decoder reads no further value from `b`. -/
def Stops (b : List β) : Option ε → Prop
  | none => d b = .ok none
  | some e => d b = .error e

/-- The values of the decoder are final, and so are its errors unless they are premature. -/
structure Steady : Prop where
  empty : d [] = .ok none
  consumes : ∀ {b a n}, d b = .ok (some (a, n)) → 0 < n ∧ n ≤ b.length
  final : ∀ {b a n}, d b = .ok (some (a, n)) → ∀ t, d (b ++ t) = .ok (some (a, n))
  exactly : ∀ {b t a n}, d (b ++ t) = .ok (some (a, n)) → n ≤ b.length → d b = .ok (some (a, n))
  error : ∀ {b e}, d b = .error e → ∀ t,
    d (b ++ t) = .error e ∨ ∃ a n, d (b ++ t) = .ok (some (a, n)) ∧ b.length < n

variable {d}

theorem Stops.not_some {b : List β} {err : Option ε} (h : Stops d b err) (x : α × ℕ) :
    d b ≠ .ok (some x) := by
  cases err with
  | none =>
    rw [show d b = .ok none from h]
    simp
  | some e =>
    rw [show d b = .error e from h]
    simp

namespace Reaches

variable {s : List β} {i j : ℕ} {fs gs : List α}

theorem le_length (hd : Steady d) (h : Reaches d s i fs) : i ≤ s.length := by
  induction h with
  | start => exact Nat.zero_le _
  | frame _ hn ih =>
    have := (hd.consumes hn).2
    rw [length_drop] at this
    omega

theorem append (hd : Steady d) (h : Reaches d s i fs) (t : List β) : Reaches d (s ++ t) i fs := by
  induction h with
  | start => exact .start
  | frame hi hn ih =>
    refine ih.frame ?_
    rw [drop_append_of_le_length (hi.le_length hd)]
    exact hd.final hn t

theorem of_append (hd : Steady d) {t : List β} (h : Reaches d (s ++ t) i fs) :
    i ≤ s.length → Reaches d s i fs := by
  induction h with
  | start => exact fun _ => .start
  | frame _ hn ih =>
    intro hle
    refine (ih (by omega)).frame ?_
    rw [drop_append_of_le_length (by omega)] at hn
    exact hd.exactly hn (by rw [length_drop]; omega)

variable (h : Reaches d s i fs)
include h

theorem det : ∀ {j gs}, Reaches d s j gs → gs.length = fs.length → j = i ∧ gs = fs := by
  induction h with
  | start =>
    intro j gs hj hlen
    cases hj with
    | start => exact ⟨rfl, rfl⟩
    | frame => simp at hlen
  | @frame i fs a n _ hn ih =>
    intro j gs hj hlen
    cases hj with
    | start => simp at hlen
    | frame hj hm =>
      obtain ⟨rfl, rfl⟩ := ih hj (by simpa using hlen)
      rw [hn] at hm
      cases hm
      exact ⟨rfl, rfl⟩

theorem earlier : ∀ {j gs}, Reaches d s j gs → gs.length < fs.length →
      j ≤ i ∧ ∃ x, d (s.drop j) = .ok (some x) := by
  induction h with
  | start => exact fun _ hlen => absurd hlen (Nat.not_lt_zero _)
  | @frame i fs a n hi hn ih =>
    intro j gs hj hlen
    rw [length_append, length_singleton, Nat.lt_succ_iff] at hlen
    rcases Nat.lt_or_eq_of_le hlen with hlt | heq
    · obtain ⟨hle, hx⟩ := ih hj hlt
      exact ⟨by omega, hx⟩
    · obtain ⟨rfl, -⟩ := hi.det hj heq
      exact ⟨by omega, _, hn⟩

theorem le_of_stops {err : Option ε} (hstop : Stops d (s.drop i) err)
    (hj : Reaches d s j gs) : j ≤ i := by
  rcases Nat.lt_trichotomy gs.length fs.length with hlt | heq | hgt
  · exact (h.earlier hj hlt).1
  · exact Nat.le_of_eq (h.det hj heq).1
  · obtain ⟨-, x, hx⟩ := hj.earlier h hgt
    exact absurd hx (hstop.not_some x)

theorem stops_unique {err err' : Option ε} (hstop : Stops d (s.drop i) err)
    (hj : Reaches d s j gs) (hstop' : Stops d (s.drop j) err') : fs = gs ∧ err = err' := by
  rcases Nat.lt_trichotomy gs.length fs.length with hlt | heq | hgt
  · obtain ⟨-, x, hx⟩ := h.earlier hj hlt
    exact absurd hx (hstop'.not_some x)
  · obtain ⟨rfl, rfl⟩ := h.det hj heq
    refine ⟨rfl, ?_⟩
    cases err <;> cases err' <;> simp_all [Stops]
  · obtain ⟨-, x, hx⟩ := hj.earlier h hgt
    exact absurd hx (hstop.not_some x)

end Reaches

theorem drain_spec (hd : Steady d) (s : List β) :
    ∀ (fuel : ℕ) {i : ℕ} {fs : List α}, Reaches d s i fs → (s.drop i).length < fuel →
      ∃ j, Reaches d s j (fs ++ (drain d fuel (s.drop i)).frames)
        ∧ Stops d (s.drop j) (drain d fuel (s.drop i)).error
        ∧ (drain d fuel (s.drop i)).rest = s.drop j
  | 0, _, _, _, hlt => absurd hlt (Nat.not_lt_zero _)
  | fuel + 1, i, fs, h, hlt => by
    rcases hx : d (s.drop i) with e | _ | ⟨a, n⟩
    · refine ⟨i, ?_, ?_, ?_⟩ <;> simp only [drain, hx, append_nil]
      · exact h
      · exact hx
    · refine ⟨i, ?_, ?_, ?_⟩ <;> simp only [drain, hx, append_nil]
      · exact h
      · exact hx
    have hn := hd.consumes hx
    have hlen : (s.drop (i + n)).length < fuel := by
      rw [length_drop] at hlt hn ⊢
      omega
    obtain ⟨j, hj, hstop, hrest⟩ := drain_spec hd s fuel (h.frame hx) hlen
    rw [append_assoc, singleton_append] at hj
    refine ⟨j, ?_, ?_, ?_⟩ <;> simp only [drain, hx, drop_drop]
    · exact hj
    · exact hstop
    · exact hrest

/-- What is answered is a reading of the chunks taken in. -/
theorem feedAll_spec (hd : Steady d) (chunks : List (List β)) :
    ∃ pre suf i, chunks = pre ++ suf ∧ Reaches d pre.flatten i (feedAll d chunks).frames
      ∧ Stops d (pre.flatten.drop i) (feedAll d chunks).error
      ∧ ((feedAll d chunks).error = none →
        suf = [] ∧ (feedAll d chunks).rest = pre.flatten.drop i) := by
  induction chunks using reverseRecOn with
  | nil => exact ⟨[], [], 0, rfl, .start, hd.empty, fun _ => ⟨rfl, rfl⟩⟩
  | append_singleton chunks c ih =>
    obtain ⟨pre, suf, i, hsplit, hreach, hstop, hrest⟩ := ih
    have hfeed : feedAll d (chunks ++ [c]) = feed d (feedAll d chunks) c := by
      rw [feedAll, foldl_append]
      rfl
    rcases herr : (feedAll d chunks).error with _ | e
    · obtain ⟨rfl, hbuf⟩ := hrest herr
      rw [append_nil] at hsplit
      subst hsplit
      have happ := hreach.append hd c
      have hdrop : (feedAll d chunks).rest ++ c = (chunks.flatten ++ c).drop i := by
        rw [hbuf, drop_append_of_le_length (hreach.le_length hd)]
      obtain ⟨j, hj, hstop', hrest'⟩ :=
        drain_spec hd (chunks.flatten ++ c) _ happ (Nat.lt_succ_self _)
      have hst : feed d (feedAll d chunks) c =
          { drain d (((feedAll d chunks).rest ++ c).length + 1) ((feedAll d chunks).rest ++ c) with
            frames := (feedAll d chunks).frames ++
              (drain d (((feedAll d chunks).rest ++ c).length + 1)
                ((feedAll d chunks).rest ++ c)).frames } := by
        simp [feed, herr]
      rw [hdrop] at hst
      rw [hfeed, hst]
      refine ⟨chunks ++ [c], [], j, (append_nil _).symm, ?_, ?_, fun _ => ⟨rfl, ?_⟩⟩
        <;> rw [flatten_append, flatten_singleton]
      · exact hj
      · exact hstop'
      · exact hrest'
    · have hst : feed d (feedAll d chunks) c = feedAll d chunks := by
        simp [feed, herr]
      rw [hfeed, hst]
      refine ⟨pre, suf ++ [c], i, by rw [hsplit, append_assoc], hreach, hstop, ?_⟩
      rw [herr]
      exact fun h => nomatch h

theorem feedAll_append_of_error {pre : List (List β)} {e : ε} (h : (feedAll d pre).error = some e)
    (suf : List (List β)) : feedAll d (pre ++ suf) = feedAll d pre := by
  induction suf using reverseRecOn with
  | nil => rw [append_nil]
  | append_singleton suf c ih =>
    rw [← append_assoc, feedAll, foldl_append]
    change feed d (feedAll d (pre ++ suf)) c = _
    rw [ih]
    simp [feed, h]

theorem feedAll_whole (hd : Steady d) (s : List β) :
    ∃ j, Reaches d s j (feedAll d [s]).frames ∧ Stops d (s.drop j) (feedAll d [s]).error := by
  obtain ⟨j, hj, hstop, -⟩ := drain_spec hd s (s.length + 1) .start (Nat.lt_succ_self _)
  exact ⟨j, hj, hstop⟩

theorem not_premature (hd : Steady d) {pre suf : List (List β)}
    (heq : (feedAll d (pre ++ suf)).answer = (feedAll d [(pre ++ suf).flatten]).answer)
    {i n : ℕ} {fs : List α} {a : α} (hi : Reaches d (pre ++ suf).flatten i fs)
    (hn : d ((pre ++ suf).flatten.drop i) = .ok (some (a, n))) (hle : i ≤ pre.flatten.length)
    (hlt : pre.flatten.length < i + n) (e : ε) : d (pre.flatten.drop i) ≠ .error e := by
  intro he
  have hi' : Reaches d pre.flatten i fs := by
    rw [flatten_append] at hi
    exact hi.of_append hd hle
  obtain ⟨pre', suf', j, hpre, hj, hstop, hrest⟩ := feedAll_spec hd pre
  rcases herr : (feedAll d pre).error with _ | e'
  · obtain ⟨rfl, -⟩ := hrest herr
    rw [append_nil] at hpre
    subst hpre
    have := (hi'.stops_unique (show Stops d _ (some e) from he) hj hstop).2
    rw [herr] at this
    cases this
  -- The chunks end in the error at `j`, and the whole stream then has to end there too.
  obtain ⟨m, hm, hend⟩ := feedAll_whole hd (pre ++ suf).flatten
  rw [feedAll_append_of_error herr, Drained.answer, Drained.answer, Prod.mk.injEq] at heq
  have hflat : (pre ++ suf).flatten = pre'.flatten ++ (suf' ++ suf).flatten := by
    rw [← flatten_append, ← append_assoc, ← hpre]
  have hj' : Reaches d (pre ++ suf).flatten j (feedAll d pre).frames := by
    rw [hflat]
    exact hj.append hd _
  obtain ⟨rfl, -⟩ := hm.det hj' (by rw [heq.1])
  have hlast := hm.le_of_stops hend (hi.frame hn)
  have hbound := hj.le_length hd
  have : pre.flatten.length = pre'.flatten.length + suf'.flatten.length := by
    rw [hpre, flatten_append, length_append]
  omega

theorem feedAll_eq_iff (hd : Steady d) (chunks : List (List β)) :
    (feedAll d chunks).answer = (feedAll d [chunks.flatten]).answer ↔
      ∀ pre suf, chunks = pre ++ suf → ∀ i fs, Reaches d chunks.flatten i fs →
        ∀ a n, d (chunks.flatten.drop i) = .ok (some (a, n)) →
          i ≤ pre.flatten.length → pre.flatten.length < i + n →
            ∀ e, d (pre.flatten.drop i) ≠ .error e := by
  constructor
  · rintro heq pre suf rfl i fs hi a n hn hle hlt
    exact not_premature hd heq hi hn hle hlt
  intro hpremature
  obtain ⟨m, hm, hend⟩ := feedAll_whole hd chunks.flatten
  obtain ⟨pre, suf, i, hsplit, hi, hstop, hrest⟩ := feedAll_spec hd chunks
  have hflat : chunks.flatten = pre.flatten ++ suf.flatten := by
    rw [hsplit, flatten_append]
  have hi' : Reaches d chunks.flatten i (feedAll d chunks).frames := by
    rw [hflat]
    exact hi.append hd _
  have hstop' : Stops d (chunks.flatten.drop i) (feedAll d chunks).error := by
    rcases herr : (feedAll d chunks).error with _ | e
    · obtain ⟨rfl, -⟩ := hrest herr
      rw [append_nil] at hsplit
      rw [herr, ← hsplit] at hstop
      exact hstop
    rw [herr] at hstop
    have hdrop : chunks.flatten.drop i = pre.flatten.drop i ++ suf.flatten := by
      rw [hflat, drop_append_of_le_length (hi.le_length hd)]
    rcases hd.error hstop suf.flatten with h | ⟨a, n, h, hlt⟩
    · rw [hdrop]
      exact h
    rw [← hdrop] at h
    rw [length_drop] at hlt
    have hle := hi.le_length hd
    exact absurd hstop (hpremature pre suf hsplit i _ hi' a n h hle (by omega) e)
  obtain ⟨hframes, herror⟩ := hi'.stops_unique hstop' hm hend
  rw [Drained.answer, Drained.answer, hframes, herror]

end Chunks
