import Kamino.Glob
import Kamino.Lib.Glob
import Kamino.Proofs.Utf8

/-!
# The glob matcher against its language

The matcher goes back to its last star only, which is enough: the tokens between two stars may take
the first place where they fit.
-/

namespace Kamino

open List Glob GlobCursor Token
open Resp (asBytes)

def globSymbols : Glob.Symbols UInt8 := ⟨0x2A, 0x3F, 0x5B, 0x5D, 0x5E⟩

abbrev globTokens (pattern : Bytes) : List (Token UInt8) := tokens globSymbols pattern

/-- An unclosed bracket; no other token is a literal bracket. -/
abbrev bracket : Token UInt8 := .lit 0x5B

namespace GlobCursor

section Turn

theorem accepts_ofSet (text : Bytes) (c : UInt8) :
    (ofSet globSymbols text).accepts c = inSet text c := by
  unfold ofSet inSet globSymbols
  split_ifs <;> simp [accepts]

theorem turn_spec (pat : Bytes) (c : UInt8) (g : GlobCursor) :
    (globTokens (pat.drop g.pi) = [] ∧ turn pat c g = orFail g.mismatchBacktrack)
    ∨ (globTokens (pat.drop g.pi) = .star :: globTokens (pat.drop (g.pi + 1))
      ∧ turn pat c g = .ok g.onStar)
    ∨ ∃ t n, globTokens (pat.drop g.pi) = t :: globTokens (pat.drop (g.pi + n)) ∧ t ≠ .star
      ∧ (t.accepts c → turn pat c g = .ok (g.advance n))
      ∧ (¬ t.accepts c → t = bracket → turn pat c g = .error g.mismatchBacktrack.isSome)
      ∧ (¬ t.accepts c → t ≠ bracket → turn pat c g = orFail g.mismatchBacktrack) := by
  unfold turn
  rcases hb : pat[g.pi]? with _ | b
  · have hdrop : pat.drop g.pi = [] := drop_eq_nil_of_le (getElem?_eq_none_iff.1 hb)
    exact .inl ⟨by rw [hdrop, globTokens, tokens], rfl⟩
  obtain ⟨hlt, hget⟩ := List.getElem?_eq_some_iff.1 hb
  have hdrop : pat.drop g.pi = b :: pat.drop (g.pi + 1) := by
    rw [List.drop_eq_getElem_cons hlt, hget]
  rw [hdrop]
  dsimp only
  by_cases hstar : b = 0x2A
  · exact .inr (.inl ⟨tokens_star hstar, if_pos hstar⟩)
  rw [if_neg hstar]
  refine .inr (.inr ?_)
  by_cases hany : b = 0x3F
  · exact ⟨.any, 1, tokens_any hstar hany, by simp, fun _ => if_pos hany,
      fun h => absurd rfl h, fun h => absurd rfl h⟩
  rw [if_neg hany]
  by_cases hopen : b = 0x5B
  swap
  · refine ⟨.lit b, 1, tokens_lit hstar hany hopen, by simp, fun h => ?_,
      fun _ h => absurd (lit.inj h) hopen, fun h _ => ?_⟩
    · rw [if_neg hopen, if_pos (by simpa [accepts] using h)]
    · rw [if_neg hopen, if_neg (by simpa [accepts] using h)]
  rw [if_pos hopen]
  rcases hclose : (pat.drop (g.pi + 1)).findIdx? (· == 0x5D) with _ | close
  · refine ⟨.lit b, 1, tokens_unclosed hstar hany hopen hclose, by simp, fun h => ?_,
      fun h _ => ?_, fun _ h => absurd (congrArg lit hopen) h⟩
    · exact if_pos (by simpa [accepts] using h)
    · exact if_neg (by simpa [accepts] using h)
  have hset (t : Token UInt8) (ht : ∀ n m, t ≠ .set n m) :
      ofSet globSymbols ((pat.drop (g.pi + 1)).take close) ≠ t := by
    unfold ofSet
    split_ifs
    · exact (ht _ _).symm
    · exact (ht _ _).symm
  refine ⟨ofSet globSymbols ((pat.drop (g.pi + 1)).take close), 1 + close + 1, ?_,
    hset _ (by simp), fun h => ?_, fun _ h => absurd h (hset _ (by simp)), fun h _ => ?_⟩
  · have hdrop' : (pat.drop (g.pi + 1)).drop (close + 1) = pat.drop (g.pi + (1 + close + 1)) := by
      rw [drop_drop, Nat.add_assoc 1 close 1, Nat.add_assoc g.pi]
    rw [← hdrop']
    exact tokens_closed hstar hany hopen hclose
  · exact if_pos ((accepts_ofSet _ c).symm.trans h)
  · exact if_neg fun h' => h ((accepts_ofSet _ c).trans h')

end Turn

section Verdict

variable {Q S ts : List (Token UInt8)} {w c : Bytes} {r : Bool}

/-- What comes before an unclosed bracket begins the text, which goes on then, but never with a
bracket. -/
structure Meets (P : List (Token UInt8)) (c : Bytes) : Prop where
  begins : ∃ y b z, c = y ++ b :: z ∧ Matches P y
  never : ∀ y z, c = y ++ 0x5B :: z → ¬ Matches P y

/-- What the matcher's answer says about the tokens and the text it has still to compare. -/
structure Verdict (ts : List (Token UInt8)) (c : Bytes) (r : Bool) : Prop where
  complete : Matches ts c → r = true
  sound : r = true → Matches ts c
    ∨ ∃ P R y, ts = P ++ bracket :: R ∧ .star ∈ P ∧ y <+: c ∧ Matches P y
  early : ∀ P R, ts = P ++ bracket :: R → .star ∈ P → Meets P c → r = true

/-- The tokens the matcher has passed, and the text it has passed with them. -/
structure Lead (Q : List (Token UInt8)) (w : Bytes) : Prop where
  front : Matches Q w
  length_eq : (Q.filter (· ≠ .star)).length = w.length
  enter : ∀ ts c, Matches (Q ++ .star :: ts) (w ++ c) ↔ Matches (.star :: ts) c
  passed : ∀ {P R}, Q = P ++ bracket :: R → ∃ w₁ w₂, w = w₁ ++ 0x5B :: w₂ ∧ Matches P w₁

theorem fits_length_eq (h : Glob.Fits S w) : (S.filter (· ≠ .star)).length = w.length := by
  have hall : ∀ t ∈ S, decide (t ≠ .star) = true := by
    intro t ht
    exact decide_eq_true fun heq => h.starless (heq ▸ ht)
  rw [filter_eq_self.2 hall, h.length_eq]

variable {P R : List (Token UInt8)} {y : Bytes} {b : UInt8}

theorem fits_bracket (h : Glob.Fits S w) (hS : S = P ++ bracket :: R) :
    ∃ w₁ w₂, w = w₁ ++ 0x5B :: w₂ ∧ Matches P w₁ := by
  have hm : Matches (P ++ bracket :: R) w := hS ▸ h.matches
  have hP : .star ∉ P := fun hmem => h.starless (hS ▸ mem_append_left _ hmem)
  obtain ⟨w₁, c', rfl, hfits, hc⟩ := (matches_append_iff hP).1 hm
  obtain ⟨a, w₂, rfl, ha, -⟩ := (matches_cons_iff (by simp)).1 hc
  obtain rfl : 0x5B = a := by simpa [accepts] using ha
  exact ⟨w₁, w₂, rfl, hfits.matches⟩

theorem lead_of_fits (h : Glob.Fits S w) : Lead S w where
  front := h.matches
  length_eq := fits_length_eq h
  enter _ _ := h.matches_iff
  passed hS := fits_bracket h hS

theorem lead_of_star (h : Glob.Fits S w) : Lead (.star :: S) w where
  front := .star [] h.matches
  length_eq := by simpa using fits_length_eq h
  enter _ _ := h.matches_star_iff
  passed {P R} hS := by
    cases P with
    | nil => cases hS
    | cons t P =>
      obtain ⟨ht, hP⟩ := cons.inj hS
      obtain ⟨w₁, w₂, hw, hm⟩ := fits_bracket h hP
      exact ⟨w₁, w₂, hw, ht ▸ .star [] hm⟩

theorem Lead.length_le (h : Lead Q w) (hm : Matches (Q ++ ts) y) :
    w.length + (ts.filter (· ≠ .star)).length ≤ y.length := by
  have hlen := hm.length_le
  rwa [filter_append, length_append, h.length_eq] at hlen

theorem bracket_cases (h : Q ++ ts = P ++ bracket :: R) :
    (∃ R', Q = P ++ bracket :: R') ∨ ∃ P', P = Q ++ P' ∧ ts = P' ++ bracket :: R := by
  rcases append_eq_append_iff.1 h with hP | ⟨B, rfl, hR⟩
  · exact .inr hP
  cases B with
  | nil => exact .inr ⟨[], by simp, hR.symm⟩
  | cons t B =>
    obtain ⟨rfl, -⟩ := cons.inj hR
    exact .inl ⟨B, rfl⟩

theorem Lead.not_meets (h : Lead Q w) (hQ : Q = P ++ bracket :: R) : ¬ Meets P (w ++ c) := by
  intro hmeets
  obtain ⟨w₁, w₂, rfl, hm⟩ := h.passed hQ
  exact hmeets.never w₁ (w₂ ++ c) (by simp) hm

theorem Lead.split {z : Bytes} (h : Lead Q w) (hm : Matches (Q ++ ts) y)
    (heq : w ++ c = y ++ z) : ∃ y', y = w ++ y' ∧ c = y' ++ z := by
  obtain ⟨y', rfl⟩ := prefix_of_prefix_length_le ⟨c, rfl⟩ ⟨z, heq.symm⟩
    ((Nat.le_add_right _ _).trans (h.length_le hm))
  rw [append_assoc] at heq
  exact ⟨y', rfl, append_cancel_left heq⟩

theorem Verdict.star (h : Lead Q w) (hv : Verdict (.star :: ts) c r) :
    Verdict (Q ++ .star :: ts) (w ++ c) r where
  complete hm := hv.complete ((h.enter ts c).1 hm)
  sound hr := by
    rcases hv.sound hr with hm | ⟨P, R, y, hP, hstar, ⟨z, rfl⟩, hm⟩
    · exact .inl ((h.enter ts c).2 hm)
    refine .inr ⟨Q ++ P, R, w ++ y, by rw [hP, append_assoc], by simp [hstar],
      ⟨z, append_assoc w y z⟩, ?_⟩
    cases P with
    | nil => cases hstar
    | cons t P =>
      obtain ⟨rfl, -⟩ := cons.inj hP
      exact (h.enter P y).2 hm
  early P R hP hstar hmeets := by
    rcases bracket_cases hP with ⟨R', hQ⟩ | ⟨P', rfl, hP'⟩
    · exact absurd hmeets (h.not_meets hQ)
    cases P' with
    | nil => cases hP'
    | cons t P' =>
      obtain ⟨rfl, -⟩ := cons.inj hP'
      refine hv.early (.star :: P') R hP' mem_cons_self ⟨?_, ?_⟩
      · obtain ⟨y, b, z, heq, hm⟩ := hmeets.begins
        obtain ⟨y', rfl, hc⟩ := h.split hm heq
        exact ⟨y', b, z, hc, (h.enter P' y').1 hm⟩
      · intro y z hc hm
        exact hmeets.never (w ++ y) z (by rw [hc, append_assoc]) ((h.enter P' y).2 hm)

theorem Verdict.used (h : Lead Q w) (hr : r = true ↔ ∀ t ∈ ts, t = .star) :
    Verdict (Q ++ ts) w r where
  complete hm := by
    have hlen := h.length_le hm
    have hnil : ts.filter (· ≠ .star) = [] := eq_nil_of_length_eq_zero (by omega)
    rw [hr]
    intro t ht
    simpa using filter_eq_nil_iff.1 hnil t ht
  sound hr' := by
    have hall := hr.1 hr'
    cases ts with
    | nil => exact .inl (by simpa using h.front)
    | cons t ts =>
      obtain rfl := hall t mem_cons_self
      have hm := (h.enter ts []).2 (matches_nil_right_iff.2 hall)
      rw [append_nil] at hm
      exact .inl hm
  early P R hP _ hmeets := by
    obtain ⟨y, b, z, heq, hm⟩ := hmeets.begins
    rcases bracket_cases hP with ⟨R', hQ⟩ | ⟨P', rfl, -⟩
    · rw [← append_nil w] at hmeets
      exact absurd hmeets (h.not_meets hQ)
    · have hlen := h.length_le hm
      rw [heq, length_append, length_cons] at hlen
      omega

/-- No text in front of the cursor goes with what comes before a bracket ahead of it. -/
def Stuck (ts : List (Token UInt8)) (c : Bytes) : Prop :=
  ¬ Matches ts c ∧ ∀ P R, ts = P ++ bracket :: R → P ≠ [] → ∀ y, y <+: c → ¬ Matches P y

theorem stuck_nil (hc : c ≠ []) : Stuck [] c :=
  ⟨fun h => hc (matches_nil_iff.1 h), fun P R h => by simp at h⟩

theorem stuck_cons {t : Token UInt8} (ht : t ≠ .star) (hb : ¬ t.accepts b) :
    Stuck (t :: ts) (b :: c) := by
  have hnot {ts' : List (Token UInt8)} {y : Bytes} (hy : y <+: b :: c) :
      ¬ Matches (t :: ts') y := by
    intro hm
    obtain ⟨a, y', rfl, ha, -⟩ := (matches_cons_iff ht).1 hm
    obtain ⟨rfl, -⟩ := cons_prefix_cons.1 hy
    exact hb ha
  refine ⟨hnot (prefix_refl _), fun P R hP hne y hy => ?_⟩
  obtain ⟨t', P, rfl⟩ := exists_cons_of_ne_nil hne
  obtain ⟨rfl, -⟩ := cons.inj hP
  exact hnot hy

theorem Stuck.not_begins (h : Stuck ts c) (hfits : Glob.Fits S w) (hts : ts = P ++ bracket :: R)
    (hne : P ≠ []) (hy : y <+: w ++ c) : ¬ Matches (S ++ P) y := by
  intro hm
  obtain ⟨z, hz⟩ := hy
  obtain ⟨y', rfl, hc⟩ := (lead_of_fits hfits).split hm hz.symm
  exact h.2 P R hts hne y' ⟨z, hc.symm⟩ (hfits.matches_iff.1 hm)

theorem Verdict.fail (hfits : Glob.Fits S w) (h : Stuck ts c) :
    Verdict (S ++ ts) (w ++ c) false where
  complete hm := absurd (hfits.matches_iff.1 hm) h.1
  sound hr := by cases hr
  early P R hP hstar hmeets := by
    rcases bracket_cases hP with ⟨R', hS⟩ | ⟨P', rfl, hP'⟩
    · exact absurd hmeets ((lead_of_fits hfits).not_meets hS)
    have hne : P' ≠ [] := by
      rintro rfl
      rw [append_nil] at hstar
      exact hfits.starless hstar
    obtain ⟨y, b, z, heq, hm⟩ := hmeets.begins
    exact absurd hm (h.not_begins hfits hP' hne ⟨b :: z, heq.symm⟩)

theorem Verdict.now (hfits : Glob.Fits S w) :
    Verdict (.star :: (S ++ bracket :: ts)) (w ++ c) true where
  complete _ := rfl
  sound _ := .inr ⟨.star :: S, ts, w, rfl, mem_cons_self, ⟨c, rfl⟩, .star [] hfits.matches⟩
  early _ _ _ _ _ := rfl

theorem Verdict.next {ts₀ : List (Token UInt8)} (hm₀ : ¬ Matches ts₀ (b :: c))
    (hfront : ∀ P R y, ts₀ = P ++ bracket :: R → Meets (.star :: P) (b :: c) → y <+: b :: c →
      ¬ Matches P y)
    (hv : Verdict (.star :: ts₀) c r) : Verdict (.star :: ts₀) (b :: c) r where
  complete hm := (matches_star_cons_iff.1 hm).elim (fun h => absurd h hm₀) hv.complete
  sound hr := by
    rcases hv.sound hr with hm | ⟨P, R, y, hP, hstar, hy, hm⟩
    · exact .inl (hm.star_append [b])
    cases P with
    | nil => cases hstar
    | cons t P =>
      obtain ⟨rfl, -⟩ := cons.inj hP
      exact .inr ⟨.star :: P, R, b :: y, hP, hstar, cons_prefix_cons.2 ⟨rfl, hy⟩,
        hm.star_append [b]⟩
  early P R hP hstar hmeets := by
    cases P with
    | nil => cases hstar
    | cons t P =>
      obtain ⟨rfl, hP'⟩ := cons.inj hP
      refine hv.early (.star :: P) R hP hstar ⟨?_, ?_⟩
      · obtain ⟨y, a, z, heq, hm⟩ := hmeets.begins
        obtain ⟨x, y', rfl, hm'⟩ := matches_star_iff.1 hm
        cases x with
        | nil => exact absurd hm' (hfront P R y' hP' hmeets ⟨a :: z, heq.symm⟩)
        | cons a' x =>
          obtain ⟨-, rfl⟩ := cons.inj heq
          exact ⟨x ++ y', a, z, rfl, .star x hm'⟩
      · intro y z hc hm
        exact hmeets.never (b :: y) z (by rw [hc]; rfl) (hm.star_append [b])

theorem Verdict.retry {c' : Bytes} (hfits : Glob.Fits S w) (h : Stuck ts c)
    (hts : ts.head? ≠ some bracket) (heq : w ++ c = b :: c')
    (hv : Verdict (.star :: (S ++ ts)) c' r) : Verdict (.star :: (S ++ ts)) (w ++ c) r := by
  rw [heq]
  refine Verdict.next ?_ (fun P R y hP hmeets hy hm => ?_) hv
  · rw [← heq, hfits.matches_iff]
    exact h.1
  rw [← heq] at hmeets hy
  rcases bracket_cases hP with ⟨R', hS⟩ | ⟨P', rfl, hP'⟩
  · exact (lead_of_star hfits).not_meets (congrArg (Token.star :: ·) hS) hmeets
  have hne : P' ≠ [] := by
    rintro rfl
    exact hts (by rw [hP']; rfl)
  exact h.not_begins hfits hP' hne hy hm

end Verdict

section Loop

variable {pat cand : Bytes} {S : List (Token UInt8)} {w : Bytes}

/-- Where a cursor that has seen a star stands: after that star the tokens `S` fit the text `w`. -/
structure AfterStar (pat cand : Bytes) (g : GlobCursor) (s : ℕ) (S : List (Token UInt8))
    (w : Bytes) : Prop where
  star : g.star = some s
  fits : Glob.Fits S w
  tokens : globTokens (pat.drop (s + 1)) = S ++ globTokens (pat.drop g.pi)
  text : cand.drop g.matchAfterStar = w ++ cand.drop g.ci

variable {g : GlobCursor}

theorem loop_ok {g' : GlobCursor} {b : UInt8} (hb : cand[g.ci]? = some b)
    (h : turn pat b g = .ok g') : loop pat cand g = loop pat cand g' := by
  obtain ⟨hc, rfl⟩ := List.getElem?_eq_some_iff.1 hb
  rw [loop, dif_pos hc]
  split
  · rename_i h'
    rw [h] at h'
    cases h'
  rename_i h'
  rw [h] at h'
  cases h'
  rfl

theorem loop_error {b : UInt8} {r : Bool} (hb : cand[g.ci]? = some b)
    (h : turn pat b g = .error r) : loop pat cand g = r := by
  obtain ⟨hc, rfl⟩ := List.getElem?_eq_some_iff.1 hb
  rw [loop, dif_pos hc]
  split
  · rename_i h'
    rw [h] at h'
    cases h'
    rfl
  · rename_i h'
    rw [h] at h'
    cases h'

theorem loop_used (hc : cand.length ≤ g.ci) :
    loop pat cand g = (pat.drop g.pi).all (· == 0x2A) := by
  rw [loop, dif_neg (Nat.not_lt.2 hc)]

theorem rest_all_iff {p : Bytes} : p.all (· == 0x2A) = true ↔ ∀ t ∈ globTokens p, t = .star := by
  rw [all_eq_true, forall_star_iff]
  simp [globSymbols]

theorem AfterStar.backtrack {s : ℕ} (h : AfterStar pat cand g s S w) :
    ∃ g', g.mismatchBacktrack = some g' ∧ g'.matchAfterStar = g.matchAfterStar + 1
      ∧ AfterStar pat cand g' s [] [] := by
  refine ⟨_, by rw [mismatchBacktrack, h.star]; rfl, rfl, ?_⟩
  exact ⟨rfl, .nil, rfl, rfl⟩

theorem loop_afterStar {s : ℕ} (h : AfterStar pat cand g s S w) :
    Verdict (.star :: globTokens (pat.drop (s + 1))) (cand.drop g.matchAfterStar)
      (loop pat cand g) := by
  -- by induction on the measure of the loop; a later star makes a new start
  induction hn : g.measure pat cand using Nat.strong_induction_on generalizing g s S w with
  | _ n ih =>
    subst hn
    rcases Nat.lt_or_ge g.ci cand.length with hc | hc
    swap
    · rw [h.tokens, h.text, drop_eq_nil_of_le hc, append_nil, loop_used hc]
      exact Verdict.used (lead_of_star h.fits) rest_all_iff
    have hb : cand[g.ci]? = some cand[g.ci] := getElem?_eq_getElem hc
    have hdrop := drop_eq_getElem_cons hc
    generalize cand[g.ci] = b at hb hdrop
    have hlt : g.matchAfterStar < cand.length := g.after_le.trans_lt hc
    have hretry (hturn : turn pat b g = orFail g.mismatchBacktrack)
        (hstuck : Stuck (globTokens (pat.drop g.pi)) (cand.drop g.ci))
        (hhead : (globTokens (pat.drop g.pi)).head? ≠ some bracket) :
        Verdict (.star :: globTokens (pat.drop (s + 1))) (cand.drop g.matchAfterStar)
          (loop pat cand g) := by
      obtain ⟨g', hg', hafter, h'⟩ := h.backtrack
      rw [hg'] at hturn
      rw [loop_ok hb hturn]
      have hv := ih _ (measure_turn hc hturn) h' rfl
      rw [hafter, h.tokens] at hv
      have hcons := drop_eq_getElem_cons hlt
      rw [h.text] at hcons ⊢
      rw [h.tokens]
      exact Verdict.retry h.fits hstuck hhead hcons hv
    rcases turn_spec pat b g with ⟨hnil, hturn⟩ | ⟨hstar, hturn⟩ | ⟨t, k, ht, hne, hacc, hbr, hmis⟩
    · refine hretry hturn ?_ (by simp [hnil])
      rw [hnil, hdrop]
      exact stuck_nil (by simp)
    · rw [loop_ok hb hturn, h.tokens, hstar, h.text]
      have h' : AfterStar pat cand g.onStar g.pi [] [] := ⟨rfl, .nil, rfl, rfl⟩
      exact Verdict.star (lead_of_star h.fits) (ih _ (measure_turn hc hturn) h' rfl)
    by_cases ha : t.accepts b
    · have h' : AfterStar pat cand (g.advance k) s (S ++ [t]) (w ++ [b]) := by
        refine ⟨h.star, rel_append h.fits (.cons ha .nil), ?_, ?_⟩
        · rw [h.tokens, ht, append_assoc]
          rfl
        · rw [append_assoc]
          exact h.text.trans (by rw [hdrop]; rfl)
      rw [loop_ok hb (hacc ha)]
      exact ih _ (measure_turn hc (hacc ha)) h' rfl
    by_cases hlit : t = bracket
    · have hsome : g.mismatchBacktrack.isSome = true := by
        obtain ⟨g', hg', -⟩ := h.backtrack
        rw [hg']
        rfl
      rw [loop_error hb (hbr ha hlit), hsome, h.tokens, ht, hlit, h.text]
      exact Verdict.now h.fits
    · refine hretry (hmis ha hlit) ?_ (by simpa [ht] using hlit)
      rw [ht, hdrop]
      exact stuck_cons hne ha

theorem loop_beforeStar (hnone : g.star = none) (hfits : Glob.Fits S w)
    (htokens : globTokens pat = S ++ globTokens (pat.drop g.pi))
    (htext : cand = w ++ cand.drop g.ci) : Verdict (globTokens pat) cand (loop pat cand g) := by
  induction hn : g.measure pat cand using Nat.strong_induction_on generalizing g S w with
  | _ n ih =>
    subst hn
    rcases Nat.lt_or_ge g.ci cand.length with hc | hc
    swap
    · rw [drop_eq_nil_of_le hc, append_nil] at htext
      rw [htokens, loop_used hc, htext]
      exact Verdict.used (lead_of_fits hfits) rest_all_iff
    have hb : cand[g.ci]? = some cand[g.ci] := getElem?_eq_getElem hc
    have hdrop := drop_eq_getElem_cons hc
    generalize cand[g.ci] = b at hb hdrop
    have hback : g.mismatchBacktrack = none := by rw [mismatchBacktrack, hnone]; rfl
    have hfail (hturn : turn pat b g = .error false)
        (hstuck : Stuck (globTokens (pat.drop g.pi)) (cand.drop g.ci)) :
        Verdict (globTokens pat) cand (loop pat cand g) := by
      have hv := Verdict.fail hfits hstuck
      rwa [← htokens, ← htext, ← loop_error hb hturn] at hv
    rcases turn_spec pat b g with ⟨hnil, hturn⟩ | ⟨hstar, hturn⟩ | ⟨t, k, ht, hne, hacc, hbr, hmis⟩
    · rw [hback] at hturn
      refine hfail hturn ?_
      rw [hnil, hdrop]
      exact stuck_nil (by simp)
    · have h' : AfterStar pat cand g.onStar g.pi [] [] := ⟨rfl, .nil, rfl, rfl⟩
      have hv := Verdict.star (lead_of_fits hfits) (loop_afterStar h')
      rw [loop_ok hb hturn, htokens, hstar]
      exact (congrArg (Verdict _ · _) htext).mpr hv
    by_cases ha : t.accepts b
    · rw [loop_ok hb (hacc ha)]
      refine ih _ (measure_turn hc (hacc ha)) hnone (rel_append hfits (.cons ha .nil)) ?_ ?_ rfl
      · rw [htokens, ht, append_assoc]
        rfl
      · rw [append_assoc]
        exact htext.trans (by rw [hdrop]; rfl)
    have hstuck : Stuck (globTokens (pat.drop g.pi)) (cand.drop g.ci) := by
      rw [ht, hdrop]
      exact stuck_cons hne ha
    rw [hback] at hbr hmis
    by_cases hlit : t = bracket
    · exact hfail (hbr ha hlit) hstuck
    · exact hfail (hmis ha hlit) hstuck

end Loop

end GlobCursor

theorem patternMatches_verdict (pattern candidate : Bytes) :
    GlobCursor.Verdict (globTokens pattern) candidate (patternMatches pattern candidate) :=
  loop_beforeStar rfl .nil rfl rfl

variable {y : Bytes}

theorem bracket_not_mem_encode {ch : Char} {z : Bytes} (hy : y ≠ [])
    (h : String.utf8EncodeChar ch = y ++ z) : 0x5B ∉ z := by
  intro hmem
  obtain ⟨i, hi, hget⟩ := getElem_of_mem hmem
  have hlt : y.length + i < (String.utf8EncodeChar ch).length := by
    rw [h, length_append]
    omega
  have hbyte : (String.utf8EncodeChar ch)[y.length + i] = 0x5B := by
    simp [h, getElem_append_right (Nat.le_add_right _ _), hget]
  have hfirst := @UInt8.isUTF8FirstByte_getElem_utf8EncodeChar ch (y.length + i) hlt
  rw [hbyte] at hfirst
  have := hfirst.1 (by decide)
  have := length_pos_of_ne_nil hy
  omega

theorem exists_completed {cs : List Char} (h : y <+: cs.flatMap String.utf8EncodeChar) :
    ∃ (cs' : List Char) (x : Bytes), cs'.flatMap String.utf8EncodeChar = y ++ x ∧ 0x5B ∉ x := by
  induction cs generalizing y with
  | nil =>
    obtain rfl := prefix_nil.1 h
    exact ⟨[], [], rfl, by simp⟩
  | cons ch cs ih =>
    by_cases hy : y = []
    · exact ⟨[], [], by rw [hy]; rfl, by simp⟩
    obtain ⟨z, hz⟩ := h
    rw [flatMap_cons] at hz
    rcases append_eq_append_iff.1 hz with ⟨x, hx, -⟩ | ⟨y', rfl, hy'⟩
    · exact ⟨[ch], x, by rw [flatMap_singleton, hx], bracket_not_mem_encode hy hx⟩
    · obtain ⟨cs', x, hcs, hx⟩ := ih ⟨z, hy'.symm⟩
      exact ⟨ch :: cs', x, by rw [flatMap_cons, hcs, append_assoc], hx⟩

theorem exists_goes_on {c : String} (h : y <+: asBytes c) :
    ∃ (s : String) (b : UInt8) (z : Bytes), asBytes s = y ++ b :: z ∧ 0x5B ∉ b :: z := by
  rw [Resp.asBytes_eq] at h
  obtain ⟨cs, x, hcs, hx⟩ := exists_completed h
  obtain ⟨s, hs⟩ := Resp.isUtf8_iff.2 ⟨cs ++ ['a'], rfl⟩
  have ha : String.utf8EncodeChar 'a' = [0x61] := by decide
  rw [flatMap_append, hcs, flatMap_singleton, ha, append_assoc] at hs
  cases x with
  | nil => exact ⟨s, 0x61, [], hs, by decide⟩
  | cons b z => exact ⟨s, b, z ++ [0x61], by rw [hs, cons_append], by simpa using hx⟩

/-- `pattern_matches` decides the language of a pattern exactly when no name can lead it, past a
star, to an unclosed bracket. -/
theorem patternMatches_iff (p : Bytes) :
    (∀ c : String, patternMatches p (asBytes c) = true ↔ Matches (globTokens p) (asBytes c)) ↔
      ∀ P R, globTokens p = P ++ bracket :: R → .star ∈ P →
        ∀ (c : String) (y : Bytes), y <+: asBytes c → ¬ Matches P y := by
  constructor
  · intro h P R hP hstar c y hy hm
    -- a beginning with the fewest brackets, which goes on with none
    induction hn : y.count 0x5B using Nat.strong_induction_on generalizing c y with
    | _ n ih =>
      subst hn
      obtain ⟨s, b, z, hs, hz⟩ := exists_goes_on hy
      have hnever (y' z' : Bytes) (heq : asBytes s = y' ++ 0x5B :: z') : ¬ Matches P y' := by
        intro hm'
        rw [hs] at heq
        rcases append_eq_append_iff.1 heq with ⟨x, -, hx⟩ | ⟨x, hx, hx'⟩
        · exact hz (hx ▸ by simp)
        cases x with
        | nil => exact hz ((List.cons.inj hx').1 ▸ mem_cons_self)
        | cons a x =>
          obtain ⟨rfl, -⟩ := List.cons.inj hx'
          refine ih _ ?_ s y' ⟨0x5B :: z', by rw [hs, heq]⟩ hm' rfl
          rw [hx, count_append, count_cons_self]
          omega
      have htrue := (patternMatches_verdict p (asBytes s)).early P R hP hstar
        ⟨⟨y, b, z, hs, hm⟩, hnever⟩
      obtain ⟨y', x, heq, hy', hx⟩ := (hP ▸ (h s).1 htrue).append_split
      obtain ⟨a, z', rfl, ha, -⟩ := (matches_cons_iff (by simp)).1 hx
      obtain rfl : 0x5B = a := by simpa [accepts] using ha
      exact hnever y' z' heq hy'
  · intro h c
    refine ⟨fun hr => ?_, (patternMatches_verdict p _).complete⟩
    rcases (patternMatches_verdict p _).sound hr with hm | ⟨P, R, y, hP, hstar, hy, hm⟩
    · exact hm
    · exact absurd hm (h P R hP hstar c y hy)

/-- The pattern `*[` takes the names that end in a bracket, and is said to take `a`. -/
theorem patternMatches_unclosed : patternMatches (asBytes "*[") (asBytes "a") = true
      ∧ ¬ Matches (globTokens (asBytes "*[")) (asBytes "a") := by
  have hpattern : asBytes "*[" = [0x2A, 0x5B] := by decide
  have hname : asBytes "a" = [0x61] := by decide
  have htokens : globTokens [0x2A, 0x5B] = [.star, bracket] := by
    simp [globTokens, tokens, globSymbols]
  rw [hpattern, hname, htokens]
  constructor
  · have hstar : turn [0x2A, 0x5B] 0x61 .start = .ok start.onStar := rfl
    have hbracket : turn [0x2A, 0x5B] 0x61 start.onStar = .error true := rfl
    exact (loop_ok rfl hstar).trans (loop_error rfl hbracket)
  intro hm
  rcases matches_star_cons_iff.1 hm with h | h
  · obtain ⟨a, z, heq, ha, -⟩ := (matches_cons_iff (by simp)).1 h
    obtain ⟨rfl, -⟩ := List.cons.inj heq
    exact absurd ha (by decide)
  · have := matches_nil_right_iff.1 h bracket (by simp)
    cases this

end Kamino
