import Kamino.Lib.Linear

/-!
# Glob patterns

A list of tokens: a star for any sequence, a wildcard for any letter, a set of letters or its
complement, and a letter for itself.
-/

namespace Glob

open List

variable {α : Type*}

inductive Token (α : Type*) where
  | star
  | any
  | set (negated : Bool) (members : List α)
  | lit (a : α)
  deriving DecidableEq

/-- The letters that do not stand for themselves. -/
structure Symbols (α : Type*) where
  star : α
  any : α
  opening : α
  closing : α
  negation : α

section Tokens

variable [DecidableEq α] (σ : Symbols α)

/-- The set that stands between two brackets. -/
def ofSet (text : List α) : Token α :=
  if text.head? = some σ.negation then .set true text.tail else .set false text

def tokens : List α → List (Token α)
  | [] => []
  | a :: as =>
    if a = σ.star then .star :: tokens as
    else if a = σ.any then .any :: tokens as
    else if a = σ.opening then
      match as.findIdx? (· == σ.closing) with
      | none => .lit a :: tokens as
      | some k => ofSet σ (as.take k) :: tokens (as.drop (k + 1))
    else .lit a :: tokens as
termination_by as => as.length

variable {σ} {a : α} {as : List α}

theorem tokens_star (h : a = σ.star) : tokens σ (a :: as) = .star :: tokens σ as := by
  rw [tokens, if_pos h]

section

variable (hstar : a ≠ σ.star)
include hstar

theorem tokens_any (h : a = σ.any) : tokens σ (a :: as) = .any :: tokens σ as := by
  rw [tokens, if_neg hstar, if_pos h]

theorem tokens_lit (hany : a ≠ σ.any) (h : a ≠ σ.opening) :
    tokens σ (a :: as) = .lit a :: tokens σ as := by
  rw [tokens, if_neg hstar, if_neg hany, if_neg h]

theorem tokens_unclosed (hany : a ≠ σ.any) (hopen : a = σ.opening)
    (h : as.findIdx? (· == σ.closing) = none) : tokens σ (a :: as) = .lit a :: tokens σ as := by
  rw [tokens, if_neg hstar, if_neg hany, if_pos hopen, h]

theorem tokens_closed (hany : a ≠ σ.any) (hopen : a = σ.opening) {k : ℕ}
    (h : as.findIdx? (· == σ.closing) = some k) :
    tokens σ (a :: as) = ofSet σ (as.take k) :: tokens σ (as.drop (k + 1)) := by
  rw [tokens, if_neg hstar, if_neg hany, if_pos hopen, h]

end

theorem ofSet_ne_star (text : List α) : ofSet σ text ≠ .star := by
  unfold ofSet
  split_ifs <;> simp

theorem tokens_ne_star (hstar : a ≠ σ.star) : ∃ t ts, tokens σ (a :: as) = t :: ts ∧ t ≠ .star := by
  by_cases hany : a = σ.any
  · exact ⟨_, _, tokens_any hstar hany, by simp⟩
  by_cases hopen : a = σ.opening
  · rcases h : as.findIdx? (· == σ.closing) with _ | k
    · exact ⟨_, _, tokens_unclosed hstar hany hopen h, by simp⟩
    · exact ⟨_, _, tokens_closed hstar hany hopen h, ofSet_ne_star _⟩
  · exact ⟨_, _, tokens_lit hstar hany hopen, by simp⟩

theorem tokens_set (hstar : a ≠ σ.star) (hany : a ≠ σ.any) (hopen : a = σ.opening) {text : List α}
    (h : σ.closing ∉ text) (rest : List α) :
    tokens σ (a :: (text ++ σ.closing :: rest)) = ofSet σ text :: tokens σ rest := by
  have hfind : (text ++ σ.closing :: rest).findIdx? (· == σ.closing) = some text.length := by
    have hnone : text.findIdx? (· == σ.closing) = none :=
      findIdx?_eq_none_iff.2 fun b hb => beq_false_of_ne fun heq => h (heq ▸ hb)
    simp [findIdx?_append, findIdx?_cons, hnone]
  rw [tokens_closed hstar hany hopen hfind]
  simp

/-- A closing bracket ends a token, so what follows it is read on its own. -/
theorem tokens_append_closing (hstar : σ.closing ≠ σ.star) (hany : σ.closing ≠ σ.any)
    (hopen : σ.closing ≠ σ.opening) (as rest : List α) :
    ∃ ts t, tokens σ (as ++ σ.closing :: rest) = ts ++ t :: tokens σ rest ∧ t ≠ .star := by
  fun_induction tokens σ as with
  | case1 => exact ⟨[], _, tokens_lit hstar hany hopen, by simp⟩
  | case2 as ih =>
    obtain ⟨ts, t, heq, ht⟩ := ih
    exact ⟨.star :: ts, t, by rw [cons_append, tokens_star rfl, heq]; rfl, ht⟩
  | case3 as hne ih =>
    obtain ⟨ts, t, heq, ht⟩ := ih
    exact ⟨.any :: ts, t, by rw [cons_append, tokens_any hne rfl, heq]; rfl, ht⟩
  | case4 as hnone hne hne' ih =>
    -- The bracket that was open is closed now.
    have hmem : σ.closing ∉ as := fun h => by
      simpa using findIdx?_eq_none_iff.1 hnone _ h
    exact ⟨[], _, tokens_set hne hne' rfl hmem rest, ofSet_ne_star _⟩
  | case5 as k hsome hne hne' ih =>
    obtain ⟨hk, hfound, -⟩ := findIdx?_eq_some_iff_getElem.1 hsome
    obtain ⟨ts, t, heq, ht⟩ := ih
    have hsome' : (as ++ σ.closing :: rest).findIdx? (· == σ.closing) = some k := by
      rw [findIdx?_append, hsome]
      rfl
    refine ⟨ofSet σ (as.take k) :: ts, t, ?_, ht⟩
    rw [cons_append, tokens_closed hne hne' rfl hsome',
      take_append_of_le_length (Nat.le_of_lt hk), drop_append_of_le_length hk, heq]
    rfl
  | case6 a as hne hne' hne'' ih =>
    obtain ⟨ts, t, heq, ht⟩ := ih
    exact ⟨.lit a :: ts, t, by rw [cons_append, tokens_lit hne hne' hne'', heq]; rfl, ht⟩

theorem forall_star_iff : (∀ t ∈ tokens σ as, t = .star) ↔ ∀ a ∈ as, a = σ.star := by
  induction as with
  | nil => simp [tokens]
  | cons a as ih =>
    by_cases h : a = σ.star
    · rw [tokens_star h]
      simp [ih, h]
    · obtain ⟨t, ts, hts, ht⟩ := @tokens_ne_star _ _ σ a as h
      rw [hts]
      simp [ht, h]

end Tokens

variable [DecidableEq α]

/-- The letters a token takes; a star takes no letter of its own. -/
def Token.accepts : Token α → α → Bool
  | .star, _ => false
  | .any, _ => true
  | .set negated members, a => members.contains a != negated
  | .lit b, a => b == a

/-- The words of the language of a list of tokens. -/
inductive Matches : List (Token α) → List α → Prop
  | nil : Matches [] []
  | star {ts : List (Token α)} {c : List α} (w : List α) (h : Matches ts c) :
      Matches (.star :: ts) (w ++ c)
  | one {t : Token α} {ts : List (Token α)} {a : α} {c : List α} (ha : t.accepts a)
      (h : Matches ts c) : Matches (t :: ts) (a :: c)

/-- Each token takes the letter in its place. -/
abbrev Fits (S : List (Token α)) (w : List α) : Prop := List.Forall₂ (fun t a => t.accepts a) S w

variable {S ts : List (Token α)} {t : Token α} {w c : List α} {a : α}

theorem accepts_ne_star (h : t.accepts a) : t ≠ .star := by
  rintro rfl
  cases h

theorem Fits.starless (h : Fits S w) : .star ∉ S := by
  intro hmem
  induction h with
  | nil => cases hmem
  | cons ha _ ih =>
    rcases mem_cons.1 hmem with h | h
    · exact accepts_ne_star ha h.symm
    · exact ih h

theorem matches_nil_iff : Matches ([] : List (Token α)) c ↔ c = [] := by
  constructor
  · intro h
    cases h
    rfl
  · rintro rfl
    exact .nil

theorem matches_cons_iff (ht : t ≠ .star) :
    Matches (t :: ts) c ↔ ∃ a c', c = a :: c' ∧ t.accepts a ∧ Matches ts c' := by
  constructor
  · intro h
    cases h with
    | star w h => exact absurd rfl ht
    | one ha h => exact ⟨_, _, rfl, ha, h⟩
  · rintro ⟨a, c', rfl, ha, h⟩
    exact .one ha h

theorem matches_star_iff : Matches (.star :: ts) c ↔ ∃ w c', c = w ++ c' ∧ Matches ts c' := by
  constructor
  · intro h
    cases h with
    | star w h => exact ⟨w, _, rfl, h⟩
    | one ha h => cases ha
  · rintro ⟨w, c', rfl, h⟩
    exact .star w h

theorem Matches.star_append (h : Matches (.star :: ts) c) (w : List α) :
    Matches (.star :: ts) (w ++ c) := by
  obtain ⟨w', c', rfl, hc⟩ := matches_star_iff.1 h
  rw [← append_assoc]
  exact .star _ hc

theorem matches_star_cons_iff :
    Matches (.star :: ts) (a :: c) ↔ Matches ts (a :: c) ∨ Matches (.star :: ts) c := by
  constructor
  · intro h
    obtain ⟨w, c', heq, hc⟩ := matches_star_iff.1 h
    cases w with
    | nil => exact .inl (heq ▸ hc)
    | cons b w =>
      obtain ⟨rfl, rfl⟩ := cons.inj heq
      exact .inr (.star w hc)
  · rintro (h | h)
    · exact .star [] h
    · exact h.star_append [a]

/-- Tokens without a star fit a word of their length. -/
theorem matches_append_iff (hS : .star ∉ S) :
    Matches (S ++ ts) c ↔ ∃ w c', c = w ++ c' ∧ Fits S w ∧ Matches ts c' := by
  induction S generalizing c with
  | nil => simp
  | cons t S ih =>
    have ht : t ≠ .star := fun h => hS (h ▸ mem_cons_self)
    have hS : .star ∉ S := fun h => hS (mem_cons_of_mem t h)
    rw [cons_append, matches_cons_iff ht]
    constructor
    · rintro ⟨a, c', rfl, ha, h⟩
      obtain ⟨w, c'', rfl, hfits, h⟩ := (ih hS).1 h
      exact ⟨a :: w, c'', rfl, .cons ha hfits, h⟩
    · rintro ⟨w, c'', rfl, hfits, h⟩
      cases hfits with
      | cons ha hfits => exact ⟨_, _, rfl, ha, (ih hS).2 ⟨_, c'', rfl, hfits, h⟩⟩

theorem Matches.append_split {P : List (Token α)} (h : Matches (P ++ ts) c) :
    ∃ y z, c = y ++ z ∧ Matches P y ∧ Matches ts z := by
  induction P generalizing c with
  | nil => exact ⟨[], c, rfl, .nil, h⟩
  | cons t P ih =>
    rw [cons_append] at h
    cases h with
    | star w h =>
      obtain ⟨y, z, rfl, hy, hz⟩ := ih h
      exact ⟨w ++ y, z, (append_assoc w y z).symm, .star w hy, hz⟩
    | one ha h =>
      obtain ⟨y, z, rfl, hy, hz⟩ := ih h
      exact ⟨_ :: y, z, rfl, .one ha hy, hz⟩

theorem Fits.matches_iff (h : Fits S w) : Matches (S ++ ts) (w ++ c) ↔ Matches ts c := by
  rw [matches_append_iff h.starless]
  constructor
  · rintro ⟨w', c', heq, hfits, hc⟩
    obtain ⟨-, rfl⟩ := append_inj heq (h.length_eq.symm.trans hfits.length_eq)
    exact hc
  · intro hc
    exact ⟨w, c, rfl, h, hc⟩

theorem Fits.matches (h : Fits S w) : Matches S w := by
  have hnil : Matches (S ++ []) (w ++ []) := h.matches_iff.2 .nil
  rwa [append_nil, append_nil] at hnil

/-- Where a block between two stars fits at the front, the first star need take nothing. -/
theorem Fits.matches_star_iff (h : Fits S w) :
    Matches (.star :: (S ++ .star :: ts)) (w ++ c) ↔ Matches (.star :: ts) c := by
  constructor
  · intro hm
    obtain ⟨x, d, heq, hd⟩ := Glob.matches_star_iff.1 hm
    obtain ⟨w', d', rfl, hfits, hd'⟩ := (matches_append_iff h.starless).1 hd
    have hlen : w.length = w'.length := h.length_eq.symm.trans hfits.length_eq
    have hsuffix : d' <:+ c := by
      rw [← append_assoc] at heq
      refine suffix_of_suffix_length_le ⟨x ++ w', heq.symm⟩ ⟨w, rfl⟩ ?_
      have := congrArg length heq
      simp only [length_append] at this
      omega
    obtain ⟨v, rfl⟩ := hsuffix
    exact hd'.star_append v
  · intro hm
    exact .star [] (h.matches_iff.2 hm)

/-- A list of tokens as a linear expression. -/
def Token.item : Token α → Linear.Item α
  | .star => .many fun _ => true
  | t => .one t.accepts

theorem item_of_ne_star (ht : t ≠ .star) : t.item = .one t.accepts := by
  cases t <;> first | exact absurd rfl ht | rfl

/-- The language of the tokens is that of their items. -/
theorem matches_iff_accepts : Matches ts c ↔ Linear.accepts (ts.map Token.item) c = true := by
  induction ts generalizing c with
  | nil => rw [matches_nil_iff, List.map_nil, Linear.accepts, List.isEmpty_iff]
  | cons t ts ih =>
    rw [List.map_cons]
    rcases eq_or_ne t .star with rfl | ht
    · rw [matches_star_iff, Token.item, Linear.accepts, Linear.run_iff]
      simp [ih]
    rw [matches_cons_iff ht, item_of_ne_star ht]
    cases c with
    | nil => simp [Linear.accepts]
    | cons a c => simp [Linear.accepts, ih]

theorem Matches.length_le (h : Matches ts c) : (ts.filter (· ≠ .star)).length ≤ c.length := by
  induction h with
  | nil => exact Nat.le_refl _
  | star w _ ih =>
    rw [length_append]
    simpa using Nat.le_trans ih (Nat.le_add_left _ _)
  | one ha _ ih =>
    have hne := accepts_ne_star ha
    simpa [hne] using ih

theorem matches_nil_right_iff : Matches ts ([] : List α) ↔ ∀ t ∈ ts, t = .star := by
  constructor
  · intro h t ht
    by_contra hne
    have hmem : t ∈ ts.filter (· ≠ .star) := mem_filter.2 ⟨ht, by simpa using hne⟩
    have hlen := h.length_le
    rw [length_nil, Nat.le_zero, length_eq_zero_iff] at hlen
    rw [hlen] at hmem
    cases hmem
  · intro h
    induction ts with
    | nil => exact .nil
    | cons t ts ih =>
      obtain rfl := h t mem_cons_self
      exact .star [] (ih fun t ht => h t (mem_cons_of_mem _ ht))

end Glob
