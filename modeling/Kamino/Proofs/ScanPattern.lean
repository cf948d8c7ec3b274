import Kamino.Handlers
import Kamino.Lib.Glob
import Kamino.Lib.Regex

/-!
# The regex of a scan pattern against the language of the pattern

`glob_to_regex` copies what stands between brackets, and the regex reads more into it than the
pattern does, so a class may end at a later bracket than the set it comes from.
-/

namespace Kamino

open List Glob Regex
open Linear (Item ones accepts Same SameKind)

def scanSymbols : Glob.Symbols Char := ⟨'*', '?', '[', ']', '^'⟩

abbrev scanTokens (pattern : List Char) : List (Token Char) := tokens scanSymbols pattern

section Text

variable {ps s : List Char}

theorem globChars_class (h : ']' ∉ s) (ps : List Char) :
    globChars true (s ++ ']' :: ps) = s ++ ']' :: globChars false ps := by
  induction s with
  | nil => simp [globChars]
  | cons c s ih =>
    have hc : c ≠ ']' := fun heq => h (heq ▸ mem_cons_self)
    simp [globChars, hc, ih fun hmem => h (mem_cons_of_mem c hmem)]

theorem length_le_globChars (inClass : Bool) (ps : List Char) :
    ps.length ≤ (globChars inClass ps).length := by
  fun_induction globChars inClass ps with
  | case1 => exact Nat.le_refl _
  | _ => simp only [length_cons]; omega

theorem length_lt_fuel (ps : List Char) : ps.length < (globChars false ps ++ ['$']).length + 1 := by
  have := length_le_globChars false ps
  rw [length_append]
  omega

theorem bracket_after {e text used rest : List Char} (he : ']' ∉ e)
    (h : e ++ text = used ++ ']' :: rest) : ∃ used', text = used' ++ ']' :: rest := by
  rcases append_eq_append_iff.1 h with ⟨used', rfl, rfl⟩ | ⟨mid, rfl, hmid⟩
  · exact ⟨used', rfl⟩
  cases mid with
  | nil => exact ⟨[], hmid.symm⟩
  | cons c mid =>
    obtain ⟨rfl, -⟩ := cons.inj hmid
    exact absurd (by simp) he

theorem globChars_bracket {inClass : Bool} {used rest : List Char}
    (h : globChars inClass ps ++ ['$'] = used ++ ']' :: rest) :
    ∃ mid ps', ps = mid ++ ']' :: ps' ∧ rest = globChars false ps' ++ ['$'] := by
  induction ps generalizing inClass used with
  | nil =>
    obtain ⟨used', hnil⟩ := @bracket_after ['$'] [] used rest (by decide) h
    simp at hnil
  | cons c ps ih =>
    -- Whatever is written for another character, the bracket comes later.
    have hlater : ∀ {e b used'}, ']' ∉ e → e ++ (globChars b ps ++ ['$']) = used' ++ ']' :: rest →
        ∃ mid ps', c :: ps = mid ++ ']' :: ps' ∧ rest = globChars false ps' ++ ['$'] := by
      intro e b used' he heq
      obtain ⟨used'', hused⟩ := bracket_after he heq
      obtain ⟨mid, ps', rfl, hrest⟩ := ih hused
      exact ⟨c :: mid, ps', rfl, hrest⟩
    have hcopied : c :: (globChars (inClass && c ≠ ']') ps ++ ['$']) = used ++ ']' :: rest →
        ∃ mid ps', c :: ps = mid ++ ']' :: ps' ∧ rest = globChars false ps' ++ ['$'] := by
      intro heq
      by_cases hc : c = ']'
      · cases used with
        | nil =>
          obtain ⟨-, rfl⟩ := cons.inj heq
          exact ⟨[], ps, by rw [hc]; rfl, by simp [hc]⟩
        | cons d used =>
          obtain ⟨-, heq⟩ := cons.inj heq
          exact @hlater [] _ used (by simp) heq
      · exact @hlater [c] _ used (by simpa using Ne.symm hc) heq
    cases inClass with
    | true => exact hcopied (by simpa [globChars] using h)
    | false =>
      rw [globChars] at h
      split_ifs at h with hstar hany hopen hescape
      · exact @hlater ['.', '*'] _ used (by decide) h
      · exact @hlater ['.'] _ used (by decide) h
      · exact @hlater ['['] _ used (by decide) h
      · refine @hlater ['\\', c] _ used (fun hmem => ?_) h
        obtain rfl : ']' = c := by simpa using hmem
        exact absurd hescape (by decide)
      · exact hcopied (by simpa using h)

theorem head?_globChars (ps : List Char) : (globChars false ps ++ ['$']).head? ≠ some '*' := by
  cases ps with
  | nil => simp [globChars]
  | cons c ps =>
    rw [globChars]
    split_ifs with hstar
    all_goals simp [hstar]

end Text

section Reading

variable {names : Names} {A : Char → Prop} {ps : List Char} {items : List (Item Char)}

def setText (negated : Bool) (members : List Char) : List Char :=
  if negated then '^' :: members else members

/-- The item of the regex that a token of the pattern is written as, where the two are read one by
one. -/
inductive Reads (names : Names) : Token Char → Item Char → Prop
  | star : Reads names .star (.many dot)
  | any : Reads names .any (.one dot)
  | lit {c : Char} (h : c ≠ '[') : Reads names (.lit c) (.one (· == c))
  | set {negated : Bool} {members : List Char} {f : Char → Bool}
      (h : readClass names (setText negated members ++ [']']) = some (f, [])) :
      Reads names (.set negated members) (.one f)

variable {ts : List (Token Char)} {t : Token Char} {s : List Char}

theorem sameKind_of_aligned (h : List.Forall₂ (Reads names) ts items) :
    List.Forall₂ SameKind (ts.map Token.item) items := by
  induction h with
  | nil => exact .nil
  | cons hitem _ ih => exact .cons (by cases hitem <;> trivial) ih

theorem Reads.unique {i j : Item Char} (hi : Reads names t i) (hj : Reads names t j) : i = j := by
  cases hi with
  | star =>
    cases hj
    rfl
  | any =>
    cases hj
    rfl
  | lit h =>
    cases hj
    rfl
  | set h =>
    cases hj with
    | set h' =>
      rw [h] at h'
      cases h'
      rfl

theorem reads_ofSet {item : Item Char} (hs : ']' ∉ s) : Reads names (ofSet scanSymbols s) item ↔
      ∃ f, item = .one f ∧ ∀ tail, readClass names (s ++ ']' :: tail) = some (f, tail) := by
  have htext : ∃ negated members, ofSet scanSymbols s = .set negated members ∧
      setText negated members = s := by
    unfold ofSet
    split_ifs with hneg
    · obtain ⟨members, rfl⟩ := head?_eq_some_iff.1 hneg
      exact ⟨true, members, rfl, rfl⟩
    · exact ⟨false, s, rfl, rfl⟩
  obtain ⟨negated, members, hset, rfl⟩ := htext
  rw [hset]
  constructor
  · intro h
    cases h with
    | set h => exact ⟨_, rfl, readClass_first hs h⟩
  · rintro ⟨f, rfl, h⟩
    exact .set (h [])

theorem scanTokens_set (hs : ']' ∉ s) (ps : List Char) :
    scanTokens ('[' :: (s ++ ']' :: ps)) = ofSet scanSymbols s :: scanTokens ps :=
  tokens_set (by decide) (by decide) rfl hs ps

theorem scanTokens_unclosed (hps : ']' ∉ ps) :
    scanTokens ('[' :: ps) = .lit '[' :: scanTokens ps := by
  refine tokens_unclosed (by decide) (by decide) rfl ?_
  exact findIdx?_eq_none_iff.2 fun c hc =>
    beq_false_of_ne fun heq : c = ']' => hps (heq ▸ hc)

theorem readItem_globChars {c : Char} (hopen : c ≠ '[') (ps : List Char) :
    ∃ t item, scanTokens (c :: ps) = t :: scanTokens ps ∧ Reads names t item ∧
      readItem names (globChars false (c :: ps) ++ ['$']) =
        some (item, globChars false ps ++ ['$']) := by
  by_cases hstar : c = '*'
  · refine ⟨.star, _, tokens_star hstar, .star, ?_⟩
    rw [globChars, if_pos hstar]
    rfl
  by_cases hany : c = '?'
  · refine ⟨.any, _, tokens_any hstar hany, .any, ?_⟩
    rw [globChars, if_neg hstar, if_pos hany, cons_append, readItem, if_pos rfl,
      if_neg (head?_globChars ps)]
  refine ⟨.lit c, _, tokens_lit hstar hany hopen, .lit hopen, ?_⟩
  rw [globChars, if_neg hstar, if_neg hany, if_neg hopen]
  split_ifs with hescape
  · have hpunct : ∀ d ∈ ['.', '+', '(', ')', '|', '^', '$', '\x7b', '\x7d', '\\'],
        escapable d = true := all_eq_true.1 rfl
    simp [readItem, readEscape, hpunct c hescape, Regex.Primitive.toSet]
  · simp only [mem_cons, not_mem_nil, or_false, not_or] at hescape
    simp [readItem, hstar, hany, hopen, hescape]

theorem readItem_set (hs : ']' ∉ s) (ps : List Char) :
    readItem names (globChars false ('[' :: (s ++ ']' :: ps)) ++ ['$']) =
      (readClass names (s ++ ']' :: (globChars false ps ++ ['$']))).map
        fun r => (.one r.1, r.2) := by
  have htext : globChars false ('[' :: (s ++ ']' :: ps)) ++ ['$'] =
      '[' :: (s ++ ']' :: (globChars false ps ++ ['$'])) := by
    simp [globChars, globChars_class hs]
  rw [htext]
  rfl

theorem readItem_unclosed (hps : ']' ∉ ps) :
    readItem names (globChars false ('[' :: ps) ++ ['$']) = none := by
  rcases hread : readItem names (globChars false ('[' :: ps) ++ ['$']) with _ | ⟨item, rest⟩
  · rfl
  obtain ⟨⟨f, rest'⟩, hclass, -⟩ := Option.map_eq_some_iff.1 hread
  obtain ⟨used, hused⟩ := readClass_eq_some hclass
  obtain ⟨mid, ps', rfl, -⟩ := globChars_bracket hused
  exact absurd (by simp) hps

theorem readItems_of_aligned {fuel : ℕ} (h : List.Forall₂ (Reads names) (scanTokens ps) items)
    (hfuel : ps.length < fuel) :
    readItems names fuel (globChars false ps ++ ['$']) = some items := by
  induction fuel generalizing ps items with
  | zero => omega
  | succ fuel ih =>
    rw [readItems_succ_iff]
    cases ps with
    | nil =>
      rw [scanTokens, tokens] at h
      cases h
      exact .inl ⟨rfl, rfl⟩
    | cons c ps =>
      refine .inr ?_
      rw [length_cons] at hfuel
      by_cases hopen : c = '['
      · subst hopen
        by_cases hps : ']' ∈ ps
        · obtain ⟨s, ps, rfl, hs⟩ := eq_append_cons_of_mem hps
          rw [scanTokens_set hs] at h
          cases h with
          | cons hitem hitems =>
            obtain ⟨f, rfl, hclass⟩ := (reads_ofSet hs).1 hitem
            rw [length_append, length_cons] at hfuel
            exact ⟨_, _, _, by rw [readItem_set hs, hclass]; rfl, ih hitems (by omega), rfl⟩
        · rw [scanTokens_unclosed hps] at h
          cases h with
          | cons hitem _ =>
            cases hitem with
            | lit h => exact absurd rfl h
      · obtain ⟨t, item, htokens, hreads, hread⟩ := @readItem_globChars names c hopen ps
        rw [htokens] at h
        cases h with
        | cons hitem hitems =>
          obtain rfl := hreads.unique hitem
          exact ⟨_, _, _, hread, ih hitems (by omega), rfl⟩

abbrev width (ts : List (Token Char)) : ℕ := (ones (ts.map Token.item)).length

theorem width_append (ts ts' : List (Token Char)) : width (ts ++ ts') = width ts + width ts' := by
  rw [width, map_append, Linear.ones_append, length_append]

theorem width_cons (ht : t ≠ .star) (ts : List (Token Char)) : width (t :: ts) = width ts + 1 := by
  rw [width, map_cons, item_of_ne_star ht]
  rfl

theorem Reads.ones_cons {item : Item Char} (h : Reads names t item)
    (ts : List (Token Char)) (items : List (Item Char)) :
    (ones (item :: items)).length + width ts = (ones items).length + width (t :: ts) := by
  cases h <;> simp only [width, map_cons, Token.item, ones, length_cons] <;> omega

theorem width_of_aligned (h : List.Forall₂ (Reads names) ts items) :
    (ones items).length = width ts := by
  induction h with
  | nil => rfl
  | @cons t item ts items hitem _ ih =>
    have := hitem.ones_cons ts items
    omega

theorem aligned_or_fewer {fuel : ℕ}
    (h : readItems names fuel (globChars false ps ++ ['$']) = some items) :
    List.Forall₂ (Reads names) (scanTokens ps) items ∨
      (ones items).length < width (scanTokens ps) := by
  induction fuel generalizing ps items with
  | zero => cases h
  | succ fuel ih =>
    rcases readItems_succ_iff.1 h with ⟨hend, rfl⟩ | ⟨item, rest, items, hitem, hitems, rfl⟩
    · have hlen := length_le_globChars false ps
      rw [append_left_eq_self.1 hend] at hlen
      obtain rfl := length_eq_zero_iff.1 (Nat.le_zero.1 hlen)
      rw [scanTokens, tokens]
      exact .inl .nil
    cases ps with
    | nil => cases hitem
    | cons c ps =>
      by_cases hopen : c = '['
      · subst hopen
        by_cases hps : ']' ∈ ps
        · obtain ⟨s, ps, rfl, hs⟩ := eq_append_cons_of_mem hps
          rw [readItem_set hs] at hitem
          obtain ⟨⟨f, rest'⟩, hclass, heq⟩ := Option.map_eq_some_iff.1 hitem
          obtain ⟨rfl, rfl⟩ : Item.one f = item ∧ rest' = rest := Prod.mk.inj heq
          rw [scanTokens_set hs]
          obtain ⟨used, hused⟩ := readClass_eq_some hclass
          obtain ⟨used', hused'⟩ := bracket_after hs hused
          cases used' with
          | nil =>
            obtain ⟨-, rfl⟩ := cons.inj hused'
            have hreads : Reads names (ofSet scanSymbols s) (.one f) :=
              (reads_ofSet hs).2 ⟨f, rfl, readClass_first hs hclass⟩
            rcases ih hitems with haligned | hfewer
            · exact .inl (.cons hreads haligned)
            · have := hreads.ones_cons (scanTokens ps) items
              exact .inr (by omega)
          | cons d used' =>
            -- The class goes on to a later bracket, and the pattern has a token at least for that.
            obtain ⟨-, hrest⟩ := cons.inj hused'
            obtain ⟨mid, ps', rfl, rfl⟩ := globChars_bracket hrest
            obtain ⟨ts, t, htokens, ht⟩ := @Glob.tokens_append_closing _ _ scanSymbols
              (by decide) (by decide) (by decide) mid ps'
            have hwidth : width (ofSet scanSymbols s :: scanTokens (mid ++ ']' :: ps')) =
                width ts + (width (scanTokens ps') + 1) + 1 := by
              rw [← width_cons ht (scanTokens ps'), ← width_append, width_cons (ofSet_ne_star s)]
              exact congrArg (width · + 1) htokens
            have hle : (ones items).length ≤ width (scanTokens ps') := by
              rcases ih hitems with haligned | hfewer
              · exact (width_of_aligned haligned).le
              · exact hfewer.le
            refine .inr ?_
            rw [hwidth, ones, length_cons]
            omega
        · rw [readItem_unclosed hps] at hitem
          cases hitem
      · obtain ⟨t, item', htokens, hreads, hread⟩ := @readItem_globChars names c hopen ps
        rw [hread] at hitem
        cases hitem
        rw [htokens]
        rcases ih hitems with haligned | hfewer
        · exact .inl (.cons hreads haligned)
        · have := hreads.ones_cons (scanTokens ps) items
          exact .inr (by omega)

/-- A token that the regex reads as the pattern does, for keys over `A`. -/
def ReadAlike (names : Names) (A : Char → Prop) : Token Char → Prop
  | .star | .any => ¬ A '\n'
  | .set negated members => ∃ f, readClass names (setText negated members ++ [']']) = some (f, []) ∧
      ∀ c, A c → f c = (Token.set negated members).accepts c
  -- A bracket is a token of its own only where it is not closed.
  | .lit c => c ≠ '['

theorem readAlike_iff : ReadAlike names A t ↔ ∃ item, Reads names t item ∧ Same A t.item item := by
  have hdot : (∀ c, A c → true = dot c) ↔ ¬ A '\n' := by
    constructor
    · intro h hA
      exact absurd (h _ hA) (by decide)
    · intro h c hA
      exact (bne_iff_ne.2 fun hc : c = '\n' => h (hc ▸ hA)).symm
  constructor
  · intro h
    cases t with
    | star => exact ⟨_, .star, hdot.2 h⟩
    | any => exact ⟨_, .any, hdot.2 h⟩
    | set negated members =>
      obtain ⟨f, hread, hf⟩ := h
      exact ⟨_, .set hread, fun c hc => (hf c hc).symm⟩
    | lit c => exact ⟨_, .lit h, fun d _ => BEq.comm⟩
  · rintro ⟨item, hreads, hsame⟩
    cases hreads with
    | star => exact hdot.1 hsame
    | any => exact hdot.1 hsame
    | lit h => exact h
    | set h => exact ⟨_, h, fun c hc => (hsame c hc).symm⟩

theorem forall_readAlike_iff : (∀ t ∈ ts, ReadAlike names A t) ↔
    ∃ items, List.Forall₂ (Reads names) ts items ∧
      List.Forall₂ (Same A) (ts.map Token.item) items := by
  induction ts with
  | nil => exact ⟨fun _ => ⟨[], .nil, .nil⟩, fun _ t ht => by cases ht⟩
  | cons t ts ih =>
    rw [forall_mem_cons, ih, readAlike_iff]
    constructor
    · rintro ⟨⟨item, hreads, hsame⟩, items, haligned, hall⟩
      exact ⟨item :: items, .cons hreads haligned, .cons hsame hall⟩
    rintro ⟨items, haligned, hall⟩
    cases haligned with
    | cons hreads haligned =>
      cases hall with
      | cons hsame hall => exact ⟨⟨_, hreads, hsame⟩, _, haligned, hall⟩

end Reading

/-- What is documented of `Regex::new` and `is_match`, for the texts that `glob_to_regex` writes. -/
structure Documented (names : Names) (regex : String → Except String (String → Bool)) : Prop where
  invalid : ∀ {pattern}, parse names (globToRegex pattern).toList = none →
    ∃ e, regex (globToRegex pattern) = .error e
  valid : ∀ {pattern items}, parse names (globToRegex pattern).toList = some items →
    ∃ isMatch, regex (globToRegex pattern) = .ok isMatch ∧
      ∀ key, isMatch key = accepts items key.toList

/-- A regex that is as documented. -/
def regexNew (names : Names) (text : String) : Except String (String → Bool) :=
  match parse names text.toList with
  | none => .error text
  | some items => .ok fun key => accepts items key.toList

theorem documented_regexNew (names : Names) : Documented names (regexNew names) :=
  ⟨fun h => ⟨_, by rw [regexNew, h]⟩, fun h => ⟨_, by rw [regexNew, h], fun _ => rfl⟩⟩

section Patterns

variable {names : Names} {regex : String → Except String (String → Bool)} {A : Char → Prop}

variable (names) in
theorem parse_globToRegex (pattern : String) : parse names (globToRegex pattern).toList =
    readItems names ((globChars false pattern.toList ++ ['$']).length + 1)
      (globChars false pattern.toList ++ ['$']) := by
  rw [globToRegex, String.toList_ofList]
  rfl

variable {pattern : String}

theorem agree_globToRegex {items : List (Item Char)}
    (h : parse names (globToRegex pattern).toList = some items)
    (hsome : ∃ key : String, (∀ c ∈ key.toList, A c) ∧
      Matches (scanTokens pattern.toList) key.toList) :
    (∀ key : String, (∀ c ∈ key.toList, A c) →
      (accepts items key.toList = true ↔ Matches (scanTokens pattern.toList) key.toList)) ↔
    ∀ t ∈ scanTokens pattern.toList, ReadAlike names A t := by
  rw [parse_globToRegex] at h
  have haligned : width (scanTokens pattern.toList) = (ones items).length →
      List.Forall₂ (Reads names) (scanTokens pattern.toList) items := by
    intro hwidth
    rcases aligned_or_fewer h with haligned | hfewer
    · exact haligned
    · omega
  have halike : List.Forall₂ (Same A) ((scanTokens pattern.toList).map Token.item) items ↔
      ∀ t ∈ scanTokens pattern.toList, ReadAlike names A t := by
    rw [forall_readAlike_iff]
    constructor
    · intro hsame
      exact ⟨items, haligned (Linear.length_ones_eq hsame), hsame⟩
    rintro ⟨items', hreads, hsame⟩
    rw [readItems_of_aligned hreads (length_lt_fuel _)] at h
    cases h
    exact hsame
  have hstar : ∀ f, .many f ∈ (scanTokens pattern.toList).map Token.item → f = fun _ => true := by
    intro f hf
    obtain ⟨t, -, ht⟩ := mem_map.1 hf
    cases t <;> cases ht
    rfl
  rw [← halike, ← Linear.agree_iff hstar (fun f hf => eq_dot_of_mem_readItems h hf)
    (fun hwidth => sameKind_of_aligned (haligned hwidth))
    (hsome.imp' String.toList fun key hkey => ⟨hkey.1, matches_iff_accepts.1 hkey.2⟩)]
  constructor
  · intro hagree w hw
    have hkey := hagree (String.ofList w)
    rw [String.toList_ofList, matches_iff_accepts] at hkey
    exact (Bool.eq_iff_iff.2 (hkey hw)).symm
  · intro hagree key hkey
    rw [matches_iff_accepts, hagree _ hkey]

/-- A pattern that is read alike has a valid regex, and it takes the keys of the pattern. -/
theorem regex_of_readAlike (hregex : Documented names regex)
    (h : ∀ t ∈ scanTokens pattern.toList, ReadAlike names A t) :
    ∃ isMatch, regex (globToRegex pattern) = .ok isMatch ∧ ∀ key : String, (∀ c ∈ key.toList, A c) →
        (isMatch key = true ↔ Matches (scanTokens pattern.toList) key.toList) := by
  obtain ⟨items, hreads, hsame⟩ := forall_readAlike_iff.1 h
  have hparse : parse names (globToRegex pattern).toList = some items := by
    rw [parse_globToRegex, readItems_of_aligned hreads (length_lt_fuel _)]
  obtain ⟨isMatch, hok, hmatch⟩ := hregex.valid hparse
  refine ⟨isMatch, hok, fun key hkey => ?_⟩
  rw [hmatch, matches_iff_accepts, Linear.accepts_congr hsame hkey]

theorem scanTokens_star : scanTokens "*".toList = [.star] := by simp [tokens, scanSymbols]

theorem readAlike_star : ∀ t ∈ scanTokens "*".toList, ReadAlike default (· ≠ '\n') t := by
  rw [scanTokens_star]
  simp [ReadAlike]

/-- Which patterns a scan decides for keys over `A`, all keys or those without a newline say, among
those that match some key over `A`: the ones in which each token is read alike. -/
theorem scanPattern_iff (hregex : Documented names regex) (A : Char → Prop) (pattern : String)
    (hsome : ∃ key : String, (∀ c ∈ key.toList, A c) ∧
      Matches (scanTokens pattern.toList) key.toList) :
    (∃ isMatch, regex (globToRegex pattern) = .ok isMatch ∧
      ∀ key : String, (∀ c ∈ key.toList, A c) →
        (isMatch key = true ↔ Matches (scanTokens pattern.toList) key.toList)) ↔
    ∀ t ∈ scanTokens pattern.toList, ReadAlike names A t := by
  refine ⟨?_, regex_of_readAlike hregex⟩
  rintro ⟨isMatch, hok, hmatch⟩
  rcases hparse : parse names (globToRegex pattern).toList with _ | items
  · obtain ⟨e, herror⟩ := hregex.invalid hparse
    rw [hok] at herror
    cases herror
  obtain ⟨isMatch', hok', haccepts⟩ := hregex.valid hparse
  rw [hok] at hok'
  cases hok'
  simp only [haccepts] at hmatch
  exact (agree_globToRegex hparse hsome).1 hmatch

theorem scanPattern_star : ∃ isMatch, regexNew default (globToRegex "*") = .ok isMatch ∧
    ∀ key : String, (∀ c ∈ key.toList, c ≠ '\n') →
      (isMatch key = true ↔ Matches (scanTokens "*".toList) key.toList) := by
  have hsome : Matches (scanTokens "*".toList) "k".toList := by
    rw [matches_iff_accepts, scanTokens_star]
    rfl
  exact (scanPattern_iff (documented_regexNew default) (· ≠ '\n') "*"
    ⟨"k", by simp, hsome⟩).2 readAlike_star

end Patterns

theorem scanPattern_fails :
    (∀ names, ∃ isMatch, regexNew names (globToRegex "*") = .ok isMatch ∧
      isMatch "\n" = false ∧ Matches (scanTokens "*".toList) "\n".toList) ∧
    (∀ names, (regexNew names (globToRegex "[")).isOk = false ∧
      Matches (scanTokens "[".toList) "[".toList) ∧
    ∀ names, ∃ isMatch, regexNew names (globToRegex "[a-c]") = .ok isMatch ∧
      isMatch "b" = true ∧ ¬ Matches (scanTokens "[a-c]".toList) "b".toList := by
  have hopen : scanTokens "[".toList = [.lit '['] := by simp [tokens, scanSymbols]
  have hset : scanTokens "[a-c]".toList = [.set false ['a', '-', 'c']] := by
    simp [tokens, scanSymbols, ofSet, List.findIdx?_cons]
  simp only [matches_iff_accepts, scanTokens_star, hopen, hset]
  exact ⟨fun _ => ⟨_, rfl, rfl, rfl⟩, fun _ => ⟨rfl, rfl⟩, fun _ => ⟨_, rfl, rfl, by decide⟩⟩

end Kamino
