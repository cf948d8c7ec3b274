import Kamino.Lib.Linear

/-!
# Regular expressions without groups

Between the anchors `^` and `$` a sequence of items, each a character for itself, an escape, a dot,
a dot with a star or a bracketed class.
-/

namespace Regex

open List Option
open Linear (Item)

/-- What a character or an escape stands for in a class. -/
inductive Primitive where
  | char (c : Char)
  | set (f : Char → Bool)

def Primitive.toSet : Primitive → Char → Bool
  | .char c => (· == c)
  | .set f => f

/-- The names of the syntax: what a letter or a digit after a backslash reads with the text behind
it, such as `\n`, `\x41`, `\d` or `\pL`, and the ASCII classes. Where an escape ends does not depend
on what follows. -/
structure Names where
  escape : Char → List Char → Option (Primitive × List Char)
  ascii : List Char → Option (Char → Bool)
  escape_eq_some : ∀ {c text p rest}, escape c text = some (p, rest) →
    ∃ used, text = used ++ rest ∧ ∀ rest', escape c (used ++ rest') = some (p, rest')

/-- The syntax without any. -/
instance : Inhabited Names where
  default :=
    { escape := fun _ _ => none
      ascii := fun _ => none
      escape_eq_some := fun h => by cases h }

inductive SetOp where
  | intersection
  | difference
  | symmetricDifference

def SetOp.apply (f g : Char → Bool) (c : Char) : SetOp → Bool
  | .intersection => f c && g c
  | .difference => f c && !g c
  | .symmetricDifference => f c != g c

/-- A union after the operator before it, if there is one, with its left side. -/
def joined (lhs : Option (SetOp × (Char → Bool))) (f : Char → Bool) : Char → Bool :=
  match lhs with
  | none => f
  | some (op, g) => fun c => op.apply g f c

def negateIf (negated : Bool) (f : Char → Bool) (c : Char) : Bool := f c != negated

def dot (c : Char) : Bool := c != '\n'

section Readers

variable (names : Names)

/-- Punctuation may be escaped, whether it has to be or not. -/
def escapable (c : Char) : Bool :=
  c.toNat < 128 && !c.isAlphanum && c != '<' && c != '>'

/-- What follows a backslash. -/
def readEscape : List Char → Option (Primitive × List Char)
  | [] => none
  | c :: text => if escapable c then some (.char c, text) else names.escape c text

def readPrimitive : List Char → Option (Primitive × List Char)
  | [] => none
  | c :: text => if c = '\\' then readEscape names text else some (.char c, text)

/-- The ends of a range have to be characters, and in order. -/
def rangeOf : Primitive → Primitive → Option (Char → Bool)
  | .char low, .char high => if low ≤ high then some fun c => low ≤ c && c ≤ high else none
  | _, _ => none

/-- A character, an escape or a range. -/
def readRange (text : List Char) : Option ((Char → Bool) × List Char) :=
  match readPrimitive names text with
  | none => none
  | some (low, rest) =>
    -- A dash is itself before the end of the class, and two are an operator.
    if rest.head? ≠ some '-' ∨ rest.tail.head? = some ']' ∨ rest.tail.head? = some '-' then
      some (low.toSet, rest)
    else
      match readPrimitive names rest.tail with
      | none => none
      | some (high, rest) => (rangeOf low high).map fun f => (f, rest)

/-- Whether a class is negated. -/
def readCaret : List Char → Bool × List Char
  | [] => (false, [])
  | c :: text => if c = '^' then (true, text) else (false, c :: text)

/-- An ASCII class, after its opening bracket. -/
def readAscii (text : List Char) : Option ((Char → Bool) × List Char) :=
  if text.head? = some ':' then
    let (negated, text) := readCaret text.tail
    match text.dropWhile (· ≠ ':') with
    | _ :: c :: rest =>
      if c = ']' then
        (names.ascii (text.takeWhile (· ≠ ':'))).map fun f => (negateIf negated f, rest)
      else none
    | _ => none
  else none

/-- The characters that stand for themselves at the start of a class. -/
def readStart (text : List Char) : (Char → Bool) × List Char :=
  if text.head? = some '-' then ((· == '-'), text.dropWhile (· = '-'))
  else if text.head? = some ']' then ((· == ']'), text.tail)
  else (fun _ => false, text)

/-- The start of a class, after its opening bracket. -/
def openClass (text : List Char) : (Bool × (Char → Bool)) × List Char :=
  let (negated, text) := readCaret text
  let (start, text) := readStart text
  ((negated, start), text)

def setOp (c : Char) (next : Option Char) : Option SetOp :=
  if next = some c then
    if c = '&' then some .intersection
    else if c = '-' then some .difference
    else if c = '~' then some .symmetricDifference
    else none
  else none

/-- What is read at once in a class. -/
inductive Turn where
  | close
  | nest (opened : Bool × (Char → Bool))
  | op (op : SetOp)
  | item (f : Char → Bool)

def readTurn : List Char → Option (Turn × List Char)
  | [] => none
  | c :: text =>
    if c = ']' then some (.close, text)
    else if c = '[' then
      match readAscii names text with
      | some (f, rest) => some (.item f, rest)
      | none => some (.nest (openClass text).1, (openClass text).2)
    else
      match setOp c text.head? with
      | some op => some (.op op, text.tail)
      | none => (readRange names (c :: text)).map fun (f, rest) => (.item f, rest)

def union (f g : Char → Bool) (c : Char) : Bool := f c || g c

/-- The rest of a class, up to its closing bracket, after the union `f` of what has been read. Each
turn reads some of the text, so that more `fuel` than its length is enough. -/
def readUnion : (fuel : ℕ) → Option (SetOp × (Char → Bool)) → (f : Char → Bool) → List Char →
    Option ((Char → Bool) × List Char)
  | 0, _, _, _ => none
  | fuel + 1, lhs, f, text =>
    match readTurn names text with
    | none => none
    | some (.close, rest) => some (joined lhs f, rest)
    | some (.op op, rest) => readUnion fuel (some (op, joined lhs f)) (fun _ => false) rest
    | some (.item g, rest) => readUnion fuel lhs (union f g) rest
    | some (.nest (negated, start), rest) =>
      match readUnion fuel none start rest with
      | none => none
      | some (g, rest) => readUnion fuel lhs (union f (negateIf negated g)) rest

/-- A class, after its opening bracket. -/
def readClass (text : List Char) : Option ((Char → Bool) × List Char) :=
  let ((negated, start), rest) := openClass text
  (readUnion names (rest.length + 1) none start rest).map fun (f, rest) =>
    (negateIf negated f, rest)

/-- An item outside of classes. -/
def readItem : List Char → Option (Item Char × List Char)
  | [] => none
  | c :: text =>
    if c = '.' then
      if text.head? = some '*' then some (.many dot, text.tail) else some (.one dot, text)
    else if c = '[' then (readClass names text).map fun (f, rest) => (.one f, rest)
    else if c = '\\' then (readEscape names text).map fun (p, rest) => (.one p.toSet, rest)
    else if c ∈ ['*', '+', '?', '(', ')', '|', '^', '$', '\x7b'] then none
    else some (.one (· == c), text)

/-- The items up to the final anchor, with `fuel` as for a class. -/
def readItems : (fuel : ℕ) → List Char → Option (List (Item Char))
  | 0, _ => none
  | fuel + 1, text =>
    if text = ['$'] then some []
    else
      match readItem names text with
      | none => none
      | some (item, rest) => (readItems fuel rest).map (item :: ·)

def parse : List Char → Option (List (Item Char))
  | [] => none
  | c :: text => if c = '^' then readItems names (text.length + 1) text else none

end Readers

variable {fuel : ℕ}

section Classes

variable {names : Names} {text rest : List Char}

theorem readPrimitive_eq_some {p : Primitive} (h : readPrimitive names text = some (p, rest)) :
    ∃ used, used ≠ [] ∧ text = used ++ rest ∧
      ∀ rest', readPrimitive names (used ++ rest') = some (p, rest') := by
  fun_cases readPrimitive names text with
  | case1 => cases h
  | case2 text =>
    rw [readPrimitive, if_pos rfl] at h
    fun_cases readEscape names text with
    | case1 => cases h
    | case2 c text hc =>
      rw [readEscape, if_pos hc] at h
      cases h
      exact ⟨['\\', c], by simp, rfl, fun rest' => by simp [readPrimitive, readEscape, hc]⟩
    | case3 c text hc =>
      rw [readEscape, if_neg hc] at h
      obtain ⟨used, rfl, hread⟩ := names.escape_eq_some h
      exact ⟨'\\' :: c :: used, by simp, rfl, fun rest' => by
        simp [readPrimitive, readEscape, hc, hread]⟩
  | case3 c text hc =>
    rw [readPrimitive, if_neg hc] at h
    cases h
    exact ⟨[c], by simp, rfl, fun rest' => by simp [readPrimitive, hc]⟩

variable {f : Char → Bool} {tail : List Char}

theorem readRange_eq_some (h : readRange names text = some (f, rest)) :
    ∃ used, used ≠ [] ∧ text = used ++ rest ∧ ∀ t tail tail', rest = t ++ ']' :: tail →
      readRange names (used ++ (t ++ ']' :: tail')) = some (f, t ++ ']' :: tail') := by
  unfold readRange at h
  split at h
  · cases h
  rename_i low mid hlow
  obtain ⟨used, hne, rfl, hread⟩ := readPrimitive_eq_some hlow
  split_ifs at h with hdash
  · cases h
    refine ⟨used, hne, rfl, fun t tail tail' heq => ?_⟩
    subst heq
    rw [readRange, hread]
    have hsame : (t ++ ']' :: tail').head? ≠ some '-' ∨ (t ++ ']' :: tail').tail.head? = some ']' ∨
        (t ++ ']' :: tail').tail.head? = some '-' := by
      cases t with
      | nil => simp
      | cons d t =>
        cases t with
        | nil => simp
        | cons e t => simpa using hdash
    exact if_pos hsame
  split at h
  · cases h
  rename_i high rest' hhigh
  obtain ⟨used', hne', htail, hread'⟩ := readPrimitive_eq_some hhigh
  obtain ⟨g, hg, heq⟩ := Option.map_eq_some_iff.1 h
  cases heq
  rw [not_or, not_not] at hdash
  obtain ⟨d, used', rfl⟩ := exists_cons_of_ne_nil hne'
  obtain ⟨mid, rfl⟩ := head?_eq_some_iff.1 hdash.1
  rw [tail_cons] at htail
  subst htail
  refine ⟨used ++ '-' :: d :: used', by simp, by simp, fun t tail tail' heq => ?_⟩
  rw [append_assoc, readRange, hread]
  have hsame : ¬ (('-' :: d :: used' ++ (t ++ ']' :: tail')).head? ≠ some '-' ∨
      ('-' :: d :: used' ++ (t ++ ']' :: tail')).tail.head? = some ']' ∨
      ('-' :: d :: used' ++ (t ++ ']' :: tail')).tail.head? = some '-') := by
    simpa using hdash.2
  refine (if_neg hsame).trans ?_
  rw [cons_append, tail_cons, hread']
  exact congrArg (Option.map fun f => (f, t ++ ']' :: tail')) hg

theorem readCaret_suffix : (readCaret text).2 <:+ text := by
  fun_cases readCaret text with
  | case1 => exact suffix_rfl
  | case2 text => exact suffix_cons _ text
  | case3 c text hc => exact suffix_rfl

theorem readAscii_eq_some (h : readAscii names text = some (f, rest)) :
    ∃ used, text = used ++ ']' :: rest := by
  unfold readAscii at h
  split_ifs at h with hc
  obtain ⟨used, hused⟩ := (@readCaret_suffix text.tail).trans (tail_suffix text)
  split at h
  rename_i negated name hcaret
  rw [hcaret] at hused
  split at h
  · rename_i colon c rest' hdrop
    split_ifs at h with hbracket
    obtain ⟨g, -, heq⟩ := map_eq_some_iff.1 h
    cases heq
    refine ⟨used ++ (name.takeWhile (· ≠ ':') ++ [colon]), ?_⟩
    rw [← hused, ← hbracket, append_assoc, append_assoc, singleton_append, ← hdrop,
      takeWhile_append_dropWhile]
  · cases h

theorem readStart_suffix : (readStart text).2 <:+ text := by
  unfold readStart
  split_ifs
  · exact dropWhile_suffix _
  · exact tail_suffix text
  · exact suffix_rfl

theorem openClass_suffix : (openClass text).2 <:+ text :=
  readStart_suffix.trans readCaret_suffix

variable {s : List Char}

theorem readCaret_append (s : List Char) : ∃ negated t, t <:+ s ∧
    ∀ tail, readCaret (s ++ ']' :: tail) = (negated, t ++ ']' :: tail) := by
  cases s with
  | nil => exact ⟨false, [], suffix_rfl, fun tail => rfl⟩
  | cons c s =>
    by_cases hc : c = '^'
    · exact ⟨true, s, suffix_cons c s, fun tail => if_pos hc⟩
    · exact ⟨false, c :: s, suffix_rfl, fun tail => if_neg hc⟩

theorem readStart_append (hs : s ≠ []) (hmem : ']' ∉ s) : ∃ start t, t <:+ s ∧
    ∀ tail, readStart (s ++ ']' :: tail) = (start, t ++ ']' :: tail) := by
  obtain ⟨c, s, rfl⟩ := exists_cons_of_ne_nil hs
  by_cases hc : c = '-'
  · refine ⟨(· == '-'), (c :: s).dropWhile (· = '-'), dropWhile_suffix _, fun tail => ?_⟩
    have hdrop : ∀ s : List Char, (s ++ ']' :: tail).dropWhile (· = '-') =
        s.dropWhile (· = '-') ++ ']' :: tail := by
      intro s
      rw [dropWhile_append]
      split_ifs with hempty
      · rw [isEmpty_iff.1 hempty]
        rfl
      · rfl
    rw [readStart, if_pos (by simp [hc]), hdrop]
  · have hclose : c ≠ ']' := fun h => hmem (h ▸ mem_cons_self)
    refine ⟨fun _ => false, c :: s, suffix_rfl, fun tail => ?_⟩
    rw [readStart, if_neg (by simpa using hc), if_neg (by simpa using hclose)]

theorem openClass_append (hmem : ']' ∉ s) :
    (∀ tail, (openClass (s ++ ']' :: tail)).2 = tail) ∨ ∃ opened t, t <:+ s ∧
      ∀ tail, openClass (s ++ ']' :: tail) = (opened, t ++ ']' :: tail) := by
  obtain ⟨negated, t, hsuffix, hcaret⟩ := readCaret_append s
  rcases eq_or_ne t [] with rfl | ht
  · refine .inl fun tail => ?_
    simp only [openClass, hcaret]
    rfl
  obtain ⟨start, t', hsuffix', hstart⟩ :=
    readStart_append ht fun h => hmem (hsuffix.subset h)
  refine .inr ⟨(negated, start), t', hsuffix'.trans hsuffix, fun tail => ?_⟩
  simp only [openClass, hcaret, hstart]

theorem head?_append_bracket (s tail tail' : List Char) :
    (s ++ ']' :: tail).head? = (s ++ ']' :: tail').head? := by
  cases s <;> rfl

theorem setOp_eq_some {c : Char} {next : Option Char} {op : SetOp} (h : setOp c next = some op) :
    next = some c := by
  unfold setOp at h
  split_ifs at h with hnext
  all_goals exact hnext

theorem readTurn_eq_some {turn : Turn} (h : readTurn names text = some (turn, rest)) :
    ∃ used, used ≠ [] ∧ text = used ++ rest ∧ (turn = .close → used = [']']) := by
  cases text with
  | nil => cases h
  | cons c text =>
    rw [readTurn] at h
    split_ifs at h with hclose hopen
    · cases h
      exact ⟨[c], by simp, rfl, fun _ => by rw [hclose]⟩
    · split at h
      · rename_i f rest' hascii
        cases h
        obtain ⟨used, rfl⟩ := readAscii_eq_some hascii
        exact ⟨c :: used ++ [']'], by simp, by simp, by simp⟩
      · obtain ⟨rfl, rfl⟩ := Prod.mk.inj (some.inj h)
        obtain ⟨used, hused⟩ := @openClass_suffix text
        exact ⟨c :: used, by simp, by simp [hused], by simp⟩
    split at h
    · rename_i op hop
      cases h
      obtain ⟨text, rfl⟩ := head?_eq_some_iff.1 (setOp_eq_some hop)
      exact ⟨[c, c], by simp, rfl, by simp⟩
    obtain ⟨⟨f, rest'⟩, hrange, heq⟩ := map_eq_some_iff.1 h
    cases heq
    obtain ⟨used, hne, htext, -⟩ := readRange_eq_some hrange
    exact ⟨used, hne, htext, by simp⟩

variable {lhs : Option (SetOp × (Char → Bool))}

theorem readUnion_eq_some {g : Char → Bool} (h : readUnion names fuel lhs f text = some (g, rest)) :
    ∃ used, text = used ++ ']' :: rest := by
  induction fuel generalizing lhs f text rest g with
  | zero => cases h
  | succ fuel ih =>
    rw [readUnion] at h
    split at h
    · cases h
    · rename_i rest' hturn
      cases h
      obtain ⟨used, -, rfl, hclose⟩ := readTurn_eq_some hturn
      exact ⟨[], by rw [hclose rfl]; rfl⟩
    iterate 2
      · rename_i op rest' hturn
        obtain ⟨used, -, rfl, -⟩ := readTurn_eq_some hturn
        obtain ⟨used', rfl⟩ := ih h
        exact ⟨used ++ used', by simp⟩
    rename_i negated start rest' hturn
    obtain ⟨used, -, rfl, -⟩ := readTurn_eq_some hturn
    split at h
    · cases h
    rename_i inner rest'' hinner
    obtain ⟨used', rfl⟩ := ih hinner
    obtain ⟨used'', rfl⟩ := ih h
    exact ⟨used ++ (used' ++ ']' :: used''), by simp⟩

theorem not_nested {s used used' : List Char} (hmem : ']' ∉ s) :
    s ++ ']' :: tail ≠ used ++ ']' :: (used' ++ ']' :: tail) := by
  intro h
  have hs : s = used ++ ']' :: used' := by
    refine @append_cancel_right _ _ (']' :: tail) _ ?_
    rw [h]
    simp
  exact hmem (hs ▸ by simp)

theorem readTurn_first {turn : Turn} {t : List Char} (hs : s ≠ []) (hmem : ']' ∉ s)
    (hturn : ∀ opened, turn ≠ .nest opened)
    (h : readTurn names (s ++ ']' :: tail) = some (turn, t ++ ']' :: tail)) (tail' : List Char) :
    readTurn names (s ++ ']' :: tail') = some (turn, t ++ ']' :: tail') := by
  obtain ⟨c, s, rfl⟩ := exists_cons_of_ne_nil hs
  have hclose : c ≠ ']' := fun h => hmem (h ▸ mem_cons_self)
  rw [cons_append, readTurn, if_neg hclose] at h ⊢
  by_cases hopen : c = '['
  · rw [if_pos hopen] at h
    split at h
    · rename_i f rest' hascii
      cases h
      obtain ⟨used, hused⟩ := readAscii_eq_some hascii
      exact absurd hused (not_nested fun h => hmem (mem_cons_of_mem c h))
    · exact absurd (Prod.mk.inj (some.inj h)).1.symm (hturn _)
  rw [if_neg hopen] at h ⊢
  rw [head?_append_bracket s tail' tail]
  split at h
  · rename_i op hop
    obtain ⟨rfl, htail⟩ := Prod.mk.inj (some.inj h)
    cases s with
    | nil => exact absurd (some.inj (setOp_eq_some hop)) hclose.symm
    | cons d s =>
      obtain rfl : s = t := append_cancel_right htail
      rfl
  rename_i hop
  obtain ⟨⟨f, rest'⟩, hrange, heq⟩ := map_eq_some_iff.1 h
  obtain ⟨rfl, rfl⟩ := Prod.mk.inj heq
  obtain ⟨used, -, hused, hread⟩ := readRange_eq_some hrange
  have hs : c :: s = used ++ t := by
    refine @append_cancel_right _ _ (']' :: tail) _ ?_
    rw [append_assoc, ← hused, cons_append]
  rw [← cons_append, hs, append_assoc, hread t tail tail' rfl]
  rfl

/-- A class that ends at the first bracket is read alike whatever follows it. -/
theorem readUnion_first {fuel fuel' : ℕ} {g : Char → Bool} (hmem : ']' ∉ s)
    (h : readUnion names fuel lhs f (s ++ ']' :: tail) = some (g, tail)) (hfuel : s.length < fuel')
    (tail' : List Char) :
    readUnion names fuel' lhs f (s ++ ']' :: tail') = some (g, tail') := by
  induction fuel generalizing s lhs f fuel' with
  | zero => cases h
  | succ fuel ih =>
    obtain ⟨fuel', rfl⟩ : ∃ n, fuel' = n + 1 := ⟨fuel' - 1, by omega⟩
    rcases eq_or_ne s [] with rfl | hs
    · rw [nil_append, readUnion] at h ⊢
      simp only [readTurn, if_pos] at h ⊢
      obtain ⟨rfl, -⟩ := Prod.mk.inj (some.inj h)
      rfl
    rw [readUnion] at h ⊢
    -- What is left of `s` after a turn that the rest of the reading ends at `tail`.
    have hleft : ∀ {turn t}, readTurn names (s ++ ']' :: tail) = some (turn, t ++ ']' :: tail) →
        ']' ∉ t ∧ t.length < fuel' := by
      intro turn t hturn
      obtain ⟨used, hne, hused, -⟩ := readTurn_eq_some hturn
      have ht : s = used ++ t := by
        refine @append_cancel_right _ _ (']' :: tail) _ ?_
        rw [hused, append_assoc]
      have hpos := length_pos_iff.2 hne
      have hlen := congrArg length ht
      rw [length_append] at hlen
      exact ⟨fun h => hmem (ht ▸ mem_append_right used h), by omega⟩
    split at h
    · cases h
    · rename_i rest hturn
      obtain ⟨used, -, hused, hclose⟩ := readTurn_eq_some hturn
      rw [hclose rfl] at hused
      obtain ⟨c, s, rfl⟩ := exists_cons_of_ne_nil hs
      obtain ⟨rfl, -⟩ := cons.inj hused
      exact absurd mem_cons_self hmem
    iterate 2
      · rename_i rest hturn
        obtain ⟨t, rfl⟩ := readUnion_eq_some h
        obtain ⟨ht, hlen⟩ := hleft hturn
        rw [readTurn_first hs hmem (by simp) hturn tail']
        exact ih ht h hlen
    -- A class inside would end at an earlier closing bracket.
    rename_i negated start rest hturn
    obtain ⟨used, -, hused, -⟩ := readTurn_eq_some hturn
    split at h
    · cases h
    rename_i inner rest' hinner
    obtain ⟨used', rfl⟩ := readUnion_eq_some hinner
    obtain ⟨used'', rfl⟩ := readUnion_eq_some h
    rw [← append_assoc] at hused
    exact absurd hused (not_nested hmem)

theorem readClass_iff : readClass names text = some (f, rest) ↔
    ∃ g, readUnion names ((openClass text).2.length + 1) none (openClass text).1.2
      (openClass text).2 = some (g, rest) ∧ f = negateIf (openClass text).1.1 g := by
  constructor
  · intro h
    obtain ⟨⟨g, rest'⟩, hunion, heq⟩ := map_eq_some_iff.1 h
    obtain ⟨rfl, rfl⟩ := Prod.mk.inj heq
    exact ⟨g, hunion, rfl⟩
  · rintro ⟨g, hunion, rfl⟩
    exact map_eq_some_iff.2 ⟨(g, rest), hunion, rfl⟩

/-- A class ends with a closing bracket. -/
theorem readClass_eq_some (h : readClass names text = some (f, rest)) :
    ∃ used, text = used ++ ']' :: rest := by
  obtain ⟨g, hunion, -⟩ := readClass_iff.1 h
  obtain ⟨used, hused⟩ := @openClass_suffix text
  obtain ⟨used', hused'⟩ := readUnion_eq_some hunion
  exact ⟨used ++ used', by rw [← hused, hused', append_assoc]⟩

theorem readClass_first (hmem : ']' ∉ s)
    (h : readClass names (s ++ ']' :: tail) = some (f, tail)) (tail' : List Char) :
    readClass names (s ++ ']' :: tail') = some (f, tail') := by
  obtain ⟨g, hunion, rfl⟩ := readClass_iff.1 h
  rcases openClass_append hmem with hopen | ⟨opened, t, hsuffix, hopen⟩
  · -- The first bracket is part of the class, which then ends at a later one.
    obtain ⟨used, hused⟩ := readUnion_eq_some hunion
    rw [hopen] at hused
    have hlen := congrArg length hused
    simp only [length_append, length_cons] at hlen
    omega
  rw [hopen] at hunion ⊢
  have hlen : t.length < (t ++ ']' :: tail').length + 1 := by
    rw [length_append]
    omega
  refine readClass_iff.2 ⟨g, ?_, by rw [hopen]⟩
  rw [hopen]
  exact readUnion_first (fun h => hmem (hsuffix.subset h)) hunion hlen tail'

end Classes

section Items

variable {names : Names} {text : List Char} {items : List (Item Char)}

theorem readItems_succ_iff : readItems names (fuel + 1) text = some items ↔
    text = ['$'] ∧ items = [] ∨ ∃ item rest items', readItem names text = some (item, rest) ∧
      readItems names fuel rest = some items' ∧ items = item :: items' := by
  rw [readItems]
  split_ifs with hend
  · subst hend
    constructor
    · intro h
      exact .inl ⟨rfl, (some.inj h).symm⟩
    · rintro (⟨-, rfl⟩ | ⟨item, rest, items', hitem, -⟩)
      · rfl
      · cases hitem
  rcases readItem names text with _ | ⟨item, rest⟩
  · simp [hend]
  constructor
  · intro h
    obtain ⟨items', hitems, rfl⟩ := map_eq_some_iff.1 h
    exact .inr ⟨item, rest, items', rfl, hitems, rfl⟩
  · rintro (⟨h, -⟩ | ⟨_, _, items', ⟨⟩, hitems, rfl⟩)
    · exact absurd h hend
    · exact map_eq_some_iff.2 ⟨items', hitems, rfl⟩

theorem eq_dot_of_readItem {f : Char → Bool} {rest : List Char}
    (h : readItem names text = some (.many f, rest)) : f = dot := by
  cases text with
  | nil => cases h
  | cons c text =>
    rw [readItem] at h
    split_ifs at h
    · cases h
      rfl
    · cases h
    · obtain ⟨_, -, heq⟩ := map_eq_some_iff.1 h
      cases heq
    · obtain ⟨_, -, heq⟩ := map_eq_some_iff.1 h
      cases heq
    · cases h

theorem eq_dot_of_mem_readItems (h : readItems names fuel text = some items)
    {f : Char → Bool} (hf : .many f ∈ items) : f = dot := by
  induction fuel generalizing text items with
  | zero => cases h
  | succ fuel ih =>
    rcases readItems_succ_iff.1 h with ⟨-, rfl⟩ | ⟨item, rest, items', hitem, hitems, rfl⟩
    · cases hf
    rcases mem_cons.1 hf with rfl | hf
    · exact eq_dot_of_readItem hitem
    · exact ih hitems hf

end Items

end Regex
