import Mathlib.Data.List.Basic
import Mathlib.Data.List.Forall2

/-!
# Linear patterns

Items that each take one letter of a set or any number of letters of a set.
-/

namespace Linear

open List

variable {α : Type*}

inductive Item (α : Type*) where
  | one (f : α → Bool)
  | many (f : α → Bool)

/-- Some letters of `f`, and then what `rest` takes. -/
def run (f : α → Bool) (rest : List α → Bool) : List α → Bool
  | [] => rest []
  | a :: w => rest (a :: w) || f a && run f rest w

def accepts : List (Item α) → List α → Bool
  | [], w => w.isEmpty
  | .one _ :: _, [] => false
  | .one f :: ps, a :: w => f a && accepts ps w
  | .many f :: ps, w => run f (accepts ps) w

/-- The sets of the items that take one letter. -/
def ones : List (Item α) → List (α → Bool)
  | [] => []
  | .one f :: ps => f :: ones ps
  | .many _ :: ps => ones ps

/-- Each set has the letter in its place. -/
abbrev Takes (fs : List (α → Bool)) (w : List α) : Prop :=
  List.Forall₂ (fun f a => f a = true) fs w

variable {ps qs : List (Item α)} {f g : α → Bool} {rest : List α → Bool} {w : List α} {a : α}

theorem ones_append (ps qs : List (Item α)) : ones (ps ++ qs) = ones ps ++ ones qs := by
  induction ps with
  | nil => rfl
  | cons p ps ih =>
    cases p with
    | one f => rw [cons_append, ones, ones, ih, cons_append]
    | many f => rw [cons_append, ones, ones, ih]

theorem run_of_rest (h : rest w = true) : run f rest w = true := by
  cases w with
  | nil => exact h
  | cons a w => rw [run, h, Bool.true_or]

theorem run_iff : run f rest w = true ↔
    ∃ u v, w = u ++ v ∧ (∀ a ∈ u, f a = true) ∧ rest v = true := by
  induction w with
  | nil =>
    constructor
    · intro h
      exact ⟨[], [], rfl, by simp, h⟩
    · rintro ⟨u, v, heq, -, hv⟩
      obtain ⟨rfl, rfl⟩ := append_eq_nil_iff.1 heq.symm
      exact hv
  | cons a w ih =>
    rw [run, Bool.or_eq_true, Bool.and_eq_true, ih]
    constructor
    · rintro (h | ⟨ha, u, v, rfl, hu, hv⟩)
      · exact ⟨[], a :: w, rfl, by simp, h⟩
      refine ⟨a :: u, v, rfl, ?_, hv⟩
      rintro b (_ | ⟨_, hb⟩)
      · exact ha
      · exact hu b hb
    · rintro ⟨_ | ⟨b, u⟩, v, heq, hu, hv⟩
      · exact .inl (by rw [heq]; exact hv)
      · obtain ⟨rfl, rfl⟩ := cons.inj heq
        exact .inr ⟨hu a mem_cons_self, u, v, rfl, fun b hb => hu b (mem_cons_of_mem _ hb), hv⟩

theorem accepts_of_takes (h : Takes (ones ps) w) : accepts ps w = true := by
  induction ps generalizing w with
  | nil =>
    cases h
    rfl
  | cons p ps ih =>
    cases p with
    | one f =>
      cases h with
      | cons ha hw => rw [accepts, ha, ih hw, Bool.and_true]
    | many f => exact run_of_rest (ih h)

theorem takes_of_accepts (h : accepts ps w = true) : (ones ps).length ≤ w.length ∧
    (w.length ≤ (ones ps).length → Takes (ones ps) w) := by
  induction ps generalizing w with
  | nil =>
    obtain rfl := isEmpty_iff.1 h
    exact ⟨Nat.le_refl _, fun _ => .nil⟩
  | cons p ps ih =>
    cases p with
    | one f =>
      cases w with
      | nil => cases h
      | cons a w =>
        rw [accepts, Bool.and_eq_true] at h
        obtain ⟨hle, htakes⟩ := ih h.2
        exact ⟨Nat.succ_le_succ hle, fun hlen => .cons h.1 (htakes (Nat.le_of_succ_le_succ hlen))⟩
    | many f =>
      obtain ⟨u, v, rfl, -, hv⟩ := run_iff.1 h
      obtain ⟨hle, htakes⟩ := ih hv
      rw [length_append, ones]
      refine ⟨Nat.le_trans hle (Nat.le_add_left _ _), fun hlen => ?_⟩
      have hu : u.length = 0 := by omega
      obtain rfl := length_eq_zero_iff.1 hu
      exact htakes (by simpa using hlen)

theorem countP_le (hg : ∀ h, .many h ∈ ps → ∀ a, g a = true → h a = false)
    (h : accepts ps w = true) : w.countP g ≤ (ones ps).length := by
  induction ps generalizing w with
  | nil =>
    obtain rfl := isEmpty_iff.1 h
    exact Nat.le_refl _
  | cons p ps ih =>
    have hg' : ∀ h, .many h ∈ ps → ∀ a, g a = true → h a = false :=
      fun h hmem => hg h (mem_cons_of_mem _ hmem)
    cases p with
    | one f =>
      cases w with
      | nil => cases h
      | cons a w =>
        rw [accepts, Bool.and_eq_true] at h
        have hle := ih hg' h.2
        rw [countP_cons, ones, length_cons]
        split_ifs <;> omega
    | many f =>
      obtain ⟨u, v, rfl, hu, hv⟩ := run_iff.1 h
      have hnone : u.countP g = 0 := by
        rw [countP_eq_zero]
        intro a ha hga
        have := hg f mem_cons_self a hga
        rw [hu a ha] at this
        cases this
      rw [countP_append, hnone, Nat.zero_add]
      exact ih hg' hv

theorem accepts_replicate (hmem : .many f ∈ ps) (ha : f a = true) (h : Takes (ones ps) w) (n : ℕ) :
    ∃ u v, w = u ++ v ∧ accepts ps (u ++ (replicate n a ++ v)) = true := by
  induction ps generalizing w with
  | nil => cases hmem
  | cons p ps ih =>
    cases p with
    | one g =>
      cases h with
      | cons hb hw =>
        rcases mem_cons.1 hmem with heq | hmem
        · cases heq
        obtain ⟨u, v, rfl, hacc⟩ := ih hmem hw
        refine ⟨_ :: u, v, rfl, ?_⟩
        rw [cons_append, accepts, hb, hacc, Bool.and_true]
    | many g =>
      rcases mem_cons.1 hmem with heq | hmem
      · cases heq
        refine ⟨[], w, rfl, run_iff.2 ⟨replicate n a, w, rfl, fun b hb => ?_, accepts_of_takes h⟩⟩
        rw [eq_of_mem_replicate hb]
        exact ha
      · obtain ⟨u, v, rfl, hacc⟩ := ih hmem h
        exact ⟨u, v, rfl, run_of_rest hacc⟩

section Alphabet

variable (A : α → Prop)

/-- Two items of one kind that take the same letters of the alphabet. -/
def Same : Item α → Item α → Prop
  | .one f, .one g | .many f, .many g => ∀ a, A a → f a = g a
  | .one _, .many _ | .many _, .one _ => False

def SameKind : Item α → Item α → Prop
  | .one _, .one _ | .many _, .many _ => True
  | .one _, .many _ | .many _, .one _ => False

variable {A}

theorem run_congr {rest' : List α → Bool} (hf : ∀ a, A a → f a = g a)
    (hrest : ∀ w, (∀ a ∈ w, A a) → rest w = rest' w) (hw : ∀ a ∈ w, A a) :
    run f rest w = run g rest' w := by
  induction w with
  | nil => exact hrest [] hw
  | cons a w ih =>
    rw [run, run, hrest _ hw, hf a (hw a mem_cons_self), ih fun b hb => hw b (mem_cons_of_mem _ hb)]

theorem accepts_congr (h : List.Forall₂ (Same A) ps qs) (hw : ∀ a ∈ w, A a) :
    accepts ps w = accepts qs w := by
  induction h generalizing w with
  | nil => rfl
  | @cons p q ps qs hpq _ ih =>
    cases p with
    | one f =>
      cases q with
      | one g =>
        cases w with
        | nil => rfl
        | cons a w =>
          rw [accepts, accepts, hpq a (hw a mem_cons_self),
            ih fun b hb => hw b (mem_cons_of_mem _ hb)]
      | many g => exact hpq.elim
    | many f =>
      cases q with
      | one g => exact hpq.elim
      | many g => exact run_congr hpq (fun w => ih) hw

theorem length_ones_eq (h : List.Forall₂ (Same A) ps qs) : (ones ps).length = (ones qs).length := by
  induction h with
  | nil => rfl
  | @cons p q ps qs hpq _ ih =>
    cases p with
    | one f =>
      cases q with
      | one g => rw [ones, ones, length_cons, length_cons, ih]
      | many g => exact hpq.elim
    | many f =>
      cases q with
      | one g => exact hpq.elim
      | many g => exact ih

/-- A pattern that takes a word has a letter for each of its sets. -/
theorem exists_letter (h : accepts ps w = true) (hw : ∀ a ∈ w, A a) :
    ∀ f ∈ ones ps, ∃ a, A a ∧ f a = true := by
  induction ps generalizing w with
  | nil =>
    intro f hf
    cases hf
  | cons p ps ih =>
    cases p with
    | one g =>
      cases w with
      | nil => cases h
      | cons a w =>
        rw [accepts, Bool.and_eq_true] at h
        rintro f (_ | ⟨_, hf⟩)
        · exact ⟨a, hw a mem_cons_self, h.1⟩
        · exact ih h.2 (fun b hb => hw b (mem_cons_of_mem _ hb)) f hf
    | many g =>
      obtain ⟨u, v, rfl, -, hv⟩ := run_iff.1 h
      exact ih hv fun b hb => hw b (mem_append_right u hb)

theorem exists_takes : ∀ {fs : List (α → Bool)}, (∀ f ∈ fs, ∃ a, A a ∧ f a = true) →
    ∃ w, (∀ a ∈ w, A a) ∧ Takes fs w
  | [], _ => ⟨[], by simp, .nil⟩
  | f :: fs, h => by
    obtain ⟨a, ha, hfa⟩ := h f mem_cons_self
    obtain ⟨w, hw, htakes⟩ := exists_takes fun f hf => h f (mem_cons_of_mem _ hf)
    refine ⟨a :: w, ?_, .cons hfa htakes⟩
    rintro b (_ | ⟨_, hb⟩)
    · exact ha
    · exact hw b hb

theorem forall₂_of_takes : ∀ {fs gs : List (α → Bool)}, fs.length = gs.length →
    (∀ f ∈ fs, ∃ a, A a ∧ f a = true) → (∀ g ∈ gs, ∃ a, A a ∧ g a = true) →
    (∀ w, (∀ a ∈ w, A a) → (Takes fs w ↔ Takes gs w)) →
    List.Forall₂ (fun f g => ∀ a, A a → f a = g a) fs gs
  | [], [], _, _, _, _ => .nil
  | f :: fs, g :: gs, hlen, hfs, hgs, htakes => by
    have hcons {a : α} (ha : A a) {w : List α} (hw : ∀ b ∈ w, A b) : ∀ b ∈ a :: w, A b := by
      rintro b (_ | ⟨_, hb⟩)
      · exact ha
      · exact hw b hb
    obtain ⟨u, hu, hfu⟩ := exists_takes fun f hf => hfs f (mem_cons_of_mem _ hf)
    obtain ⟨v, hv, hgv⟩ := exists_takes fun g hg => hgs g (mem_cons_of_mem _ hg)
    have hhead : ∀ a, A a → f a = g a := by
      intro a ha
      refine Bool.eq_iff_iff.2 ⟨fun hfa => ?_, fun hga => ?_⟩
      · exact (forall₂_cons.1 ((htakes _ (hcons ha hu)).1 (.cons hfa hfu))).1
      · exact (forall₂_cons.1 ((htakes _ (hcons ha hv)).2 (.cons hga hgv))).1
    refine .cons hhead (forall₂_of_takes (Nat.succ.inj hlen)
      (fun f hf => hfs f (mem_cons_of_mem _ hf))
      (fun g hg => hgs g (mem_cons_of_mem _ hg)) fun w hw => ?_)
    obtain ⟨a, ha, hfa⟩ := hfs f mem_cons_self
    have hga : g a = true := (hhead a ha).symm.trans hfa
    constructor
    · intro h
      exact (forall₂_cons.1 ((htakes _ (hcons ha hw)).1 (.cons hfa h))).2
    · intro h
      exact (forall₂_cons.1 ((htakes _ (hcons ha hw)).2 (.cons hga h))).2

theorem many_le (hps : .many f ∈ ps) (hqs : ∀ h, .many h ∈ qs → h = g)
    (htakes : ∃ w, (∀ a ∈ w, A a) ∧ Takes (ones ps) w)
    (hagree : ∀ w, (∀ a ∈ w, A a) → accepts ps w = true → accepts qs w = true) {a : α} (ha : A a)
    (hfa : f a = true) : g a = true := by
  by_contra hga
  obtain ⟨w, hw, hpw⟩ := htakes
  obtain ⟨u, v, rfl, hacc⟩ := accepts_replicate hps hfa hpw ((ones qs).length + 1)
  have hword : ∀ b ∈ u ++ (replicate ((ones qs).length + 1) a ++ v), A b := by
    intro b hb
    rcases mem_append.1 hb with hb | hb
    · exact hw b (mem_append_left _ hb)
    · rcases mem_append.1 hb with hb | hb
      · exact eq_of_mem_replicate hb ▸ ha
      · exact hw b (mem_append_right _ hb)
  have hcount := @countP_le _ qs (fun b => !g b) _ (fun h hmem b hb => by
    rw [hqs h hmem]
    simpa using hb) (hagree _ hword hacc)
  have hrun : (replicate ((ones qs).length + 1) a).countP (fun b => !g b)
      = (ones qs).length + 1 := by
    rw [countP_replicate, if_pos (by simpa using hga)]
  rw [countP_append, countP_append, hrun] at hcount
  omega

theorem forall₂_same (hkind : List.Forall₂ SameKind ps qs)
    (hones : List.Forall₂ (fun f g => ∀ a, A a → f a = g a) (ones ps) (ones qs))
    (hmany : ∀ f g, .many f ∈ ps → .many g ∈ qs → ∀ a, A a → f a = g a) :
    List.Forall₂ (Same A) ps qs := by
  induction hkind with
  | nil => exact .nil
  | @cons p q ps qs hpq _ ih =>
    have htail : ∀ f g, .many f ∈ ps → .many g ∈ qs → ∀ a, A a → f a = g a :=
      fun f g hf hg => hmany f g (mem_cons_of_mem _ hf) (mem_cons_of_mem _ hg)
    cases p with
    | one f =>
      cases q with
      | one g =>
        obtain ⟨hfg, hones⟩ := forall₂_cons.1 hones
        exact .cons hfg (ih hones htail)
      | many g => exact hpq.elim
    | many f =>
      cases q with
      | one g => exact hpq.elim
      | many g => exact .cons (hmany f g mem_cons_self mem_cons_self) (ih hones htail)

/-- Two patterns, the first of which takes a word, take the same words exactly if their items are
the same one by one. -/
theorem agree_iff (hps : ∀ h, .many h ∈ ps → h = f) (hqs : ∀ h, .many h ∈ qs → h = g)
    (hkind : (ones ps).length = (ones qs).length → List.Forall₂ SameKind ps qs)
    (hsome : ∃ w, (∀ a ∈ w, A a) ∧ accepts ps w = true) :
    (∀ w, (∀ a ∈ w, A a) → accepts ps w = accepts qs w) ↔ List.Forall₂ (Same A) ps qs := by
  constructor
  · intro hagree
    obtain ⟨w, hw, hacc⟩ := hsome
    have hp := exists_letter hacc hw
    have hq := exists_letter ((hagree w hw).symm.trans hacc) hw
    obtain ⟨u, hu, hpu⟩ := exists_takes hp
    obtain ⟨v, hv, hqv⟩ := exists_takes hq
    have hle := (takes_of_accepts ((hagree u hu).symm.trans (accepts_of_takes hpu))).1
    have hge := (takes_of_accepts ((hagree v hv).trans (accepts_of_takes hqv))).1
    rw [← hpu.length_eq] at hle
    rw [← hqv.length_eq] at hge
    have hlen : (ones ps).length = (ones qs).length := by omega
    -- The shortest words compare the sets place by place.
    have htakes (w : List α) (hw : ∀ a ∈ w, A a) : Takes (ones ps) w ↔ Takes (ones qs) w := by
      constructor
      · intro h
        exact (takes_of_accepts ((hagree w hw).symm.trans (accepts_of_takes h))).2
          (Nat.le_of_eq (h.length_eq.symm.trans hlen))
      · intro h
        exact (takes_of_accepts ((hagree w hw).trans (accepts_of_takes h))).2
          (Nat.le_of_eq (h.length_eq.symm.trans hlen.symm))
    refine forall₂_same (hkind hlen) (forall₂_of_takes hlen hp hq htakes) ?_
    intro f' g' hf' hg' a ha
    obtain rfl := hps f' hf'
    obtain rfl := hqs g' hg'
    refine Bool.eq_iff_iff.2 ⟨fun hfa => ?_, fun hga => ?_⟩
    · exact many_le hf' hqs ⟨u, hu, hpu⟩ (fun w hw h => (hagree w hw).symm.trans h) ha hfa
    · exact many_le hg' hps ⟨v, hv, hqv⟩ (fun w hw h => (hagree w hw).trans h) ha hga
  · intro h w hw
    exact accepts_congr h hw

end Alphabet

end Linear
