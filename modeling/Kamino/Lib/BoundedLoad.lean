import Mathlib.Algebra.BigOperators.Fin
import Mathlib.Algebra.Order.BigOperators.Group.Finset
import Mathlib.Data.List.Find
import Mathlib.Data.List.Rotate

/-!
# Bounded-load placement on a ring

An item starts at a slot of the ring and goes around once: the first owner whose load is below the
capacity takes it (`search`), and the distinct owners that follow stand in for it (`followers`).
-/

namespace BoundedLoad

open List Function

variable {ι : Type*} {p : ι × ℕ}

section Turn

theorem filterMap_range' {f : ℕ → Option ι} : ∀ {l : List ι} {k : ℕ},
    (∀ i < l.length, f (k + i) = l[i]?) → (range' k l.length).filterMap f = l
  | [], _, _ => rfl
  | x :: l, k, h => by
    have h₀ : f k = some x := h 0 (Nat.zero_lt_succ _)
    have htail : (range' (k + 1) l.length).filterMap f = l := by
      refine filterMap_range' fun i hi => ?_
      rw [Nat.add_assoc, Nat.add_comm 1, h (i + 1) (Nat.succ_lt_succ hi), getElem?_cons_succ]
    rw [length_cons, range'_succ, filterMap_cons_some h₀, htail]

/-- One turn around the ring from `start`: the owners with their slots. -/
def turn (ring : List ι) (start : ℕ) : List (ι × ℕ) := ring.zipIdx.rotate start

variable {ring : List ι} {start : ℕ}

theorem mem_turn : p ∈ turn ring start ↔ ring[p.2]? = some p.1 := by
  rw [turn, mem_rotate, mem_zipIdx_iff_getElem?]

@[simp]
theorem length_turn : (turn ring start).length = ring.length := by
  rw [turn, length_rotate, length_zipIdx]

theorem getElem?_turn {step : ℕ} (h : step < ring.length) : (turn ring start)[step]? =
      ring[(start + step) % ring.length]?.map fun m => (m, (start + step) % ring.length) := by
  rw [turn, getElem?_rotate (by rwa [length_zipIdx]), length_zipIdx,
    Nat.add_comm step, getElem?_zipIdx]
  simp

theorem filterMap_range_turn : ((range ring.length).filterMap fun step =>
    ring[(start + step) % ring.length]?.map fun m => (m, (start + step) % ring.length))
      = turn ring start := by
  rw [range_eq_range', ← length_turn]
  refine filterMap_range' fun i hi => ?_
  rw [length_turn] at hi
  rw [Nat.zero_add, length_turn, getElem?_turn hi]

theorem filterMap_range'_turn : ((range' 1 (ring.length - 1)).filterMap fun step =>
    ring[(start + step) % ring.length]?) = (turn ring start).tail.map Prod.fst := by
  have hlen : ring.length - 1 = ((turn ring start).tail.map Prod.fst).length := by simp
  rw [hlen]
  refine filterMap_range' fun i hi => ?_
  have hi' : i + 1 < ring.length := by
    rw [← hlen] at hi
    omega
  rw [getElem?_map, getElem?_tail, getElem?_turn hi', Nat.add_comm 1, Option.map_map]
  exact (Option.map_id' (x := ring[(start + (i + 1)) % ring.length]?)).symm

theorem head?_turn (h : ring ≠ []) :
    (turn ring start).head? = ring[start % ring.length]?.map fun m => (m, start % ring.length) := by
  have hpos : 0 < ring.length := length_pos_iff.2 h
  rw [head?_eq_getElem?, getElem?_turn hpos, Nat.add_zero]

end Turn

section Search

/-- The first free owner of a turn, or the slot it starts at if there is none. -/
def search (ring : List ι) (start : ℕ) (free : ι → Bool) : Option (ι × ℕ) :=
  ((turn ring start).find? fun p => free p.1) <|> (turn ring start).head?

variable {ring : List ι} {start : ℕ} {free : ι → Bool}

theorem search_isSome (h : ring ≠ []) : (search ring start free).isSome := by
  have hne : turn ring start ≠ [] := by
    rw [← length_pos_iff, length_turn]
    exact length_pos_iff.2 h
  unfold search
  cases (turn ring start).find? fun p => free p.1 with
  | some p => rfl
  | none => exact isSome_head?.2 hne

theorem getElem?_of_search (h : search ring start free = some p) : ring[p.2]? = some p.1 := by
  unfold search at h
  rcases hf : (turn ring start).find? fun p => free p.1 with _ | q <;> rw [hf] at h
  · exact mem_turn.1 (mem_of_head? h)
  · cases h
    exact mem_turn.1 (mem_of_find?_eq_some hf)

theorem find?_turn {m : ι} (hm : m ∈ ring) (hfree : free m) :
    ∃ p, ((turn ring start).find? fun p => free p.1) = some p ∧ free p.1 := by
  obtain ⟨i, hi⟩ := mem_iff_getElem?.1 hm
  have hsome : ((turn ring start).find? fun p => free p.1).isSome :=
    find?_isSome.2 ⟨(m, i), mem_turn.2 hi, hfree⟩
  obtain ⟨p, hp⟩ := Option.isSome_iff_exists.1 hsome
  exact ⟨p, hp, find?_eq_some_iff_append.1 hp |>.1⟩

theorem search_of_find? (h : ((turn ring start).find? fun p => free p.1) = some p) :
    search ring start free = some p := by
  rw [search, h]
  rfl

end Search

section Followers

variable [DecidableEq ι]

/-- The distinct owners of a walk but `skip`, in order, until there are `want`. -/
def distinct (skip : ι) (want : ℕ) (walk : List ι) : List ι :=
  walk.foldl (fun out m =>
    if out.length < want ∧ m ≠ skip ∧ m ∉ out then out ++ [m] else out) []

/-- What has been collected of a walk. -/
structure Collected (skip : ι) (want : ℕ) (walk out : List ι) : Prop where
  nodup : out.Nodup
  skip_notMem : skip ∉ out
  subset : out ⊆ walk
  length_le : out.length ≤ want
  full : out.length < want → ∀ m ∈ walk, m ≠ skip → m ∈ out

theorem collected_distinct (skip : ι) (want : ℕ) (walk : List ι) :
    Collected skip want walk (distinct skip want walk) := by
  unfold distinct
  induction walk using reverseRecOn with
  | nil => exact ⟨nodup_nil, not_mem_nil, List.Subset.refl _, Nat.zero_le _, by simp⟩
  | append_singleton walk m ih =>
    rw [foldl_append, foldl_cons, foldl_nil]
    generalize foldl _ [] walk = out at ih
    have hsub : out ⊆ walk ++ [m] := fun x hx => mem_append_left _ (ih.subset hx)
    split_ifs with h
    · obtain ⟨hlen, hskip, hnot⟩ := h
      refine ⟨?_, ?_, ?_, ?_, ?_⟩
      · exact nodup_append.2 ⟨ih.nodup, nodup_singleton m, by
          rintro a ha b hb rfl
          exact hnot (mem_singleton.1 hb ▸ ha)⟩
      · simpa [ih.skip_notMem] using Ne.symm hskip
      · exact append_subset.2 ⟨hsub, by simp⟩
      · rw [length_append, length_singleton]
        omega
      intro _ x hx hne
      rcases mem_append.1 hx with hx | hx
      · exact mem_append_left _ (ih.full hlen x hx hne)
      · exact mem_append_right _ hx
    · refine ⟨ih.nodup, ih.skip_notMem, hsub, ih.length_le, ?_⟩
      intro hlen x hx hne
      rcases mem_append.1 hx with hx | hx
      · exact ih.full hlen x hx hne
      · obtain rfl := mem_singleton.1 hx
        by_contra hnot
        exact h ⟨hlen, hne, hnot⟩

/-- The owners after the slot `at` of `m`, each once. -/
def followers (ring : List ι) (slot : ℕ) (m : ι) (want : ℕ) : List ι :=
  distinct m want ((turn ring slot).tail.map Prod.fst)

variable {ring : List ι} {slot want : ℕ} {m : ι}

omit [DecidableEq ι] in
theorem mem_tail_turn (h : ring[slot]? = some m) {x : ι} (hx : x ∈ ring) (hne : x ≠ m) :
    x ∈ (turn ring slot).tail.map Prod.fst := by
  obtain ⟨i, hi⟩ := mem_iff_getElem?.1 hx
  have hslot : slot < ring.length := (List.getElem?_eq_some_iff.1 h).1
  have hhead : (turn ring slot).head? = some (m, slot) := by
    rw [head?_turn (ne_nil_of_mem hx), Nat.mod_eq_of_lt hslot, h]
    rfl
  have hmem : (x, i) ∈ turn ring slot := mem_turn.2 hi
  obtain ⟨tl, htl⟩ := head?_eq_some_iff.1 hhead
  rw [htl] at hmem
  rcases mem_cons.1 hmem with heq | hmem
  · exact absurd (congrArg Prod.fst heq) hne
  · rw [htl]
    exact mem_map.2 ⟨(x, i), hmem, rfl⟩

theorem followers_subset : followers ring slot m want ⊆ ring := by
  intro x hx
  obtain ⟨p, hp, rfl⟩ := mem_map.1 ((collected_distinct m want _).subset hx)
  exact mem_of_getElem? (mem_turn.1 (mem_of_mem_tail hp))

theorem followers_nodup : (followers ring slot m want).Nodup := (collected_distinct m want _).nodup

theorem notMem_followers : m ∉ followers ring slot m want :=
  (collected_distinct m want _).skip_notMem

theorem followers_length (h : ring[slot]? = some m) :
    (followers ring slot m want).length = min want (ring.toFinset.card - 1) := by
  have hc : Collected m want _ (followers ring slot m want) := collected_distinct m want _
  have hcard : (followers ring slot m want).toFinset.card = (followers ring slot m want).length :=
    toFinset_card_of_nodup followers_nodup
  have hm : m ∈ ring.toFinset := mem_toFinset.2 (mem_of_getElem? h)
  have hothers : (ring.toFinset.erase m).card = ring.toFinset.card - 1 :=
    Finset.card_erase_of_mem hm
  have hsub : (followers ring slot m want).toFinset ⊆ ring.toFinset.erase m := by
    intro x hx
    rw [mem_toFinset] at hx
    refine Finset.mem_erase.2 ⟨?_, mem_toFinset.2 (followers_subset hx)⟩
    rintro rfl
    exact notMem_followers hx
  have hle := Finset.card_le_card hsub
  by_cases hfull : (followers ring slot m want).length < want
  · have hsup : ring.toFinset.erase m ⊆ (followers ring slot m want).toFinset := by
      intro x hx
      obtain ⟨hne, hx⟩ := Finset.mem_erase.1 hx
      rw [mem_toFinset] at hx ⊢
      exact hc.full hfull x (mem_tail_turn h hx hne) hne
    have hge := Finset.card_le_card hsup
    omega
  · have hlen := hc.length_le
    omega

end Followers

section Place

variable [DecidableEq ι] (ring : List ι) (cap want : ℕ)

/-- The owners and followers of items that start at the given slots, from the loads `load`. -/
def place : (ι → ℕ) → List ℕ → Option (List (ι × List ι))
  | _, [] => some []
  | load, start :: starts => do
    let (m, slot) ← search ring start (load · < cap)
    let rest ← place (Function.update load m (load m + 1)) starts
    return (m, followers ring slot m want) :: rest

variable {ring cap want}

theorem place_isSome (hring : ring ≠ []) :
    ∀ (starts : List ℕ) (load : ι → ℕ), (place ring cap want load starts).isSome
  | [], _ => rfl
  | start :: starts, load => by
    obtain ⟨⟨m, slot⟩, hp⟩ := Option.isSome_iff_exists.1
      (@search_isSome _ ring start (fun m => load m < cap) hring)
    obtain ⟨rest, hrest⟩ := Option.isSome_iff_exists.1
      (place_isSome hring starts (update load m (load m + 1)))
    simp [place, hp, hrest]

/-- What the loads are once the items of `owners` are placed. -/
def loaded (load : ι → ℕ) (owners : List ι) (m : ι) : ℕ := load m + owners.count m

theorem loaded_update (load : ι → ℕ) (m : ι) (owners : List ι) :
    loaded (update load m (load m + 1)) owners = loaded load (m :: owners) := by
  funext x
  unfold loaded
  rcases eq_or_ne x m with rfl | hne
  · rw [update_self, count_cons_self]
    omega
  · rw [update_of_ne hne, count_cons_of_ne hne.symm]

theorem place_getElem? : ∀ {starts : List ℕ} {load : ι → ℕ} {l : List (ι × List ι)},
    place ring cap want load starts = some l → ∀ {k start : ℕ}, starts[k]? = some start →
      ∃ m slot, search ring start (loaded load ((l.take k).map Prod.fst) · < cap) = some (m, slot)
        ∧ l[k]? = some (m, followers ring slot m want)
  | [], _, _, _, _, _, hk => absurd hk (by simp)
  | start :: starts, load, l, h, k, start', hk => by
    simp only [place, Option.bind_eq_bind, Option.bind_eq_some_iff, Option.pure_def,
      Option.some.injEq] at h
    obtain ⟨⟨m, slot⟩, hsearch, rest, hrest, rfl⟩ := h
    cases k with
    | zero =>
      obtain rfl : start = start' := by simpa using hk
      exact ⟨m, slot, hsearch, rfl⟩
    | succ k =>
      obtain ⟨m', slot', hsearch', hl⟩ := place_getElem? hrest hk
      rw [loaded_update] at hsearch'
      exact ⟨m', slot', hsearch', hl⟩

theorem length_place : ∀ {starts : List ℕ} {load : ι → ℕ} {l : List (ι × List ι)},
    place ring cap want load starts = some l → l.length = starts.length
  | [], _, _, h => by
    cases h
    rfl
  | start :: starts, load, l, h => by
    simp only [place, Option.bind_eq_bind, Option.bind_eq_some_iff, Option.pure_def,
      Option.some.injEq] at h
    obtain ⟨⟨m, slot⟩, -, rest, hrest, rfl⟩ := h
    rw [length_cons, length_cons, length_place hrest]

/-- The owner of the first slot takes all the items that start there, up to the capacity. -/
theorem le_count_place {m : ι} : ∀ {k : ℕ} {load : ι → ℕ} {l : List (ι × List ι)},
    place (m :: ring) cap want load (replicate k 0) = some l →
      min (cap - load m) k ≤ (l.map Prod.fst).count m
  | 0, _, _, _ => by simp
  | k + 1, load, l, h => by
    simp only [replicate_succ, place, Option.bind_eq_bind, Option.bind_eq_some_iff,
      Option.pure_def, Option.some.injEq] at h
    obtain ⟨⟨m', slot⟩, hsearch, rest, hrest, rfl⟩ := h
    have ih := le_count_place hrest
    by_cases hfree : load m < cap
    · have hfind : ((turn (m :: ring) 0).find? fun p => load p.1 < cap) = some (m, 0) := by
        simp [turn, hfree]
      rw [search_of_find? hfind] at hsearch
      cases hsearch
      dsimp only at ih
      rw [update_self] at ih
      rw [map_cons, count_cons_self]
      omega
    · omega

theorem exists_free {owners : List ι} (hsub : owners ⊆ ring)
    (hfits : owners.length < ring.toFinset.card * cap) : ∃ m ∈ ring, owners.count m < cap := by
  have hsum : ∑ m ∈ ring.toFinset, owners.count m = owners.length := by
    have := Multiset.sum_count_eq_card (m := (owners : Multiset ι)) (s := ring.toFinset)
      fun m hm => mem_toFinset.2 (hsub hm)
    simpa using this
  have hlt : ∑ m ∈ ring.toFinset, owners.count m < ∑ _m ∈ ring.toFinset, cap := by
    rw [hsum, Finset.sum_const, smul_eq_mul]
    exact hfits
  obtain ⟨m, hm, hlt⟩ := Finset.exists_lt_of_sum_lt hlt
  exact ⟨m, mem_toFinset.1 hm, hlt⟩

theorem owners_subset {starts : List ℕ} {load : ι → ℕ} {l : List (ι × List ι)}
    (h : place ring cap want load starts = some l) : l.map Prod.fst ⊆ ring := by
  intro m hm
  obtain ⟨k, hk⟩ := mem_iff_getElem?.1 hm
  have hlt : k < starts.length := by
    have := (List.getElem?_eq_some_iff.1 hk).1
    rwa [length_map, length_place h] at this
  obtain ⟨m', slot, hsearch, hl⟩ := place_getElem? h (getElem?_eq_getElem hlt)
  rw [getElem?_map, hl, Option.map_some, Option.some.injEq] at hk
  exact hk ▸ mem_of_getElem? (getElem?_of_search hsearch)

section Capacity

variable {starts : List ℕ} {l : List (ι × List ι)}
  (h : place ring cap want (fun _ => 0) starts = some l)
  (hfits : starts.length ≤ ring.toFinset.card * cap)

include h hfits

theorem find?_of_fits {k start : ℕ} (hk : starts[k]? = some start) :
    ∃ p, ((turn ring start).find? fun p => ((l.take k).map Prod.fst).count p.1 < cap) = some p
      ∧ ((l.take k).map Prod.fst).count p.1 < cap
      ∧ l[k]? = some (p.1, followers ring p.2 p.1 want) := by
  have hlt : k < starts.length := (List.getElem?_eq_some_iff.1 hk).1
  have hsub : (l.take k).map Prod.fst ⊆ ring := fun m hm =>
    owners_subset h (map_subset _ (take_subset k l) hm)
  have hlen : ((l.take k).map Prod.fst).length < ring.toFinset.card * cap := by
    rw [length_map, length_take, length_place h]
    omega
  obtain ⟨m, hm, hfree⟩ := exists_free hsub hlen
  obtain ⟨p, hp, hpfree⟩ := @find?_turn _ ring start
    (fun m => ((l.take k).map Prod.fst).count m < cap) m hm (by simpa using hfree)
  refine ⟨p, hp, by simpa using hpfree, ?_⟩
  obtain ⟨m', slot, hsearch, hl⟩ := place_getElem? h hk
  simp only [loaded, Nat.zero_add] at hsearch
  rw [search_of_find? hp] at hsearch
  cases hsearch
  exact hl

theorem count_take_le (k : ℕ) (m : ι) : ((l.take k).map Prod.fst).count m ≤ cap := by
  induction k with
  | zero => simp
  | succ k ih =>
    rcases hk : starts[k]? with _ | start
    · have hle : l.length ≤ k := by
        rw [length_place h]
        exact getElem?_eq_none_iff.1 hk
      rwa [take_of_length_le (Nat.le_succ_of_le hle), ← take_of_length_le hle]
    obtain ⟨p, -, hfree, hl⟩ := find?_of_fits h hfits hk
    rw [take_add_one, hl, Option.toList_some, map_append, count_append,
      map_singleton, count_singleton]
    split_ifs with heq
    · obtain rfl : p.1 = m := by simpa using heq
      omega
    · omega

/-- Nobody is given more than the capacity. -/
theorem place_count_le (m : ι) : (l.map Prod.fst).count m ≤ cap := by
  have := count_take_le h hfits l.length m
  rwa [take_length] at this

end Capacity

end Place

/-! ### Other names for the owners -/

section Renaming

variable {κ : Type*} {f : ι → κ} {ring : List ι} {start : ℕ}

theorem turn_map : turn (ring.map f) start = (turn ring start).map (Prod.map f id) := by
  rw [turn, turn, map_rotate, zipIdx_map]

theorem search_map {free : ι → Bool} {free' : κ → Bool} (h : ∀ m ∈ ring, free' (f m) = free m) :
    search (ring.map f) start free' = (search ring start free).map (Prod.map f id) := by
  have hfind : ((turn (ring.map f) start).find? fun p => free' p.1)
      = ((turn ring start).find? fun p => free p.1).map (Prod.map f id) := by
    rw [turn_map, find?_map]
    refine congrArg (Option.map _) (find?_congr fun p hp => ?_)
    exact h p.1 (mem_of_getElem? (mem_turn.1 hp))
  unfold search
  rw [hfind, turn_map, head?_map]
  cases (turn ring start).find? fun p => free p.1 <;> rfl

variable [DecidableEq ι] [DecidableEq κ]

theorem distinct_map {skip : ι} {want : ℕ} {walk : List ι}
    (hf : Set.InjOn f {m | m = skip ∨ m ∈ walk}) :
    distinct (f skip) want (walk.map f) = (distinct skip want walk).map f := by
  induction walk using reverseRecOn with
  | nil => rfl
  | append_singleton walk m ih =>
    have hih := ih (hf.mono fun x hx => hx.imp_right (mem_append_left _))
    have hm : m = skip ∨ m ∈ walk ++ [m] := .inr (by simp)
    have hne : f m ≠ f skip ↔ m ≠ skip := (hf.eq_iff hm (.inl rfl)).not
    have hnot : f m ∉ (distinct skip want walk).map f ↔ m ∉ distinct skip want walk := by
      rw [not_iff_not, mem_map]
      refine ⟨?_, fun h => ⟨m, h, rfl⟩⟩
      rintro ⟨x, hx, hxm⟩
      have hx' : x = skip ∨ x ∈ walk ++ [m] :=
        .inr (mem_append_left _ ((collected_distinct skip want walk).subset hx))
      exact hf hx' hm hxm ▸ hx
    unfold distinct at hih hnot ⊢
    rw [map_append, foldl_append, foldl_append, hih]
    simp only [map_cons, map_nil, foldl_cons, foldl_nil, length_map, hne, hnot]
    split_ifs <;> simp

theorem followers_map {slot want : ℕ} {m : ι} (hf : Set.InjOn f {m | m ∈ ring}) (hm : m ∈ ring) :
    followers (ring.map f) slot (f m) want = (followers ring slot m want).map f := by
  unfold followers
  rw [turn_map, ← map_tail, map_map]
  have hcomp : Prod.fst ∘ Prod.map f id = f ∘ (Prod.fst : ι × ℕ → ι) := rfl
  rw [hcomp, ← map_map]
  refine distinct_map (hf.mono ?_)
  rintro x (rfl | hx)
  · exact hm
  · obtain ⟨p, hp, rfl⟩ := mem_map.1 hx
    exact mem_of_getElem? (mem_turn.1 (mem_of_mem_tail hp))

theorem place_map {cap want : ℕ} (hf : Set.InjOn f {m | m ∈ ring}) :
    ∀ {starts : List ℕ} {load : ι → ℕ} {load' : κ → ℕ}, (∀ m ∈ ring, load' (f m) = load m) →
      place (ring.map f) cap want load' starts =
        (place ring cap want load starts).map (map (Prod.map f (map f)))
  | [], _, _, _ => rfl
  | start :: starts, load, load', hload => by
    have hsearch : search (ring.map f) start (load' · < cap)
        = (search ring start (load · < cap)).map (Prod.map f id) :=
      search_map fun m hm => by rw [hload m hm]
    simp only [place, hsearch]
    rcases hs : search ring start (load · < cap) with _ | ⟨m, slot⟩
    · rfl
    have hm : m ∈ ring := mem_of_getElem? (getElem?_of_search hs)
    have hupdate : ∀ x ∈ ring, update load' (f m) (load' (f m) + 1) (f x)
        = update load m (load m + 1) x := by
      intro x hx
      rcases eq_or_ne x m with rfl | hne
      · rw [update_self, update_self, hload x hx]
      · rw [update_of_ne hne, update_of_ne fun h => hne (hf hx hm h), hload x hx]
    have hih : place (ring.map f) cap want _ starts = _ := place_map hf hupdate
    simp only [Option.map_some, Prod.map_apply, id_eq, Option.bind_eq_bind, Option.bind_some, hih]
    cases place ring cap want (update load m (load m + 1)) starts with
    | none => rfl
    | some rest => simp [followers_map hf hm]

end Renaming

end BoundedLoad
