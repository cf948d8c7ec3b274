import Kamino.Lib.BoundedLoad
import Kamino.Ring
import Mathlib.Algebra.Order.Floor.Ring
import Mathlib.Data.Rat.Floor

/-!
# The assignment of partitions

No member is primary of more partitions than its capacity, and the backups are all the other
members, or as many as are wanted.
-/

namespace Kamino

open Binary64 BoundedLoad List

variable {cfg : RingParams} {members : List ClusterMember} {ring : List (UInt64 × ℕ)} {idx : ℕ}

section Ids

def idAt (members : List ClusterMember) (idx : ℕ) : UInt64 := (members.map (·.id)).getD idx 0

theorem idAt_of_getElem? {m : ClusterMember} (h : members[idx]? = some m) :
    idAt members idx = m.id := by
  rw [idAt, getD_eq_getElem?_getD, getElem?_map, h]
  rfl

theorem idAt_mem (h : idx < members.length) : idAt members idx ∈ members.map (·.id) := by
  rw [idAt_of_getElem? (getElem?_eq_getElem h)]
  exact mem_map_of_mem (getElem_mem h)

theorem idAt_injOn (h : (members.map (·.id)).Nodup) :
    Set.InjOn (idAt members) {idx | idx < members.length} := by
  intro i hi j hj hij
  have hi' : i < (members.map (·.id)).length := by simpa using hi
  have hj' : j < (members.map (·.id)).length := by simpa using hj
  unfold idAt at hij
  rw [getD_eq_getElem?_getD, getD_eq_getElem?_getD, getElem?_eq_getElem hi',
    getElem?_eq_getElem hj'] at hij
  exact h.getElem_inj_iff.1 hij

variable (members) in
def ringIds (ring : List (UInt64 × ℕ)) : List UInt64 := ring.map fun p => idAt members p.2

end Ids

namespace IsRing

variable (h : IsRing cfg members ring)
include h

theorem lt_length {p : UInt64 × ℕ} (hp : p ∈ ring) : p.2 < members.length := by
  rw [h.perm.mem_iff] at hp
  obtain ⟨⟨m, idx⟩, hm, hp⟩ := mem_flatMap.1 hp
  obtain ⟨v, -, rfl⟩ := mem_map.1 hp
  rw [mem_zipIdx_iff_getElem?] at hm
  exact (List.getElem?_eq_some_iff.1 hm).1

variable (hv : 0 < cfg.virtualNodesPerMember)
include hv

theorem mem_ringIds_iff {id : UInt64} : id ∈ ringIds members ring ↔ id ∈ members.map (·.id) := by
  constructor
  · intro hid
    obtain ⟨p, hp, rfl⟩ := mem_map.1 hid
    exact idAt_mem (h.lt_length hp)
  intro hid
  obtain ⟨m, hm, rfl⟩ := mem_map.1 hid
  obtain ⟨idx, hidx⟩ := mem_iff_getElem?.1 hm
  have hslot : (cfg.env.hash64 (virtualNodeText m.id 0), idx) ∈ ring := by
    rw [h.perm.mem_iff]
    refine mem_flatMap.2 ⟨(m, idx), mem_zipIdx_iff_getElem?.2 hidx, ?_⟩
    exact mem_map.2 ⟨0, mem_range.2 hv, rfl⟩
  exact mem_map.2 ⟨_, hslot, idAt_of_getElem? hidx⟩

theorem card_ringIds (hids : (members.map (·.id)).Nodup) :
    (ringIds members ring).toFinset.card = members.length := by
  have heq : (ringIds members ring).toFinset = (members.map (·.id)).toFinset := by
    ext id
    rw [mem_toFinset, mem_toFinset, h.mem_ringIds_iff hv]
  rw [heq, toFinset_card_of_nodup hids, length_map]

theorem ringIds_ne_nil (hne : members ≠ []) : ringIds members ring ≠ [] := by
  obtain ⟨m, ms, rfl⟩ := exists_cons_of_ne_nil hne
  exact ne_nil_of_mem ((h.mem_ringIds_iff hv).2 (mem_map_of_mem mem_cons_self))

end IsRing

theorem isRing_buildRing (cfg : RingParams) (members : List ClusterMember) :
    IsRing cfg members (buildRing cfg members) := by
  have htotal : Std.Total fun x y : UInt64 × ℕ => x.1 ≤ y.1 := ⟨fun x y => UInt64.le_total x.1 y.1⟩
  have htrans : IsTrans (UInt64 × ℕ) fun x y => x.1 ≤ y.1 := ⟨fun _ _ _ => UInt64.le_trans⟩
  exact ⟨perm_insertionSort _ _, pairwise_insertionSort _ _⟩

section Place

theorem findPrimary_eq_search (start : ℕ) (load : List ℕ) (cap : ℕ) :
    findPrimary ring start load cap
      = search (ring.map Prod.snd) start fun idx => load.getD idx 0 < cap := by
  have hwalk : ((range ring.length).filterMap fun step =>
      ring[(start + step) % ring.length]?.map fun p => (p.2, (start + step) % ring.length))
        = turn (ring.map Prod.snd) start := by
    rw [← filterMap_range_turn]
    simp only [length_map, getElem?_map, Option.map_map]
    rfl
  unfold findPrimary search
  dsimp only
  rw [hwalk]
  cases (turn (ring.map Prod.snd) start).find? fun p => load.getD p.1 0 < cap with
  | some p => rfl
  | none =>
    rcases eq_or_ne ring [] with rfl | hne
    · rfl
    · rw [head?_turn (by simpa using hne), length_map, getElem?_map, Option.map_map]
      rfl

theorem collectBackups_eq_followers (slot idx want : ℕ) : collectBackups ring slot idx members want
      = (followers (ring.map Prod.snd) slot idx want).filterMap fun i =>
          members[i]?.map (·.id) := by
  unfold collectBackups followers distinct
  rw [← filterMap_range'_turn]
  simp [length_map, getElem?_map]

variable (hids : (members.map (·.id)).Nodup) (hidx : ∀ p ∈ ring, p.2 < members.length)

include hidx

theorem collectBackups_eq_map (slot idx want : ℕ) : collectBackups ring slot idx members want
      = (followers (ring.map Prod.snd) slot idx want).map (idAt members) := by
  rw [collectBackups_eq_followers, ← filterMap_eq_map (f := idAt members)]
  refine filterMap_congr fun i hi => ?_
  obtain ⟨p, hp, rfl⟩ := mem_map.1 (followers_subset hi)
  have hget := getElem?_eq_getElem (hidx p hp)
  rw [hget, Function.comp_apply, idAt_of_getElem? hget]
  rfl

theorem assignFrom_eq_place_idx (cap : ℕ) : ∀ (parts load : List ℕ), load.length = members.length →
    assignFrom cfg members ring cap load parts
      = (place (ring.map Prod.snd) cap (cfg.replicaCount - 1) (load.getD · 0)
          (parts.map (startSlot cfg ring))).map fun l =>
            ⟨l.map fun p => idAt members p.1, l.map fun p => p.2.map (idAt members)⟩
  | [], _, _ => rfl
  | part :: parts, load, hlen => by
    simp only [assignFrom, map_cons, place, findPrimary_eq_search]
    rcases hs : search (ring.map Prod.snd) (startSlot cfg ring part) (load.getD · 0 < cap)
      with _ | ⟨idx, slot⟩
    · rfl
    have hmem : idx ∈ ring.map Prod.snd := mem_of_getElem? (getElem?_of_search hs)
    obtain ⟨p, hp, rfl⟩ := mem_map.1 hmem
    have hlt : p.2 < members.length := hidx p hp
    have hget : members[p.2]? = some members[p.2] := getElem?_eq_getElem hlt
    have hload : (fun i => (load.modify p.2 (· + 1)).getD i 0)
        = Function.update (load.getD · 0) p.2 (load.getD p.2 0 + 1) := by
      funext i
      rw [getD_eq_getElem?_getD, getElem?_modify]
      rcases eq_or_ne i p.2 with rfl | hne
      · rw [Function.update_self, getD_eq_getElem?_getD, getElem?_eq_getElem (hlen ▸ hlt)]
        simp
      · rw [Function.update_of_ne hne, getD_eq_getElem?_getD]
        simp [hne.symm]
    have hih := assignFrom_eq_place_idx cap parts (load.modify p.2 (· + 1))
      (by rw [length_modify, hlen])
    rw [hload] at hih
    simp only [Option.bind_eq_bind, Option.bind_some, hget, hih]
    cases place (ring.map Prod.snd) cap (cfg.replicaCount - 1)
        (Function.update (load.getD · 0) p.2 (load.getD p.2 0 + 1))
        (parts.map (startSlot cfg ring)) with
    | none => rfl
    | some rest => simp [collectBackups_eq_map hidx, idAt_of_getElem? hget]

include hids in
/-- `assign` is a bounded-load placement on the ring of the members' ids. -/
theorem assignFrom_eq_place (cap : ℕ) (parts : List ℕ) :
    assignFrom cfg members ring cap (replicate members.length 0) parts
      = (place (ringIds members ring) cap (cfg.replicaCount - 1) (fun _ => 0)
          (parts.map (startSlot cfg ring))).map fun l => ⟨l.map Prod.fst, l.map Prod.snd⟩ := by
  have hzero : (fun i => (replicate members.length 0).getD i 0) = fun _ => 0 := by
    funext i
    rw [getD_eq_getElem?_getD, getElem?_replicate]
    split_ifs <;> rfl
  have hinj : Set.InjOn (idAt members) {i | i ∈ ring.map Prod.snd} := by
    refine (idAt_injOn hids).mono fun i hi => ?_
    obtain ⟨p, hp, rfl⟩ := mem_map.1 hi
    exact hidx p hp
  have hring : ringIds members ring = (ring.map Prod.snd).map (idAt members) := by
    rw [ringIds, map_map]
    rfl
  have hmap : place ((ring.map Prod.snd).map (idAt members)) cap (cfg.replicaCount - 1)
      (fun _ => 0) (parts.map (startSlot cfg ring))
        = (place (ring.map Prod.snd) cap (cfg.replicaCount - 1) (fun _ => 0)
            (parts.map (startSlot cfg ring))).map _ :=
    place_map hinj fun _ _ => rfl
  rw [assignFrom_eq_place_idx hidx cap parts _ length_replicate, hzero, hring, hmap, Option.map_map]
  simp [Function.comp_def]

theorem map_findPrimary (start : ℕ) (load : UInt64 → ℕ) (cap : ℕ) :
    (findPrimary ring start (members.map fun m => load m.id) cap).map (Prod.map (idAt members) id)
      = search (ringIds members ring) start (load · < cap) := by
  have hring : ringIds members ring = (ring.map Prod.snd).map (idAt members) := by
    rw [ringIds, map_map]
    rfl
  rw [findPrimary_eq_search, hring]
  refine (search_map fun idx hi => ?_).symm
  obtain ⟨p, hp, rfl⟩ := mem_map.1 hi
  have hget := getElem?_eq_getElem (hidx p hp)
  rw [idAt_of_getElem? hget, getD_eq_getElem?_getD, getElem?_map, hget]
  rfl

end Place

section Capacity

theorem le_mul_capacityPerMember {parts n : ℕ} {loadFactor : ℚ} (hn : 0 < n)
    (hparts : parts < 2 ^ 32) (hlf : 1 ≤ loadFactor) :
    parts ≤ n * capacityPerMember parts n loadFactor := by
  rcases Nat.eq_zero_or_pos parts with rfl | hpos
  · exact Nat.zero_le _
  have hceil : parts ≤ n * (fl (fl ((parts : ℚ) / n) * loadFactor)).ceil.toNat := by
    -- The two roundings lose less than `1 / n`, and the quotient is that far from an integer below.
    set avg : ℚ := (parts : ℚ) / n
    have havg : 0 < avg := by positivity
    have hmul : avg * n = parts := div_mul_cancel₀ _ (by positivity)
    have hfst : avg - avg / 2 ^ 53 ≤ fl avg := le_fl havg
    have hfl : 0 < fl avg := by linarith
    have hsnd := le_fl (x := fl avg * loadFactor) (by positivity)
    have hlf' : fl avg ≤ fl avg * loadFactor := le_mul_of_one_le_right hfl.le hlf
    set r := fl (fl avg * loadFactor)
    have hr : avg - avg / 2 ^ 52 ≤ r := by linarith
    have hle : r ≤ r.ceil.toNat := Rat.le_ceil.trans (by exact_mod_cast Int.self_le_toNat _)
    by_contra! hlt
    have hlt' : (n : ℚ) * r.ceil.toNat + 1 ≤ avg * n := by
      rw [hmul]
      exact_mod_cast hlt
    have hsmall : avg * n < 2 ^ 32 := by
      rw [hmul]
      exact_mod_cast hparts
    have hn' : (0 : ℚ) < n := by exact_mod_cast hn
    have := mul_le_mul_of_nonneg_right (hr.trans hle) hn'.le
    linarith
  unfold capacityPerMember
  dsimp only
  rcases le_total (max (fl (fl ((parts : ℚ) / n) * loadFactor)).ceil.toNat 1) (2 ^ 32 - 1)
    with h | h
  · rw [min_eq_left h]
    exact hceil.trans (Nat.mul_le_mul_left n (le_max_left _ _))
  · rw [min_eq_right h]
    have := Nat.mul_le_mul_right (2 ^ 32 - 1) hn
    omega

end Capacity

section Assign

variable (hne : members ≠ []) (hv : 0 < cfg.virtualNodesPerMember) (hring : IsRing cfg members ring)

include hne hv hring

theorem exists_assignOn (hparts : cfg.partitionCount ≠ 0) :
    ∃ a, assignOn cfg members ring = some a ∧ a.primary.length = cfg.partitionCount.toNat
      ∧ ∀ id ∈ a.primary, id ∈ members.map (·.id) := by
  have hslots : ring.map Prod.snd ≠ [] := by
    intro h
    exact hring.ringIds_ne_nil hv hne (by simpa [ringIds] using h)
  have hassign : assignFrom cfg members ring
      (capacityPerMember cfg.partitionCount.toNat members.length cfg.loadFactor)
      (replicate members.length 0) (range cfg.partitionCount.toNat) = _ :=
    assignFrom_eq_place_idx (fun _ => hring.lt_length) _ _ _ length_replicate
  unfold assignOn
  rw [if_neg (not_or.2 ⟨hne, hparts⟩), hassign]
  obtain ⟨l, hl⟩ := Option.isSome_iff_exists.1 (@place_isSome _ _ _
    (capacityPerMember cfg.partitionCount.toNat members.length cfg.loadFactor)
    (cfg.replicaCount - 1) hslots
    ((range cfg.partitionCount.toNat).map (startSlot cfg ring))
    ((replicate members.length 0).getD · 0))
  rw [hl]
  refine ⟨_, rfl, by simpa using length_place hl, fun id hid => ?_⟩
  obtain ⟨p, hp, rfl⟩ := mem_map.1 hid
  obtain ⟨q, hq, hqp⟩ := mem_map.1 (owners_subset hl (mem_map_of_mem hp))
  exact idAt_mem (hqp ▸ hring.lt_length hq)

variable (hids : (members.map (·.id)).Nodup)

include hids

theorem assignOn_eq : ∃ l, place (ringIds members ring)
      (capacityPerMember cfg.partitionCount.toNat members.length cfg.loadFactor)
      (cfg.replicaCount - 1) (fun _ => 0)
      ((range cfg.partitionCount.toNat).map (startSlot cfg ring)) = some l
    ∧ l.length = cfg.partitionCount.toNat ∧ assignOn cfg members ring
      = if cfg.partitionCount = 0 then none else some ⟨l.map Prod.fst, l.map Prod.snd⟩ := by
  obtain ⟨l, hl⟩ := Option.isSome_iff_exists.1 (place_isSome (hring.ringIds_ne_nil hv hne)
    ((range cfg.partitionCount.toNat).map (startSlot cfg ring)) (fun _ => 0))
  refine ⟨l, hl, by simpa using length_place hl, ?_⟩
  unfold assignOn
  simp only [hne, false_or]
  split_ifs
  · rfl
  · rw [assignFrom_eq_place hids (fun _ => hring.lt_length), hl]
    rfl

end Assign

section Loads

variable (cfg members ring) in
def loadsBefore (cap : ℕ) : ℕ → List ℕ
  | 0 => replicate members.length 0
  | part + 1 =>
    match findPrimary ring (startSlot cfg ring part) (loadsBefore cap part) cap with
    | some (primIdx, _) => (loadsBefore cap part).modify primIdx (· + 1)
    | none => loadsBefore cap part

theorem map_load_modify (hids : (members.map (·.id)).Nodup) (load : UInt64 → ℕ)
    (hidx : idx < members.length) :
    (members.map fun m => load m.id).modify idx (· + 1)
      = members.map fun m => load m.id + [idAt members idx].count m.id := by
  refine ext_getElem (by simp) fun i hi _ => ?_
  have hi' : i < members.length := by simpa using hi
  have heq : idAt members idx = members[i].id ↔ idx = i := by
    rw [← idAt_of_getElem? (getElem?_eq_getElem hi')]
    exact (idAt_injOn hids).eq_iff hidx hi'
  rw [getElem_modify]
  simp only [getElem_map, count_singleton, beq_iff_eq, heq]
  split_ifs <;> rfl

variable {cap : ℕ} {want parts : ℕ} {l : List (UInt64 × List UInt64)}
  (hids : (members.map (·.id)).Nodup) (hring : IsRing cfg members ring)
  (hl : place (ringIds members ring) cap want (fun _ => 0)
    ((range parts).map (startSlot cfg ring)) = some l)
  (hfits : parts ≤ (ringIds members ring).toFinset.card * cap)

include hring hl hfits

theorem findPrimary_of_fits {part : ℕ} (hpart : part < parts) :
    ∃ idx slot, findPrimary ring (startSlot cfg ring part)
        (members.map fun m => ((l.take part).map Prod.fst).count m.id) cap = some (idx, slot)
      ∧ idx < members.length
      ∧ ((l.take part).map Prod.fst).count (idAt members idx) < cap
      ∧ (l.map Prod.fst)[part]? = some (idAt members idx) := by
  have hstart : ((range parts).map (startSlot cfg ring))[part]?
      = some (startSlot cfg ring part) := by
    rw [getElem?_map, getElem?_range hpart, Option.map_some]
  obtain ⟨⟨id, slot⟩, hp, hfree, hget⟩ := find?_of_fits hl (by simpa using hfits) hstart
  have hsearch := map_findPrimary (fun _ => hring.lt_length) (startSlot cfg ring part)
    (fun id => ((l.take part).map Prod.fst).count id) cap
  rw [search_of_find? hp] at hsearch
  obtain ⟨⟨idx, slot⟩, hfind, hpair⟩ := Option.map_eq_some_iff.1 hsearch
  obtain ⟨rfl, rfl⟩ := Prod.mk.inj hpair
  refine ⟨idx, slot, hfind, ?_, hfree, ?_⟩
  · rw [findPrimary_eq_search] at hfind
    obtain ⟨q, hq, rfl⟩ := mem_map.1 (mem_of_getElem? (getElem?_of_search hfind))
    exact hring.lt_length hq
  · rw [getElem?_map, hget, Option.map_some]

include hids

theorem loadsBefore_eq : ∀ {part : ℕ}, part ≤ parts → loadsBefore cfg members ring cap part
      = members.map fun m => ((l.take part).map Prod.fst).count m.id
  | 0, _ => by simp [loadsBefore]
  | part + 1, hpart => by
    obtain ⟨idx, slot, hfind, hidx, -, hget⟩ := findPrimary_of_fits hring hl hfits hpart
    have htake : (l.take (part + 1)).map Prod.fst
        = (l.take part).map Prod.fst ++ [idAt members idx] := by
      rw [map_take, map_take, take_add_one, hget]
      rfl
    rw [loadsBefore, loadsBefore_eq (Nat.le_of_succ_le hpart), hfind]
    dsimp only
    rw [map_load_modify hids (fun id => ((l.take part).map Prod.fst).count id) hidx, htake]
    simp [count_append]

end Loads

/-- A hasher that sends everything to one position loads the member of the first slot until it is
full. -/
theorem exists_le_count {a : Assignment} (hhash : ∀ b, cfg.env.hash64 b = 0) (hne : members ≠ [])
    (hids : (members.map (·.id)).Nodup) (hv : 0 < cfg.virtualNodesPerMember)
    (hring : IsRing cfg members ring) (ha : assignOn cfg members ring = some a) :
    ∃ m ∈ members, min (capacityPerMember cfg.partitionCount.toNat members.length cfg.loadFactor)
      cfg.partitionCount.toNat ≤ a.primary.count m.id := by
  obtain ⟨l, hl, -, hassign⟩ := assignOn_eq hne hv hring hids
  rw [ha] at hassign
  split_ifs at hassign
  cases hassign
  have hstart : startSlot cfg ring = fun _ => 0 := by
    funext part
    cases ring <;> simp [startSlot, partitionPosition, hhash]
  obtain ⟨id, ids, hid⟩ := exists_cons_of_ne_nil (hring.ringIds_ne_nil hv hne)
  have hmem : id ∈ members.map (·.id) := (hring.mem_ringIds_iff hv).1 (hid ▸ mem_cons_self)
  obtain ⟨m, hm, rfl⟩ := mem_map.1 hmem
  rw [hstart, map_const', length_range, hid] at hl
  have hle := le_count_place hl
  rw [Nat.sub_zero] at hle
  exact ⟨m, hm, hle⟩

/-- Every partition gets a primary among the members, no member more of them than the capacity as
it is computed, and every search finds a member below it: the fallback is not used. The exact
capacity bounds the loads under every hasher just when the computed one, or the number of
partitions, is not above it. -/
theorem assign_bounded (cfg : RingParams) (members : List ClusterMember) (hne : members ≠ [])
    (hids : (members.map (·.id)).Nodup) (hv : 0 < cfg.virtualNodesPerMember)
    (hlf : 1 ≤ cfg.loadFactor) :
    let cap := capacityPerMember cfg.partitionCount.toNat members.length cfg.loadFactor
    let bound := ((cfg.partitionCount.toNat : ℚ) * cfg.loadFactor / members.length).ceil
    (∀ ring, IsRing cfg members ring → ∃ a : Assignment,
      assignOn cfg members ring = (if cfg.partitionCount = 0 then none else some a)
      ∧ a.primary.length = cfg.partitionCount.toNat
      ∧ (∀ id ∈ a.primary, id ∈ members.map (·.id))
      ∧ (∀ m ∈ members, a.primary.count m.id ≤ cap)
      ∧ ∀ part < cfg.partitionCount.toNat, ∃ idx slot,
          findPrimary ring (startSlot cfg ring part) (loadsBefore cfg members ring cap part) cap
            = some (idx, slot)
          ∧ (loadsBefore cfg members ring cap part).getD idx 0 < cap
          ∧ a.primary[part]? = members[idx]?.map (·.id))
    ∧ ((∀ env ring a, IsRing { cfg with env } members ring →
        assignOn { cfg with env } members ring = some a →
          ∀ m ∈ members, (a.primary.count m.id : ℤ) ≤ bound) ↔
      (min cap cfg.partitionCount.toNat : ℕ) ≤ bound) := by
  intro cap bound
  have hcap : cfg.partitionCount.toNat ≤ members.length * cap :=
    le_mul_capacityPerMember (length_pos_iff.2 hne) cfg.partitionCount.toNat_lt hlf
  refine ⟨fun ring hring => ?_, fun h => ?_, fun h env ring a hring ha m _ => ?_⟩
  · obtain ⟨l, hl, hlen, hassign⟩ := assignOn_eq hne hv hring hids
    have hfits : cfg.partitionCount.toNat ≤ (ringIds members ring).toFinset.card * cap := by
      rwa [hring.card_ringIds hv hids]
    refine ⟨⟨l.map Prod.fst, l.map Prod.snd⟩, hassign, by simpa using hlen, ?_, ?_, ?_⟩
    · intro id hid
      exact (hring.mem_ringIds_iff hv).1 (owners_subset hl hid)
    · intro m _
      exact place_count_le hl (by simpa using hfits) m.id
    intro part hpart
    obtain ⟨idx, slot, hfind, hidx, hfree, hget⟩ := findPrimary_of_fits hring hl hfits hpart
    rw [loadsBefore_eq hids hring hl hfits hpart.le]
    have hmember := getElem?_eq_getElem hidx
    rw [idAt_of_getElem? hmember] at hfree hget
    refine ⟨idx, slot, hfind, ?_, ?_⟩
    · rw [getD_eq_getElem?_getD, getElem?_map, hmember]
      exact hfree
    · rw [hget, hmember]
      rfl
  · set env : Env := { cfg.env with hash64 := fun _ => 0 }
    have hring := isRing_buildRing { cfg with env } members
    have hv : 0 < ({ cfg with env } : RingParams).virtualNodesPerMember := hv
    rcases eq_or_ne cfg.partitionCount 0 with hzero | hzero
    · simp only [bound, hzero, UInt32.toNat_zero, Nat.min_zero, Nat.cast_zero, zero_mul, zero_div]
      exact le_rfl
    obtain ⟨a, ha, -⟩ := exists_assignOn hne hv hring hzero
    obtain ⟨m, hm, hle⟩ := exists_le_count (fun _ => rfl) hne hids hv hring ha
    exact (Int.ofNat_le.2 hle).trans (h _ _ _ hring ha m hm)
  · have hv : 0 < ({ cfg with env } : RingParams).virtualNodesPerMember := hv
    obtain ⟨l, hl, hlen, hassign⟩ := assignOn_eq hne hv hring hids
    rw [ha] at hassign
    split_ifs at hassign
    cases hassign
    have hfits : cfg.partitionCount.toNat ≤ (ringIds members ring).toFinset.card * cap := by
      rwa [hring.card_ringIds hv hids]
    refine (Int.ofNat_le.2 (le_min (place_count_le hl (by simpa using hfits) m.id) ?_)).trans h
    rw [← hlen, ← length_map Prod.fst]
    exact count_le_length

/-- Three partitions for two members, all at one position of the ring. -/
def twoMembers : RingParams where
  env := ⟨fun _ => 0, fun _ _ _ => [], fun _ => "", fun _ => ""⟩
  partitionCount := 3
  virtualNodesPerMember := 2
  loadFactor := 5 / 4
  replicaCount := 2

def firstMember : ClusterMember :=
  { id := 1, addr := "a", name := "a", discoveryAddr := "a", birthdate := 0 }

def secondMember : ClusterMember :=
  { id := 2, addr := "b", name := "b", discoveryAddr := "b", birthdate := 0 }

theorem assign_bounded_two : ∃ a : Assignment,
    assign twoMembers [firstMember, secondMember] = some a ∧ a.primary.length = 3
      ∧ ∀ m ∈ [firstMember, secondMember], (a.primary.count m.id : ℤ) ≤ 2 := by
  obtain ⟨hbounded, hexact⟩ := assign_bounded twoMembers [firstMember, secondMember] (by simp)
    (by decide) (by decide) (by decide +kernel)
  have hring := isRing_buildRing twoMembers [firstMember, secondMember]
  obtain ⟨a, hassign, hlen, -⟩ := hbounded _ hring
  refine ⟨a, hassign, hlen, fun m hm => ?_⟩
  have hle := hexact.2 (by decide +kernel) twoMembers.env _ _ hring hassign m hm
  exact hle.trans_eq (by decide +kernel)

/-- 116 partitions for seven members, all at one position of the ring. The average load times 1.75
is 29; the computed product is above it, so the computed capacity is 30. -/
def sevenMembers : RingParams :=
  { twoMembers with partitionCount := 116, virtualNodesPerMember := 1, loadFactor := 7 / 4 }

theorem assign_above_capacity :
    let members := (range 7).map fun i => { firstMember with id := UInt64.ofNat i }
    (∃ a, assign sevenMembers members = some a ∧ a.primary.count 0 = 30)
      ∧ ((116 : ℚ) * sevenMembers.loadFactor / members.length).ceil = 29 := by
  have h : (assign sevenMembers ((range 7).map fun i =>
      { firstMember with id := UInt64.ofNat i })).map (·.primary.count 0) = some 30 := by
    decide +kernel
  obtain ⟨a, ha, hcount⟩ := Option.map_eq_some_iff.1 h
  exact ⟨⟨a, ha, hcount⟩, by decide +kernel⟩

/-- The backups of a partition are distinct members, none of them the primary, as many as wanted or
all the others. -/
theorem assign_backups (cfg : RingParams) (members : List ClusterMember)
    (ring : List (UInt64 × ℕ)) (hne : members ≠ []) (hids : (members.map (·.id)).Nodup)
    (hv : 0 < cfg.virtualNodesPerMember) (hring : IsRing cfg members ring) :
    ∃ a : Assignment, assignOn cfg members ring = (if cfg.partitionCount = 0 then none else some a)
      ∧ a.primary.length = cfg.partitionCount.toNat
      ∧ a.backups.length = cfg.partitionCount.toNat
      ∧ ∀ part < cfg.partitionCount.toNat, ∃ primary backups, a.primary[part]? = some primary
          ∧ a.backups[part]? = some backups
          ∧ backups.Nodup
          ∧ primary ∉ backups
          ∧ backups ⊆ members.map (·.id)
          ∧ backups.length = min (cfg.replicaCount - 1) (members.length - 1) := by
  obtain ⟨l, hl, hlen, hassign⟩ := assignOn_eq hne hv hring hids
  refine ⟨⟨l.map Prod.fst, l.map Prod.snd⟩, hassign, by simpa using hlen, by simpa using hlen, ?_⟩
  intro part hpart
  have hstart : ((range cfg.partitionCount.toNat).map (startSlot cfg ring))[part]?
      = some (startSlot cfg ring part) := by
    rw [getElem?_map, getElem?_range hpart, Option.map_some]
  obtain ⟨m, slot, hsearch, hget⟩ := place_getElem? hl hstart
  have hslot := getElem?_of_search hsearch
  refine ⟨m, followers (ringIds members ring) slot m (cfg.replicaCount - 1), ?_, ?_,
    followers_nodup, notMem_followers, fun id hid => ?_, ?_⟩
  · rw [getElem?_map, hget, Option.map_some]
  · rw [getElem?_map, hget, Option.map_some]
  · exact (hring.mem_ringIds_iff hv).1 (followers_subset hid)
  · rw [followers_length hslot, hring.card_ringIds hv hids]

theorem assign_backups_two : ∃ a : Assignment, assignOn twoMembers [firstMember, secondMember]
        (buildRing twoMembers [firstMember, secondMember]) = some a
      ∧ a.backups.length = 3
      ∧ ∀ part < 3, ∃ backups, a.backups[part]? = some backups ∧ backups.length = 1 := by
  obtain ⟨a, hassign, -, hlen, hbackups⟩ := assign_backups twoMembers [firstMember, secondMember]
    (buildRing twoMembers [firstMember, secondMember]) (by simp) (by decide) (by decide)
    (isRing_buildRing _ _)
  refine ⟨a, hassign, hlen, fun part hpart => ?_⟩
  obtain ⟨-, backups, -, hget, -, -, -, hmin⟩ := hbackups part hpart
  exact ⟨backups, hget, hmin⟩

section Order

/-- The positions with the ids of their members, as they are pushed. -/
def namedNodes (cfg : RingParams) (members : List ClusterMember) : List (UInt64 × UInt64) :=
  members.flatMap fun m => (range cfg.virtualNodesPerMember).map fun v =>
    (cfg.env.hash64 (virtualNodeText m.id v), m.id)

theorem map_virtualNodes (cfg : RingParams) (members : List ClusterMember) :
    (virtualNodes cfg members).map (fun p => (p.1, idAt members p.2)) = namedNodes cfg members := by
  have hfst : members = members.zipIdx.map Prod.fst := (zipIdx_map_fst 0 members).symm
  unfold virtualNodes namedNodes
  rw [map_flatMap]
  conv_rhs => rw [hfst, flatMap_map]
  refine flatMap_congr fun p hp => ?_
  rw [map_map, ← idAt_of_getElem? (mem_zipIdx_iff_getElem?.1 hp)]
  rfl

variable {members' : List ClusterMember} {ring' : List (UInt64 × ℕ)}

variable (cfg) in
theorem namedNodes_perm (hperm : members.Perm members') :
    (namedNodes cfg members).Perm (namedNodes cfg members') :=
  hperm.flatMap_right _

theorem IsRing.named (hring : IsRing cfg members ring) :
    (ring.map fun p => (p.1, idAt members p.2)).Perm (namedNodes cfg members) := by
  rw [← map_virtualNodes]
  exact hring.perm.map _

theorem IsRing.named_sorted (hring : IsRing cfg members ring)
    (hpos : ((namedNodes cfg members).map Prod.fst).Nodup) :
    (ring.map fun p => (p.1, idAt members p.2)).Pairwise fun x y => x.1 < y.1 := by
  have hle : (ring.map fun p => (p.1, idAt members p.2)).Pairwise fun x y => x.1 ≤ y.1 :=
    pairwise_map.2 hring.sorted
  have hne : (ring.map fun p => (p.1, idAt members p.2)).Pairwise fun x y => x.1 ≠ y.1 :=
    pairwise_map.1 ((hring.named.map Prod.fst).nodup_iff.2 hpos)
  exact (hle.and hne).imp fun h => UInt64.lt_of_le_of_ne h.1 h.2

theorem named_eq (hperm : members.Perm members')
    (hpos : ((namedNodes cfg members).map Prod.fst).Nodup) (hring : IsRing cfg members ring)
    (hring' : IsRing cfg members' ring') :
    ring.map (fun p => (p.1, idAt members p.2)) = ring'.map fun p => (p.1, idAt members' p.2) := by
  have hnodes := namedNodes_perm cfg hperm
  have hsame := (hring.named.trans hnodes).trans hring'.named.symm
  refine hsame.eq_of_pairwise (fun x y _ _ hxy hyx => ?_) (hring.named_sorted hpos)
    (hring'.named_sorted ((hnodes.map Prod.fst).nodup_iff.1 hpos))
  exact absurd (UInt64.lt_trans hxy hyx) (UInt64.lt_irrefl _)

theorem startSlot_map (f : UInt64 × ℕ → UInt64) (part : ℕ) :
    startSlot cfg ring part = ((ring.map fun p => (p.1, f p)).takeWhile fun p =>
      p.1 < partitionPosition cfg (UInt32.ofNat part)).length := by
  rw [startSlot, takeWhile_map, length_map]
  rfl

theorem ids_nodup_of_positions (hv : 0 < cfg.virtualNodesPerMember)
    (hpos : ((namedNodes cfg members).map Prod.fst).Nodup) : (members.map (·.id)).Nodup := by
  unfold namedNodes at hpos
  rw [map_flatMap, nodup_flatMap] at hpos
  refine pairwise_map.2 (hpos.2.imp fun {m m'} hdisjoint heq => ?_)
  have hmem (x : ClusterMember) : cfg.env.hash64 (virtualNodeText x.id 0)
      ∈ ((range cfg.virtualNodesPerMember).map fun v =>
          (cfg.env.hash64 (virtualNodeText x.id v), x.id)).map Prod.fst := by
    rw [map_map]
    exact mem_map.2 ⟨0, mem_range.2 hv, rfl⟩
  exact hdisjoint (hmem m) (heq ▸ hmem m')

theorem assignFrom_nil (cap : ℕ) (load : List ℕ) {parts : List ℕ} (h : parts ≠ []) :
    assignFrom cfg members [] cap load parts = none := by
  obtain ⟨part, parts, rfl⟩ := exists_cons_of_ne_nil h
  rfl

/-- The assignment does not depend on the order the members are listed in. -/
theorem assign_perm (cfg : RingParams) (members members' : List ClusterMember)
    (ring ring' : List (UInt64 × ℕ)) (hperm : members.Perm members')
    (hpos : ((virtualNodes cfg members).map Prod.fst).Nodup) (hring : IsRing cfg members ring)
    (hring' : IsRing cfg members' ring') :
    assignOn cfg members ring = assignOn cfg members' ring' := by
  have hpos' : ((namedNodes cfg members).map Prod.fst).Nodup := by
    rwa [← map_virtualNodes, map_map]
  have hnamed := named_eq hperm hpos' hring hring'
  have hnil : members = [] ↔ members' = [] := by
    rw [← length_eq_zero_iff, ← length_eq_zero_iff, hperm.length_eq]
  unfold assignOn
  by_cases hempty : members = [] ∨ cfg.partitionCount = 0
  · rw [if_pos hempty, if_pos (hempty.imp_left hnil.1)]
  rw [if_neg hempty, if_neg fun h => hempty (h.imp_left hnil.2)]
  rcases Nat.eq_zero_or_pos cfg.virtualNodesPerMember with hv | hv
  · -- Without virtual nodes neither ring has a slot.
    have hparts : range cfg.partitionCount.toNat ≠ [] := by
      rw [Ne, range_eq_nil]
      exact fun h => hempty (.inr (UInt32.toNat_inj.1 h))
    have hnone {ms : List ClusterMember} {r : List (UInt64 × ℕ)} (hr : IsRing cfg ms r) :
        r = [] := by
      refine List.Perm.eq_nil (hr.perm.trans ?_)
      simp [virtualNodes, hv]
    rw [hnone hring, hnone hring', assignFrom_nil _ _ hparts, assignFrom_nil _ _ hparts]
  have hids := ids_nodup_of_positions hv hpos'
  have hids' : (members'.map (·.id)).Nodup := (hperm.map (·.id)).nodup_iff.1 hids
  have hslots : ringIds members ring = ringIds members' ring' := by
    have := congrArg (map Prod.snd) hnamed
    rwa [map_map, map_map] at this
  have hstart : startSlot cfg ring = startSlot cfg ring' := by
    funext part
    rw [startSlot_map (fun p => idAt members p.2), hnamed,
      ← startSlot_map (fun p => idAt members' p.2)]
  rw [assignFrom_eq_place hids (fun _ => hring.lt_length),
    assignFrom_eq_place hids' (fun _ => hring'.lt_length), hslots, hstart, hperm.length_eq]

/-- Two members whose virtual nodes have distinct positions, listed both ways. -/
theorem assign_perm_two :
    let cfg : RingParams := { twoMembers with
      env := ⟨fun b => UInt64.ofNat (b.foldl (fun n d => n + d.toNat) 0), fun _ _ _ => [],
        fun _ => "", fun _ => ""⟩, virtualNodesPerMember := 1 }
    assignOn cfg [firstMember, secondMember] (buildRing cfg [firstMember, secondMember])
      = assignOn cfg [secondMember, firstMember] (buildRing cfg [secondMember, firstMember]) := by
  intro cfg
  exact assign_perm cfg _ _ _ _ (List.Perm.swap _ _ _) (by decide) (isRing_buildRing _ _)
    (isRing_buildRing _ _)

end Order

namespace ClusterTable

variable (cfg : RingConfig)

theorem exists_assign (h : members ≠ []) : ∃ a, assign cfg.toRingParams members = some a
    ∧ a.primary.length = cfg.partitionCount.toNat ∧ ∀ id ∈ a.primary, id ∈ members.map (·.id) :=
  exists_assignOn h cfg.virtualNodesPerMember_pos (isRing_buildRing _ _)
    (UInt32.ne_of_lt cfg.partitionCount_pos).symm

theorem build_isSome (h : members ≠ []) (signature : UInt64) :
    (build cfg members signature).isSome := by
  obtain ⟨a, ha, -⟩ := exists_assign cfg h
  rw [build, Option.isSome_map, ha]
  rfl

theorem byId_mem {id : UInt64} {m : ClusterMember} (h : byId members id = some m) : m ∈ members :=
  mem_reverse.1 (mem_of_find?_eq_some h)

variable {signature : UInt64} {t : ClusterTable} (h : build cfg members signature = some t)
include h

theorem build_primary {part : UInt32} (hpart : part < cfg.partitionCount) :
    ∃ m ∈ members, t.primary part = [m] := by
  have hne : members ≠ [] := by
    rintro rfl
    cases h
  obtain ⟨a, ha, hlen, hids⟩ := exists_assign cfg hne
  rw [build, ha, Option.map_some, Option.some.injEq] at h
  subst h
  have hlt : part.toNat < a.primary.length := hlen ▸ hpart
  obtain ⟨m, hm, hid⟩ := mem_map.1 (hids _ (getElem_mem hlt))
  have hfound : (byId members a.primary[part.toNat]).isSome :=
    find?_isSome.2 ⟨m, mem_reverse.2 hm, by simpa using hid⟩
  obtain ⟨m', hm'⟩ := Option.isSome_iff_exists.1 hfound
  refine ⟨m', byId_mem hm', ?_⟩
  dsimp only
  rw [getElem?_eq_getElem hlt, Option.bind_some, hm']
  rfl

theorem build_spec : t.signature = signature ∧ t.members = members := by
  obtain ⟨a, -, rfl⟩ := Option.map_eq_some_iff.1 h
  exact ⟨rfl, rfl⟩

theorem build_owners (part : UInt32) : t.primary part = (t.primaryFor part).toList := by
  obtain ⟨a, -, rfl⟩ := Option.map_eq_some_iff.1 h
  unfold primaryFor
  dsimp only
  cases a.primary[part.toNat]?.bind (byId members) <;> rfl

end ClusterTable

end Kamino
