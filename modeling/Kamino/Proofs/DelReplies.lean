import Kamino.Proofs.Delete
import Mathlib.Data.Finset.Card

/-!
# What a `DM.DEL` replies

On the keys of one node the loop stops at the first key that is not UTF-8, with an error and
whatever it has deleted; its count is of hashes that were taken.
-/

namespace Kamino

open Function Node List Option

variable {n : Node}

section Counts

variable {env : Env} {keys : List Bytes}

theorem removed_eq (keys : List Bytes) (f : Fragment) : removed env keys f =
    ((keys.map env.hash64).toFinset.filter fun hkey => (f.lookup hkey).isSome).card := by
  induction keys generalizing f with
  | nil => simp [removed, without]
  | cons key keys ih =>
    have hstep : removed env (key :: keys) f = f.len - Fragment.len (f.erase (env.hash64 key)) +
          removed env keys (f.erase (env.hash64 key)) := by
      simp [removed, without]
    have herase : (keys.map env.hash64).toFinset.filter
        (fun hkey => ((f.erase (env.hash64 key)).lookup hkey).isSome) =
        ((keys.map env.hash64).toFinset.filter fun hkey => (f.lookup hkey).isSome).erase
          (env.hash64 key) := by
      ext hkey
      by_cases hh : hkey = env.hash64 key
      · simp [hh]
      · simp [hh, AList.lookup_erase_ne hh]
    rw [hstep, ih, herase, map_cons, toFinset_cons, Finset.filter_insert]
    rcases hl : f.lookup (env.hash64 key) with _ | old
    · rw [HMap.erase_of_none hl, Finset.erase_eq_of_notMem (by simp [hl])]
      simp
    have hlen : Fragment.len (f.erase (env.hash64 key)) + 1 = f.len := HMap.length_erase hl
    have hcard := Finset.card_erase_add_one (Finset.mem_insert_self (env.hash64 key)
      ((keys.map env.hash64).toFinset.filter fun hkey => (f.lookup hkey).isSome))
    rw [Finset.erase_insert_eq_erase] at hcard
    simp only [isSome_some, if_true]
    omega

def Node.listedStored (env : Env) (n : Node) (dmap : Bytes) (keys : List Bytes) : Finset Bytes :=
  keys.toFinset.filter fun k => (n.slot dmap (env.hash64 k)).any fun e => e.key = k

theorem Node.mem_listedStored {dmap key : Bytes} : key ∈ n.listedStored env dmap keys ↔
      key ∈ keys ∧ ∃ e, n.slot dmap (env.hash64 key) = some e ∧ e.key = key := by
  simp [listedStored, Option.any_eq_true]

theorem removed_eq_iff (n : Node) (dmap : Bytes) :
    removed env keys (n.dmapAt dmap).fragment = (n.listedStored env dmap keys).card ↔
      ∀ k ∈ keys, ∀ e, n.slot dmap (env.hash64 k) = some e →
        e.key ∈ keys ∧ env.hash64 e.key = env.hash64 k := by
  have hinj : Set.InjOn env.hash64 (n.listedStored env dmap keys) := by
    intro k hk k' hk' heq
    obtain ⟨-, e, he, rfl⟩ := mem_listedStored.1 hk
    obtain ⟨-, e', he', rfl⟩ := mem_listedStored.1 hk'
    rw [heq, he'] at he
    cases he
    rfl
  have hsub : (n.listedStored env dmap keys).image env.hash64 ⊆
      (keys.map env.hash64).toFinset.filter fun hkey =>
        ((n.dmapAt dmap).fragment.lookup hkey).isSome := by
    intro hkey hmem
    obtain ⟨k, hk, rfl⟩ := Finset.mem_image.1 hmem
    obtain ⟨hkeys, e, he, -⟩ := mem_listedStored.1 hk
    rw [slot_eq] at he
    simpa [he] using ⟨k, hkeys, rfl⟩
  rw [removed_eq, ← Finset.card_image_of_injOn hinj, Nat.cast_inj]
  constructor
  · intro hcard k hk e he
    have hmem : env.hash64 k ∈ (n.listedStored env dmap keys).image env.hash64 := by
      rw [Finset.eq_of_subset_of_card_le hsub hcard.le]
      rw [slot_eq] at he
      simpa [he] using ⟨k, hk, rfl⟩
    obtain ⟨k', hk', heq⟩ := Finset.mem_image.1 hmem
    obtain ⟨hlisted, e', he', rfl⟩ := mem_listedStored.1 hk'
    rw [heq, he] at he'
    cases he'
    exact ⟨hlisted, heq⟩
  · intro hown
    refine congrArg Finset.card (Finset.Subset.antisymm (fun hkey hmem => ?_) hsub)
    obtain ⟨hlisted, hsome⟩ := Finset.mem_filter.1 hmem
    obtain ⟨k, hk, rfl⟩ := mem_map.1 (mem_toFinset.1 hlisted)
    obtain ⟨e, he⟩ := isSome_iff_exists.1 hsome
    rw [← slot_eq] at he
    obtain ⟨hkey, heq⟩ := hown k hk e he
    exact Finset.mem_image.2 ⟨e.key, mem_listedStored.2 ⟨hkey, e, heq ▸ he, rfl⟩, heq⟩

end Counts

section OneNode

variable {env : Env} {srv : Server} {c : Cluster} {links : DelLinks} {fromPeer : Bool}
  {dmap : Bytes} {keys : List Bytes}

theorem slot_clear_eq_iff : (∀ dmap' hkey, (n.clear env dmap keys).slot dmap' hkey =
    n.slot dmap' hkey) ↔ ∀ k ∈ keys, n.slot dmap (env.hash64 k) = none := by
  constructor
  · intro h k hk
    rw [← h, slot_clear, if_pos ⟨rfl, mem_map_of_mem hk⟩]
  intro h dmap' hkey
  rw [slot_clear]
  split_ifs with hc
  · obtain ⟨rfl, hmem⟩ := hc
    obtain ⟨k, hk, rfl⟩ := mem_map.1 hmem
    exact (h k hk).symm
  · rfl

/-- The keys are all the receiver's to delete. -/
def Server.Owns (env : Env) (srv : Server) (fromPeer : Bool) (dmap : Bytes)
    (keys : List Bytes) : Prop :=
  ∀ r, srv.routing = some r → fromPeer = false → ∀ k ∈ keys, r.routeKey env dmap k = none

theorem dmDel_of_error {f : Frame} (hown : srv.Owns env fromPeer dmap keys)
    (hne : keys ≠ []) (h : (c srv.self).dmDelLocalCount env dmap keys = (.error f, n)) :
    dmDel env srv c links fromPeer dmap keys = (f, update c srv.self n) := by
  rcases hr : srv.routing with _ | r
  · simp [dmDel, hne, hr, dmDelLocal, h]
  cases fromPeer
  · rw [dmDel_local hr hne (hown r hr rfl), delBucket, h]
    rfl
  · simp [dmDel, hne, hr, dmDelLocal, h]

variable (links) in
theorem dmDel_of_ok {deleted : ℤ} (hown : srv.Owns env fromPeer dmap keys)
    (hne : keys ≠ []) (h : (c srv.self).dmDelLocalCount env dmap keys = (.ok deleted, n)) :
    (dmDel env srv c links fromPeer dmap keys).1 = .integer deleted ∨
      ∃ s, (dmDel env srv c links fromPeer dmap keys).1 = .simpleString s := by
  rcases hr : srv.routing with _ | r
  · simp [dmDel, hne, hr, dmDelLocal, h]
  cases fromPeer
  · rw [dmDel_local hr hne (hown r hr rfl), delBucket, h]
    dsimp only
    rcases replicateLocalDeletes env r dmap (update c srv.self n) keys links.replicate with
      ⟨e | _, c'⟩
    · exact .inr ⟨_, rfl⟩
    · exact .inl rfl
  · simp [dmDel, hne, hr, dmDelLocal, h]

/-- On its own keys, the receiver's count is right exactly where each listed key's hash holds
nothing or a listed key's own entry, and its error has changed nothing exactly where it comes before
any stored key. -/
theorem del_truthful_iff (env : Env) (srv : Server) (c : Cluster) (links : DelLinks)
    (fromPeer : Bool) (dmap : Bytes) (keys : List Bytes)
    (hown : srv.Owns env fromPeer dmap keys) :
    (∀ n, (dmDel env srv c links fromPeer dmap keys).1 = .integer n →
      (n = ((c srv.self).listedStored env dmap keys).card ↔ ∀ k ∈ keys, ∀ e,
        (c srv.self).slot dmap (env.hash64 k) = some e →
          e.key ∈ keys ∧ env.hash64 e.key = env.hash64 k)) ∧
    ∀ e, (dmDel env srv c links fromPeer dmap keys).1 = .error e →
      ((∀ a dmap' hkey, ((dmDel env srv c links fromPeer dmap keys).2 a).slot dmap' hkey =
          (c a).slot dmap' hkey) ↔
        utf8Error dmap 0 ≠ none ∨
          ∀ k ∈ Node.readable keys, (c srv.self).slot dmap (env.hash64 k) = none) := by
  rcases eq_or_ne keys [] with rfl | hne
  · refine ⟨fun n h => ?_, fun e h => by simp [dmDel] at h⟩
    obtain rfl : (0 : ℤ) = n := by simpa [dmDel] using h
    simp [Node.listedStored]
  rcases hd : utf8Error dmap 0 with _ | text
  · have hcount := Node.dmDelLocalCount_eq env (c srv.self) hd keys
    rcases hf : forM keys keyStr with f | _ <;> rw [hf] at hcount
    · rw [dmDel_of_error hown hne hcount]
      obtain ⟨k, -, hk⟩ := Node.forM_keyStr_error hf
      obtain ⟨text, rfl⟩ := keyStr_error hk
      refine ⟨fun n h => (by cases h), fun e _ => ?_⟩
      simp only [ne_eq, not_true_eq_false, false_or, ← slot_clear_eq_iff]
      refine ⟨fun h dmap' hkey => ?_, fun h a dmap' hkey => ?_⟩
      · simpa using h srv.self dmap' hkey
      by_cases ha : a = srv.self
      · rw [ha, update_self]
        exact h dmap' hkey
      · rw [update_of_ne ha]
    · have hread := Node.readable_of_utf8 (Node.forM_keyStr_ok.1 hf)
      rw [hread] at hcount
      rcases dmDel_of_ok links hown hne hcount with h | ⟨s, h⟩ <;> rw [h]
      · refine ⟨fun n hn => ?_, fun e he => by cases he⟩
        cases hn
        exact removed_eq_iff (c srv.self) dmap
      · exact ⟨fun n hn => (by cases hn), fun e he => by cases he⟩
  · have hcount : (c srv.self).dmDelLocalCount env dmap keys =
        (.error (.error ("ERR invalid dmap name: " ++ text)), c srv.self) := by
      rw [Node.dmDelLocalCount, Node.dmapHandle, hd]
    rw [dmDel_of_error hown hne hcount, update_eq_self]
    exact ⟨fun n h => (by cases h), fun e _ => iff_of_true (fun _ _ _ => rfl) (.inl (by simp))⟩

theorem del_truthful_repeated :
    1 = (((sampleCluster "b").listedStored sumEnv [100] [[107], [1], [107]]).card : ℤ) :=
  ((del_truthful_iff sumEnv ⟨"b", some (sampleRouting 2 [⟨3, "c"⟩] 1)⟩ sampleCluster
    sampleRequest.delLinks false [100] [[107], [1], [107]] (by
      rintro r ⟨⟩ - k -
      rfl)).1 1 rfl).2 (by
      intro k hk e he
      simp only [mem_cons, not_mem_nil, or_false] at hk
      rcases hk with rfl | rfl | rfl
      · cases (show some ⟨[107], 0, 1, 0, [1]⟩ = some e from he)
        decide
      · cases (show none = some e from he)
      · cases (show some ⟨[107], 0, 1, 0, [1]⟩ = some e from he)
        decide)

/-- A key that is not UTF-8 after a stored one: the reply is an error, and the stored key is gone.
And a key that is not stored but shares a stored one's hash counts as deleted. -/
theorem del_error_after_delete :
    let del (keys : List Bytes) :=
      dmDel sumEnv ⟨"b", some (sampleRouting 2 [⟨3, "c"⟩] 1)⟩ sampleCluster
        sampleRequest.delLinks false [100] keys
    (sampleCluster "b").slot [100] (sumEnv.hash64 [107]) = some ⟨[107], 0, 1, 0, [1]⟩ ∧
      (∃ e, (del [[107], [255]]).1 = .error e) ∧
      ((del [[107], [255]]).2 "b").slot [100] (sumEnv.hash64 [107]) = none ∧
      (del [[106, 1]]).1 = .integer 1 ∧
      (sampleCluster "b").listedStored sumEnv [100] [[106, 1]] = ∅ :=
  ⟨rfl, ⟨_, rfl⟩, rfl, rfl, by decide⟩

end OneNode

section Strict

variable {env : Env} {srv : Server} {r : Routing} {c : Cluster} {links : DelLinks}
  {dmap : Bytes} {keys : List Bytes}

/-- Two of the keys are in different partitions. -/
def Routing.Spans (env : Env) (r : Routing) (dmap : Bytes) (keys : List Bytes) : Prop :=
  ∃ k ∈ keys, ∃ k' ∈ keys, r.partitionForKey env dmap k ≠ r.partitionForKey env dmap k'

theorem strict_reply (hr : srv.routing = some r) (hs : r.multiKeyStrict = true) (hne : keys ≠ []) :
    (dmDel env srv c links false dmap keys).1 =
        .error "CROSSPARTITION keys span multiple partitions; multi_key_strict is enabled" ↔
      ∃ k ∈ keys, (r.routeKey env dmap k).isSome := by
  by_cases hremote : ∃ k ∈ keys, (r.routeKey env dmap k).isSome
  · refine iff_of_true ?_ hremote
    unfold dmDel
    rw [if_neg hne, hr]
    dsimp only
    rw [if_pos]
    rw [hs, Bool.and_true, bucketKeys_crossed]
    exact hremote
  refine iff_of_false (fun h => ?_) hremote
  push Not at hremote
  have hown : srv.Owns env false dmap keys := by
    intro r' hr' _ k hk
    rw [hr] at hr'
    cases hr'
    simpa using hremote k hk
  rcases hcount : (c srv.self).dmDelLocalCount env dmap keys with ⟨f | deleted, n⟩
  · obtain ⟨e, rfl⟩ := dmDelLocalCount_error hcount
    rw [dmDel_of_error hown hne hcount] at h
    simp [String.ext_iff] at h
  · rcases dmDel_of_ok links hown hne hcount with h' | ⟨s, h'⟩ <;> rw [h'] at h <;>
      cases h

/-- Strict mode rejects what it should exactly where keys that span partitions are not all the
receiver's, and keys of one partition all are. -/
theorem strict_exact_iff (env : Env) (srv : Server) (r : Routing) (hr : srv.routing = some r)
    (hs : r.multiKeyStrict = true) (c : Cluster) (links : DelLinks) (dmap : Bytes)
    (keys : List Bytes) (hne : keys ≠ []) :
    ((dmDel env srv c links false dmap keys).1 =
        .error "CROSSPARTITION keys span multiple partitions; multi_key_strict is enabled" ↔
        r.Spans env dmap keys) ↔
      (r.Spans env dmap keys → ∃ k ∈ keys, (r.routeKey env dmap k).isSome) ∧
      (¬ r.Spans env dmap keys → ∀ k ∈ keys, r.routeKey env dmap k = none) := by
  have hnone : (∀ k ∈ keys, r.routeKey env dmap k = none) ↔
      ¬ ∃ k ∈ keys, (r.routeKey env dmap k).isSome := by
    simp
  rw [strict_reply hr hs hne, hnone, not_imp_not, and_comm]
  exact iff_def

/-- Four partitions, of which member 1, at `a`, owns those of even numbers and `b` the others. -/
def strictRouting : Routing :=
  { sampleRouting 1 [] 1 with
    snapshot := some ⟨fun part => if part % 2 = 0 then [⟨1, "a"⟩] else [⟨2, "b"⟩], fun _ => []⟩
    partitionCount := 4
    multiKeyStrict := true }

theorem strict_exact_mixed : (dmDel sumEnv ⟨"a", some strictRouting⟩ (fun _ => .empty)
    sampleRequest.delLinks false [] [[1], [2]]).1 =
      .error "CROSSPARTITION keys span multiple partitions; multi_key_strict is enabled" :=
  ((strict_exact_iff sumEnv ⟨"a", some strictRouting⟩ strictRouting rfl rfl (fun _ => .empty)
    sampleRequest.delLinks [] [[1], [2]] (by simp)).2
      ⟨fun _ => ⟨[1], by simp, rfl⟩, fun h => absurd ⟨[1], by simp, [2], by simp, by decide⟩ h⟩).2
    ⟨[1], by simp, [2], by simp, by decide⟩

/-- Keys of two partitions of the receiver are deleted, and a single key of another node's is
rejected. -/
theorem strict_by_owner :
    let del (keys : List Bytes) := dmDel sumEnv ⟨"a", some strictRouting⟩
      (fun _ => .empty) sampleRequest.delLinks false [] keys
    strictRouting.partitionForKey sumEnv [] [2] ≠ strictRouting.partitionForKey sumEnv [] [4] ∧
      (del [[2], [4]]).1 = .integer 0 ∧
      (del [[1]]).1 =
        .error "CROSSPARTITION keys span multiple partitions; multi_key_strict is enabled" :=
  ⟨by decide, rfl, rfl⟩

end Strict

end Kamino
