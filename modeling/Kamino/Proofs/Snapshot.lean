import Kamino.Coordinator
import Kamino.Proofs.Membership

/-!
# Which member a snapshot marks as coordinator

A view keeps its ids sorted by `(birthdate, id)`, and its own member alive.
-/

namespace Kamino

open List Option

def ClusterMember.Before (a b : ClusterMember) : Prop :=
  a.birthdate < b.birthdate ∨ a.birthdate = b.birthdate ∧ a.id ≤ b.id

theorem ClusterMember.Before.antisymm {a b : ClusterMember} (h : a.Before b) (h' : b.Before a) :
    a.id = b.id := by
  unfold Before at *
  simp only [UInt64.lt_iff_toNat_lt, UInt64.le_iff_toNat_le, ← UInt64.toNat_inj] at *
  omega

namespace MembershipView

variable {v : MembershipView} {id a b : UInt64} {e e' : MemberEntry}

section

variable (hv : ∀ id e, v.byId.lookup id = some e → e.member.id = id)
include hv

theorem sortsBefore_iff (ha : v.byId.lookup a = some e) (hb : v.byId.lookup b = some e') :
    v.sortsBefore a b ↔ e.member.Before e'.member := by
  rw [sortsBefore, ClusterMember.Before, hv a e ha, hv b e' hb]
  simp [ha, hb]

/-- The ids are in order and the node's own entry is alive. -/
structure Ordered (v : MembershipView) : Prop where
  wf : v.WF
  sorted : v.sorted.Pairwise fun a b => ∀ e e', v.byId.lookup a = some e →
    v.byId.lookup b = some e' → e.member.Before e'.member
  self : ∃ l e, v.localId = some l ∧ v.byId.lookup l = some e ∧ e.state = .alive

theorem pairwise_reSort : v.reSort.sorted.Pairwise fun a b => ∀ e e', v.byId.lookup a = some e →
      v.byId.lookup b = some e' → e.member.Before e'.member := by
  let r := fun a b => v.sortsBefore a b = true
  have htotal : Std.Total r := by
    constructor
    intro a b
    simp only [r, sortsBefore, decide_eq_true_eq, UInt64.lt_iff_toNat_lt, UInt64.le_iff_toNat_le,
      ← UInt64.toNat_inj]
    omega
  have htrans : IsTrans UInt64 r := by
    constructor
    intro a b c
    simp only [r, sortsBefore, decide_eq_true_eq, UInt64.lt_iff_toNat_lt, UInt64.le_iff_toNat_le,
      ← UInt64.toNat_inj]
    omega
  have hsorted : v.reSort.sorted.Pairwise r := pairwise_insertionSort r _
  exact hsorted.imp fun hab e e' ha hb => (sortsBefore_iff hv ha hb).1 hab

theorem Ordered.reSort
    (hself : ∃ l e, v.localId = some l ∧ v.byId.lookup l = some e ∧ e.state = .alive) :
    v.reSort.Ordered :=
  ⟨.reSort hv, pairwise_reSort hv, hself⟩

end

theorem ordered_bootstrap (self : ClusterMember) : (bootstrap self).Ordered :=
  ⟨wf_bootstrap self, pairwise_singleton _ _, self.id, ⟨self, .alive, 1, 0⟩, rfl,
    AList.lookup_insert _, rfl⟩

section

variable (h : v.Ordered)
include h

theorem Ordered.setEntry (he : v.byId.lookup id = some e) (hm : e'.member = e.member)
    (hs : v.localId = some id → e'.state = .alive) : (v.setEntry id e').Ordered := by
  have hmember : ∀ a e₁, (v.setEntry id e').byId.lookup a = some e₁ →
      ∃ e₀, v.byId.lookup a = some e₀ ∧ e₁.member = e₀.member := by
    intro a e₁ ha
    rw [lookup_setEntry] at ha
    split_ifs at ha with hid
    · exact ⟨e, hid ▸ he, by rw [← Option.some.inj ha, hm]⟩
    · exact ⟨e₁, ha, rfl⟩
  refine ⟨h.wf.setEntry he (by rw [hm, h.wf.keyed id e he]), ?_, ?_⟩
  · refine h.sorted.imp fun hab e₁ e₂ ha hb => ?_
    obtain ⟨e₁', ha', hm₁⟩ := hmember _ e₁ ha
    obtain ⟨e₂', hb', hm₂⟩ := hmember _ e₂ hb
    rw [hm₁, hm₂]
    exact hab e₁' e₂' ha' hb'
  · obtain ⟨l, e₀, hl, he₀, halive⟩ := h.self
    by_cases hid : l = id
    · exact ⟨l, e', hl, by rw [lookup_setEntry, if_pos hid], hs (hid ▸ hl)⟩
    · exact ⟨l, e₀, hl, by rw [lookup_setEntry, if_neg hid, he₀], halive⟩

theorem Ordered.setEntry_reSort (hid : some id ≠ v.localId)
    (he : e.member.id = id) : (v.setEntry id e).reSort.Ordered := by
  refine .reSort (keyed_setEntry h.wf he) ?_
  obtain ⟨l, e₀, hl, he₀, halive⟩ := h.self
  refine ⟨l, e₀, hl, ?_, halive⟩
  have hne : l ≠ id := fun hl' => hid (hl' ▸ hl.symm)
  rw [lookup_setEntry, if_neg hne, he₀]

theorem Ordered.apply (g : GossipEvent) (now timeout : UInt64) :
    (v.apply g now timeout).2.Ordered := by
  by_cases hl : some g.id = v.localId
  · rw [apply_local now timeout hl]
    exact h
  rcases he : v.byId.lookup g.id with _ | e
  · rcases apply_unknown now timeout hl he with heq | ⟨member, incarnation, rfl, heq⟩ <;> rw [heq]
    · exact h
    · exact h.setEntry_reSort hl rfl
  cases g with
  | suspect id incarnation sender =>
    simp only [GossipEvent.id] at hl he
    rw [MembershipView.apply, applySuspect_known incarnation now timeout hl he]
    split_ifs
    · exact h
    · exact h.setEntry he rfl fun heq => absurd heq.symm hl
  | alive member incarnation =>
    simp only [GossipEvent.id] at hl he
    rw [MembershipView.apply, applyAlive_known incarnation hl he]
    split_ifs
    · exact h
    · exact h.setEntry_reSort hl rfl
  | dead id incarnation sender | leave id incarnation =>
    simp only [GossipEvent.id] at hl he
    rw [MembershipView.apply, applyDead_known incarnation hl he]
    split_ifs
    · exact h
    · exact h.setEntry_reSort hl (h.wf.keyed _ e he)

theorem Ordered.bump : v.bumpLocalIncarnation.2.Ordered := by
  have h' : { v with localIncarnation := v.localIncarnation + 1 }.Ordered :=
    ⟨⟨h.wf.1, h.wf.2⟩, h.sorted, h.self⟩
  rcases bump_cases v with ⟨l, e, -, he, heq⟩ | heq <;> rw [heq]
  · exact h'.setEntry he rfl fun _ => rfl
  · exact h'

theorem Ordered.reap (now : UInt64) : (v.reapSuspects now).2.Ordered := by
  have hself : ∃ l e, (v.reapSuspects now).2.localId = some l ∧
      (v.reapSuspects now).2.byId.lookup l = some e ∧ e.state = .alive := by
    obtain ⟨l, e, hl, he, halive⟩ := h.self
    refine ⟨l, e, (localId_reap v now).trans hl, ?_, halive⟩
    rw [lookup_reap, he, map_some, reapEntry_alive halive]
  rcases sorted_reap v now with hs | hs
  · refine ⟨h.wf.reap now, ?_, hself⟩
    rw [hs]
    refine h.sorted.imp fun hab e₁ e₂ ha hb => ?_
    rw [lookup_reap] at ha hb
    obtain ⟨e₁', ha', rfl⟩ := map_eq_some_iff.1 ha
    obtain ⟨e₂', hb', rfl⟩ := map_eq_some_iff.1 hb
    rw [reapEntry_member, reapEntry_member]
    exact hab e₁' e₂' ha' hb'
  · exact hs ▸ .reSort (keyed_reap h.wf now) hself

theorem Ordered.evict (olderThan now : UInt64) : (v.evictTombstones olderThan now).Ordered := by
  simp only [evictTombstones]
  split_ifs with hnil
  · rw [hnil]
    exact h
  refine .reSort ?_ ?_
  · intro id e he
    rw [HMap.lookup_foldl_erase] at he
    split_ifs at he
    exact h.wf.keyed id e he
  obtain ⟨l, e, hl, he, halive⟩ := h.self
  refine ⟨l, e, hl, ?_, halive⟩
  rw [HMap.lookup_foldl_erase, if_neg, he]
  intro hmem
  obtain ⟨⟨l', e'⟩, hp, hid⟩ := mem_map.1 hmem
  obtain ⟨hp, hexp⟩ := mem_filter.1 hp
  have he' := HMap.mem_entries_iff.1 hp
  obtain rfl : l' = l := (h.wf.keyed l' e' he').symm.trans hid
  obtain rfl : e' = e := Option.some.inj (he'.symm.trans he)
  simp [expired, halive] at hexp

theorem Ordered.run (op : ViewOp) : (op.run v).Ordered := by
  cases op with
  | apply event now timeout => exact h.apply event now timeout
  | reapSuspects now => exact h.reap now
  | bumpLocalIncarnation => exact h.bump
  | evictTombstones olderThan now => exact h.evict olderThan now

end

theorem ordered_foldl (self : ClusterMember) (ops : List ViewOp) :
    (ops.foldl ViewOp.run (bootstrap self)).Ordered := by
  refine List.foldlRecOn ops _ (ordered_bootstrap self) fun v hv op _ => hv.run op

section Snapshot

def live (v : MembershipView) (id : UInt64) : Option ClusterMember :=
  match v.byId.lookup id with
  | none => none
  | some entry => if entry.state = .dead then none else some entry.member

theorem live_eq_some {m : ClusterMember} :
    v.live id = some m ↔ ∃ e, v.byId.lookup id = some e ∧ e.state ≠ .dead ∧ e.member = m := by
  unfold live
  rcases v.byId.lookup id with _ | e
  · simp
  · simp only [Option.some.injEq, exists_eq_left']
    split_ifs with h <;> simp [h]

theorem snapshot_eq (v : MembershipView) :
    v.snapshot = v.sorted.zipIdx.filterMap fun p => (v.live p.1).map (·, decide (p.2 = 0)) := by
  unfold snapshot
  congr 1
  funext ⟨id, idx⟩
  simp only [live]
  rcases v.byId.lookup id with _ | e
  · rfl
  · dsimp only
    split_ifs <;> rfl

theorem snapshot_cons {rest : List UInt64} (h : v.sorted = a :: rest) :
    v.snapshot = (v.live a).toList.map (·, true) ++ (rest.filterMap v.live).map (·, false) := by
  have hmark : ∀ (ids : List UInt64) (n : ℕ), (ids.zipIdx (n + 1)).filterMap (fun p =>
      (v.live p.1).map (·, decide (p.2 = 0))) = (ids.filterMap v.live).map (·, false) := by
    intro ids
    induction ids with
    | nil => intro n; rfl
    | cons id ids ih =>
      intro n
      rw [zipIdx_cons, filterMap_cons, filterMap_cons, ih]
      rcases v.live id with _ | m <;> simp
  rw [snapshot_eq, h, zipIdx_cons, filterMap_cons, hmark rest 0]
  rcases v.live a with _ | m <;> rfl

/-- The snapshot marks one member, its first. It is the live member that sorts first, and the one
that the coordinator loop takes for the coordinator. -/
def CoordinatorFlagged (v : MembershipView) : Prop :=
  ∃ m rest, v.snapshot = (m, true) :: rest ∧ (∀ p ∈ rest, p.2 = false) ∧
    (∃ e, v.byId.lookup m.id = some e ∧ e.state ≠ .dead ∧ e.member = m) ∧
    (∀ id e, v.byId.lookup id = some e → e.state ≠ .dead → m.Before e.member) ∧
    ∀ n : ClusterNode, n.view = v.snapshot.map (·.1) → (n.isCoord ↔ n.localId = m.id)

/-- No dead member sorts before all live ones. -/
def FirstLive (v : MembershipView) : Prop :=
  ∀ id e, v.byId.lookup id = some e → e.state = .dead →
    ∃ id' e', v.byId.lookup id' = some e' ∧ e'.state ≠ .dead ∧ e'.member.Before e.member

theorem Ordered.head_before (h : v.Ordered) {rest : List UInt64} (hs : v.sorted = a :: rest)
    (ha : v.byId.lookup a = some e) (hb : v.byId.lookup b = some e') :
    e.member.Before e'.member := by
  have hmem := (h.wf.mem_sorted b).2 (by rw [hb]; rfl)
  have hsorted := h.sorted
  rw [hs] at hmem hsorted
  rcases mem_cons.1 hmem with rfl | hmem
  · obtain rfl := Option.some.inj (ha.symm.trans hb)
    exact .inr ⟨rfl, UInt64.le_refl _⟩
  · exact rel_of_pairwise_cons hsorted hmem e e' ha hb

/-- A view that its mutations reach marks its first live member as the coordinator exactly when no
dead member it still holds sorts before all live ones. -/
theorem coordinatorFlagged_iff (self : ClusterMember) (ops : List ViewOp) :
    (ops.foldl ViewOp.run (bootstrap self)).CoordinatorFlagged ↔
      (ops.foldl ViewOp.run (bootstrap self)).FirstLive := by
  have h := ordered_foldl self ops
  generalize ops.foldl ViewOp.run (bootstrap self) = v at h
  obtain ⟨l, e₀, -, he₀, halive⟩ := h.self
  rcases hs : v.sorted with _ | ⟨a, rest⟩
  · have := (h.wf.mem_sorted l).2 (by rw [he₀]; rfl)
    rw [hs] at this
    cases this
  have ha := (h.wf.mem_sorted a).1 (by rw [hs]; exact mem_cons_self)
  obtain ⟨e, he⟩ := isSome_iff_exists.1 ha
  constructor
  · rintro ⟨m, tail, hsnap, -⟩ id e' he' hd
    have hlive : v.live a ≠ none := by
      intro hnone
      rw [snapshot_cons hs, hnone, toList_none, map_nil, nil_append] at hsnap
      have : (m, true) ∈ (rest.filterMap v.live).map (·, false) := by rw [hsnap]; simp
      simp at this
    obtain ⟨m', hm'⟩ := ne_none_iff_exists'.1 hlive
    obtain ⟨e₁, he₁, hd₁, -⟩ := live_eq_some.1 hm'
    obtain rfl := Option.some.inj (he.symm.trans he₁)
    exact ⟨a, e, he, hd₁, h.head_before hs he he'⟩
  intro hfirst
  have hd : e.state ≠ .dead := by
    intro hd
    obtain ⟨id', e', he', hd', hbefore⟩ := hfirst a e he hd
    have hid := hbefore.antisymm (h.head_before hs he he')
    rw [h.wf.keyed id' e' he', h.wf.keyed a e he] at hid
    subst hid
    exact hd' (Option.some.inj (he'.symm.trans he) ▸ hd)
  have hsnap := snapshot_cons hs
  rw [live_eq_some.2 ⟨e, he, hd, rfl⟩, toList_some, map_singleton, singleton_append] at hsnap
  refine ⟨e.member, _, hsnap, by simp, ⟨e, ?_, hd, rfl⟩, fun id e' he' _ => ?_, fun n hn => ?_⟩
  · rw [h.wf.keyed a e he, he]
  · exact h.head_before hs he he'
  · rw [ClusterNode.isCoord, hn, hsnap]
    simp [eq_comm]

/-- An older member joins and dies: the snapshot lists the node itself first and marks nobody. -/
theorem dead_first_unflagged :
    let v := ([.apply (.alive ⟨⟨2, "b"⟩, "b", "b", 1⟩ 1) 0 0, .apply (.dead 2 1 1) 0 0] :
      List ViewOp).foldl ViewOp.run (bootstrap ⟨⟨1, "a"⟩, "a", "a", 2⟩)
    ¬ v.CoordinatorFlagged := by
  rintro v ⟨m, rest, h, -⟩
  have hsnap : v.snapshot = [(⟨⟨1, "a"⟩, "a", "a", 2⟩, false)] := by decide +kernel
  rw [hsnap] at h
  cases h

end Snapshot

end MembershipView

end Kamino
