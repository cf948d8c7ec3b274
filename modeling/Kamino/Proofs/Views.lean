import Kamino.Lib.Folds
import Kamino.Proofs.Snapshot

/-!
# The order, the precedence and the convergence of a view

Every mutation that changes a birthdate or a key sorts the ids again, and none touches the node's
own entry but the bump of its incarnation (`Consistent`).
-/

namespace Kamino

open Option List ViewOp Prod

def ViewOp.Hears : ViewOp → Prop
  | apply .. | reapSuspects _ => True
  | bumpLocalIncarnation | evictTombstones .. => False

/-- The mutation is an `Alive` or a `Suspect` about the member, above the incarnation. -/
def ViewOp.Revives (id incarnation : UInt64) : ViewOp → Prop
  | apply event _ _ => event.id = id ∧ ¬ event.Final ∧ incarnation < event.incarnation
  | _ => False

def MemberEntry.status (e : MemberEntry) : MemberState × UInt64 := (e.state, e.incarnation)

/-- The state and the incarnation after an event about the member. -/
def heard (s : MemberState × UInt64) : GossipEvent → MemberState × UInt64
  | .alive _ i => if i < s.2 ∨ i = s.2 ∧ s.1 ≠ .suspect then s else (.alive, i)
  | .suspect _ i _ => if i < s.2 ∨ i = s.2 ∧ s.1 ≠ .alive then s else (.suspect, i)
  | .dead _ i _ | .leave _ i => if i < s.2 ∨ i = s.2 ∧ s.1 = .dead then s else (.dead, i)

theorem MemberEntry.status_advance (e : MemberEntry) (now timeout : UInt64) (g : GossipEvent) :
    (e.advance now timeout g).status = heard e.status g := by
  cases g <;> simp only [advance, heard, status] <;> split_ifs with h <;> simp [h]

def GossipEvent.said : GossipEvent → MemberState
  | .alive .. => .alive
  | .suspect .. => .suspect
  | .dead .. | .leave .. => .dead

/-- Whether a state replaces another at the same incarnation. -/
def MemberState.replaces : MemberState → MemberState → Bool
  | .alive, s => s = .suspect
  | .suspect, s => s = .alive
  | .dead, s => s ≠ .dead

/-- `heard` by the state and the incarnation that the event says. -/
def told (s : MemberState × UInt64) (m : MemberState) (i : UInt64) : MemberState × UInt64 :=
  if i < s.2 ∨ i = s.2 ∧ m.replaces s.1 = false then s else (m, i)

theorem heard_eq_told (s : MemberState × UInt64) (g : GossipEvent) :
    heard s g = told s g.said g.incarnation := by
  cases g <;> simp [heard, told, GossipEvent.said, GossipEvent.incarnation, MemberState.replaces]

section Told

variable {s : MemberState × UInt64} {m n : MemberState} {i j : UInt64}

theorem told_of_lt (h : i < s.2) : told s m i = s := if_pos (.inl h)

theorem told_of_gt (h : s.2 < i) : told s m i = (m, i) :=
  if_neg fun hs => hs.elim (UInt64.lt_asymm h) fun hs => UInt64.ne_of_lt h hs.1.symm

theorem told_eq (t : MemberState) : told (t, i) m i = (if m.replaces t then m else t, i) := by
  cases hr : m.replaces t <;> simp [told, hr, UInt64.lt_irrefl]

theorem told_lower (h : i < j) :
    told (told s m i) n j = told s n j ∧ told (told s n j) m i = told s n j := by
  by_cases hi : i < s.2
  · have hj : i < (told s n j).2 := by
      unfold told
      split_ifs
      · exact hi
      · exact h
    rw [told_of_lt hi, told_of_lt hj]
    exact ⟨rfl, rfl⟩
  have hsj : s.2 < j := UInt64.lt_of_le_of_lt (UInt64.not_lt.1 hi) h
  have hj : (told s m i).2 < j := by
    unfold told
    split_ifs
    · exact hsj
    · exact h
  rw [told_of_gt hsj, told_of_gt hj]
  exact ⟨rfl, told_of_lt h⟩

theorem told_comm_self (hmn : ¬ (m = .alive ∧ n = .suspect)) (hnm : ¬ (n = .alive ∧ m = .suspect)) :
    told (told s m i) n i = told (told s n i) m i := by
  obtain ⟨t, k⟩ := s
  by_cases hk : i < k
  · have hsame : ∀ m, told (t, k) m i = (t, k) := fun _ => told_of_lt hk
    rw [hsame, hsame, hsame]
  by_cases hi : k < i
  · have hnew : ∀ m, told (t, k) m i = (m, i) := fun _ => told_of_gt hi
    rw [hnew, hnew, told_eq, told_eq]
    cases m <;> cases n <;> first | rfl | exact absurd ⟨rfl, rfl⟩ hmn | exact absurd ⟨rfl, rfl⟩ hnm
  obtain rfl := UInt64.le_antisymm (UInt64.not_lt.1 hk) (UInt64.not_lt.1 hi)
  rw [told_eq, told_eq, told_eq, told_eq]
  cases m <;> cases n <;> cases t <;>
    first | rfl | exact absurd ⟨rfl, rfl⟩ hmn | exact absurd ⟨rfl, rfl⟩ hnm

theorem told_again : told (told s m i) m i = told s m i := by
  by_cases hs : i < s.2 ∨ i = s.2 ∧ m.replaces s.1 = false
  · have hsame : told s m i = s := if_pos hs
    rw [hsame, hsame]
  · have hnew : told s m i = (m, i) := if_neg hs
    rw [hnew, told_eq]
    cases m <;> rfl

end Told

theorem heard_again (s : MemberState × UInt64) (g : GossipEvent) :
    heard (heard s g) g = heard s g := by
  rw [heard_eq_told, heard_eq_told, told_again]

def GossipEvent.Apart (g h : GossipEvent) : Prop :=
  ∀ member i id j sender, g = .alive member i → h = .suspect id j sender → i ≠ j

theorem heard_comm (s : MemberState × UInt64) {g h : GossipEvent} (hgh : g.Apart h)
    (hhg : h.Apart g) : heard (heard s g) h = heard (heard s h) g := by
  rw [heard_eq_told, heard_eq_told, heard_eq_told, heard_eq_told]
  by_cases hlt : g.incarnation < h.incarnation
  · rw [(told_lower hlt).1, (told_lower hlt).2]
  by_cases hgt : h.incarnation < g.incarnation
  · rw [(told_lower hgt).1, (told_lower hgt).2]
  have heq := UInt64.le_antisymm (UInt64.not_lt.1 hgt) (UInt64.not_lt.1 hlt)
  rw [heq]
  refine told_comm_self ?_ ?_
  · rintro ⟨hg, hh⟩
    cases g <;> cases hg
    cases h <;> cases hh
    exact hgh _ _ _ _ _ rfl rfl heq
  rintro ⟨hh, hg⟩
  cases h <;> cases hh
  cases g <;> cases hg
  exact hhg _ _ _ _ _ rfl rfl heq.symm

namespace MembershipView

variable {v w : MembershipView} {id l : UInt64} {e : MemberEntry}

/-! ## The invariant -/

/-- The sorted list is the known ids in the order of `(birthdate, id)`, and the node's own member
`l` is there, alive, at the local incarnation. -/
structure Consistent (l : UInt64) (v : MembershipView) : Prop where
  perm : v.sorted.Perm v.byId.keys
  increasing : v.sorted.Pairwise fun a b => ∀ e e', v.byId.lookup a = some e →
    v.byId.lookup b = some e' → e.member.birthdate < e'.member.birthdate ∨
      e.member.birthdate = e'.member.birthdate ∧ a < b
  own : v.localId = some l
  present : ∃ e, v.byId.lookup l = some e ∧ e.state = .alive ∧ e.incarnation = v.localIncarnation

/-- What `Ordered` does not say: no id is listed twice, and whose view it is. -/
structure Indexed (l : UInt64) (v : MembershipView) : Prop where
  nodup : v.sorted.Nodup
  own : v.localId = some l
  current : ∀ e, v.byId.lookup l = some e → e.incarnation = v.localIncarnation

theorem nodup_reSort (v : MembershipView) : v.reSort.sorted.Nodup :=
  (perm_insertionSort _ _).nodup_iff.2 v.byId.keys_nodup

theorem indexed_bootstrap (self : ClusterMember) : (bootstrap self).Indexed self.id := by
  refine ⟨nodup_singleton _, rfl, fun e he => ?_⟩
  rw [bootstrap, AList.lookup_insert] at he
  rw [← some.inj he, bootstrap]

section

variable (h : v.Indexed l)
include h

theorem Indexed.apply (hv : v.WF) (g : GossipEvent) (now timeout : UInt64) :
    (v.apply g now timeout).2.Indexed l := by
  refine ⟨?_, (localId_apply hv g now timeout).trans h.own, fun e he => ?_⟩
  · rcases apply_cases hv g now timeout with heq | ⟨-, e', -, ⟨-, heq⟩ | heq⟩ <;> rw [heq]
    · exact h.nodup
    · exact h.nodup
    · exact nodup_reSort _
  · rw [lookup_local_apply hv h.own] at he
    rw [localIncarnation_apply hv]
    exact h.current e he

theorem Indexed.reap (now : UInt64) : (v.reapSuspects now).2.Indexed l := by
  refine ⟨?_, (localId_reap v now).trans h.own, fun e he => ?_⟩
  · rcases sorted_reap v now with hs | hs
    · exact hs ▸ h.nodup
    · rw [← hs]
      exact nodup_reSort _
  rw [lookup_reap] at he
  obtain ⟨e₀, he₀, rfl⟩ := map_eq_some_iff.1 he
  rw [reapEntry_incarnation, localIncarnation_reap]
  exact h.current e₀ he₀

theorem Indexed.bump (hl : v.byId.lookup l = some e) : v.bumpLocalIncarnation.2.Indexed l := by
  have heq : v.bumpLocalIncarnation.2 = v.bumped l e := by
    simp [bumpLocalIncarnation, bumped, h.own, hl]
  rw [heq]
  refine ⟨h.nodup, h.own, fun e' he' => ?_⟩
  rw [lookup_setEntry, if_pos rfl] at he'
  rw [← some.inj he']
  rfl

theorem Indexed.evict (olderThan now : UInt64) : (v.evictTombstones olderThan now).Indexed l := by
  have hcurrent : ∀ (ids : List UInt64) e, (ids.foldl (fun byId id => byId.erase id) v.byId).lookup
      l = some e → e.incarnation = v.localIncarnation := by
    intro ids e he
    rw [HMap.lookup_foldl_erase] at he
    split_ifs at he
    exact h.current e he
  simp only [evictTombstones]
  split_ifs
  · exact ⟨h.nodup, h.own, hcurrent _⟩
  · exact ⟨nodup_reSort _, h.own, hcurrent _⟩

theorem Indexed.run (hv : v.Ordered) (op : ViewOp) : (op.run v).Indexed l := by
  cases op with
  | apply event now timeout => exact h.apply hv.wf event now timeout
  | reapSuspects now => exact h.reap now
  | bumpLocalIncarnation =>
    obtain ⟨l', e, hl', he, -⟩ := hv.self
    obtain rfl : l' = l := some.inj (hl'.symm.trans h.own)
    exact h.bump he
  | evictTombstones olderThan now => exact h.evict olderThan now

end

theorem indexed_foldl (self : ClusterMember) (ops : List ViewOp) :
    (ops.foldl run (bootstrap self)).Ordered ∧ (ops.foldl run (bootstrap self)).Indexed self.id :=
  foldlRecOn (motive := fun v : MembershipView => v.Ordered ∧ v.Indexed self.id) ops _
    ⟨ordered_bootstrap self, indexed_bootstrap self⟩
    fun _ hv op _ => ⟨hv.1.run op, hv.2.run hv.1 op⟩

theorem Ordered.increasing (h : v.Ordered) (hnodup : v.sorted.Nodup) :
    v.sorted.Pairwise fun a b => ∀ e e', v.byId.lookup a = some e → v.byId.lookup b = some e' →
      e.member.birthdate < e'.member.birthdate ∨
        e.member.birthdate = e'.member.birthdate ∧ a < b := by
  refine (h.sorted.and hnodup).imp fun hab e e' ha hb => ?_
  rcases hab.1 e e' ha hb with hlt | ⟨heq, hle⟩
  · exact .inl hlt
  · rw [h.wf.keyed _ e ha, h.wf.keyed _ e' hb] at hle
    exact .inr ⟨heq, UInt64.lt_of_le_of_ne hle hab.2⟩

/-- Every view that its mutations reach from the start is consistent. -/
theorem consistent_foldl (self : ClusterMember) (ops : List ViewOp) :
    (ops.foldl run (bootstrap self)).Consistent self.id := by
  obtain ⟨hord, hidx⟩ := indexed_foldl self ops
  generalize ops.foldl run (bootstrap self) = v at hord hidx
  refine ⟨?_, hord.increasing hidx.nodup, hidx.own, ?_⟩
  · rw [perm_ext_iff_of_nodup hidx.nodup v.byId.keys_nodup]
    intro a
    rw [hord.wf.mem_sorted, AList.lookup_isSome, AList.mem_keys]
  · obtain ⟨l', e, hl', he, halive⟩ := hord.self
    obtain rfl : l' = self.id := Option.some.inj (hl'.symm.trans hidx.own)
    exact ⟨e, he, halive, hidx.current e he⟩

/-! ## Precedence -/

theorem lookup_apply_ne {g : GossipEvent} (hg : g.id ≠ id) (now timeout : UInt64) :
    (v.apply g now timeout).2.byId.lookup id = v.byId.lookup id := by
  have hset : ∀ e, (v.setEntry g.id e).byId.lookup id = v.byId.lookup id := by
    intro e
    rw [lookup_setEntry, if_neg hg.symm]
  by_cases hl : some g.id = v.localId
  · rw [apply_local now timeout hl]
  rcases he : v.byId.lookup g.id with _ | e
  · rcases apply_unknown now timeout hl he with h | ⟨member, incarnation, -, h⟩ <;> rw [h]
    rw [reSort_byId, hset]
  · rcases apply_known now timeout hl he with ⟨h, -⟩ | h | h <;> rw [h]
    · rw [hset]
    · rw [reSort_byId, hset]

theorem lookup_apply_cases (he : v.byId.lookup id = some e) (g : GossipEvent)
    (now timeout : UInt64) : (v.apply g now timeout).2.byId.lookup id = some e ∨
      g.id = id ∧ (v.apply g now timeout).2.byId.lookup id = some (e.advance now timeout g) := by
  by_cases hg : g.id = id
  · subst hg
    by_cases hl : some g.id = v.localId
    · rw [apply_local now timeout hl]
      exact .inl he
    rcases apply_known now timeout hl he with ⟨h, -⟩ | h | h <;> rw [h]
    · exact .inl he
    · exact .inr ⟨rfl, by rw [lookup_setEntry, if_pos rfl]⟩
    · exact .inr ⟨rfl, by rw [reSort_byId, lookup_setEntry, if_pos rfl]⟩
  · rw [lookup_apply_ne hg]
    exact .inl he

theorem lookup_run {op : ViewOp} (hop : op.Hears) (he : v.byId.lookup id = some e) :
    ∃ e', (op.run v).byId.lookup id = some e' ∧ e.incarnation ≤ e'.incarnation ∧
      (e.state = .dead → ¬ op.Revives id e.incarnation → e'.state = .dead) := by
  cases op with
  | apply g now timeout =>
    rcases lookup_apply_cases he g now timeout with h | ⟨hg, h⟩
    · exact ⟨e, h, UInt64.le_refl _, fun hd _ => hd⟩
    refine ⟨_, h, ?_, fun hd hr => ?_⟩
    · rw [MemberEntry.incarnation_advance]
      split_ifs with hlt
      · exact UInt64.le_of_lt hlt
      · exact UInt64.le_refl _
    rw [MemberEntry.advance_dead_iff]
    by_cases hle : g.incarnation ≤ e.incarnation
    · exact .inr ⟨hd, hle⟩
    · have hlt := UInt64.not_le.1 hle
      exact .inl ⟨not_not.1 fun hf => hr ⟨hg, hf, hlt⟩, UInt64.le_of_lt hlt⟩
  | reapSuspects now =>
    refine ⟨reapEntry now e, ?_, ?_, fun hd _ => ?_⟩
    · rw [run, lookup_reap, he, map_some]
    · rw [reapEntry_incarnation]
      exact UInt64.le_refl _
    unfold reapEntry
    split_ifs
    · rfl
    · exact hd
  | bumpLocalIncarnation => exact hop.elim
  | evictTombstones olderThan now => exact hop.elim

theorem revives_mono {op : ViewOp} {i j : UInt64} (hij : i ≤ j) (h : op.Revives id j) :
    op.Revives id i := by
  cases op with
  | apply g now timeout => exact ⟨h.1, h.2.1, UInt64.lt_of_le_of_lt hij h.2.2⟩
  | _ => exact h

/-- Along any events and turns of the reaper, a known member's incarnation does not fall, and an
entry that is dead stays dead until an `Alive` or a `Suspect` above its incarnation is applied. -/
theorem precedence (v : MembershipView) (ops : List ViewOp) (hops : ∀ op ∈ ops, op.Hears)
    (id : UInt64) (e : MemberEntry) (he : v.byId.lookup id = some e) :
    ∃ e', (ops.foldl run v).byId.lookup id = some e' ∧ e.incarnation ≤ e'.incarnation ∧
      (e.state = .dead → (∀ op ∈ ops, ¬ op.Revives id e.incarnation) → e'.state = .dead) := by
  induction ops generalizing v e with
  | nil => exact ⟨e, he, UInt64.le_refl _, fun hd _ => hd⟩
  | cons op ops ih =>
    obtain ⟨e₁, he₁, hle₁, hdead₁⟩ := lookup_run (hops op mem_cons_self) he
    obtain ⟨e', he', hle', hdead'⟩ :=
      ih (op.run v) (fun op' hop' => hops op' (mem_cons_of_mem op hop')) e₁ he₁
    refine ⟨e', he', UInt64.le_trans hle₁ hle', fun hd hr => ?_⟩
    refine hdead' (hdead₁ hd (hr op mem_cons_self)) fun op' hop' hrev => ?_
    exact hr op' (mem_cons_of_mem op hop') (revives_mono hle₁ hrev)

/-- A dead member stays dead under a later `Dead`, stale events and the reaper. -/
theorem precedence_dead :
    let v := ([.apply (.alive ⟨⟨2, "b"⟩, "b", "b", 1⟩ 1) 0 0, .apply (.dead 2 3 1) 0 0] :
      List ViewOp).foldl run (bootstrap ⟨⟨1, "a"⟩, "a", "a", 2⟩)
    let ops : List ViewOp := [.apply (.dead 2 4 1) 0 0,
      .apply (.alive ⟨⟨2, "b"⟩, "b", "b", 1⟩ 3) 0 0, .apply (.suspect 2 3 1) 0 0, .reapSuspects 9]
    ∃ e', (ops.foldl run v).byId.lookup 2 = some e' ∧ 3 ≤ e'.incarnation ∧ e'.state = .dead := by
  intro v ops
  obtain ⟨e', he', hle, hdead⟩ := precedence v ops (by simp [ops, ViewOp.Hears]) 2
    ⟨⟨⟨2, "b"⟩, "b", "b", 1⟩, .dead, 3, 0⟩ rfl
  refine ⟨e', he', hle, hdead rfl ?_⟩
  simp [ops, ViewOp.Revives, GossipEvent.Final, GossipEvent.id, GossipEvent.incarnation]

/-! ## Convergence -/

/-- An event with the clock and the timeout it is applied with. -/
abbrev Hearing := GossipEvent × UInt64 × UInt64

def hear (v : MembershipView) (h : Hearing) : MembershipView := (v.apply h.1 h.2.1 h.2.2).2

def remote (v : MembershipView) (id : UInt64) : Option MemberEntry :=
  if some id = v.localId then none else v.byId.lookup id

/-- The view is one that its mutations reach. -/
def Reachable (v : MembershipView) : Prop :=
  ∃ self ops, v = (ops : List ViewOp).foldl run (bootstrap self)

/-- Both views know the same other members, with the same data, state and incarnation. -/
def SameRemote (v w : MembershipView) : Prop :=
  ∀ id, (v.remote id).map (fun e => (e.member, e.status)) =
    (w.remote id).map fun e => (e.member, e.status)

theorem Reachable.foldl_hear (h : v.Reachable) (hs : List Hearing) :
    (hs.foldl hear v).Reachable ∧ (hs.foldl hear v).localId = v.localId := by
  induction hs generalizing v with
  | nil => exact ⟨h, rfl⟩
  | cons g hs ih =>
    obtain ⟨self, ops, rfl⟩ := h
    have hwf := (ordered_foldl self ops).wf
    have hnext : (hear (ops.foldl run (bootstrap self)) g).Reachable :=
      ⟨self, ops ++ [.apply g.1 g.2.1 g.2.2], by rw [foldl_append]; rfl⟩
    exact ⟨(ih hnext).1, (ih hnext).2.trans (localId_apply hwf _ _ _)⟩

theorem remote_eq_some :
    v.remote id = some e ↔ some id ≠ v.localId ∧ v.byId.lookup id = some e := by
  unfold remote
  split_ifs with h <;> simp [h]

theorem Reachable.wf (h : v.Reachable) : v.WF := by
  obtain ⟨self, ops, rfl⟩ := h
  exact (ordered_foldl self ops).wf

theorem remote_foldl_some {hs : List Hearing} (hv : v.Reachable) (he : v.remote id = some e)
    (hdata : ∀ h ∈ hs, ∀ member i, h.1 = .alive member i → member.id = id → member = e.member) :
    ∃ e', (hs.foldl hear v).remote id = some e' ∧ e'.member = e.member ∧
      e'.status = ((hs.map fst).filter (·.id = id)).foldl heard e.status := by
  induction hs generalizing v e with
  | nil => exact ⟨e, he, rfl, rfl⟩
  | cons h hs ih =>
    obtain ⟨hid, hlookup⟩ := remote_eq_some.1 he
    obtain ⟨hv₁, hl₁⟩ : (v.hear h).Reachable ∧ (v.hear h).localId = v.localId :=
      hv.foldl_hear [h]
    have hlookup₁ := lookup_apply hid hlookup hv.wf h.1 h.2.1 h.2.2
    have he₁ : (v.hear h).remote id = some _ := remote_eq_some.2 ⟨by rw [hl₁]; exact hid, hlookup₁⟩
    have hmember : (if h.1.id = id then e.advance h.2.1 h.2.2 h.1 else e).member = e.member := by
      split_ifs with hg
      · have hd := hdata h mem_cons_self
        cases hev : h.1 <;> rw [hev] at hg hd <;> simp only [MemberEntry.advance] <;> split_ifs <;>
          first | rfl | exact hd _ _ rfl hg
      · rfl
    obtain ⟨e', he', hm', hs'⟩ := ih hv₁ he₁ fun h' hh' member i heq hmid =>
      (hdata h' (mem_cons_of_mem h hh') member i heq hmid).trans hmember.symm
    refine ⟨e', he', hm'.trans hmember, hs'.trans ?_⟩
    rw [map_cons, filter_cons]
    by_cases hg : h.1.id = id
    · simp [hg, decide_true, foldl_cons, MemberEntry.status_advance]
    · simp [hg, decide_false, Bool.false_eq_true]

theorem remote_foldl_none {hs : List Hearing} (hv : v.Reachable) (hnone : v.remote id = none)
    (hknown : ∀ h ∈ hs, (v.remote h.1.id).isSome) : (hs.foldl hear v).remote id = none := by
  obtain ⟨-, hl⟩ := hv.foldl_hear hs
  by_cases hid : some id = v.localId
  · rw [remote, hl, if_pos hid]
  have hne : ∀ h ∈ hs, h.1.id ≠ id := by
    intro h hh heq
    have := hknown h hh
    rw [heq, hnone] at this
    cases this
  rw [remote, hl, if_neg hid]
  rw [remote, if_neg hid] at hnone
  clear hknown hl hid
  induction hs generalizing v with
  | nil => exact hnone
  | cons h hs ih =>
    refine ih (hv.foldl_hear [h]).1 ?_ fun h' hh' => hne h' (mem_cons_of_mem h hh')
    exact (lookup_apply_ne (hne h mem_cons_self) _ _).trans hnone

/-- Events that can be heard in any order: each `Alive` carries the data that is known, and no
`Alive` and `Suspect` of a member have the same incarnation. -/
structure Orderly (v : MembershipView) (gs : List GossipEvent) : Prop where
  known : ∀ g ∈ gs, (v.remote g.id).isSome
  data : ∀ member i, .alive member i ∈ gs → ∀ e ∈ v.remote member.id, member = e.member
  apart : ∀ member i j sender, .alive member i ∈ gs → .suspect member.id j sender ∈ gs → i ≠ j

theorem Orderly.settles {gs : List GossipEvent} (h : v.Orderly gs) (id : UInt64) :
    Folds.Settles heard (gs.filter (·.id = id)) := by
  have hapart : ∀ g ∈ gs.filter (·.id = id), ∀ g' ∈ gs.filter (·.id = id), g.Apart g' := by
    rintro g hg g' hg' member i id' j sender rfl rfl
    obtain ⟨hg, hid⟩ := mem_filter.1 hg
    obtain ⟨hg', hid'⟩ := mem_filter.1 hg'
    have hsame : id' = member.id := (of_decide_eq_true hid').trans (of_decide_eq_true hid).symm
    exact h.apart member i j sender hg (hsame ▸ hg')
  exact ⟨fun g hg g' hg' s => heard_comm s (hapart g hg g' hg') (hapart g' hg' g hg),
    fun g _ s => heard_again s g⟩

theorem filter_sorted_eq (hv : v.Ordered) (hw : w.Ordered) (hvn : v.sorted.Nodup)
    (hwn : w.sorted.Nodup) {p q : UInt64 → Bool}
    (h : ∀ id, (if p id then (v.byId.lookup id).map (·.member) else none) =
      if q id then (w.byId.lookup id).map (·.member) else none) :
    v.sorted.filter p = w.sorted.filter q := by
  let known (id : UInt64) := if p id then (v.byId.lookup id).map (·.member) else none
  have hknown : ∀ id, known id = if q id then (w.byId.lookup id).map (·.member) else none := h
  let r (a b : UInt64) := ∀ m m', known a = some m → known b = some m' → m.Before m'
  have hmem : ∀ {id m}, known id = some m → m.id = id := by
    intro id m hm
    simp only [known] at hm
    split_ifs at hm
    obtain ⟨e, he, rfl⟩ := map_eq_some_iff.1 hm
    exact hv.wf.keyed id e he
  have hpair : ∀ {u : MembershipView} {p : UInt64 → Bool}, u.Ordered →
      (∀ id, known id = if p id then (u.byId.lookup id).map (·.member) else none) →
      (u.sorted.filter p).Pairwise r := by
    intro u p hu hknown
    refine (hu.sorted.filter _).imp fun hab m m' hm hm' => ?_
    rw [hknown] at hm hm'
    split_ifs at hm hm'
    obtain ⟨e, he, rfl⟩ := map_eq_some_iff.1 hm
    obtain ⟨e', he', rfl⟩ := map_eq_some_iff.1 hm'
    exact hab e e' he he'
  have hin : ∀ id, id ∈ v.sorted.filter p ↔ (known id).isSome := by
    intro id
    rw [mem_filter, hv.wf.mem_sorted]
    simp only [known]
    split_ifs with hp <;> simp [hp]
  have hperm : (v.sorted.filter p).Perm (w.sorted.filter q) := by
    rw [perm_ext_iff_of_nodup (hvn.filter _) (hwn.filter _)]
    intro id
    rw [hin, hknown, mem_filter, hw.wf.mem_sorted]
    split_ifs with hq <;> simp [hq]
  refine List.Perm.eq_of_pairwise (fun a b ha hb hab hba => ?_) (hpair hv fun _ => rfl)
    (hpair hw hknown) hperm
  obtain ⟨m, hm⟩ := isSome_iff_exists.1 ((hin a).1 ha)
  obtain ⟨m', hm'⟩ := isSome_iff_exists.1 ((hin b).1 (hperm.mem_iff.2 hb))
  rw [← hmem hm, ← hmem hm']
  exact (hab m m' hm hm').antisymm (hba m' m hm' hm)

section

variable (hv : v.Reachable)
include hv

theorem sameRemote_foldl {hs hs' : List Hearing} (hw : w.Reachable)
    (hvw : SameRemote v w) (hsame : ∀ g, g ∈ hs.map fst ↔ g ∈ hs'.map fst)
    (ho : v.Orderly (hs.map fst)) : SameRemote (hs.foldl hear v) (hs'.foldl hear w) := by
  have hevent : ∀ h ∈ hs', h.1 ∈ hs.map fst := fun h hh =>
    (hsame h.1).2 (mem_map_of_mem hh)
  intro id
  have hid := hvw id
  rcases he : v.remote id with _ | e
  · rw [he, map_none, eq_comm, map_eq_none_iff] at hid
    rw [remote_foldl_none hv he fun h hh => ho.known _ (mem_map_of_mem hh),
      remote_foldl_none hw hid fun h hh => ?_]
    have hsome := congrArg isSome (hvw h.1.id)
    rw [isSome_map, isSome_map] at hsome
    exact hsome ▸ ho.known _ (hevent h hh)
  rw [he, map_some, eq_comm] at hid
  obtain ⟨e₂, he₂, hpair⟩ := map_eq_some_iff.1 hid
  obtain ⟨hm₂, hs₂⟩ := Prod.mk.inj hpair
  obtain ⟨e', he', hm', hst'⟩ := remote_foldl_some hv he fun h hh member i hev hmid =>
    ho.data member i (hev ▸ mem_map_of_mem hh) e (by rw [hmid, he]; rfl)
  obtain ⟨e'', he'', hm'', hst''⟩ := remote_foldl_some hw he₂ fun h hh member i hev hmid =>
    (ho.data member i (hev ▸ hevent h hh) e (by rw [hmid, he]; rfl)).trans hm₂.symm
  have hfold : ((hs.map fst).filter (·.id = id)).foldl heard e.status =
      ((hs'.map fst).filter (·.id = id)).foldl heard e.status :=
    (ho.settles id).foldl_eq (fun g => by rw [mem_filter, mem_filter, hsame g]) _
  rw [he', he'', map_some, map_some, hm', hm'', hst', hst'', hm₂, hs₂, hfold]

theorem lookup_own_foldl (hl : v.localId = some l) (hs : List Hearing) :
    (hs.foldl hear v).byId.lookup l = v.byId.lookup l := by
  induction hs generalizing v with
  | nil => rfl
  | cons h hs ih =>
    obtain ⟨hv₁, hl₁⟩ : (v.hear h).Reachable ∧ (v.hear h).localId = v.localId :=
      hv.foldl_hear [h]
    exact (ih hv₁ (hl₁.trans hl)).trans (lookup_local_apply hv.wf hl _ _ _)

def ownMember (v : MembershipView) : Option ClusterMember :=
  (v.localId.bind v.byId.lookup).map (·.member)

theorem Reachable.ownMember_foldl (hs : List Hearing) :
    (hs.foldl hear v).ownMember = v.ownMember := by
  rw [ownMember, ownMember, (hv.foldl_hear hs).2]
  rcases hl : v.localId with _ | l
  · rfl
  · rw [bind_some, bind_some, lookup_own_foldl hv hl]

theorem Reachable.ordered : v.Ordered ∧ v.sorted.Nodup ∧
    ∃ l e, v.localId = some l ∧ v.byId.lookup l = some e ∧ v.ownMember = some e.member := by
  obtain ⟨self, ops, rfl⟩ := hv
  obtain ⟨hord, hidx⟩ := indexed_foldl self ops
  obtain ⟨l, e, hl, he, -⟩ := hord.self
  exact ⟨hord, hidx.nodup, l, e, hl, he, by rw [ownMember, hl, bind_some, he]; rfl⟩

theorem sorted_eq_of_sameRemote (hw : w.Reachable) (hvw : SameRemote v w) :
    v.sorted.filter (some · ≠ v.localId) = w.sorted.filter (some · ≠ w.localId) ∧
      (v.ownMember = w.ownMember → v.sorted = w.sorted) := by
  obtain ⟨hvo, hvn, l, e, hl, he, hown⟩ := hv.ordered
  obtain ⟨hwo, hwn, l', e', hl', he', hown'⟩ := hw.ordered
  have hremote : ∀ id, (v.remote id).map (·.member) = (w.remote id).map (·.member) := by
    intro id
    have := congrArg (Option.map fst) (hvw id)
    rwa [Option.map_map, Option.map_map] at this
  refine ⟨filter_sorted_eq hvo hwo hvn hwn fun id => ?_, fun hsame => ?_⟩
  · have hid := hremote id
    unfold remote at hid
    by_cases hv' : some id = v.localId <;> by_cases hw' : some id = w.localId <;>
      simpa [hv', hw'] using hid
  -- the two nodes' own ids are equal, since their members are
  rw [hown, hown', Option.some.injEq] at hsame
  have hll : l = l' := by
    rw [← hvo.wf.keyed l e he, ← hwo.wf.keyed l' e' he', hsame]
  have hall := filter_sorted_eq hvo hwo hvn hwn (p := fun _ => true) (q := fun _ => true)
    fun id => by
      by_cases hid : id = l
      · rw [if_pos rfl, if_pos rfl, hid, he, hll, he', map_some, map_some, hsame]
      have hr := hremote id
      rw [remote, if_neg (by simpa [hl] using hid), remote,
        if_neg (by simpa [hl', ← hll] using hid)] at hr
      rw [if_pos rfl, if_pos rfl, hr]
  rwa [filter_true, filter_true] at hall

end

/-- Two views that know the same other members alike and hear the same events, in any orders, with
any repetitions and at any times, end with the same states and incarnations for them and sort them
alike; and their sorted lists are equal if they are the views of one member. -/
theorem apply_order_free {hs hs' : List Hearing} (hv : v.Reachable) (hw : w.Reachable)
    (hvw : SameRemote v w) (hsame : ∀ g, g ∈ hs.map fst ↔ g ∈ hs'.map fst)
    (ho : v.Orderly (hs.map fst)) :
    (∀ id, ((hs.foldl hear v).remote id).map (·.status) =
        ((hs'.foldl hear w).remote id).map (·.status)) ∧
      (hs.foldl hear v).sorted.filter (some · ≠ v.localId) =
        (hs'.foldl hear w).sorted.filter (some · ≠ w.localId) ∧
      (v.ownMember = w.ownMember → (hs.foldl hear v).sorted = (hs'.foldl hear w).sorted) := by
  have hend := sameRemote_foldl hv hw hvw hsame ho
  obtain ⟨hv', hl⟩ := hv.foldl_hear hs
  obtain ⟨hw', hl'⟩ := hw.foldl_hear hs'
  obtain ⟨hfilter, hsorted⟩ := sorted_eq_of_sameRemote hv' hw' hend
  refine ⟨fun id => ?_, ?_, fun hown => hsorted ?_⟩
  · have := congrArg (Option.map snd) (hend id)
    rwa [Option.map_map, Option.map_map] at this
  · rwa [hl, hl'] at hfilter
  · rw [hv.ownMember_foldl, hw.ownMember_foldl, hown]

section Sample

def joined : MembershipView :=
  ([.apply (.alive ⟨⟨2, "b"⟩, "b", "b", 1⟩ 1) 0 0] : List ViewOp).foldl run
    (bootstrap ⟨⟨1, "a"⟩, "a", "a", 5⟩)

theorem reachable_joined : joined.Reachable := ⟨_, _, rfl⟩

theorem apply_order_free_joined :
    (([(.suspect 2 1 1, 0, 0), (.alive ⟨⟨2, "b"⟩, "b", "b", 1⟩ 3, 0, 0), (.dead 2 2 1, 0, 0)] :
        List Hearing).foldl hear joined).sorted =
      (([(.dead 2 2 1, 7, 7), (.alive ⟨⟨2, "b"⟩, "b", "b", 1⟩ 3, 8, 8), (.suspect 2 1 1, 9, 9),
        (.alive ⟨⟨2, "b"⟩, "b", "b", 1⟩ 3, 0, 0)] : List Hearing).foldl hear joined).sorted := by
  have hremote : joined.remote 2 = some ⟨⟨⟨2, "b"⟩, "b", "b", 1⟩, .alive, 1, 0⟩ := rfl
  refine (apply_order_free reachable_joined reachable_joined (fun _ => rfl) ?_ ?_).2.2 rfl
  · simp only [map_cons, map_nil, mem_cons, not_mem_nil, or_false]
    tauto
  constructor
  · simp [GossipEvent.id, hremote]
  · simp [hremote]
  · simp +contextual

/-- Node 2 comes back with another birthdate and dies, and node 1 hears of it in two orders. If it
hears of the death first, it keeps the birthdate it knew. -/
theorem sorted_depends_on_order : ∃ (v : MembershipView) (hs hs' : List Hearing), v.Reachable ∧
    hs.Perm hs' ∧ (∀ h ∈ hs, (v.remote h.1.id).isSome) ∧
    (∀ m i m' i', .alive m i ∈ hs.map fst → .alive m' i' ∈ hs.map fst → m.id = m'.id → m = m') ∧
    (∀ m i j sender, .alive m i ∈ hs.map fst → .suspect m.id j sender ∈ hs.map fst → i ≠ j) ∧
    (hs.foldl hear v).sorted = [1, 2] ∧ (hs'.foldl hear v).sorted = [2, 1] := by
  refine ⟨joined, [(.alive ⟨⟨2, "b"⟩, "b", "b", 9⟩ 2, 0, 0), (.dead 2 3 1, 0, 0)],
    [(.dead 2 3 1, 0, 0), (.alive ⟨⟨2, "b"⟩, "b", "b", 9⟩ 2, 0, 0)], reachable_joined,
    List.Perm.swap _ _ _, ?_, ?_, ?_, by decide +kernel, by decide +kernel⟩
  · have hremote : joined.remote 2 = some ⟨⟨⟨2, "b"⟩, "b", "b", 1⟩, .alive, 1, 0⟩ := rfl
    simp [GossipEvent.id, hremote]
  · simp +contextual
  · simp

end Sample

end MembershipView

end Kamino
