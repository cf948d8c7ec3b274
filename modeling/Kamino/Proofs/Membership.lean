import Kamino.Membership

/-!
# What gossip does to a member's entry

An event changes the entry of the member it is about, by `MemberEntry.advance`, and no other.
-/

namespace Kamino

open List MemberEntry Option

def GossipEvent.Final : GossipEvent → Prop
  | .alive .. | .suspect .. => False
  | .dead .. | .leave .. => True

instance (g : GossipEvent) : Decidable g.Final :=
  match g with
  | .alive .. | .suspect .. => .isFalse id
  | .dead .. | .leave .. => .isTrue trivial

/-- The event suspects its member or declares it dead or gone. -/
def GossipEvent.Accuses : GossipEvent → Prop
  | .alive .. => False
  | .suspect .. | .dead .. | .leave .. => True

instance (g : GossipEvent) : Decidable g.Accuses :=
  match g with
  | .alive .. => .isFalse id
  | .suspect .. | .dead .. | .leave .. => .isTrue trivial

def MemberEntry.advance (e : MemberEntry) (nowNs timeoutNs : UInt64) : GossipEvent → MemberEntry
  | .alive member incarnation =>
    if incarnation < e.incarnation ∨ incarnation = e.incarnation ∧ e.state ≠ .suspect then e
    else ⟨member, .alive, incarnation, 0⟩
  | .suspect _ incarnation _ =>
    if incarnation < e.incarnation ∨ incarnation = e.incarnation ∧ e.state ≠ .alive then e
    else { e with
      state := .suspect
      incarnation
      suspectDeadlineNs := satAddU64 nowNs timeoutNs }
  | .dead _ incarnation _ | .leave _ incarnation =>
    if incarnation < e.incarnation ∨ incarnation = e.incarnation ∧ e.state = .dead then e
    else { e with state := .dead, incarnation, suspectDeadlineNs := 0 }

namespace MemberEntry

variable {e : MemberEntry} {g : GossipEvent} {now timeout : UInt64}

theorem incarnation_advance (e : MemberEntry) (now timeout : UInt64) (g : GossipEvent) :
    (e.advance now timeout g).incarnation =
      if e.incarnation < g.incarnation then g.incarnation else e.incarnation := by
  cases g <;> simp only [advance, GossipEvent.incarnation] <;> split_ifs <;> grind

/-- What it takes for an entry to be dead after an event. -/
theorem advance_dead_iff : (e.advance now timeout g).state = .dead ↔
    g.Final ∧ e.incarnation ≤ g.incarnation ∨ e.state = .dead ∧ g.incarnation ≤ e.incarnation := by
  cases g <;> simp only [advance, GossipEvent.incarnation, GossipEvent.Final] <;> split_ifs <;>
    grind

theorem advance_of_dead (hd : e.state = .dead) (hle : g.incarnation ≤ e.incarnation) :
    e.advance now timeout g = e := by
  rcases UInt64.lt_or_eq_of_le hle with h | h <;> cases g <;>
    simp only [GossipEvent.incarnation] at h <;> simp [advance, h, hd]

/-- The entry of a member that was not dead at the incarnation `i₀`, after the events `heard`
about it. -/
structure Tracks (i₀ : UInt64) (heard : List GossipEvent) (e : MemberEntry) : Prop where
  heard_le : ∀ g ∈ heard, g.incarnation ≤ e.incarnation
  start_le : i₀ ≤ e.incarnation
  reached : e.incarnation = i₀ ∨ ∃ g ∈ heard, g.incarnation = e.incarnation
  dead_iff : e.state = .dead ↔ ∃ g ∈ heard, g.Final ∧ g.incarnation = e.incarnation

namespace Tracks

variable {i₀ : UInt64} {heard : List GossipEvent}

theorem refl (h : e.state ≠ .dead) : Tracks e.incarnation [] e :=
  ⟨by simp, UInt64.le_refl _, .inl rfl, by simp [h]⟩

variable (h : Tracks i₀ heard e)
include h

theorem advance (now timeout : UInt64) (g : GossipEvent) :
    Tracks i₀ (heard ++ [g]) (e.advance now timeout g) := by
  have hinc := incarnation_advance e now timeout g
  by_cases hlt : e.incarnation < g.incarnation
  · rw [if_pos hlt] at hinc
    have hle : e.incarnation ≤ g.incarnation := UInt64.le_of_lt hlt
    constructor
    · intro g' hg'
      rw [hinc]
      rcases mem_append.1 hg' with hg' | hg'
      · exact UInt64.le_trans (h.heard_le g' hg') hle
      · rw [mem_singleton.1 hg']
        exact UInt64.le_refl _
    · exact hinc ▸ UInt64.le_trans h.start_le hle
    · exact .inr ⟨g, by simp, hinc.symm⟩
    rw [advance_dead_iff, hinc]
    constructor
    · rintro (⟨hf, -⟩ | ⟨-, hge⟩)
      · exact ⟨g, by simp, hf, rfl⟩
      · exact absurd hlt (UInt64.not_lt.2 hge)
    rintro ⟨g', hg', hf, heq⟩
    rcases mem_append.1 hg' with hg' | hg'
    · exact absurd hlt (UInt64.not_lt.2 (heq ▸ h.heard_le g' hg'))
    · exact .inl ⟨mem_singleton.1 hg' ▸ hf, hle⟩
  rw [if_neg hlt] at hinc
  have hge : g.incarnation ≤ e.incarnation := UInt64.not_lt.1 hlt
  constructor
  · intro g' hg'
    rw [hinc]
    rcases mem_append.1 hg' with hg' | hg'
    · exact h.heard_le g' hg'
    · rwa [mem_singleton.1 hg']
  · exact hinc ▸ h.start_le
  · rw [hinc]
    rcases h.reached with heq | ⟨g', hg', heq⟩
    · exact .inl heq
    · exact .inr ⟨g', mem_append_left _ hg', heq⟩
  rw [advance_dead_iff, hinc]
  constructor
  · rintro (⟨hf, hle⟩ | ⟨hd, -⟩)
    · exact ⟨g, by simp, hf, UInt64.le_antisymm hge hle⟩
    · obtain ⟨g', hg', hf, heq⟩ := h.dead_iff.1 hd
      exact ⟨g', mem_append_left _ hg', hf, heq⟩
  rintro ⟨g', hg', hf, heq⟩
  rcases mem_append.1 hg' with hg' | hg'
  · exact .inr ⟨h.dead_iff.2 ⟨g', hg', hf, heq⟩, hge⟩
  · obtain rfl := mem_singleton.1 hg'
    exact .inl ⟨hf, heq ▸ UInt64.le_refl _⟩

theorem suspect (now timeout id sender : UInt64) :
    Tracks i₀ heard (e.advance now timeout (.suspect id e.incarnation sender)) := by
  have hinc : (e.advance now timeout (.suspect id e.incarnation sender)).incarnation =
      e.incarnation := by
    rw [incarnation_advance]
    exact ite_self _
  constructor
  · rw [hinc]
    exact h.heard_le
  · rw [hinc]
    exact h.start_le
  · rw [hinc]
    exact h.reached
  · rw [hinc, advance_dead_iff, ← h.dead_iff]
    exact ⟨fun hd => hd.elim (fun hf => hf.1.elim) And.left, fun hd => .inr ⟨hd, UInt64.le_refl _⟩⟩

/-- An entry is dead exactly if a final event at the highest incarnation heard has declared it so.
-/
theorem dead_iff_declared : e.state = .dead ↔ ∃ g ∈ heard, g.Final ∧ i₀ ≤ g.incarnation ∧
      ∀ g' ∈ heard, g'.incarnation ≤ g.incarnation := by
  rw [h.dead_iff]
  constructor
  · rintro ⟨g, hg, hf, hi⟩
    exact ⟨g, hg, hf, hi ▸ h.start_le, fun g' hg' => hi ▸ h.heard_le g' hg'⟩
  rintro ⟨g, hg, hf, hi, hmax⟩
  have hge : e.incarnation ≤ g.incarnation := by
    rcases h.reached with heq | ⟨g', hg', heq⟩
    · rwa [heq]
    · exact heq ▸ hmax g' hg'
  exact ⟨g, hg, hf, UInt64.le_antisymm (h.heard_le g hg) hge⟩

end Tracks

end MemberEntry

namespace MembershipView

variable {v : MembershipView} {id : UInt64}

/-- The sorted list holds the known ids, and each entry is its key's. -/
structure WF (v : MembershipView) : Prop where
  mem_sorted : ∀ id, id ∈ v.sorted ↔ (v.byId.lookup id).isSome
  keyed : ∀ id e, v.byId.lookup id = some e → e.member.id = id

theorem lookup_setEntry (v : MembershipView) (id a : UInt64) (e : MemberEntry) :
    (v.setEntry id e).byId.lookup a = if a = id then some e else v.byId.lookup a :=
  HMap.lookup_insert_eq_ite _ _ _ _

theorem reSort_byId (v : MembershipView) : v.reSort.byId = v.byId := rfl

theorem WF.reSort (h : ∀ id e, v.byId.lookup id = some e → e.member.id = id) : v.reSort.WF := by
  refine ⟨fun id => ?_, h⟩
  rw [MembershipView.reSort, mem_insertionSort, ← AList.mem_keys, AList.lookup_isSome]

variable {e : MemberEntry}

theorem keyed_setEntry (h : v.WF) (he : e.member.id = id) :
    ∀ a e', (v.setEntry id e).byId.lookup a = some e' → e'.member.id = a := by
  intro a e' ha
  rw [lookup_setEntry] at ha
  split_ifs at ha with hid
  · rw [← some.inj ha, he, hid]
  · exact h.keyed a e' ha

theorem WF.setEntry (h : v.WF) {e e' : MemberEntry} (hid : v.byId.lookup id = some e)
    (he : e'.member.id = id) : (v.setEntry id e').WF := by
  refine ⟨fun a => ?_, keyed_setEntry h he⟩
  rw [lookup_setEntry]
  split_ifs with ha
  · rw [ha]
    exact iff_of_true ((h.mem_sorted id).2 (by rw [hid]; rfl)) rfl
  · exact h.mem_sorted a

theorem wf_bootstrap (self : ClusterMember) : (bootstrap self).WF := by
  have hlookup : ∀ id, (bootstrap self).byId.lookup id =
      if id = self.id then some ⟨self, .alive, 1, 0⟩ else none := by
    intro id
    exact HMap.lookup_insert_eq_ite _ _ _ _
  refine ⟨fun id => ?_, fun id e he => ?_⟩
  · rw [hlookup]
    by_cases h : id = self.id <;> simp [bootstrap, h]
  · rw [hlookup] at he
    split_ifs at he with h
    rw [← some.inj he, h]

section Apply

variable {g : GossipEvent} {e : MemberEntry}

theorem apply_local (now timeout : UInt64) (h : some g.id = v.localId) :
    (v.apply g now timeout).2 = v := by
  cases g <;> simp only [GossipEvent.id] at h <;>
    simp [apply, applyAlive, applySuspect, applyDead, h]

theorem apply_unknown (now timeout : UInt64) (h : some g.id ≠ v.localId)
    (hg : v.byId.lookup g.id = none) :
    (v.apply g now timeout).2 = v ∨ ∃ member incarnation, g = .alive member incarnation ∧
      (v.apply g now timeout).2 = (v.setEntry g.id ⟨member, .alive, incarnation, 0⟩).reSort := by
  cases g with
  | alive member incarnation =>
    simp only [GossipEvent.id] at h hg
    exact .inr ⟨member, incarnation, rfl, by simp [apply, applyAlive, h, hg, GossipEvent.id]⟩
  | suspect id incarnation sender =>
    simp only [GossipEvent.id] at h hg
    exact .inl (by simp [apply, applySuspect, h, hg])
  | dead id incarnation sender | leave id incarnation =>
    simp only [GossipEvent.id] at h hg
    exact .inl (by simp [apply, applyDead, h, hg])

variable {member : ClusterMember}

theorem applyAlive_known (incarnation : UInt64)
    (h : some member.id ≠ v.localId) (he : v.byId.lookup member.id = some e) :
    v.applyAlive member incarnation =
      if incarnation < e.incarnation ∨ incarnation = e.incarnation ∧ e.state ≠ .suspect then
        (.ignored, v)
      else (.updated, (v.setEntry member.id ⟨member, .alive, incarnation, 0⟩).reSort) := by
  rw [applyAlive, if_neg h, he]
  dsimp only
  by_cases h₁ : incarnation < e.incarnation
  · simp [h₁]
  · by_cases h₂ : incarnation = e.incarnation <;> cases e.state <;> simp [h₁, h₂]

theorem applySuspect_known (incarnation now timeout : UInt64) (h : some id ≠ v.localId)
    (he : v.byId.lookup id = some e) :
    v.applySuspect id incarnation now timeout =
      if incarnation < e.incarnation ∨ incarnation = e.incarnation ∧ e.state ≠ .alive then
        (.ignored, v)
      else (.updated, v.setEntry id { e with
        state := .suspect
        incarnation
        suspectDeadlineNs := satAddU64 now timeout }) := by
  rw [applySuspect, if_neg h, he, ite_or]

theorem applyDead_known (incarnation : UInt64) (h : some id ≠ v.localId)
    (he : v.byId.lookup id = some e) :
    v.applyDead id incarnation =
      if incarnation < e.incarnation ∨ incarnation = e.incarnation ∧ e.state = .dead then
        (.ignored, v)
      else (.updated, (v.setEntry id
        { e with state := .dead, incarnation, suspectDeadlineNs := 0 }).reSort) := by
  rw [applyDead, if_neg h, he, ite_or]
  simp only [and_comm]

theorem apply_known (now timeout : UInt64) (h : some g.id ≠ v.localId)
    (he : v.byId.lookup g.id = some e) :
    (v.apply g now timeout).2 = v ∧ e.advance now timeout g = e ∨
      (v.apply g now timeout).2 = v.setEntry g.id (e.advance now timeout g) ∨
      (v.apply g now timeout).2 = (v.setEntry g.id (e.advance now timeout g)).reSort := by
  cases g with
  | alive member incarnation =>
    simp only [GossipEvent.id] at h he
    simp only [apply, applyAlive_known incarnation h he, advance, GossipEvent.id]
    split_ifs
    · exact .inl ⟨rfl, rfl⟩
    · exact .inr (.inr rfl)
  | suspect id incarnation sender =>
    simp only [GossipEvent.id] at h he
    simp only [apply, applySuspect_known incarnation now timeout h he, advance, GossipEvent.id]
    split_ifs
    · exact .inl ⟨rfl, rfl⟩
    · exact .inr (.inl rfl)
  | dead id incarnation sender | leave id incarnation =>
    simp only [GossipEvent.id] at h he
    simp only [apply, applyDead_known incarnation h he, advance, GossipEvent.id]
    split_ifs
    · exact .inl ⟨rfl, rfl⟩
    · exact .inr (.inr rfl)

theorem member_advance (hg : e.member.id = g.id) (now timeout : UInt64) :
    (e.advance now timeout g).member.id = g.id := by
  cases g <;> simp only [advance, GossipEvent.id] at hg ⊢ <;> split_ifs <;>
    first | exact hg | rfl

/-- An event changes nothing, advances the entry of another member, or adds one. -/
theorem apply_cases (hv : v.WF) (g : GossipEvent) (now timeout : UInt64) :
    (v.apply g now timeout).2 = v ∨ some g.id ≠ v.localId ∧ ∃ e', e'.member.id = g.id ∧
      ((∃ e, v.byId.lookup g.id = some e) ∧ (v.apply g now timeout).2 = v.setEntry g.id e' ∨
        (v.apply g now timeout).2 = (v.setEntry g.id e').reSort) := by
  by_cases hl : some g.id = v.localId
  · exact .inl (apply_local now timeout hl)
  rcases he : v.byId.lookup g.id with _ | e
  · rcases apply_unknown now timeout hl he with h | ⟨member, incarnation, rfl, h⟩
    · exact .inl h
    · exact .inr ⟨hl, _, rfl, .inr h⟩
  have hm := member_advance (hv.keyed _ e he) now timeout
  rcases apply_known now timeout hl he with ⟨h, -⟩ | h | h
  · exact .inl h
  · exact .inr ⟨hl, _, hm, .inl ⟨⟨e, rfl⟩, h⟩⟩
  · exact .inr ⟨hl, _, hm, .inr h⟩

theorem localId_apply (hv : v.WF) (g : GossipEvent) (now timeout : UInt64) :
    (v.apply g now timeout).2.localId = v.localId := by
  rcases apply_cases hv g now timeout with h | ⟨-, e', -, ⟨-, h⟩ | h⟩ <;> rw [h] <;> rfl

theorem WF.apply (hv : v.WF) (g : GossipEvent) (now timeout : UInt64) :
    (v.apply g now timeout).2.WF := by
  rcases apply_cases hv g now timeout with h | ⟨-, e', hm, ⟨⟨e, he⟩, h⟩ | h⟩ <;> rw [h]
  · exact hv
  · exact hv.setEntry he hm
  · exact WF.reSort (keyed_setEntry hv hm)

/-- What an event makes of another member's entry. -/
theorem lookup_apply (hid : some id ≠ v.localId) (he : v.byId.lookup id = some e)
    (hv : v.WF) (g : GossipEvent) (now timeout : UInt64) :
    (v.apply g now timeout).2.byId.lookup id =
      some (if g.id = id then e.advance now timeout g else e) := by
  split_ifs with hg
  · subst hg
    rcases apply_known now timeout hid he with ⟨h, ha⟩ | h | h
    · rw [h, ha, he]
    · rw [h, lookup_setEntry, if_pos rfl]
    · rw [h, reSort_byId, lookup_setEntry, if_pos rfl]
  · rcases apply_cases hv g now timeout with h | ⟨-, e', -, ⟨-, h⟩ | h⟩
    · rw [h, he]
    · rw [h, lookup_setEntry, if_neg (Ne.symm hg), he]
    · rw [h, reSort_byId, lookup_setEntry, if_neg (Ne.symm hg), he]

theorem lookup_of_apply {now timeout : UInt64}
    (h : (v.apply g now timeout).2.byId.lookup id = some e) :
    v.byId.lookup id = some e ∨ id = g.id ∧ some id ≠ v.localId ∧ e.incarnation = g.incarnation ∧
      ((∃ e₀, v.byId.lookup id = some e₀ ∧ e.member = e₀.member) ∨
        ∃ incarnation, g = .alive e.member incarnation) := by
  by_cases hl : some g.id = v.localId
  · rw [apply_local now timeout hl] at h
    exact .inl h
  have hset : ∀ e', (v.setEntry g.id e').byId.lookup id = some e →
      v.byId.lookup id = some e ∨ id = g.id ∧ e' = e := by
    intro e' h
    rw [lookup_setEntry] at h
    split_ifs at h with hid
    · exact .inr ⟨hid, some.inj h⟩
    · exact .inl h
  rcases he : v.byId.lookup g.id with _ | e₀
  · rcases apply_unknown now timeout hl he with heq | ⟨member, incarnation, rfl, heq⟩ <;>
      rw [heq] at h
    · exact .inl h
    · rcases hset _ h with h | ⟨rfl, rfl⟩
      · exact .inl h
      · exact .inr ⟨rfl, hl, rfl, .inr ⟨incarnation, rfl⟩⟩
  have hnew : ∀ e', e₀.advance now timeout g = e' → e' = e₀ ∨ e'.incarnation = g.incarnation ∧
      (e'.member = e₀.member ∨ ∃ incarnation, g = .alive e'.member incarnation) := by
    rintro e' rfl
    cases g <;> simp only [advance, GossipEvent.incarnation] <;> split_ifs <;> simp
  have hknown : v.byId.lookup id = some e ∨
      (v.setEntry g.id (e₀.advance now timeout g)).byId.lookup id = some e := by
    rcases apply_known now timeout hl he with ⟨heq, -⟩ | heq | heq <;> rw [heq] at h
    · exact .inl h
    · exact .inr h
    · exact .inr h
  refine hknown.elim .inl fun h => ?_
  rcases hset _ h with h | ⟨rfl, hadv⟩
  · exact .inl h
  · rcases hnew e hadv with rfl | ⟨hinc, hm⟩
    · exact .inl he
    · exact .inr ⟨rfl, hl, hinc, hm.imp_left fun hm => ⟨e₀, he, hm⟩⟩

theorem apply_stale (now timeout : UInt64) (hl : some g.id ≠ v.localId)
    (he : v.byId.lookup g.id = some e) (hlt : g.incarnation < e.incarnation) :
    (v.apply g now timeout).1 = .ignored := by
  cases g <;> simp only [GossipEvent.id, GossipEvent.incarnation] at hl he hlt <;>
    simp [apply, applyAlive, applySuspect, applyDead, hl, he, hlt]

theorem lookup_applyAlive (incarnation : UInt64) (hl : some member.id ≠ v.localId) :
    (v.applyAlive member incarnation).2.localId = v.localId ∧
      ∃ e, (v.applyAlive member incarnation).2.byId.lookup member.id = some e ∧
        incarnation ≤ e.incarnation ∧
        ((∀ e₀, v.byId.lookup member.id = some e₀ → e₀.incarnation < incarnation) →
          e = ⟨member, .alive, incarnation, 0⟩) := by
  have hnew : (v.setEntry member.id ⟨member, .alive, incarnation, 0⟩).reSort.byId.lookup member.id =
      some ⟨member, .alive, incarnation, 0⟩ :=
    (lookup_setEntry _ _ _ _).trans (if_pos rfl)
  rcases he : v.byId.lookup member.id with _ | e₀
  · have heq : (v.applyAlive member incarnation).2 =
        (v.setEntry member.id ⟨member, .alive, incarnation, 0⟩).reSort := by
      simp [applyAlive, hl, he]
    rw [heq]
    exact ⟨rfl, _, hnew, UInt64.le_refl _, fun _ => rfl⟩
  rw [applyAlive_known incarnation hl he]
  split_ifs with hold
  · have hle : incarnation ≤ e₀.incarnation :=
      hold.elim (fun h => UInt64.le_of_lt h) fun h => h.1 ▸ UInt64.le_refl _
    exact ⟨rfl, e₀, he, hle, fun hlt => absurd (hlt e₀ rfl) (UInt64.not_lt.2 hle)⟩
  · exact ⟨rfl, _, hnew, UInt64.le_refl _, fun _ => rfl⟩

/-- A view asks for a refutation exactly when its own member is accused. -/
theorem apply_selfRefutation_iff (now timeout : UInt64) :
    (v.apply g now timeout).1 = .selfRefutationNeeded ↔ g.Accuses ∧ some g.id = v.localId := by
  by_cases hl : some g.id = v.localId
  · cases g <;> simp only [GossipEvent.id] at hl <;>
      simp [apply, applyAlive, applySuspect, applyDead, GossipEvent.Accuses, GossipEvent.id, hl]
  refine iff_of_false (fun h => ?_) fun h => hl h.2
  cases g <;> simp only [GossipEvent.id] at hl <;>
    simp only [apply, applyAlive, applySuspect, applyDead, if_neg hl] at h <;> split at h <;>
    first | cases h | (split_ifs at h)

theorem localIncarnation_apply (hv : v.WF) (g : GossipEvent) (now timeout : UInt64) :
    (v.apply g now timeout).2.localIncarnation = v.localIncarnation := by
  rcases apply_cases hv g now timeout with h | ⟨-, e', -, ⟨-, h⟩ | h⟩ <;> rw [h] <;> rfl

theorem lookup_local_apply (hv : v.WF) (hid : v.localId = some id) (g : GossipEvent)
    (now timeout : UInt64) : (v.apply g now timeout).2.byId.lookup id = v.byId.lookup id := by
  rcases apply_cases hv g now timeout with h | ⟨hl, e', -, ⟨-, h⟩ | h⟩ <;> rw [h]
  · rw [lookup_setEntry, if_neg]
    rintro rfl
    exact hl hid.symm
  · rw [reSort_byId, lookup_setEntry, if_neg]
    rintro rfl
    exact hl hid.symm

end Apply

section Bump

/-- The view after a refutation, with the entry of its own member. -/
abbrev bumped (v : MembershipView) (l : UInt64) (e : MemberEntry) : MembershipView :=
  { v with localIncarnation := v.localIncarnation + 1 }.setEntry l
    { e with incarnation := v.localIncarnation + 1, state := .alive, suspectDeadlineNs := 0 }

/-- A refutation raises the member's own incarnation, in its entry too. -/
theorem bump_cases (v : MembershipView) :
    (∃ l e, v.localId = some l ∧ v.byId.lookup l = some e ∧
      v.bumpLocalIncarnation.2 = v.bumped l e) ∨
      v.bumpLocalIncarnation.2 = { v with localIncarnation := v.localIncarnation + 1 } := by
  unfold bumpLocalIncarnation
  rcases hl : v.localId with _ | l <;> dsimp only
  · exact .inr rfl
  · rcases he : v.byId.lookup l with _ | e <;> dsimp only
    · exact .inr rfl
    · exact .inl ⟨l, e, rfl, he, by rw [bumped, hl]⟩

theorem localId_bump (v : MembershipView) : v.bumpLocalIncarnation.2.localId = v.localId := by
  rcases bump_cases v with ⟨l, e, -, -, h⟩ | h <;> rw [h]
  rfl

theorem WF.bump (hv : v.WF) : v.bumpLocalIncarnation.2.WF := by
  have hv' : { v with localIncarnation := v.localIncarnation + 1 }.WF := ⟨hv.1, hv.2⟩
  rcases bump_cases v with ⟨l, e, -, he, h⟩ | h <;> rw [h]
  · exact hv'.setEntry he (hv.keyed l e he)
  · exact hv'

theorem lookup_bump (hid : some id ≠ v.localId) :
    v.bumpLocalIncarnation.2.byId.lookup id = v.byId.lookup id := by
  rcases bump_cases v with ⟨l, e, hl, -, h⟩ | h <;> rw [h]
  · rw [lookup_setEntry, if_neg]
    rintro rfl
    exact hid hl.symm

end Bump

section Reap

theorem reapEntry_member (now : UInt64) (e : MemberEntry) :
    (reapEntry now e).member = e.member := by
  unfold reapEntry
  split_ifs <;> rfl

theorem reapEntry_incarnation (now : UInt64) (e : MemberEntry) :
    (reapEntry now e).incarnation = e.incarnation := by
  unfold reapEntry
  split_ifs <;> rfl

theorem reapEntry_alive {now : UInt64} (h : e.state = .alive) : reapEntry now e = e := by
  rw [reapEntry, if_neg]
  simp [overdue, h]

theorem lookup_reap (v : MembershipView) (now id : UInt64) :
    (v.reapSuspects now).2.byId.lookup id = (v.byId.lookup id).map (reapEntry now) := by
  simp only [reapSuspects]
  split_ifs <;> exact HMap.lookup_mapValues _ _ _

theorem keyed_reap (hv : v.WF) (now : UInt64) :
    ∀ id e, (v.reapSuspects now).2.byId.lookup id = some e → e.member.id = id := by
  intro id e he
  rw [lookup_reap] at he
  obtain ⟨e₀, he₀, rfl⟩ := map_eq_some_iff.1 he
  rw [reapEntry_member, hv.keyed id e₀ he₀]

theorem sorted_reap (v : MembershipView) (now : UInt64) : (v.reapSuspects now).2.sorted = v.sorted ∨
      (v.reapSuspects now).2.reSort = (v.reapSuspects now).2 := by
  simp only [reapSuspects]
  split_ifs
  · exact .inl rfl
  · exact .inr rfl

theorem WF.reap (hv : v.WF) (now : UInt64) : (v.reapSuspects now).2.WF := by
  rcases sorted_reap v now with h | h
  · refine ⟨fun id => ?_, keyed_reap hv now⟩
    rw [h, lookup_reap, isSome_map]
    exact hv.mem_sorted id
  · exact h ▸ WF.reSort (keyed_reap hv now)

theorem localId_reap (v : MembershipView) (now : UInt64) :
    (v.reapSuspects now).2.localId = v.localId := by
  simp only [reapSuspects]
  split_ifs <;> rfl

theorem localIncarnation_reap (v : MembershipView) (now : UInt64) :
    (v.reapSuspects now).2.localIncarnation = v.localIncarnation := by
  simp only [reapSuspects]
  split_ifs <;> rfl

theorem mem_reaped (hv : v.WF) {now : UInt64} {p : UInt64 × UInt64}
    (hp : p ∈ (v.reapSuspects now).1) :
    ∃ e, v.byId.lookup p.1 = some e ∧ overdue now e ∧ p.2 = e.incarnation := by
  obtain ⟨⟨id, e⟩, he, rfl⟩ := mem_map.1 hp
  obtain ⟨he, ho⟩ := mem_filter.1 he
  have he := HMap.mem_entries_iff.1 he
  exact ⟨e, by rw [hv.keyed id e he, he], ho, rfl⟩

end Reap

/-- A snapshot lists the members that are not dead. -/
theorem mem_snapshot (hv : v.WF) :
    id ∈ v.snapshot.map (·.1.id) ↔ ∃ e, v.byId.lookup id = some e ∧ e.state ≠ .dead := by
  constructor
  · intro h
    obtain ⟨⟨m, flag⟩, hm, rfl⟩ := mem_map.1 h
    obtain ⟨⟨a, idx⟩, -, ha⟩ := mem_filterMap.1 hm
    dsimp only at ha
    split at ha
    · cases ha
    rename_i e he
    split_ifs at ha with hd
    obtain ⟨rfl, -⟩ := Prod.mk.inj (some.inj ha)
    rw [hv.keyed a e he]
    exact ⟨e, he, hd⟩
  · rintro ⟨e, he, hd⟩
    have hs := (hv.mem_sorted id).2 (by rw [he]; rfl)
    obtain ⟨idx, hidx⟩ := mem_iff_getElem?.1 hs
    refine mem_map.2 ⟨(e.member, idx = 0), mem_filterMap.2 ⟨(id, idx), ?_, ?_⟩, hv.keyed id e he⟩
    · exact mem_zipIdx_iff_getElem?.2 hidx
    · simp [he, hd]

/-- `Takes v heard v'`: the view `v` becomes `v'` by taking in the events `heard`, each followed by
refutations of the node's own and by suspicions of other members at the incarnations it knows. -/
inductive Takes (v : MembershipView) : List GossipEvent → MembershipView → Prop
  | refl : Takes v [] v
  | hear {heard v'} (h : Takes v heard v') (g : GossipEvent) (now timeout : UInt64) :
    Takes v (heard ++ [g]) (v'.apply g now timeout).2
  | refute {heard v'} (h : Takes v heard v') : Takes v heard v'.bumpLocalIncarnation.2
  | suspect {heard v' id e} (h : Takes v heard v') (he : v'.byId.lookup id = some e)
    (sender now timeout : UInt64) :
    Takes v heard (v'.apply (.suspect id e.incarnation sender) now timeout).2

namespace Takes

variable {heard heard' : List GossipEvent} {v' v'' : MembershipView} (h : Takes v heard v')
include h

theorem trans (h' : Takes v' heard' v'') : Takes v (heard ++ heard') v'' := by
  induction h' with
  | refl => rwa [append_nil]
  | hear _ g now timeout ih =>
    rw [← append_assoc]
    exact ih.hear g now timeout
  | refute _ ih => exact ih.refute
  | suspect _ he sender now timeout ih => exact ih.suspect he sender now timeout

theorem localId_eq (hv : v.WF) : v'.WF ∧ v'.localId = v.localId := by
  induction h with
  | refl => exact ⟨hv, rfl⟩
  | hear _ g now timeout ih =>
    exact ⟨ih.1.apply g now timeout, (localId_apply ih.1 g now timeout).trans ih.2⟩
  | refute _ ih => exact ⟨ih.1.bump, (localId_bump _).trans ih.2⟩
  | suspect _ _ sender now timeout ih =>
    exact ⟨ih.1.apply _ now timeout, (localId_apply ih.1 _ now timeout).trans ih.2⟩

theorem tracks (hv : v.WF) (hid : some id ≠ v.localId) (he : v.byId.lookup id = some e)
    (hd : e.state ≠ .dead) : ∃ e', v'.byId.lookup id = some e' ∧
      MemberEntry.Tracks e.incarnation (heard.filter (·.id = id)) e' := by
  induction h with
  | refl => exact ⟨e, he, .refl hd⟩
  | hear h g now timeout ih =>
    obtain ⟨hw, hl⟩ := h.localId_eq hv
    obtain ⟨e', he', ht⟩ := ih
    refine ⟨_, lookup_apply (hl ▸ hid) he' hw g now timeout, ?_⟩
    rw [filter_append]
    split_ifs with hg
    · simpa [hg] using ht.advance now timeout g
    · simpa [hg] using ht
  | refute h ih =>
    rw [lookup_bump ((h.localId_eq hv).2 ▸ hid)]
    exact ih
  | @suspect _ _ id' e₁ h he₁ sender now timeout ih =>
    obtain ⟨hw, hl⟩ := h.localId_eq hv
    obtain ⟨e', he', ht⟩ := ih
    refine ⟨_, lookup_apply (hl ▸ hid) he' hw _ now timeout, ?_⟩
    split_ifs with hg
    · obtain rfl : id' = id := hg
      obtain rfl : e' = e₁ := some.inj (he'.symm.trans he₁)
      exact ht.suspect now timeout _ sender
    · exact ht

theorem dead (hv : v.WF) (hid : some id ≠ v.localId) (he : v.byId.lookup id = some e)
    (hd : e.state = .dead) (hle : ∀ g ∈ heard, g.id = id → g.incarnation ≤ e.incarnation) :
    v'.byId.lookup id = some e := by
  induction h with
  | refl => exact he
  | hear h g now timeout ih =>
    obtain ⟨hw, hl⟩ := h.localId_eq hv
    have he' := ih fun g' hg' => hle g' (mem_append_left _ hg')
    rw [lookup_apply (hl ▸ hid) he' hw g now timeout]
    split_ifs with hg
    · rw [advance_of_dead hd (hle g (by simp) hg)]
    · rfl
  | refute h ih =>
    rw [lookup_bump ((h.localId_eq hv).2 ▸ hid)]
    exact ih hle
  | @suspect _ _ id' e₁ h he₁ sender now timeout ih =>
    obtain ⟨hw, hl⟩ := h.localId_eq hv
    have he' := ih hle
    rw [lookup_apply (hl ▸ hid) he' hw _ now timeout]
    split_ifs with hg
    · obtain rfl : id' = id := hg
      obtain rfl := some.inj (he'.symm.trans he₁)
      rw [advance_of_dead hd (UInt64.le_refl _)]
    · rfl

end Takes

end MembershipView

end Kamino
