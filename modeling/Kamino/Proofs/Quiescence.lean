import Kamino.Proofs.Incarnations
import Kamino.Proofs.Rounds

/-!
# When gossip dies down

Most events that a node takes in move the member's entry up in the order of incarnation and then of
alive, suspect and dead; the exception is an `Alive` at the incarnation of a suspicion
(`MembershipView.Retreats`).
-/

namespace Kamino

open Runs Option List SwimDriver HMap Nat

section Order

def MemberState.rank : MemberState → ℕ
  | .alive => 0
  | .suspect => 1
  | .dead => 2

/-- By incarnation, then alive below suspect below dead. -/
def MemberEntry.Below (e e' : MemberEntry) : Prop :=
  e.incarnation < e'.incarnation ∨ e.incarnation = e'.incarnation ∧ e.state.rank < e'.state.rank

def MemberEntry.weight (e : MemberEntry) : ℕ := 3 * e.incarnation.toNat + e.state.rank + 1

theorem MemberEntry.Below.weight_lt {e e' : MemberEntry} (h : e.Below e') :
    e.weight < e'.weight := by
  have hrank : ∀ s : MemberState, s.rank ≤ 2 := by intro s; cases s <;> decide
  have := hrank e.state
  unfold weight
  rcases h with h | ⟨h, hr⟩
  · rw [UInt64.lt_iff_toNat_lt] at h
    omega
  · rw [h]
    omega

theorem MemberEntry.weight_le (e : MemberEntry) : e.weight ≤ 3 * 2 ^ 64 := by
  have hlt := e.incarnation.toNat_lt
  have hrank : e.state.rank ≤ 2 := by cases e.state <;> decide
  unfold weight
  omega

namespace MembershipView

variable {v : MembershipView} {g : GossipEvent} {e e' : MemberEntry} {id : UInt64}

/-- The event is an `Alive` at the incarnation at which the node suspects the member. -/
def Retreats (v : MembershipView) (g : GossipEvent) : Prop :=
  some g.id ≠ v.localId ∧
    ∃ e, v.byId.lookup g.id = some e ∧ e.state = .suspect ∧ ∃ m, g = .alive m e.incarnation

theorem apply_moves (v : MembershipView) (g : GossipEvent) (now timeout : UInt64) :
    (v.apply g now timeout).2 = v ∧ ((v.apply g now timeout).1 = .ignored ∨
        (v.apply g now timeout).1 = .selfRefutationNeeded) ∨
      ∃ e', ((v.apply g now timeout).2 = v.setEntry g.id e' ∨
          (v.apply g now timeout).2 = (v.setEntry g.id e').reSort) ∧
        ((v.apply g now timeout).1 = .newMember ∧ v.byId.lookup g.id = none ∨
          (v.apply g now timeout).1 = .updated ∧ ∃ e, v.byId.lookup g.id = some e ∧
            (e.Below e' ↔ ¬ v.Retreats g)) := by
  by_cases hl : some g.id = v.localId
  · refine .inl ⟨apply_local now timeout hl, ?_⟩
    cases g <;> simp only [GossipEvent.id] at hl <;>
      simp [apply, applyAlive, applySuspect, applyDead, hl]
  cases g with
  | alive m inc =>
    simp only [GossipEvent.id] at hl ⊢
    rcases he : v.byId.lookup m.id with _ | e
    · exact .inr ⟨⟨m, .alive, inc, 0⟩, .inr (by simp [apply, applyAlive, hl, he]),
        .inl ⟨by simp [apply, applyAlive, hl, he], rfl⟩⟩
    rw [apply, applyAlive_known inc hl he]
    split_ifs with hold
    · exact .inl ⟨rfl, .inl rfl⟩
    refine .inr ⟨_, .inr rfl, .inr ⟨rfl, e, rfl, ?_⟩⟩
    have hretreat : v.Retreats (.alive m inc) ↔ e.state = .suspect ∧ inc = e.incarnation := by
      simp [Retreats, GossipEvent.id, hl, he]
    rw [hretreat, MemberEntry.Below]
    simp only [MemberState.rank, not_lt_zero, and_false, or_false]
    constructor
    · rintro hlt ⟨-, rfl⟩
      exact UInt64.lt_irrefl _ hlt
    · intro hne
      refine UInt64.lt_of_le_of_ne (UInt64.not_lt.1 fun h => hold (.inl h)) fun heq => ?_
      exact hold (.inr ⟨heq.symm, fun hs => hne ⟨hs, heq.symm⟩⟩)
  | suspect id inc sender =>
    simp only [GossipEvent.id] at hl ⊢
    rcases he : v.byId.lookup id with _ | e
    · exact .inl ⟨by simp [apply, applySuspect, hl, he],
        .inl (by simp [apply, applySuspect, hl, he])⟩
    rw [apply, applySuspect_known inc now timeout hl he]
    split_ifs with hold
    · exact .inl ⟨rfl, .inl rfl⟩
    refine .inr ⟨_, .inl rfl, .inr ⟨rfl, e, rfl, iff_of_true ?_ ?_⟩⟩
    · rcases UInt64.lt_or_eq_of_le (UInt64.not_lt.1 fun h => hold (.inl h)) with h | h
      · exact .inl h
      refine .inr ⟨h, ?_⟩
      have halive : e.state = .alive := not_not.1 fun hs => hold (.inr ⟨h.symm, hs⟩)
      rw [halive]
      exact zero_lt_one
    · rintro ⟨-, e', -, -, m, hm⟩
      cases hm
  | dead id inc sender | leave id inc =>
    simp only [GossipEvent.id] at hl ⊢
    rcases he : v.byId.lookup id with _ | e
    · exact .inl ⟨by simp [apply, applyDead, hl, he], .inl (by simp [apply, applyDead, hl, he])⟩
    rw [apply, applyDead_known inc hl he]
    split_ifs with hold
    · exact .inl ⟨rfl, .inl rfl⟩
    refine .inr ⟨_, .inr rfl, .inr ⟨rfl, e, rfl, iff_of_true ?_ ?_⟩⟩
    · rcases UInt64.lt_or_eq_of_le (UInt64.not_lt.1 fun h => hold (.inl h)) with h | h
      · exact .inl h
      refine .inr ⟨h, ?_⟩
      have hdead : e.state ≠ .dead := fun hs => hold (.inr ⟨h.symm, hs⟩)
      change e.state.rank < 2
      revert hdead
      cases e.state <;> decide
    · rintro ⟨-, e', -, -, m, hm⟩
      cases hm

theorem Retreats.updated (h : v.Retreats g) (now timeout : UInt64) :
    (v.apply g now timeout).1 = .updated := by
  obtain ⟨hl, e, he, hs, m, rfl⟩ := h
  simp only [GossipEvent.id] at hl he
  rw [apply, applyAlive_known _ hl he, if_neg]
  simp [hs]

def weight (v : MembershipView) : ℕ := total (fun _ e => e.weight) v.byId

theorem weight_setEntry (v : MembershipView) (id : UInt64) (e' : MemberEntry) :
    (v.setEntry id e').weight + ((v.byId.lookup id).map (·.weight)).getD 0 =
      v.weight + e'.weight := by
  have hinsert : (v.setEntry id e').weight = e'.weight +
      total (fun _ e => e.weight) (v.byId.erase id) := total_insert _ _ _
  rcases he : v.byId.lookup id with _ | e
  · rw [hinsert, erase_of_none he, map_none, getD_none, weight]
    omega
  have herase : total (fun _ e => MemberEntry.weight e) (v.byId.erase id) + e.weight =
      v.weight := total_erase he
  rw [hinsert, map_some, getD_some]
  omega

theorem weight_apply (hr : ¬ v.Retreats g) (now timeout : UInt64) :
    (v.apply g now timeout).2 = v ∧ ((v.apply g now timeout).1 = .ignored ∨
        (v.apply g now timeout).1 = .selfRefutationNeeded) ∨
      v.weight < (v.apply g now timeout).2.weight := by
  rcases apply_moves v g now timeout with h | ⟨e', hv, hmove⟩
  · exact .inl h
  have hweight : (v.apply g now timeout).2.weight = (v.setEntry g.id e').weight := by
    rcases hv with hv | hv
    · rw [hv]
    · rw [hv]
      rfl
  have hset := v.weight_setEntry g.id e'
  refine .inr ?_
  rw [hweight]
  rcases hmove with ⟨-, hnone⟩ | ⟨-, e, he, hbelow⟩
  · rw [hnone] at hset
    have : 0 < e'.weight := succ_pos _
    simp only [map_none, getD_none] at hset
    omega
  rw [he] at hset
  have := (hbelow.2 hr).weight_lt
  simp only [map_some, getD_some] at hset
  omega

theorem weight_le (v : MembershipView) : v.weight ≤ 2 ^ 64 * (3 * 2 ^ 64) := by
  have hkeys : v.byId.entries.length ≤ 2 ^ 64 := by
    have hnodup : (v.byId.keys.map UInt64.toFin).Nodup :=
      v.byId.keys_nodup.map fun _ _ h => UInt64.toFin_inj.1 h
    have hcard := hnodup.length_le_card
    rwa [length_map, Fintype.card_fin, AList.keys, keys, length_map] at hcard
  exact (total_le fun _ e _ => e.weight_le).trans (mul_le_mul_right _ hkeys)

theorem weight_reap (v : MembershipView) (now : UInt64) :
    (v.reapSuspects now).2.weight = v.weight ∧ (v.reapSuspects now).1 = [] ∨
      v.weight < (v.reapSuspects now).2.weight := by
  have hweight : (v.reapSuspects now).2.weight =
      total (fun _ e => (reapEntry now e).weight) v.byId := by
    rw [← total_mapValues (fun _ e => MemberEntry.weight e)]
    simp only [reapSuspects]
    split_ifs <;> rfl
  have hdead : ∀ e, overdue now e → e.weight < (reapEntry now e).weight := by
    intro e ho
    rw [reapEntry, if_pos ho]
    have hs : e.state = .suspect := by simp only [overdue, decide_eq_true_eq] at ho; exact ho.1
    rw [MemberEntry.weight, hs]
    exact lt_succ_self _
  have hkept : ∀ e, ¬ overdue now e → (reapEntry now e).weight = e.weight := by
    intro e ho
    rw [reapEntry, if_neg ho]
  rw [hweight]
  by_cases h : ∃ id e, v.byId.lookup id = some e ∧ overdue now e
  · obtain ⟨id, e, he, ho⟩ := h
    refine .inr (total_lt_total (fun a e _ => ?_) ⟨id, e, he, hdead e ho⟩)
    by_cases ho : overdue now e
    · exact (hdead e ho).le
    · exact (hkept e ho).ge
  · refine .inl ⟨total_congr fun a e he => hkept e fun ho => h ⟨a, e, he, ho⟩, ?_⟩
    refine map_eq_nil_iff.2 (filter_eq_nil_iff.2 fun p hp ho => ?_)
    exact h ⟨p.1, p.2, mem_entries_iff.1 hp, ho⟩

end MembershipView

end Order

namespace GossipQueue

variable {q : GossipQueue} {n : ℕ}

/-- One more than the transmissions left, for each event. -/
def size (q : GossipQueue) : ℕ := (q.pending.map (·.2 + 1)).sum

theorem size_eq_zero (h : q.size = 0) : q.pending = [] := by
  rcases hp : q.pending with _ | ⟨p, rest⟩
  · rfl
  · rw [size, hp, map_cons, sum_cons] at h
    omega

theorem size_drained (q : GossipQueue) (n : ℕ) :
    (q.drainForSend n).2.size + (q.pending.take n).length ≤ q.size := by
  have hspent : ∀ l : List (GossipEvent × ℕ),
      (((l.map fun p => (p.1, p.2 - 1)).filter (0 < ·.2)).map (·.2 + 1)).sum + l.length ≤
        (l.map (·.2 + 1)).sum := by
    intro l
    induction l with
    | nil => exact le_refl _
    | cons p l ih =>
      simp only [map_cons, filter_cons, sum_cons, length_cons]
      split_ifs with h
      · simp only [map_cons, sum_cons, decide_eq_true_eq] at h ⊢
        omega
      · omega
  have hsize : q.size = ((q.pending.take n).map (·.2 + 1)).sum +
      ((q.pending.drop n).map (·.2 + 1)).sum := by
    rw [← List.sum_append, ← map_append, take_append_drop, size]
  have hdrain : (q.drainForSend n).2.size =
      ((((q.pending.take n).map fun p => (p.1, p.2 - 1)).filter (0 < ·.2)).map (·.2 + 1)).sum +
        ((q.pending.drop n).map (·.2 + 1)).sum := by
    simp only [size, drainForSend, splitAt_eq, map_append, List.sum_append]
  have := hspent (q.pending.take n)
  omega

end GossipQueue

namespace Drained

variable {q q' : GossipQueue} {sends : List (Envelope × SocketAddr)}

theorem size_le (h : Drained q sends q') : q'.size ≤ q.size := by
  induction h with
  | refl => exact le_refl _
  | @send q _ _ _ _ _ _ ih | @lose q _ _ _ ih =>
    have := q.size_drained piggybackBatch
    omega

theorem size_lt (h : Drained q sends q') (hs : sends ≠ []) (hq : q.size ≠ 0) :
    q'.size < q.size := by
  have hdrain : (q.drainForSend piggybackBatch).2.size < q.size := by
    have := q.size_drained piggybackBatch
    rcases hp : q.pending with _ | ⟨p, rest⟩
    · exact absurd (by rw [GossipQueue.size, hp]; rfl) hq
    have hpos : 0 < (q.pending.take piggybackBatch).length := by
      rw [hp]
      exact succ_pos _
    omega
  cases h with
  | refl => exact absurd rfl hs
  | send _ h => exact lt_of_le_of_lt h.size_le hdrain
  | lose h => exact lt_of_le_of_lt h.size_le hdrain

end Drained

/-- An event that the receive loop applies, the view it meets, the outcome and the view after. -/
structure Application where
  view : MembershipView
  event : GossipEvent
  outcome : ApplyOutcome
  after : MembershipView

namespace Application

/-- Neither a refutation nor a retreat. -/
def Calm (a : Application) : Prop :=
  a.outcome ≠ .selfRefutationNeeded ∧ ¬ a.view.Retreats a.event

/-- The entry of the event's member moves up. -/
def Advances (a : Application) : Prop :=
  ∃ e e', a.view.get a.event.id = some e ∧ a.after.get a.event.id = some e' ∧ e.Below e'

end Application

namespace SwimDriver

open MembershipView

variable {cfg : SwimConfig} {d : SwimDriver} {now : UInt64}

def applications (cfg : SwimConfig) (now : UInt64) :
    SwimDriver → List GossipEvent → List Application
  | _, [] => []
  | d, g :: gossip =>
    let (outcome, after) := d.view.apply g (nowNs now) cfg.suspicionTimeoutNs
    ⟨d.view, g, outcome, after⟩ :: applications cfg now (d.applyEvent cfg now g) gossip

theorem advances_iff {a : Application} : ∀ {gossip : List GossipEvent} {d : SwimDriver},
    a ∈ d.applications cfg now gossip →
      (a.outcome = .updated → (a.Advances ↔ ¬ a.view.Retreats a.event)) ∧
        (a.view.Retreats a.event → a.outcome = .updated)
  | [], _, h => by cases h
  | g :: gossip, d, h => by
    rcases mem_cons.1 h with rfl | h
    · refine ⟨fun ho => ?_, fun hr => hr.updated _ _⟩
      rcases apply_moves d.view g (nowNs now) cfg.suspicionTimeoutNs with ⟨-, hc | hc⟩ |
        ⟨e', hv, ⟨hc, -⟩ | ⟨-, e, he, hbelow⟩⟩
      · cases ho.symm.trans hc
      · cases ho.symm.trans hc
      · cases ho.symm.trans hc
      have hafter : (d.view.apply g (nowNs now) cfg.suspicionTimeoutNs).2.get g.id = some e' := by
        rcases hv with hv | hv <;> rw [hv] <;>
          exact (lookup_setEntry _ _ _ _).trans (if_pos rfl)
      rw [← hbelow]
      constructor
      · rintro ⟨e₁, e₁', he₁, he₁', hb⟩
        cases he.symm.trans he₁
        cases hafter.symm.trans he₁'
        exact hb
      · exact fun hb => ⟨e, e', he, hafter, hb⟩
    · exact advances_iff h

theorem applyEvent_calm {g : GossipEvent} (hr : ¬ d.view.Retreats g)
    (ho : (d.view.apply g (nowNs now) cfg.suspicionTimeoutNs).1 ≠ .selfRefutationNeeded) :
    (d.view.apply g (nowNs now) cfg.suspicionTimeoutNs).1 = .ignored ∧ d.applyEvent cfg now g = d ∨
      d.view.weight < (d.applyEvent cfg now g).view.weight := by
  rcases weight_apply hr (nowNs now) cfg.suspicionTimeoutNs with ⟨hv, ho' | ho'⟩ | hlt
  · refine .inl ⟨ho', ?_⟩
    have hpair : d.view.apply g (nowNs now) cfg.suspicionTimeoutNs = (.ignored, d.view) :=
      Prod.ext ho' hv
    rw [applyEvent, hpair]
  · exact absurd ho' ho
  refine .inr ?_
  unfold applyEvent
  split <;> rename_i hv <;> rw [hv] at hlt ho
  · exact hlt
  · exact hlt
  · exact absurd rfl ho
  · exact hlt

theorem applyPiggyback_calm : ∀ {gossip : List GossipEvent} {d : SwimDriver},
    (∀ a ∈ d.applications cfg now gossip, a.Calm) →
      (∀ a ∈ d.applications cfg now gossip, a.outcome = .ignored) ∧
          d.applyPiggyback cfg now gossip = d ∨
        d.view.weight < (d.applyPiggyback cfg now gossip).view.weight
  | [], _, _ => .inl ⟨by simp [applications], rfl⟩
  | g :: gossip, d, h => by
    have hhead := h _ mem_cons_self
    have htail := applyPiggyback_calm fun a ha => h a (mem_cons_of_mem _ ha)
    have hrest : (d.applyEvent cfg now g).view.weight ≤
        (d.applyPiggyback cfg now (g :: gossip)).view.weight := by
      rcases htail with ⟨-, heq⟩ | hlt
      · exact (congrArg (·.view.weight) heq).ge
      · exact hlt.le
    rcases applyEvent_calm hhead.2 hhead.1 with ⟨hig, heq⟩ | hlt
    · rcases htail with ⟨hall, heq'⟩ | hlt'
      · refine .inl ⟨?_, heq'.trans heq⟩
        rintro a (_ | ⟨_, ha⟩)
        · exact hig
        · exact hall a ha
      · exact .inr ((congrArg (·.view.weight) heq).ge.trans_lt hlt')
    · exact .inr (hlt.trans_le hrest)

theorem handleEnvelope_calm {env : Envelope} (src : SocketAddr) (sent : Bool)
    (hs : env.clusterSecret = cfg.clusterSecret)
    (hcalm : ∀ a ∈ d.applications cfg now env.gossip, a.Calm)
    (hjoin : ∀ seq, env.msg ≠ .ping seq joinTargetSentinel) :
    ((∀ a ∈ d.applications cfg now env.gossip, a.outcome = .ignored) ∧
        (d.handleEnvelope cfg now env src sent).1.view = d.view ∧
        Drained d.queue (d.handleEnvelope cfg now env src sent).2
          (d.handleEnvelope cfg now env src sent).1.queue) ∨
      d.view.weight < (d.handleEnvelope cfg now env src sent).1.view.weight := by
  simp only [handleEnvelope]
  rw [if_neg (not_not.2 hs)]
  rcases applyPiggyback_calm hcalm with ⟨hall, heq⟩ | hlt
  · refine .inl ⟨hall, ?_⟩
    rw [heq]
    split
    · exact ⟨rfl, .refl⟩
    rename_i l _
    refine ⟨view_handleMessage _ _ _ _, ?_⟩
    obtain ⟨d₀, rfl | ⟨⟨seq, hmsg⟩, -⟩, hd⟩ := drained_handleMessage d cfg l src sent env.msg
    · exact hd
    · exact absurd hmsg (hjoin seq)
  · refine .inr ?_
    split
    · exact hlt
    · rwa [view_handleMessage]

theorem suspectTarget_calm (d : SwimDriver) (cfg : SwimConfig) (now : UInt64)
    (target : ClusterMember) :
    (d.suspectTarget cfg now target).view = d.view ∧
        (d.suspectTarget cfg now target).queue = d.queue ∨
      d.view.weight < (d.suspectTarget cfg now target).view.weight := by
  unfold suspectTarget
  split
  · rename_i l e _ _
    have hr : ¬ d.view.Retreats (.suspect target.id e.incarnation l) := by
      rintro ⟨-, e', -, -, m, hm⟩
      cases hm
    have hw := weight_apply hr (nowNs now) cfg.suspicionTimeoutNs
    dsimp only
    split <;> rename_i hv <;> rw [hv] at hw
    · rcases hw with ⟨-, hc | hc⟩ | hlt
      · cases hc
      · cases hc
      · exact .inr hlt
    · rcases hw with ⟨-, hc | hc⟩ | hlt
      · cases hc
      · cases hc
      · exact .inr hlt
    · rcases hw with ⟨heq, -⟩ | hlt
      · exact .inl ⟨heq, rfl⟩
      · exact .inr hlt
  · exact .inl ⟨rfl, rfl⟩

end SwimDriver

variable {d : SwimDriver}

theorem SwimTask.run_calm {cfg : SwimConfig} {t : SwimTask}
    {p : SwimDriver × List (Envelope × SocketAddr)} (h : t.run cfg d = some p) :
    p.1.view.weight = d.view.weight ∧ Drained d.queue p.2 p.1.queue ∨
      d.view.weight < p.1.view.weight := by
  cases t with
  | forwardAck i =>
    exact .inl ⟨by rw [view_forwardAck h], drained_forwardAck h⟩
  | forwardTimeout i =>
    obtain ⟨d', hd, rfl⟩ := map_eq_some_iff.1 h
    exact .inl ⟨by rw [(forwardTimeout_kept hd).1], (forwardTimeout_kept hd).2 ▸ .refl⟩
  | probeStart pick =>
    exact .inl ⟨by rw [view_probeStart h], drained_probeStart h⟩
  | probeAck =>
    obtain ⟨d', hd, rfl⟩ := map_eq_some_iff.1 h
    exact .inl ⟨by rw [(probeAck_kept hd).1], (probeAck_kept hd).2 ▸ .refl⟩
  | probeTimeout now order =>
    rcases probeTimeout_cases h with ⟨hv, hd⟩ | ⟨d₀, target, hv, hq, hs, hv', hq'⟩
    · exact .inl ⟨by rw [hv], hd⟩
    rw [hs, hv', hq', ← hv, ← hq]
    rcases d₀.suspectTarget_calm cfg now target with ⟨hsv, hsq⟩ | hlt
    · exact .inl ⟨by rw [hsv], hsq ▸ .refl⟩
    · exact .inr hlt
  | reap now =>
    rw [← some.inj h]
    dsimp only
    rw [view_tickReaper]
    rcases d.view.weight_reap (nowNs now) with ⟨heq, hnil⟩ | hlt
    · have hqueue : (d.tickReaper now).2.queue = d.queue := by
        simp only [tickReaper, hnil, foldl_nil]
        split <;> rfl
      exact .inl ⟨heq, hqueue ▸ .refl⟩
    · exact .inr hlt

def NodePhase.rank : NodePhase → ℕ
  | .joining => 0
  | .running => 1
  | .leaving => 2
  | .stopped => 3

namespace SwimNet

variable {net net' : SwimNet} {ev : SwimEvent} {id : UInt64} {node : SwimNode}

def applications (net : SwimNet) : SwimEvent → List Application
  | .deliver id k now _ =>
    match net.nodes.lookup id, net.sent[k]? with
    | some node, some dg =>
      if dg.env.clusterSecret = node.cfg.clusterSecret then
        node.swim.applications node.cfg now dg.env.gossip
      else []
    | _, _ => []
  | _ => []

/-- No node starts or joins, no join request is handled and nothing is refuted. -/
structure Steady (net : SwimNet) (ev : SwimEvent) : Prop where
  not_start : ∀ self cfg, ev ≠ .start self cfg
  not_join : ∀ id peers, ev ≠ .join id peers
  not_asked : ∀ id k now sent, ev = .deliver id k now sent → ∀ dg ∈ net.sent[k]?, ∀ seq,
    dg.env.msg ≠ .ping seq joinTargetSentinel
  not_refuted : ∀ a ∈ net.applications ev, a.outcome ≠ .selfRefutationNeeded

/-- Moreover no `Alive` takes a suspicion of its incarnation back. -/
structure Calm (net : SwimNet) (ev : SwimEvent) : Prop extends Steady net ev where
  not_retreats : ∀ a ∈ net.applications ev, ¬ a.view.Retreats a.event

def weight (net : SwimNet) : ℕ :=
  total (fun _ node => node.swim.view.weight + node.phase.rank) net.nodes

theorem Acts.calm {phase : NodePhase} {swim : SwimDriver} {sends : List (Envelope × SocketAddr)}
    {cause : Option ℕ} {handled : List (UInt64 × ℕ)} (hn : net.nodes.lookup id = some node)
    (ha : Acts net id node ev phase swim sends cause handled) (hc : net.Calm ev) :
    actor ev = id ∧ (node.swim.view.weight + node.phase.rank < swim.view.weight + phase.rank ∨
      swim.view.weight + phase.rank = node.swim.view.weight + node.phase.rank ∧
        (∀ a ∈ net.applications ev, a.outcome = .ignored) ∧
        Drained node.swim.queue sends swim.queue) := by
  cases ha with
  | join peers h => exact absurd rfl (hc.not_join _ _)
  | spawn h | shutdown h | stop h =>
    refine ⟨rfl, .inl ?_⟩
    rw [h]
    exact lt_succ_self _
  | @deliver k dg now sent hk hloop hdst =>
    refine ⟨rfl, ?_⟩
    by_cases hs : dg.env.clusterSecret = node.cfg.clusterSecret
    · have happ : net.applications (.deliver id k now sent) =
          node.swim.applications node.cfg now dg.env.gossip := by
        simp only [applications, hn, hk, if_pos hs]
      have hcalm : ∀ a ∈ node.swim.applications node.cfg now dg.env.gossip, a.Calm :=
        fun a ha => ⟨hc.not_refuted a (happ ▸ ha), hc.not_retreats a (happ ▸ ha)⟩
      rcases handleEnvelope_calm dg.src sent hs hcalm (hc.not_asked _ _ _ _ rfl dg hk) with
        ⟨hig, hv, hd⟩ | hlt
      · exact .inr ⟨by rw [hv], happ ▸ hig, hd⟩
      · exact .inl (Nat.add_lt_add_right hlt _)
    · have happ : net.applications (.deliver id k now sent) = [] := by
        simp only [applications, hn, hk, if_neg hs]
      rw [happ, handleEnvelope, if_pos hs]
      exact .inr ⟨rfl, by simp, .refl⟩
  | task h hrun =>
    refine ⟨rfl, ?_⟩
    rcases SwimTask.run_calm hrun with ⟨hw, hd⟩ | hlt
    · exact .inr ⟨by rw [hw], by simp [applications], hd⟩
    · exact .inl (Nat.add_lt_add_right hlt _)

/-- The acting node spends its queue, and nothing else changes. -/
def Spends (net net' : SwimNet) (id : UInt64) : Prop :=
  ∃ node node' sends, net.nodes.lookup id = some node ∧
    (∀ j, net'.nodes.lookup j = if j = id then some node' else net.nodes.lookup j) ∧
    Drained node.swim.queue sends node'.swim.queue ∧
    net'.sent.length = net.sent.length + sends.length

theorem step_calm (hc : net.Calm ev) (h : step net ev = some net') :
    net'.nodes.entries.length = net.nodes.entries.length ∧ (net.weight < net'.weight ∨
      net'.weight = net.weight ∧ (∀ a ∈ net.applications ev, a.outcome = .ignored) ∧
        Spends net net' (actor ev)) := by
  rcases step_cases h with ⟨self, cfg, rfl, -⟩ |
    ⟨id, node, phase, swim, sends, cause, handled, hn, ha, rfl⟩
  · exact absurd rfl (hc.not_start _ _)
  refine ⟨length_insert hn _, ?_⟩
  have hinsert : ({ net with handled }.update id { node with phase, swim } sends cause).weight =
      swim.view.weight + phase.rank + total
        (fun _ node => node.swim.view.weight + node.phase.rank) (net.nodes.erase id) :=
    total_insert _ _ _
  have herase : total (fun _ (node : SwimNode) => node.swim.view.weight + node.phase.rank)
      (net.nodes.erase id) + (node.swim.view.weight + node.phase.rank) = net.weight :=
    total_erase hn
  obtain ⟨rfl, hlt | ⟨heq, hig, hd⟩⟩ := ha.calm hn hc
  · exact .inl (by omega)
  · refine .inr ⟨by omega, hig, node, _, sends, hn, fun j => lookup_update _ _ _ _ _ _, hd, ?_⟩
    exact length_update _ _ _ _ _

theorem weight_le (net : SwimNet) :
    net.weight ≤ net.nodes.entries.length * (2 ^ 64 * (3 * 2 ^ 64) + 3) := by
  refine total_le fun _ node _ => Nat.add_le_add node.swim.view.weight_le ?_
  cases node.phase <;> decide

section Runs

variable {S : ℕ → SwimNet} {evs : ℕ → SwimEvent}

theorem eventually_spends (hrun : IsRun step S evs) (hc : ∀ t, (S t).Calm (evs t)) :
    ∃ t₀, ∀ t ≥ t₀, (∀ a ∈ (S t).applications (evs t), a.outcome = .ignored) ∧
      Spends (S t) (S (t + 1)) (actor (evs t)) := by
  have hlength : ∀ t, (S t).nodes.entries.length = (S 0).nodes.entries.length := by
    intro t
    induction t with
    | zero => rfl
    | succ t ih => rw [(step_calm (hc t) (hrun t)).1, ih]
  have hmono : ∀ t, (S t).weight ≤ (S (t + 1)).weight := by
    intro t
    rcases (step_calm (hc t) (hrun t)).2 with hlt | ⟨heq, -⟩
    · exact hlt.le
    · exact heq.ge
  obtain ⟨t₀, ht₀⟩ := eventually_const_of_bounded hmono fun t => hlength t ▸ (S t).weight_le
  refine ⟨t₀, fun t ht => ?_⟩
  rcases (step_calm (hc t) (hrun t)).2 with hlt | ⟨-, h⟩
  · rw [ht₀ t ht, ht₀ (t + 1) (by omega)] at hlt
    exact absurd hlt (lt_irrefl _)
  · exact h

def Sends (net net' : SwimNet) (ev : SwimEvent) (id : UInt64) : Prop :=
  actor ev = id ∧ net.sent.length < net'.sent.length

def queueSize (net : SwimNet) (id : UInt64) : ℕ :=
  ((net.nodes.lookup id).map (·.swim.queue.size)).getD 0

theorem Spends.queueSize_le {i : UInt64} (h : Spends net net' i) :
    net'.queueSize id ≤ net.queueSize id := by
  obtain ⟨node, node', sends, hn, hothers, hd, -⟩ := h
  rw [queueSize, queueSize, hothers]
  split_ifs with hi
  · rw [hi, hn]
    exact hd.size_le
  · exact le_refl _

theorem Spends.queueSize_lt (h : Spends net net' (actor ev)) (hs : Sends net net' ev id)
    (hq : net.queueSize id ≠ 0) : net'.queueSize id < net.queueSize id := by
  obtain ⟨rfl, hlt⟩ := hs
  obtain ⟨node, node', sends, hn, hothers, hd, hlen⟩ := h
  have hne : sends ≠ [] := by
    rintro rfl
    rw [hlen, length_nil] at hlt
    omega
  rw [queueSize, hn] at hq
  rw [queueSize, queueSize, hothers, if_pos rfl, hn]
  exact hd.size_lt hne hq

theorem advances_iff {a : Application} (h : a ∈ net.applications ev) :
    (a.outcome = .updated → (a.Advances ↔ ¬ a.view.Retreats a.event)) ∧
      (a.view.Retreats a.event → a.outcome = .updated) := by
  unfold applications at h
  split at h
  · split at h
    · split_ifs at h
      · exact advances_iff h
      · cases h
    · cases h
  · cases h

/-- In a run in which no node starts, joins or refutes, each update moves an entry up, only finitely
many events are passed on and the queue of every node that goes on sending runs empty, exactly if
no event is a retreat. -/
theorem gossip_quiesces_iff (hrun : IsRun step S evs) (hs : ∀ t, (S t).Steady (evs t)) :
    ((∀ t, ∀ a ∈ (S t).applications (evs t), a.outcome = .updated → a.Advances) ∧
      (∃ t₀, ∀ t ≥ t₀, ∀ a ∈ (S t).applications (evs t), a.outcome = .ignored) ∧
      ∀ id, (∀ t, ∃ t' ≥ t, Sends (S t') (S (t' + 1)) (evs t') id) →
        ∃ t₀, ∀ t ≥ t₀, ∀ node, (S t).nodes.lookup id = some node → node.swim.queue.pending = []) ↔
      ∀ t, ∀ a ∈ (S t).applications (evs t), ¬ a.view.Retreats a.event := by
  constructor
  · rintro ⟨hadv, -⟩ t a ha hr
    have ho := (advances_iff ha).2 hr
    exact ((advances_iff ha).1 ho).1 (hadv t a ha ho) hr
  intro hr
  obtain ⟨t₀, ht₀⟩ := eventually_spends hrun fun t => ⟨hs t, hr t⟩
  refine ⟨fun t a ha ho => ((advances_iff ha).1 ho).2 (hr t a ha),
    ⟨t₀, fun t ht => (ht₀ t ht).1⟩, fun id hsend => ?_⟩
  obtain ⟨t₁, ht₁, hconst⟩ := @eventually_const_of_le (fun t => (S t).queueSize id) t₀
    fun t ht => (ht₀ t ht).2.queueSize_le
  -- the queue is empty when the node sends once more without making it smaller
  obtain ⟨t₂, ht₂, hsends⟩ := hsend t₁
  have hzero : (S t₂).queueSize id = 0 := by
    by_contra hq
    have hlt := (ht₀ t₂ (by omega)).2.queueSize_lt hsends hq
    have h₂ := hconst t₂ ht₂
    have h₃ := hconst (t₂ + 1) (by omega)
    omega
  refine ⟨t₂, fun t ht node hn => GossipQueue.size_eq_zero ?_⟩
  have h₂ := hconst t₂ ht₂
  have h₃ := hconst t (by omega)
  rw [← h₂, hzero, queueSize, hn] at h₃
  exact h₃

end Runs

end SwimNet

section Sample

theorem SwimDriver.applications_frame (cfg : SwimConfig) (now : UInt64) :
    ∀ (gossip : List GossipEvent) {d d₀ : SwimDriver}, d.view = d₀.view → d.queue = d₀.queue →
      d₀.applications cfg now gossip = d.applications cfg now gossip
  | [], _, _, _, _ => rfl
  | g :: gossip, d, d₀, hv, hq => by
    have hg := applyEvent_frame cfg now hv hq g
    have hview : (d.applyEvent cfg now g).view = (d₀.applyEvent cfg now g).view := by rw [hg]
    rw [applications, applications, applications_frame cfg now gossip hview (by rw [hg]), hv]

namespace Exchange

variable {x : Exchange} {answers : List GossipEvent} {net : SwimNet} {last now seq : UInt64}
  {k r c : ℕ} {S : ℕ → SwimNet}

theorem Pinged.applications (h : x.Pinged net last seq k) :
    net.applications (.deliver x.second.id k now true) =
      (x.peer last).applications x.cfg now x.asks := by
  simp only [SwimNet.applications, h.second, h.ping, if_true]

theorem Answered.applications (h : x.Answered answers net last now seq k) :
    net.applications (.deliver x.first.id (k + 1) now true) =
      (x.waiting last 0).applications x.cfg now answers := by
  simp only [SwimNet.applications, h.first, h.ack, if_true]
  exact applications_frame x.cfg now answers rfl rfl

structure Accepts (x : Exchange) (answers : List GossipEvent) : Prop where
  second : ∀ last now, ∀ a ∈ (x.peer last).applications x.cfg now x.asks,
    a.outcome ≠ .selfRefutationNeeded
  first : ∀ last now, ∀ a ∈ (x.waiting last 0).applications x.cfg now answers,
    a.outcome ≠ .selfRefutationNeeded

theorem Round.steady (hx : x.Repeats answers) (ha : x.Accepts answers)
    (h : x.Round answers S r last now seq k) (hc : c < 4) :
    (S (4 * r + c)).Steady (x.event now k c) := by
  obtain rfl | rfl | rfl | rfl : c = 0 ∨ c = 1 ∨ c = 2 ∨ c = 3 := by omega
  · refine ⟨nofun, nofun, nofun, ?_⟩
    simp [event, SwimNet.applications]
  · refine ⟨nofun, nofun, ?_, ?_⟩
    · rintro id k' now sent ⟨⟩ dg hdg seq' hmsg
      cases h.pinged.ping.symm.trans hdg
      exact hx.second_ne (SwimMessage.ping.inj hmsg).2
    · rw [event, h.pinged.applications]
      exact ha.second last now
  · refine ⟨nofun, nofun, ?_, ?_⟩
    · rintro id k' now sent ⟨⟩ dg hdg seq' hmsg
      cases h.answered.ack.symm.trans hdg
      cases hmsg
    · rw [event, h.answered.applications]
      exact ha.first last now
  · refine ⟨nofun, nofun, nofun, ?_⟩
    simp [event, SwimNet.applications]

theorem steady (hx : x.Repeats answers) (ha : x.Accepts answers) (h : x.Before net last seq k)
    (clock : ℕ → UInt64) (t : ℕ) : (x.state clock net k t).Steady (x.events clock k t) := by
  obtain ⟨_, _, hr⟩ := rounds hx h clock (t / 4)
  have := hr.steady hx ha (mod_lt t (by decide : 0 < 4))
  rwa [div_add_mod] at this

theorem event_cases (x : Exchange) (now : UInt64) (k c : ℕ) :
    (∀ id n order, x.event now k c ≠ .task id (.probeTimeout n order)) ∧
      ∀ id k' n sent, x.event now k c = .deliver id k' n sent → n = now := by
  unfold event
  split <;> simp +contextual

end Exchange

namespace SwimNet

open ClusterNode

/-- Node 2 has answered node 1, which has asked it to join. -/
def meeting : List SwimEvent :=
  [.start (sampleMember 1 "a" 1) sampleSwim, .start (sampleMember 2 "b" 2) sampleSwim,
    .join 1 ["b"], .spawn 1, .spawn 2, .deliver 2 0 0 true]

theorem exec_meeting : ∃ net net', exec step empty meeting = some net ∧
    step net (.deliver 1 1 0 true) = some net' ∧ step net' (.task 1 (.reap 0)) = some net' ∧
    (net.applications (.deliver 1 1 0 true)).map (·.outcome) = [.newMember, .ignored] ∧
    (net.sent[1]?).map (·.env.msg) = some (.ack 0 2) := by
  have hrun : (exec step empty meeting).map (fun net =>
      ((net.applications (.deliver 1 1 0 true)).map (·.outcome), (net.sent[1]?).map (·.env.msg),
        (step net (.deliver 1 1 0 true)).map fun net' =>
          decide (step net' (.task 1 (.reap 0)) = some net'))) =
      some ([.newMember, .ignored], some (.ack 0 2), some true) := by
    decide +kernel
  obtain ⟨net, hexec, hnet⟩ := map_eq_some_iff.1 hrun
  rw [Prod.mk.injEq, Prod.mk.injEq] at hnet
  obtain ⟨net', hstep, hreap⟩ := map_eq_some_iff.1 hnet.2.2
  exact ⟨net, net', hexec, hstep, of_decide_eq_true hreap, hnet.1, hnet.2.1⟩

theorem gossip_quiesces_iff_meeting : ∃ S evs, exec step empty meeting = some (S 0) ∧
    IsRun step S evs ∧ (∀ t, (S t).Steady (evs t)) ∧
    (∃ a ∈ (S 0).applications (evs 0), a.outcome = .newMember) ∧
    ∃ t₀, ∀ t ≥ t₀, ∀ a ∈ (S t).applications (evs t), a.outcome = .ignored := by
  obtain ⟨net, net', hexec, hstep, hreap, houtcome, hmsg⟩ := exec_meeting
  let S : ℕ → SwimNet := fun t => if t = 0 then net else net'
  let evs : ℕ → SwimEvent := fun t => if t = 0 then .deliver 1 1 0 true else .task 1 (.reap 0)
  have hmem : ∀ a ∈ net.applications (.deliver 1 1 0 true),
      a.outcome = .newMember ∨ a.outcome = .ignored := by
    intro a ha
    exact mem_pair.1 (houtcome ▸ mem_map_of_mem (f := Application.outcome) ha)
  have hrun : IsRun step S evs
    | 0 => hstep
    | t + 1 => hreap
  have hsteady : ∀ t, (S t).Steady (evs t)
    | 0 => by
      refine ⟨nofun, nofun, ?_, fun a ha => ?_⟩
      · rintro id k now sent ⟨⟩ dg hdg seq heq
        have hk : net.sent[1]? = some dg := hdg
        rw [hk, map_some, heq] at hmsg
        cases hmsg
      · rcases hmem a ha with h | h <;> rw [h] <;> decide
    | t + 1 => ⟨nofun, nofun, nofun, nofun⟩
  have hcalm : ∀ t, ∀ a ∈ (S t).applications (evs t), ¬ a.view.Retreats a.event
    | 0, a, ha => by
      intro hr
      have hupdated := (advances_iff ha).2 hr
      rcases hmem a ha with h | h <;> cases hupdated.symm.trans h
    | t + 1, a, ha => nomatch ha
  refine ⟨S, evs, hexec, hrun, hsteady, ?_, ((gossip_quiesces_iff hrun hsteady).2 hcalm).2.1⟩
  have hnew := houtcome ▸ mem_cons_self (a := ApplyOutcome.newMember) (l := [.ignored])
  exact mem_map.1 hnew

/-- Both other nodes join node 2, which then suspects node 3 after a probe without an answer, while
node 1 has it as alive. -/
def feuding : List SwimEvent :=
  [.start (sampleMember 1 "a" 1) sampleSwim, .start (sampleMember 2 "b" 2) sampleSwim,
    .start (sampleMember 3 "c" 3) sampleSwim, .join 1 ["b"], .join 3 ["b"], .spawn 1, .spawn 2,
    .spawn 3, .deliver 2 0 0 true, .deliver 2 1 0 true, .deliver 1 2 0 true,
    .task 1 (.probeStart 0), .deliver 2 4 0 true, .deliver 1 5 0 true, .task 1 .probeAck,
    .task 2 (.probeStart 1), .task 2 (.probeTimeout 0 [0]), .task 2 (.probeTimeout 0 [])] ++
  (List.range 6).flatMap fun r => [.task 1 (.probeStart 0), .deliver 2 (2 * r + 8) 0 true,
    .deliver 1 (2 * r + 9) 0 true, .task 1 .probeAck]

def feudingView (self peer : ClusterMember) : MembershipView :=
  ⟨AList.insert 3 ⟨sampleMember 3 "c" 3, .alive, 1, 0⟩ (AList.insert peer.id ⟨peer, .alive, 1, 0⟩
    (AList.insert self.id ⟨self, .alive, 1, 0⟩ ∅)), [1, 2, 3], some self.id, 1⟩

def feudingEntry (last : UInt64) : MemberEntry :=
  ⟨sampleMember 3 "c" 3, .suspect, 1, satAddU64 (nowNs last) sampleSwim.suspicionTimeoutNs⟩

def feudingGossip : List GossipEvent := [.alive (sampleMember 3 "c" 3) 1, .suspect 3 1 2]

def feudingQueue (budget : ℕ) : GossipQueue := ⟨feudingGossip.map (·, budget), 256⟩

def feud : Exchange where
  cfg := sampleSwim
  first := sampleMember 1 "a" 1
  second := sampleMember 2 "b" 2
  view last := (feudingView (sampleMember 1 "a" 1) (sampleMember 2 "b" 2)).setEntry 3
    (feudingEntry last)
  queue := feudingQueue 6
  peer last := ⟨(feudingView (sampleMember 2 "b" 2) (sampleMember 1 "a" 1)).setEntry 3
    (feudingEntry last), feudingQueue 5, [], [], 3, .idle, []⟩

/-- The view has node 3 as alive, among three live nodes. -/
structure HasThird (v : MembershipView) : Prop where
  ne : some 3 ≠ v.localId
  alive : v.byId.lookup 3 = some ⟨sampleMember 3 "c" 3, .alive, 1, 0⟩
  reSort : (v.setEntry 3 ⟨sampleMember 3 "c" 3, .alive, 1, 0⟩).reSort = v
  live : v.liveCount = 3
  live_suspect : ∀ last, (v.setEntry 3 (feudingEntry last)).liveCount = 3

variable {v : MembershipView}

theorem HasThird.apply_alive (h : HasThird v) (last now timeout : UInt64) :
    (v.setEntry 3 (feudingEntry last)).apply (.alive (sampleMember 3 "c" 3) 1) now timeout =
      (.updated, v) := by
  have hset : (v.setEntry 3 (feudingEntry last)).setEntry 3 ⟨sampleMember 3 "c" 3, .alive, 1, 0⟩ =
      v.setEntry 3 ⟨sampleMember 3 "c" 3, .alive, 1, 0⟩ := by
    simp [MembershipView.setEntry]
  refine (MembershipView.applyAlive_known 1 h.ne (AList.lookup_insert v.byId)).trans ?_
  rw [if_neg (by simp [feudingEntry])]
  exact congrArg (ApplyOutcome.updated, ·) ((congrArg _ hset).trans h.reSort)

theorem HasThird.apply_suspect (h : HasThird v) (now : UInt64) :
    v.apply (.suspect 3 1 2) (nowNs now) sampleSwim.suspicionTimeoutNs =
      (.updated, v.setEntry 3 (feudingEntry now)) := by
  refine (MembershipView.applySuspect_known 1 _ _ h.ne h.alive).trans ?_
  rw [if_neg (by simp)]
  rfl

theorem HasThird.applyPiggyback (h : HasThird v) {last : UInt64}
    (hd : d.view = v.setEntry 3 (feudingEntry last)) (now : UInt64) :
    d.applyPiggyback sampleSwim now feudingGossip =
      { d with
        view := v.setEntry 3 (feudingEntry now)
        queue := (d.queue.push (.alive (sampleMember 3 "c" 3) 1) 3).push (.suspect 3 1 2) 3 } := by
  simp [SwimDriver.applyPiggyback, feudingGossip, SwimDriver.applyEvent, hd, h.apply_alive,
    SwimDriver.pushGossip, h.apply_suspect, h.live, h.live_suspect]

theorem HasThird.applications (h : HasThird v) {last : UInt64}
    (hd : d.view = v.setEntry 3 (feudingEntry last)) (now : UInt64) :
    (d.applications sampleSwim now feudingGossip).map (·.outcome) = [.updated, .updated] := by
  simp [feudingGossip, SwimDriver.applications, SwimDriver.applyEvent, hd, h.apply_alive,
    SwimDriver.pushGossip, h.apply_suspect]

theorem hasThird_first : HasThird (feudingView (sampleMember 1 "a" 1) (sampleMember 2 "b" 2)) :=
  ⟨by decide, rfl, rfl, rfl, fun _ => rfl⟩

theorem hasThird_second : HasThird (feudingView (sampleMember 2 "b" 2) (sampleMember 1 "a" 1)) :=
  ⟨by decide, rfl, rfl, rfl, fun _ => rfl⟩

theorem asks_feud : feud.asks = feudingGossip := rfl

theorem feudingQueue_push : ∀ n ≤ 6, ((feudingQueue n).push
      (.alive (sampleMember 3 "c" 3) 1) 3).push (.suspect 3 1 2) 3 = feudingQueue 6 := by
  decide +kernel

theorem feudingQueue_drain : (feudingQueue 6).drainForSend piggybackBatch =
    (feudingGossip, feudingQueue 5) := rfl

theorem view_waiting_feud (last : UInt64) : (feud.waiting last 0).view =
    (feudingView feud.first feud.second).setEntry 3 (feudingEntry last) := rfl

theorem heard_feud (last now : UInt64) : feud.heard last now =
    { feud.peer now with queue := feudingQueue 6 } := by
  rw [Exchange.heard, asks_feud]
  refine (hasThird_second.applyPiggyback rfl now).trans ?_
  rw [← feudingQueue_push 5 (by decide)]
  rfl

theorem repeats_feud : feud.Repeats feudingGossip where
  ne := by decide
  second_ne := by decide
  first_id _ := rfl
  second_id _ := rfl
  target _ := rfl
  answers_eq last now := by
    rw [heard_feud]
    exact congrArg Prod.fst feudingQueue_drain
  heard_eq last now := by
    rw [heard_feud]
    dsimp only
    rw [feudingQueue_drain]
    rfl
  after_view last now := by
    exact congrArg SwimDriver.view (hasThird_first.applyPiggyback (view_waiting_feud last) now)
  after_queue last now := by
    have hqueue : (feud.waiting last 0).queue = feudingQueue 5 :=
      congrArg Prod.snd feudingQueue_drain
    refine (congrArg queue (hasThird_first.applyPiggyback (view_waiting_feud last) now)).trans ?_
    dsimp only
    rw [hqueue]
    exact feudingQueue_push 5 (by decide)

theorem accepts_feud : feud.Accepts feudingGossip := by
  have houtcome : ∀ {l : List Application}, l.map (·.outcome) = [.updated, .updated] →
      ∀ a ∈ l, a.outcome ≠ .selfRefutationNeeded := by
    intro l hl a ha
    have := hl ▸ mem_map_of_mem (f := Application.outcome) ha
    rcases mem_pair.1 this with h | h <;> rw [h] <;> decide
  constructor
  · intro last now
    rw [asks_feud]
    exact houtcome (hasThird_second.applications rfl now)
  · intro last now
    exact houtcome (hasThird_first.applications (view_waiting_feud last) now)

theorem exec_feuding : ∃ net, exec step empty feuding = some net ∧ feud.Before net 0 8 20 := by
  have hrun : (exec step empty feuding).map (fun net =>
      (net.nodes.lookup 1, net.nodes.lookup 2, net.sent.length)) =
        some (some ⟨feud.first, feud.cfg, .running, resting (feud.view 0) feud.queue 8⟩,
          some ⟨feud.second, feud.cfg, .running, feud.peer 0⟩, 20) := by
    decide +kernel
  obtain ⟨net, hexec, hnet⟩ := map_eq_some_iff.1 hrun
  rw [Prod.mk.injEq, Prod.mk.injEq] at hnet
  exact ⟨net, hexec, hnet.1, hnet.2.1, hnet.2.2⟩

/-- Nodes 1 and 2 go on pinging each other, once in a millisecond and with nothing lost, and tell
each other for ever that node 3 is alive and that it is suspect. -/
theorem gossip_never_ends : ∃ before S evs, exec step empty before = some (S 0) ∧
    IsRun step S evs ∧ (∀ t, (S t).Steady (evs t)) ∧
    (∀ t id now order, evs t ≠ .task id (.probeTimeout now order)) ∧
    (∀ t id k now sent, evs t = .deliver id k now sent → now = UInt64.ofNat (1000 * (t / 4))) ∧
    ∀ t₀, ∃ t ≥ t₀, ∃ a ∈ (S t).applications (evs t), a.outcome = .updated := by
  obtain ⟨net, hexec, hnet⟩ := exec_feuding
  have hrun := Exchange.isRun repeats_feud hnet fun r => UInt64.ofNat (1000 * r)
  refine ⟨feuding, _, _, hexec, hrun, Exchange.steady repeats_feud accepts_feud hnet _,
    fun t => (feud.event_cases _ _ _).1, fun t => (feud.event_cases _ _ _).2, fun t₀ => ?_⟩
  obtain ⟨last, seq, hr⟩ := Exchange.rounds repeats_feud hnet (fun r => UInt64.ofNat (1000 * r)) t₀
  refine ⟨4 * t₀ + 1, by omega, ?_⟩
  rw [Exchange.events_round _ _ _ _ (by decide), Exchange.event, hr.pinged.applications, asks_feud]
  have houtcome := hasThird_second.applications (d := feud.peer last) rfl (UInt64.ofNat (1000 * t₀))
  have hmem := houtcome ▸ mem_cons_self (a := ApplyOutcome.updated) (l := [.updated])
  obtain ⟨a, ha, hupdated⟩ := mem_map.1 hmem
  exact ⟨a, ha, hupdated⟩

end SwimNet

end Sample

end Kamino
