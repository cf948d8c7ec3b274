import Kamino.Proofs.SwimNet

/-!
# No incarnation runs ahead of its node

Only a node itself raises its incarnation, when it refutes an accusation.
-/

namespace Kamino

open Runs Option List UInt64 ClusterNode MembershipView

/-- Whose id it is, and the incarnation that node has reached. -/
abbrev Authority := UInt64 → Option (ClusterMember × UInt64)

namespace Authority

variable {A A' : Authority} {i inc : UInt64} {m : ClusterMember} {g : GossipEvent}

/-- The node `i` is `m` and has reached the incarnation. -/
def Covers (A : Authority) (i : UInt64) (m : ClusterMember) (inc : UInt64) : Prop :=
  ∃ n, A i = some (m, n) ∧ inc ≤ n

/-- The event is about a node that has reached its incarnation, and describes it truly. -/
def Vouches (A : Authority) (g : GossipEvent) : Prop :=
  ∃ m, A.Covers g.id m g.incarnation ∧ ∀ m' inc, g = .alive m' inc → m' = m

/-- What the node `me` may say at its incarnation `n`, where `A` may have an earlier one. -/
def Allows (A : Authority) (me : ClusterMember) (n : UInt64) (g : GossipEvent) : Prop :=
  A.Vouches g ∨ ∃ inc, inc ≤ n ∧ g = .alive me inc

/-- Every node goes on at an incarnation that is no lower. -/
def Below (A A' : Authority) : Prop :=
  ∀ i m n, A i = some (m, n) → ∃ n', A' i = some (m, n') ∧ n ≤ n'

theorem Covers.mono (h : A.Covers i m inc) (hA : A.Below A') : A'.Covers i m inc := by
  obtain ⟨n, hn, hle⟩ := h
  obtain ⟨n', hn', hle'⟩ := hA i m n hn
  exact ⟨n', hn', UInt64.le_trans hle hle'⟩

theorem Vouches.mono (h : A.Vouches g) (hA : A.Below A') : A'.Vouches g := by
  obtain ⟨m, hc, hm⟩ := h
  exact ⟨m, hc.mono hA, hm⟩

variable {n : UInt64}

theorem Vouches.incarnation_le (h : A.Vouches g) (hA : A g.id = some (m, n)) :
    g.incarnation ≤ n := by
  obtain ⟨m', ⟨n', hn, hle⟩, -⟩ := h
  cases hA.symm.trans hn
  exact hle

theorem Allows.mono (h : A.Allows m n g) (hA : A.Below A') : A'.Allows m n g :=
  h.imp_left fun hg => hg.mono hA

theorem Allows.vouches (h : A.Allows m n g) (hm : A m.id = some (m, n)) : A.Vouches g := by
  rcases h with h | ⟨inc, hinc, rfl⟩
  · exact h
  · exact ⟨m, ⟨n, hm, hinc⟩, fun m' inc' heq => by cases heq; rfl⟩

end Authority

variable {sends : List (Envelope × SocketAddr)}

namespace SwimDriver

/-- What a node `me` knows and is about to say, where `A` is what the nodes had reached at some
earlier point. -/
structure Keeps (A : Authority) (me : ClusterMember) (d : SwimDriver) : Prop where
  wf : d.view.WF
  localId : d.view.localId = some me.id
  own : ∃ e, d.view.byId.lookup me.id = some e ∧ e.member = me ∧
    e.incarnation = d.view.localIncarnation ∧ e.state = .alive
  reached : ∃ n, A me.id = some (me, n) ∧ n ≤ d.view.localIncarnation
  entries : ∀ i e, i ≠ me.id → d.view.byId.lookup i = some e → A.Covers i e.member e.incarnation
  queue : ∀ g ∈ d.queue.events, A.Allows me d.view.localIncarnation g

namespace Keeps

variable {A A' : Authority} {me : ClusterMember} {d d' : SwimDriver}
  {g : GossipEvent}

variable (h : Keeps A me d)
include h

theorem congr (hv : d'.view = d.view)
    (hq : ∀ g ∈ d'.queue.events, g ∈ d.queue.events) : Keeps A me d' := by
  refine ⟨?_, ?_, ?_, ?_, ?_, fun g hg => ?_⟩ <;> rw [hv]
  · exact h.wf
  · exact h.localId
  · exact h.own
  · exact h.reached
  · exact h.entries
  · exact h.queue g (hq g hg)

theorem mono (hA : A.Below A')
    (hme : A' me.id = some (me, d.view.localIncarnation)) : Keeps A' me d :=
  ⟨h.wf, h.localId, h.own, ⟨_, hme, UInt64.le_refl _⟩,
    fun i e hi he => (h.entries i e hi he).mono hA, fun g hg => (h.queue g hg).mono hA⟩

theorem push (hg : A.Allows me d.view.localIncarnation g) : Keeps A me (d.pushGossip g) := by
  refine ⟨h.wf, h.localId, h.own, h.reached, h.entries, fun g' hg' => ?_⟩
  rcases GossipQueue.mem_events_push hg' with rfl | hg'
  · exact hg
  · exact h.queue g' hg'

theorem hear (hg : A.Vouches g) (now timeout : UInt64) :
    Keeps A me { d with view := (d.view.apply g now timeout).2 } := by
  have hinc := localIncarnation_apply h.wf g now timeout
  refine ⟨h.wf.apply g now timeout, (localId_apply h.wf g now timeout).trans h.localId, ?_, ?_,
    fun i e hi he => ?_, fun g' hg' => ?_⟩
  · rw [lookup_local_apply h.wf h.localId, hinc]
    exact h.own
  · rw [hinc]
    exact h.reached
  · rcases lookup_of_apply he with he | ⟨rfl, -, heinc, hm⟩
    · exact h.entries i e hi he
    obtain ⟨m, ⟨n, hn, hle⟩, halive⟩ := hg
    rw [heinc]
    rcases hm with ⟨e₀, he₀, hm⟩ | ⟨inc, hm⟩
    · obtain ⟨n', hn', -⟩ := h.entries _ e₀ hi he₀
      cases hn.symm.trans hn'
      exact ⟨n, hm ▸ hn, hle⟩
    · exact ⟨n, halive _ inc hm ▸ hn, hle⟩
  · rw [hinc]
    exact h.queue g' hg'

theorem bump_eq : ∃ e : MemberEntry, e.member = me ∧
    d.view.bumpLocalIncarnation = (d.view.localIncarnation + 1,
      { d.view with localIncarnation := d.view.localIncarnation + 1 }.setEntry me.id
        { e with
          incarnation := d.view.localIncarnation + 1
          state := .alive
          suspectDeadlineNs := 0 }) := by
  obtain ⟨e, he, hm, -⟩ := h.own
  exact ⟨e, hm, by simp [bumpLocalIncarnation, h.localId, he]⟩

theorem refute_eq : d.refute = { d with view := d.view.bumpLocalIncarnation.2 }.pushGossip
      (.alive me (d.view.localIncarnation + 1)) := by
  obtain ⟨e, hm, hb⟩ := h.bump_eq
  have hget : d.view.bumpLocalIncarnation.2.localId.bind d.view.bumpLocalIncarnation.2.get =
      some { e with
        incarnation := d.view.localIncarnation + 1
        state := .alive
        suspectDeadlineNs := 0 } := by
    rw [localId_bump, h.localId, bind_some, hb]
    exact (lookup_setEntry _ _ _ _).trans (if_pos rfl)
  have hnew : d.view.bumpLocalIncarnation.1 = d.view.localIncarnation + 1 := by rw [hb]
  simp [SwimDriver.refute, hget, hm, hnew]

theorem refute (hwrap : d.view.localIncarnation.toNat + 1 < 2 ^ 64) : Keeps A me d.refute := by
  have hle : d.view.localIncarnation ≤ d.view.localIncarnation + 1 := by
    rw [UInt64.le_iff_toNat_le, UInt64.toNat_add]
    simp only [toNat_one]
    omega
  obtain ⟨e, hm, hb⟩ := h.bump_eq
  have hinc : d.view.bumpLocalIncarnation.2.localIncarnation = d.view.localIncarnation + 1 := by
    rw [hb]
    rfl
  have hbump : Keeps A me { d with view := d.view.bumpLocalIncarnation.2 } := by
    refine ⟨h.wf.bump, (localId_bump _).trans h.localId, ?_, ?_, fun i e' hi he' => ?_,
      fun g hg => ?_⟩
    · rw [hb, lookup_setEntry, if_pos rfl]
      exact ⟨_, rfl, hm, rfl, rfl⟩
    · obtain ⟨n, hn, hle'⟩ := h.reached
      exact ⟨n, hn, hinc ▸ UInt64.le_trans hle' hle⟩
    · rw [lookup_bump (h.localId ▸ fun heq => hi (some.inj heq))] at he'
      exact h.entries i e' hi he'
    · refine (h.queue g hg).imp_right ?_
      rintro ⟨inc, hinc', rfl⟩
      exact ⟨inc, hinc ▸ UInt64.le_trans hinc' hle, rfl⟩
  rw [h.refute_eq]
  refine hbump.push (.inr ⟨_, ?_, rfl⟩)
  rw [hinc]
  exact UInt64.le_refl _

end Keeps

theorem applyEvent_cases (d : SwimDriver) (cfg : SwimConfig) (now : UInt64) (g : GossipEvent) :
    (g.Accuses ∧ some g.id = d.view.localId ∧ d.applyEvent cfg now g = d.refute) ∨
      ¬ (g.Accuses ∧ some g.id = d.view.localId) ∧ ∃ d₁ : SwimDriver,
        d₁ = { d with view := (d.view.apply g (nowNs now) cfg.suspicionTimeoutNs).2 } ∧
        (d.applyEvent cfg now g = d₁ ∨ d.applyEvent cfg now g = d₁.pushGossip g) := by
  have hiff := apply_selfRefutation_iff (v := d.view) (g := g) (nowNs now) cfg.suspicionTimeoutNs
  unfold applyEvent
  split <;> rename_i view hv
  · refine .inr ⟨fun hc => ?_, _, rfl, .inr (by rw [hv])⟩
    rw [← hiff, hv] at hc
    cases hc
  · refine .inr ⟨fun hc => ?_, _, rfl, .inr (by rw [hv])⟩
    rw [← hiff, hv] at hc
    cases hc
  · have hc := hiff.1 (by rw [hv])
    have heq := apply_local (nowNs now) cfg.suspicionTimeoutNs hc.2
    rw [hv] at heq
    refine .inl ⟨hc.1, hc.2, ?_⟩
    rw [show view = d.view from heq]
  · refine .inr ⟨fun hc => ?_, _, rfl, .inl (by rw [hv])⟩
    rw [← hiff, hv] at hc
    cases hc

def accusations (id : UInt64) (gossip : List GossipEvent) : ℕ :=
  gossip.countP fun g => g.Accuses ∧ g.id = id

section Counter

variable {d : SwimDriver} {id : UInt64} (cfg : SwimConfig) (now : UInt64)

theorem localIncarnation_applyEvent (hv : d.view.WF) (hid : d.view.localId = some id)
    (g : GossipEvent) : (d.applyEvent cfg now g).view.localIncarnation =
      d.view.localIncarnation + ofNat (accusations id [g]) := by
  have hl : some g.id = d.view.localId ↔ g.id = id := by rw [hid, some.injEq]
  have hnone : ¬ (g.Accuses ∧ some g.id = d.view.localId) → accusations id [g] = 0 := by
    intro hn
    rw [accusations, countP_eq_zero]
    intro g' hg'
    simpa [mem_singleton.1 hg', hl] using hn
  rcases applyEvent_cases d cfg now g with ⟨ha, hg, heq⟩ | ⟨hn, d₁, rfl, heq | heq⟩ <;> rw [heq]
  · have hone : accusations id [g] = 1 := by simp [accusations, ha, hl.1 hg]
    rw [hone, view_refute]
    rcases bump_cases d.view with ⟨l, e, -, -, hb⟩ | hb <;> rw [hb] <;> rfl
  all_goals
    rw [hnone hn]
    exact (localIncarnation_apply hv g _ _).trans (add_zero _).symm

theorem accusations_cons (id : UInt64) (g : GossipEvent) (gossip : List GossipEvent) :
    accusations id (g :: gossip) = accusations id [g] + accusations id gossip := by
  rw [accusations, ← singleton_append, countP_append]
  rfl

theorem localIncarnation_applyPiggyback : ∀ (gossip : List GossipEvent) {d : SwimDriver},
    d.view.WF → d.view.localId = some id →
    (d.applyPiggyback cfg now gossip).view.localIncarnation =
      d.view.localIncarnation + ofNat (accusations id gossip)
  | [], _, _, _ => (add_zero _).symm
  | g :: gossip, d, hv, hid => by
    have ht : Takes d.view [g] (d.applyEvent cfg now g).view := takes_applyEvent now g
    obtain ⟨hv', hid'⟩ := ht.localId_eq hv
    rw [accusations_cons, ofNat_add, ← add_assoc, ← localIncarnation_applyEvent cfg now hv hid]
    exact localIncarnation_applyPiggyback gossip hv' (hid'.trans hid)

theorem localIncarnation_handleEnvelope (hv : d.view.WF) (hid : d.view.localId = some id)
    (env : Envelope) (src : SocketAddr) (sent : Bool) (hs : env.clusterSecret = cfg.clusterSecret) :
    (d.handleEnvelope cfg now env src sent).1.view.localIncarnation =
      d.view.localIncarnation + ofNat (accusations id env.gossip) := by
  simp only [SwimDriver.handleEnvelope]
  rw [if_neg (not_not.2 hs), ← localIncarnation_applyPiggyback cfg now env.gossip hv hid]
  split
  · rfl
  · rw [view_handleMessage]

end Counter

namespace Keeps

variable {A A' : Authority} {me : ClusterMember} {d d' : SwimDriver}
  {g : GossipEvent} (cfg : SwimConfig)

theorem applyEvent (h : Keeps A me d) (hg : A.Vouches g) (now : UInt64)
    (hwrap : d.view.localIncarnation.toNat + accusations me.id [g] < 2 ^ 64) :
    Keeps A me (d.applyEvent cfg now g) := by
  rcases applyEvent_cases d cfg now g with ⟨ha, hl, heq⟩ | ⟨-, d₁, rfl, heq | heq⟩ <;> rw [heq]
  · have hid : g.id = me.id := some.inj (hl.trans h.localId)
    refine h.refute ?_
    simpa [accusations, ha, hid] using hwrap
  · exact h.hear hg _ _
  · exact (h.hear hg _ _).push (.inl hg)

theorem applyPiggyback (now : UInt64) : ∀ {gossip : List GossipEvent} {d : SwimDriver},
    Keeps A me d → (∀ g ∈ gossip, A.Vouches g) →
    d.view.localIncarnation.toNat + accusations me.id gossip < 2 ^ 64 →
    Keeps A me (d.applyPiggyback cfg now gossip)
  | [], _, h, _, _ => h
  | g :: gossip, d, h, hg, hwrap => by
    rw [accusations_cons] at hwrap
    change Keeps A me ((d.applyEvent cfg now g).applyPiggyback cfg now gossip)
    refine applyPiggyback now (h.applyEvent cfg (hg g mem_cons_self) now (by omega))
      (fun g' hg' => hg g' (mem_cons_of_mem g hg')) ?_
    rw [localIncarnation_applyEvent cfg now h.wf h.localId, UInt64.toNat_add, UInt64.toNat_ofNat']
    omega

variable (h : Keeps A me d)
include h

theorem drained (hd : Drained d.queue sends d'.queue) (hv : d'.view = d.view) :
    Keeps A me d' ∧ ∀ p ∈ sends, ∀ g ∈ p.1.gossip, A.Allows me d'.view.localIncarnation g := by
  refine ⟨h.congr hv fun g hg => hd.mem_kept hg, fun p hp g hg => ?_⟩
  rw [hv]
  exact h.queue g (hd.mem_sent hp hg)

theorem announce : Keeps A me (d.announce me.id) := by
  obtain ⟨e, he, hm, hinc, -⟩ := h.own
  have heq : d.announce me.id = d.pushGossip (.alive me d.view.localIncarnation) := by
    simp [SwimDriver.announce, MembershipView.get, he, hm, hinc]
  rw [heq]
  exact h.push (.inr ⟨_, UInt64.le_refl _, rfl⟩)

theorem handleEnvelope (now : UInt64) {env : Envelope} (src : SocketAddr)
    (sent : Bool) (hg : ∀ g ∈ env.gossip, A.Vouches g)
    (hwrap : env.clusterSecret = cfg.clusterSecret →
      d.view.localIncarnation.toNat + accusations me.id env.gossip < 2 ^ 64) :
    Keeps A me (d.handleEnvelope cfg now env src sent).1 ∧
      ∀ p ∈ (d.handleEnvelope cfg now env src sent).2, ∀ g ∈ p.1.gossip,
        A.Allows me (d.handleEnvelope cfg now env src sent).1.view.localIncarnation g := by
  simp only [SwimDriver.handleEnvelope]
  by_cases hs : env.clusterSecret = cfg.clusterSecret
  · have hk := h.applyPiggyback cfg now hg (hwrap hs)
    rw [if_neg (not_not.2 hs), hk.localId]
    obtain ⟨d₀, hd₀, hd⟩ := drained_handleMessage (d.applyPiggyback cfg now env.gossip) cfg me.id
      src sent env.msg
    rcases hd₀ with rfl | ⟨-, rfl⟩
    · exact hk.drained hd (view_handleMessage _ _ _ _)
    · exact hk.announce.drained hd ((view_handleMessage _ _ _ _).trans (view_announce _).symm)
  · rw [if_pos hs]
    exact ⟨h, by simp⟩

theorem suspectTarget (now : UInt64) (target : ClusterMember) :
    Keeps A me (d.suspectTarget cfg now target) := by
  unfold SwimDriver.suspectTarget
  split
  · rename_i l e hl he
    by_cases hme : target.id = me.id
    · have href := (apply_selfRefutation_iff (v := d.view)
        (g := .suspect target.id e.incarnation l) (nowNs now) cfg.suspicionTimeoutNs).2
          ⟨trivial, by rw [h.localId, ← hme]; rfl⟩
      have hview := apply_local (v := d.view) (g := .suspect target.id e.incarnation l)
        (nowNs now) cfg.suspicionTimeoutNs (by rw [h.localId, ← hme]; rfl)
      dsimp only
      split <;> rename_i hv <;> rw [hv] at href hview
      · cases href
      · cases href
      · exact h.congr hview fun _ hg => hg
    · have hg : A.Vouches (.suspect target.id e.incarnation l) :=
        ⟨e.member, h.entries _ e hme he, by simp⟩
      have hk := h.hear hg (nowNs now) cfg.suspicionTimeoutNs
      dsimp only
      split <;> rename_i hv <;> rw [hv] at hk
      · exact hk.push (.inl hg)
      · exact hk.push (.inl hg)
      · exact hk
  · exact h

theorem reap (now : UInt64) : Keeps A me (d.tickReaper now).2 := by
  have hk : Keeps A me { d with view := (d.view.reapSuspects (nowNs now)).2 } := by
    have hinc := localIncarnation_reap d.view (nowNs now)
    obtain ⟨e, he, hm, heinc, halive⟩ := h.own
    refine ⟨h.wf.reap _, (localId_reap _ _).trans h.localId, ⟨e, ?_, hm, ?_, halive⟩, ?_,
      fun i e' hi he' => ?_, ?_⟩
    · rw [lookup_reap, he, map_some, reapEntry_alive halive]
    · rw [hinc, heinc]
    · rw [hinc]
      exact h.reached
    · rw [lookup_reap] at he'
      obtain ⟨e₀, he₀, rfl⟩ := map_eq_some_iff.1 he'
      rw [reapEntry_member, reapEntry_incarnation]
      exact h.entries i e₀ hi he₀
    · rw [hinc]
      exact h.queue
  have hdead : ∀ p ∈ (d.view.reapSuspects (nowNs now)).1, A.Vouches (.dead p.1 p.2 me.id) := by
    intro p hp
    obtain ⟨e, he, ho, hinc⟩ := mem_reaped h.wf hp
    have hne : p.1 ≠ me.id := by
      rintro heq
      obtain ⟨e', he', -, -, halive⟩ := h.own
      cases (heq ▸ he).symm.trans he'
      simp [overdue, halive] at ho
    exact ⟨e.member, hinc ▸ h.entries _ e hne he, by simp⟩
  simp only [tickReaper, localId_reap, h.localId]
  refine foldlRecOn (d.view.reapSuspects (nowNs now)).1 _ hk fun d' hd' p hp => ?_
  exact hd'.push (.inl (hdead p hp))

theorem leave (hA : A me.id = some (me, d.view.localIncarnation)) :
    Keeps A me (d.leave cfg me.id).1 ∧ ∀ p ∈ (d.leave cfg me.id).2, ∀ g ∈ p.1.gossip,
      A.Allows me (d.leave cfg me.id).1.view.localIncarnation g := by
  have hg : A.Vouches (.leave me.id d.view.localIncarnation) :=
    ⟨me, ⟨_, hA, UInt64.le_refl _⟩, by simp⟩
  refine ⟨h.push (.inl hg), fun p hp g hg' => ?_⟩
  obtain ⟨peer, -, rfl⟩ := mem_map.1 hp
  rw [mem_singleton.1 hg']
  exact .inl hg

end Keeps

theorem keeps_assemble {A : Authority} {me : ClusterMember} (hA : A me.id = some (me, 1)) :
    Keeps A me (assemble me) := by
  refine ⟨wf_bootstrap me, rfl, ⟨_, AList.lookup_insert _, rfl, rfl, rfl⟩,
    ⟨1, hA, UInt64.le_refl _⟩, fun i e hi he => ?_, fun g hg => ?_⟩
  · rw [show (assemble me).view = bootstrap me from rfl, bootstrap, AList.lookup_insert_ne hi] at he
    cases he
  · rcases GossipQueue.mem_events_push hg with rfl | hg
    · exact .inr ⟨1, UInt64.le_refl _, rfl⟩
    · cases hg

end SwimDriver

namespace SwimNet

open SwimDriver

variable {net net' : SwimNet} {ev : SwimEvent} {id : UInt64} {node : SwimNode}

def authority (net : SwimNet) : Authority := fun i =>
  (net.nodes.lookup i).map fun node => (node.self, node.swim.view.localIncarnation)

/-- The accusations that a node receives do not take its incarnation past the greatest one. -/
def NoWrap (net : SwimNet) : SwimEvent → Prop
  | .deliver id k _ _ => ∀ node ∈ net.nodes.lookup id, ∀ dg ∈ net.sent[k]?,
    dg.env.clusterSecret = node.cfg.clusterSecret →
      node.swim.view.localIncarnation.toNat + accusations id dg.env.gossip < 2 ^ 64
  | _ => True

/-- Every node keeps to what the nodes have reached, and so does all gossip in flight. -/
structure Sound (net : SwimNet) : Prop where
  named : ∀ id node, net.nodes.lookup id = some node → node.self.id = id
  keeps : ∀ id node, net.nodes.lookup id = some node →
    SwimDriver.Keeps net.authority node.self node.swim
  sent : ∀ dg ∈ net.sent, ∀ g ∈ dg.env.gossip, net.authority.Vouches g

theorem sound_empty : empty.Sound := by
  constructor
  · intro id node h
    cases h
  · intro id node h
    cases h
  · intro dg h
    cases h

theorem authority_eq (h : net.Sound) (hn : net.nodes.lookup id = some node) :
    net.authority node.self.id = some (node.self, node.swim.view.localIncarnation) := by
  rw [authority, h.named id node hn, hn, map_some]

theorem Acts.keeps {phase : NodePhase} {swim : SwimDriver} {cause : Option ℕ}
    {handled : List (UInt64 × ℕ)} (h : net.Sound) (hn : net.nodes.lookup id = some node)
    (ha : Acts net id node ev phase swim sends cause handled) (hw : net.NoWrap ev) :
    SwimDriver.Keeps net.authority node.self swim ∧ ∀ p ∈ sends, ∀ g ∈ p.1.gossip,
      net.authority.Allows node.self swim.view.localIncarnation g := by
  have hk := h.keeps id node hn
  cases ha with
  | join peers _ =>
    refine ⟨hk, fun p hp g hg => ?_⟩
    obtain ⟨addr, -, rfl⟩ := mem_map.1 hp
    rw [mem_singleton.1 hg]
    exact .inr ⟨_, UInt64.le_refl _, rfl⟩
  | spawn _ => exact ⟨hk, by simp⟩
  | @deliver k dg now sent hk' _ _ =>
    refine hk.handleEnvelope node.cfg now dg.src sent (h.sent dg (mem_of_getElem? hk')) fun hs => ?_
    rw [h.named id node hn]
    exact hw node hn dg hk' hs
  | @task t p _ hp =>
    cases t with
    | forwardAck i => exact hk.drained (drained_forwardAck hp) (view_forwardAck hp)
    | forwardTimeout i =>
      obtain ⟨d, hd, rfl⟩ := map_eq_some_iff.1 hp
      refine ⟨hk.congr (forwardTimeout_kept hd).1 fun g hg => ?_, by simp⟩
      rwa [← (forwardTimeout_kept hd).2]
    | probeStart pick => exact hk.drained (drained_probeStart hp) (view_probeStart hp)
    | probeAck =>
      obtain ⟨d, hd, rfl⟩ := map_eq_some_iff.1 hp
      refine ⟨hk.congr (probeAck_kept hd).1 fun g hg => ?_, by simp⟩
      rwa [← (probeAck_kept hd).2]
    | probeTimeout now order =>
      rcases probeTimeout_cases hp with ⟨hv, hd⟩ | ⟨d₀, target, hv, hq, hs, hv', hq'⟩
      · exact hk.drained hd hv
      have hk₀ := (hk.congr hv fun g hg => hq ▸ hg).suspectTarget node.cfg now target
      refine ⟨hk₀.congr hv' fun g hg => hq' ▸ hg, ?_⟩
      rw [hs]
      simp
    | reap now =>
      rw [← some.inj hp]
      exact ⟨hk.reap now, by simp⟩
  | shutdown _ => exact hk.leave node.cfg (authority_eq h hn)
  | stop _ => exact ⟨hk, by simp⟩

theorem authority_update (net : SwimNet) (node : SwimNode) (sends : List (Envelope × SocketAddr))
    (cause : Option ℕ) (i : UInt64) : (net.update id node sends cause).authority i =
      if i = id then some (node.self, node.swim.view.localIncarnation) else net.authority i := by
  rw [authority, lookup_update]
  split_ifs <;> rfl

theorem below_update (net : SwimNet) (id : UInt64) (node : SwimNode)
    (sends : List (Envelope × SocketAddr)) (cause : Option ℕ)
    (h : ∀ old, net.nodes.lookup id = some old → node.self = old.self ∧
      old.swim.view.localIncarnation ≤ node.swim.view.localIncarnation) :
    net.authority.Below (net.update id node sends cause).authority := by
  intro i m n hi
  rw [authority_update]
  split_ifs with hid
  · subst hid
    obtain ⟨old, hold, heq⟩ := map_eq_some_iff.1 hi
    cases heq
    obtain ⟨hself, hle⟩ := h old hold
    exact ⟨_, by rw [hself], hle⟩
  · exact ⟨n, hi, UInt64.le_refl _⟩

theorem Sound.update {cause : Option ℕ} (h : net.Sound) (hid : node.self.id = id)
    (hbelow : net.authority.Below (net.update id node sends cause).authority)
    (hk : SwimDriver.Keeps (net.update id node sends cause).authority node.self node.swim)
    (hs : ∀ p ∈ sends, ∀ g ∈ p.1.gossip, (net.update id node sends cause).authority.Vouches g) :
    (net.update id node sends cause).Sound := by
  refine ⟨fun i n hi => ?_, fun i n hi => ?_, fun dg hdg g hg => ?_⟩
  · rw [lookup_update] at hi
    split_ifs at hi with heq
    · rw [← some.inj hi, hid, heq]
    · exact h.named i n hi
  · have hi' := hi
    rw [lookup_update] at hi
    split_ifs at hi with heq
    · rw [← some.inj hi]
      exact hk
    · refine (h.keeps i n hi).mono hbelow ?_
      rw [authority_update, h.named i n hi, if_neg heq, authority, hi, map_some]
  · rcases mem_append.1 hdg with hdg | hdg
    · exact (h.sent dg hdg g hg).mono hbelow
    · obtain ⟨p, hp, rfl⟩ := mem_map.1 hdg
      exact hs p hp g hg

/-- No step gets ahead of a node's own incarnation. -/
theorem Sound.step (h : net.Sound) (hw : net.NoWrap ev) (hs : step net ev = some net') :
    net.authority.Below net'.authority ∧ net'.Sound := by
  rcases step_cases hs with ⟨self, cfg, rfl, hnone, -, rfl⟩ |
    ⟨id, node, phase, swim, sends, cause, handled, hn, ha, rfl⟩
  · have hbelow := below_update net self.id ⟨self, cfg, .joining, .assemble self⟩ [] none
      fun old hold => by rw [hnone] at hold; cases hold
    refine ⟨hbelow, h.update rfl hbelow (keeps_assemble ?_) (by simp)⟩
    rw [authority_update, if_pos rfl]
    rfl
  obtain ⟨hk, hsends⟩ := ha.keeps h hn hw
  have h' : { net with handled }.Sound := ⟨h.named, h.keeps, h.sent⟩
  have hbelow := below_update { net with handled } id { node with phase, swim } sends cause
    fun old hold => by
      cases hn.symm.trans hold
      obtain ⟨n, hn', hle⟩ := hk.reached
      rw [authority_eq h hn] at hn'
      cases hn'
      exact ⟨rfl, hle⟩
  have hme : ({ net with handled }.update id { node with phase, swim } sends cause).authority
      node.self.id = some (node.self, swim.view.localIncarnation) := by
    rw [authority_update, if_pos (h.named id node hn)]
  exact ⟨hbelow, h'.update (h.named id node hn) hbelow (hk.mono hbelow hme)
    fun p hp g hg => ((hsends p hp g hg).mono hbelow).vouches hme⟩

/-- A run in which no incarnation wraps is sound. -/
theorem sound_exec {evs : List SwimEvent} (hw : Guarded step NoWrap empty evs)
    (h : exec step empty evs = some net) : net.Sound :=
  hw.invariant (fun _ _ _ hs hw h => (hs.step hw h).2) sound_empty h

section Refutation

/-- The event is queued on a node or in flight. -/
def Carries (net : SwimNet) (g : GossipEvent) : Prop :=
  (∃ id node, net.nodes.lookup id = some node ∧ g ∈ node.swim.queue.events) ∨
    ∃ dg ∈ net.sent, g ∈ dg.env.gossip

/-- Nothing is queued, in flight or known about a node beyond the node's own incarnation. -/
def Bounded (net : SwimNet) : Prop :=
  ∀ i node, net.nodes.lookup i = some node →
    (∀ g, net.Carries g → g.id = i → g.incarnation ≤ node.swim.view.localIncarnation) ∧
      ∀ j peer e, net.nodes.lookup j = some peer → peer.swim.view.get i = some e →
        e.incarnation ≤ node.swim.view.localIncarnation

/-- A node that has taken in `g` ignores `g'`. -/
def Overrides (g g' : GossipEvent) : Prop :=
  ∀ (v : MembershipView) (now timeout now' timeout' : UInt64), some g.id ≠ v.localId →
    ((v.apply g now timeout).2.apply g' now' timeout').1 = .ignored

/-- The node `i` receives a datagram and has come to an accusation of itself in its gossip, with
the state `d`. -/
structure Accused (net : SwimNet) (i : UInt64) (node : SwimNode) (now : UInt64) (d : SwimDriver)
    (g : GossipEvent) : Prop where
  lookup : net.nodes.lookup i = some node
  accuses : g.Accuses ∧ g.id = i
  received : ∃ k dg sent before after, net.sent[k]? = some dg ∧
    dg.env.clusterSecret = node.cfg.clusterSecret ∧ dg.env.gossip = before ++ g :: after ∧
    net.NoWrap (.deliver i k now sent) ∧ d = node.swim.applyPiggyback node.cfg now before

theorem Sound.carries (h : net.Sound) {g : GossipEvent} (hg : net.Carries g) :
    net.authority.Vouches g := by
  rcases hg with ⟨id, node, hn, hg⟩ | ⟨dg, hdg, hg⟩
  · exact ((h.keeps id node hn).queue g hg).vouches (authority_eq h hn)
  · exact h.sent dg hdg g hg

theorem Sound.holds (h : net.Sound) {i j : UInt64} {peer : SwimNode} {e : MemberEntry}
    (hp : net.nodes.lookup j = some peer) (he : peer.swim.view.get i = some e) :
    net.authority.Covers i e.member e.incarnation := by
  have hk := h.keeps j peer hp
  by_cases hi : i = peer.self.id
  · subst hi
    obtain ⟨e', he', hm, hinc, -⟩ := hk.own
    cases he.symm.trans he'
    rw [hm, hinc]
    exact ⟨_, authority_eq h hp, UInt64.le_refl _⟩
  · exact hk.entries i e hi he

theorem Sound.bounded (h : net.Sound) : net.Bounded := by
  intro i node hn
  have hA : net.authority i = some (node.self, node.swim.view.localIncarnation) := by
    rw [authority, hn, map_some]
  refine ⟨fun g hg hi => (h.carries hg).incarnation_le (hi ▸ hA), fun j peer e hp he => ?_⟩
  obtain ⟨n, hn', hle⟩ := h.holds hp he
  rw [hA, some.injEq, Prod.mk.injEq] at hn'
  exact hn'.2 ▸ hle

theorem overrides_of_lt {m : ClusterMember} {inc : UInt64} {g : GossipEvent}
    (hid : g.id = m.id) (hlt : g.incarnation < inc) : Overrides (.alive m inc) g := by
  intro v now timeout now' timeout' hl
  obtain ⟨hlocal, e, he, hle, -⟩ := lookup_applyAlive inc hl
  refine apply_stale now' timeout' ?_ (hid ▸ he) ?_
  · rw [hid]
    exact hlocal ▸ hl
  · rw [lt_iff_toNat_lt] at *
    rw [le_iff_toNat_le] at hle
    omega

/-- In a run in which no incarnation wraps, nothing is queued, in flight or known about a node
beyond its own incarnation. So when the node refutes an accusation, the `Alive` that it queues
makes it alive on every node that knows it, and overrides every accusation of it that is queued or
in flight. -/
theorem refutation_overrides {evs : List SwimEvent} (hw : Guarded step NoWrap empty evs)
    (h : exec step empty evs = some net) :
    net.Bounded ∧ ∀ i node now d g, Accused net i node now d g → ∃ inc,
      .alive node.self inc ∈ (d.applyEvent node.cfg now g).queue.events ∧
        (∀ j peer e now' timeout, j ≠ i → net.nodes.lookup j = some peer →
          peer.swim.view.get i = some e →
            (peer.swim.view.apply (.alive node.self inc) now' timeout).2.get i =
              some ⟨node.self, .alive, inc, 0⟩) ∧
        ∀ g', net.Carries g' ∨ g' ∈ d.queue.events → g'.Accuses → g'.id = i →
          Overrides (.alive node.self inc) g' := by
  have hs := sound_exec hw h
  refine ⟨hs.bounded, ?_⟩
  rintro i node now d g ⟨hn, ⟨ha, hi⟩, k, dg, sent, before, after, hk, hsecret, hsplit, hnw, hd⟩
  have hid : node.self.id = i := hs.named i node hn
  have hcount : accusations i dg.env.gossip = accusations i before + 1 + accusations i after := by
    rw [hsplit, accusations, List.countP_append, List.countP_cons_of_pos (by simp [ha, hi]),
      Nat.add_right_comm]
    rfl
  have hwrap := hnw node hn dg hk hsecret
  rw [hcount] at hwrap
  have hkeeps := (hs.keeps i node hn).applyPiggyback node.cfg now
    (fun g' hg' => hs.sent dg (List.mem_of_getElem? hk) g' (by rw [hsplit]; simp [hg']))
    (show _ + accusations node.self.id before < _ by rw [hid]; omega)
  have hinc := localIncarnation_applyPiggyback node.cfg now before (hs.keeps i node hn).wf
    (hid ▸ (hs.keeps i node hn).localId)
  rw [← hd] at hkeeps hinc
  -- the incarnation of the refutation is above what the node had before the datagram
  have hlt : ∀ n, n ≤ node.swim.view.localIncarnation → n < d.view.localIncarnation + 1 := by
    intro n hle
    rw [le_iff_toNat_le] at hle
    rw [UInt64.lt_iff_toNat_lt, hinc, UInt64.toNat_add, UInt64.toNat_add, UInt64.toNat_ofNat',
      toNat_one]
    omega
  refine ⟨d.view.localIncarnation + 1, ?_, fun j peer e now' timeout hj hp he => ?_,
    fun g' hg' ha' hi' => ?_⟩
  · rcases applyEvent_cases d node.cfg now g with ⟨-, -, heq⟩ | ⟨hc, -⟩
    · rw [heq, hkeeps.refute_eq]
      exact GossipQueue.event_mem_push _ _ _
    · exact absurd ⟨ha, by rw [hkeeps.localId, hid, hi]⟩ hc
  · have hl : some node.self.id ≠ peer.swim.view.localId := by
      rw [(hs.keeps j peer hp).localId, hs.named j peer hp, hid]
      exact fun heq => hj (Option.some.inj heq).symm
    obtain ⟨-, e', he', -, hnew⟩ := lookup_applyAlive (d.view.localIncarnation + 1) hl
    rw [hnew] at he'
    · exact hid ▸ he'
    · intro e₀ he₀
      exact hlt _ ((hs.bounded i node hn).2 j peer e₀ hp (hid ▸ he₀))
  · refine overrides_of_lt (hi'.trans hid.symm) (hlt _ ?_)
    have hA : net.authority g'.id = some (node.self, node.swim.view.localIncarnation) := by
      rw [authority, hi', hn, Option.map_some]
    rcases hg' with hg' | hg'
    · exact (hs.carries hg').incarnation_le hA
    · rcases hkeeps.queue g' hg' with hv | ⟨inc, -, rfl⟩
      · exact hv.incarnation_le hA
      · exact ha'.elim

end Refutation

section Sample

theorem exec_redeliver {i : UInt64} {k : ℕ} {dg : Datagram} (hone : accusations i dg.env.gossip = 1)
    (n : ℕ) : ∀ {net : SwimNet} {node : SwimNode}, net.nodes.lookup i = some node →
      node.swim.view.WF → node.swim.view.localId = some i → node.looping → net.sent[k]? = some dg →
      dg.dst = node.self.discoveryAddr → dg.env.clusterSecret = node.cfg.clusterSecret →
      ∃ net' node', exec step net (replicate n (.deliver i k 0 true)) = some net' ∧
        net'.nodes.lookup i = some node' ∧ node'.self = node.self ∧
        node'.swim.view.localIncarnation = node.swim.view.localIncarnation + ofNat n ∧
        ∀ j, j ≠ i → net'.nodes.lookup j = net.nodes.lookup j := by
  induction n with
  | zero =>
    intro net node hn _ _ _ _ _ _
    exact ⟨net, node, rfl, hn, rfl, (add_zero _).symm, fun _ _ => rfl⟩
  | succ n ih =>
    intro net node hn hv hid hl hk hdst hs
    have hstep := step_deliver 0 true hn hl hk hdst
    have hinc := localIncarnation_handleEnvelope node.cfg 0 hv hid dg.env dg.src true hs
    have ht : MembershipView.Takes node.swim.view _
        (node.swim.handleEnvelope node.cfg 0 dg.env dg.src true).1.view :=
      takes_handleEnvelope 0 dg.env dg.src true
    obtain ⟨hv', hid'⟩ := ht.localId_eq hv
    have hn₁ := (lookup_update (net.handle i node k dg) i i
      { node with swim := (node.swim.handleEnvelope node.cfg 0 dg.env dg.src true).1 }
      (node.swim.handleEnvelope node.cfg 0 dg.env dg.src true).2 (some k)).trans (if_pos rfl)
    obtain ⟨net', node', hx, hn', hself, hinc', hothers⟩ := ih hn₁ hv' (hid'.trans hid) hl
      (sent_update _ _ _ _ ((sent_handle net i node k dg).symm ▸ hk)) hdst hs
    refine ⟨net', node', ?_, hn', hself, ?_, fun j hj => ?_⟩
    · rw [replicate_succ, exec_cons hstep, hx]
    · rw [hinc', hinc, hone, add_assoc, ← ofNat_add, Nat.add_comm]
    · rw [hothers j hj, lookup_update, if_neg hj, nodes_handle]

def sampleSwim : SwimConfig := ⟨"secret", 1000000, 3, 5⟩

/-- Node 1 joins node 2, which suspects it after a probe without an answer; then 1 pings 2, and the
answer accuses 1. -/
def accusing : List SwimEvent :=
  [.start (sampleMember 1 "a" 1) sampleSwim,
    .start (sampleMember 2 "b" 2) sampleSwim,
    .join 1 ["b"], .spawn 1, .spawn 2, .deliver 2 0 0 true, .deliver 1 1 0 true,
    .task 2 (.probeStart 0), .task 2 (.probeTimeout 0 []), .task 1 (.probeStart 0),
    .deliver 2 3 0 true]

def accusingGossip : List GossipEvent :=
  [.alive (sampleMember 2 "b" 2) 1, .alive (sampleMember 1 "a" 1) 1,
    .suspect 1 1 2]

instance (net : SwimNet) : ∀ ev, Decidable (net.NoWrap ev)
  | .deliver id k _ _ => inferInstanceAs (Decidable (∀ node ∈ net.nodes.lookup id,
      ∀ dg ∈ net.sent[k]?, dg.env.clusterSecret = node.cfg.clusterSecret →
        node.swim.view.localIncarnation.toNat + accusations id dg.env.gossip < 2 ^ 64))
  | .start .. | .join .. | .spawn _ | .task .. | .shutdown _ | .stop _ => .isTrue trivial

theorem guarded_accusing : Guarded step NoWrap empty accusing := by decide +kernel

theorem exec_accusing : ∃ net node peer e dg, exec step empty accusing = some net ∧
    net.nodes.lookup 1 = some node ∧ node.self = sampleMember 1 "a" 1 ∧
    node.looping ∧ node.swim.view.localIncarnation = 1 ∧
    net.nodes.lookup 2 = some peer ∧ peer.swim.view.get 1 = some e ∧ e.incarnation = 1 ∧
    net.sent[4]? = some dg ∧ dg.dst = "a" ∧ dg.env.clusterSecret = node.cfg.clusterSecret ∧
    dg.env.gossip = accusingGossip := by
  have h : ((exec step empty accusing).bind fun net => (net.nodes.lookup 1).bind fun node =>
      (net.nodes.lookup 2).bind fun peer => (peer.swim.view.get 1).bind fun e =>
        (net.sent[4]?).map fun dg => ((node.self, node.looping, node.swim.view.localIncarnation),
          e.incarnation, dg.dst, (decide (dg.env.clusterSecret = node.cfg.clusterSecret),
            dg.env.gossip))) =
      some ((sampleMember 1 "a" 1, true, 1), 1, "a", (true, accusingGossip)) := by
    decide +kernel
  obtain ⟨net, hnet, h⟩ := bind_eq_some_iff.1 h
  obtain ⟨node, hnode, h⟩ := bind_eq_some_iff.1 h
  obtain ⟨peer, hpeer, h⟩ := bind_eq_some_iff.1 h
  obtain ⟨e, he, h⟩ := bind_eq_some_iff.1 h
  obtain ⟨dg, hdg, h⟩ := map_eq_some_iff.1 h
  simp only [Prod.mk.injEq, decide_eq_true_eq] at h
  obtain ⟨⟨hself, hloop, hinc⟩, heinc, hdst, hsecret, hgossip⟩ := h
  exact ⟨net, node, peer, e, dg, hnet, hnode, hself, hloop, hinc, hpeer, he, heinc, hdg, hdst,
    hsecret, hgossip⟩

theorem refutation_overrides_accusing : ∃ net node d inc, exec step empty accusing = some net ∧
    net.Bounded ∧ Accused net 1 node 0 d (.suspect 1 1 2) ∧
    .alive node.self inc ∈ (d.applyEvent node.cfg 0 (.suspect 1 1 2)).queue.events := by
  obtain ⟨net, node, peer, e, dg, hx, hn, -, -, hinc, -, -, -, hk, -, hsecret, hgossip⟩ :=
    exec_accusing
  have hw : net.NoWrap (.deliver 1 4 0 true) := by
    intro node' hn' dg' hk' _
    cases hn.symm.trans hn'
    cases hk.symm.trans hk'
    rw [hinc, hgossip]
    decide
  have hacc : Accused net 1 node 0 (node.swim.applyPiggyback node.cfg 0
      [.alive (sampleMember 2 "b" 2) 1, .alive (sampleMember 1 "a" 1) 1])
      (.suspect 1 1 2) :=
    ⟨hn, ⟨trivial, rfl⟩, 4, dg, true, [.alive (sampleMember 2 "b" 2) 1,
      .alive (sampleMember 1 "a" 1) 1], [], hk, hsecret, hgossip, hw, rfl⟩
  obtain ⟨hb, hover⟩ := refutation_overrides guarded_accusing hx
  obtain ⟨inc, halive, -⟩ := hover 1 node 0 _ _ hacc
  exact ⟨net, node, _, inc, hx, hb, hacc, halive⟩

/-- The answer of node 2 arrives again until the incarnation of node 1 has wrapped around: then 2
knows 1 at a higher incarnation, and ignores the `Alive` of its last refutation. -/
theorem incarnation_wraps : ∃ evs net node peer e, exec step empty evs = some net ∧
    net.nodes.lookup 1 = some node ∧ net.nodes.lookup 2 = some peer ∧
    peer.swim.view.get 1 = some e ∧ node.swim.view.localIncarnation < e.incarnation ∧
    (peer.swim.view.apply (.alive node.self node.swim.view.localIncarnation) 0 0).1 = .ignored := by
  obtain ⟨net, node, peer, e, dg, hx, hn, hself, hloop, hinc, hp, he, heinc, hk, hdst, hsecret,
    hgossip⟩ := exec_accusing
  have hs := sound_exec guarded_accusing hx
  obtain ⟨net', node', hx', hn', hself', hinc', hothers⟩ := exec_redeliver
    (show accusations 1 dg.env.gossip = 1 by rw [hgossip]; decide) (2 ^ 64 - 1) hn
    (hs.keeps 1 node hn).wf ((hs.keeps 1 node hn).localId.trans (by rw [hs.named 1 node hn]))
    hloop hk (hdst.trans (by rw [hself]; rfl)) hsecret
  have hzero : node'.swim.view.localIncarnation = 0 := by
    rw [hinc', hinc]
    decide
  have hlt : node'.swim.view.localIncarnation < e.incarnation := by
    rw [hzero, heinc]
    decide
  have hid : node'.self.id = 1 := by rw [hself', hself]; rfl
  refine ⟨accusing ++ List.replicate (2 ^ 64 - 1) (.deliver 1 4 0 true), net', node', peer, e, ?_,
    hn', (hothers 2 (by decide)).trans hp, he, hlt, ?_⟩
  · rw [exec_append hx, hx']
  have hget : peer.swim.view.byId.lookup node'.self.id = some e := by
    rw [hid]
    exact he
  refine apply_stale 0 0 ?_ hget hlt
  rw [(hs.keeps 2 peer hp).localId, hs.named 2 peer hp]
  exact fun heq => absurd (hid.symm.trans (Option.some.inj heq)) (by decide)

end Sample

end SwimNet

end Kamino
