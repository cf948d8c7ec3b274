import Kamino.Proofs.SwimNet

/-!
# Nodes are known as what they are

An `Alive` describes a node in its own words: it is made by the node itself when it joins, announces
itself or refutes a suspicion, and passed on as it is.
-/

namespace Kamino

open Runs Option List

variable {G G' : ClusterMember → Prop} {heard : List GossipEvent}

theorem MembershipView.Takes.members {v v' : MembershipView} (h : Takes v heard v')
    (hv : ∀ i e, v.byId.lookup i = some e → G e.member) (hg : ∀ m inc, .alive m inc ∈ heard → G m) :
    ∀ i e, v'.byId.lookup i = some e → G e.member := by
  induction h with
  | refl => exact hv
  | hear h g now timeout ih =>
    have hold := ih fun m inc hm => hg m inc (mem_append_left _ hm)
    intro i e he
    rcases lookup_of_apply he with he | ⟨-, -, -, ⟨e₀, he₀, hm⟩ | ⟨inc, hm⟩⟩
    · exact hold i e he
    · exact hm ▸ hold i e₀ he₀
    · exact hg e.member inc (by rw [hm]; simp)
  | @refute _ v' h ih =>
    intro i e he
    rcases bump_cases v' with ⟨l, e₀, -, he₀, hb⟩ | hb <;> rw [hb] at he
    · rw [lookup_setEntry] at he
      split_ifs at he
      · rw [← some.inj he]
        exact ih hg l e₀ he₀
      · exact ih hg i e he
    · exact ih hg i e he
  | suspect h _ sender now timeout ih =>
    intro i e he
    rcases lookup_of_apply he with he | ⟨-, -, -, ⟨e₀, he₀, hm⟩ | ⟨inc, hm⟩⟩
    · exact ih hg i e he
    · exact hm ▸ ih hg i e₀ he₀
    · cases hm

namespace SwimDriver

open MembershipView

/-- The members that the node knows, and those that its queue calls alive, are in `G`. -/
structure Trusts (G : ClusterMember → Prop) (d : SwimDriver) : Prop where
  entries : ∀ i e, d.view.byId.lookup i = some e → G e.member
  queue : ∀ m inc, .alive m inc ∈ d.queue.events → G m

namespace Trusts

variable {d d' : SwimDriver} {g : GossipEvent} {sends : List (Envelope × SocketAddr)}

section

variable (h : Trusts G d)
include h

theorem mono (hG : ∀ m, G m → G' m) : Trusts G' d :=
  ⟨fun i e he => hG _ (h.entries i e he), fun m inc hm => hG _ (h.queue m inc hm)⟩

theorem congr (hv : d'.view = d.view)
    (hq : ∀ g ∈ d'.queue.events, g ∈ d.queue.events) : Trusts G d' :=
  ⟨hv ▸ h.entries, fun m inc hm => h.queue m inc (hq _ hm)⟩

theorem push (hg : ∀ m inc, g = .alive m inc → G m) : Trusts G (d.pushGossip g) := by
  refine ⟨h.entries, fun m inc hm => ?_⟩
  rcases GossipQueue.mem_events_push hm with heq | hm
  · exact hg m inc heq.symm
  · exact h.queue m inc hm

theorem view {v : MembershipView} (ht : Takes d.view heard v)
    (hg : ∀ m inc, .alive m inc ∈ heard → G m) : Trusts G { d with view := v } :=
  ⟨ht.members h.entries hg, h.queue⟩

theorem refute : Trusts G d.refute := by
  have hb := h.view Takes.refl.refute (by simp)
  unfold SwimDriver.refute
  dsimp only
  split
  · exact hb
  · rename_i e he
    obtain ⟨l, -, hl⟩ := bind_eq_some_iff.1 he
    exact hb.push fun m inc heq => by cases heq; exact hb.entries l e hl

theorem applyEvent (cfg : SwimConfig) (now : UInt64)
    (hg : ∀ m inc, g = .alive m inc → G m) : Trusts G (d.applyEvent cfg now g) := by
  have hv := h.view (Takes.refl.hear g (nowNs now) cfg.suspicionTimeoutNs)
    fun m inc hm => hg m inc (mem_singleton.1 hm).symm
  unfold SwimDriver.applyEvent
  split <;> rename_i heq <;> rw [heq] at hv
  · exact hv.push hg
  · exact hv.push hg
  · exact hv.refute
  · exact hv

end

theorem applyPiggyback (cfg : SwimConfig) (now : UInt64) :
    ∀ {gossip : List GossipEvent} {d : SwimDriver}, Trusts G d →
      (∀ m inc, .alive m inc ∈ gossip → G m) → Trusts G (d.applyPiggyback cfg now gossip)
  | [], _, h, _ => h
  | g :: gossip, d, h, hg => by
    change Trusts G ((d.applyEvent cfg now g).applyPiggyback cfg now gossip)
    exact applyPiggyback cfg now
      (h.applyEvent cfg now fun m inc heq => hg m inc (heq ▸ mem_cons_self))
      fun m inc hm => hg m inc (mem_cons_of_mem g hm)

variable (h : Trusts G d)
include h

theorem announce (l : UInt64) : Trusts G (d.announce l) := by
  unfold SwimDriver.announce
  split
  · exact h
  · rename_i e he
    exact h.push fun m inc heq => by cases heq; exact h.entries l e he

theorem drained (hd : Drained d.queue sends d'.queue) (hv : d'.view = d.view) :
    Trusts G d' ∧ ∀ p ∈ sends, ∀ m inc, .alive m inc ∈ p.1.gossip → G m :=
  ⟨h.congr hv fun _ hg => hd.mem_kept hg, fun _ hp m inc hg => h.queue m inc (hd.mem_sent hp hg)⟩

theorem handleEnvelope (cfg : SwimConfig) (now : UInt64) {env : Envelope}
    (src : SocketAddr) (sent : Bool) (hg : ∀ m inc, .alive m inc ∈ env.gossip → G m) :
    Trusts G (d.handleEnvelope cfg now env src sent).1 ∧
      ∀ p ∈ (d.handleEnvelope cfg now env src sent).2, ∀ m inc,
        .alive m inc ∈ p.1.gossip → G m := by
  have hp := h.applyPiggyback cfg now hg
  simp only [SwimDriver.handleEnvelope]
  split_ifs
  · exact ⟨h, by simp⟩
  split
  · exact ⟨hp, by simp⟩
  rename_i l _
  obtain ⟨d₀, hd₀, hd⟩ := drained_handleMessage (d.applyPiggyback cfg now env.gossip) cfg l src
    sent env.msg
  rcases hd₀ with rfl | ⟨-, rfl⟩
  · exact hp.drained hd (view_handleMessage _ _ _ _)
  · exact (hp.announce l).drained hd ((view_handleMessage _ _ _ _).trans (view_announce _).symm)

theorem suspectTarget (cfg : SwimConfig) (now : UInt64) (target : ClusterMember) :
    Trusts G (d.suspectTarget cfg now target) := by
  have hv := h.view (@takes_suspectTarget cfg d now target) (by simp)
  unfold SwimDriver.suspectTarget at hv ⊢
  split at hv
  · dsimp only at hv ⊢
    split at hv
    · exact hv.push (by simp)
    · exact hv.push (by simp)
    · exact hv
  · exact h

theorem reap (now : UInt64) : Trusts G (d.tickReaper now).2 := by
  have hv : Trusts G { d with view := (d.view.reapSuspects (nowNs now)).2 } := by
    refine ⟨fun i e he => ?_, h.queue⟩
    rw [lookup_reap] at he
    obtain ⟨e₀, he₀, rfl⟩ := map_eq_some_iff.1 he
    rw [reapEntry_member]
    exact h.entries i e₀ he₀
  simp only [tickReaper]
  split
  · exact hv
  · exact List.foldlRecOn (d.view.reapSuspects (nowNs now)).1 _ hv
      fun d' hd' p _ => hd'.push (by simp)

theorem run {cfg : SwimConfig} {t : SwimTask}
    {p : SwimDriver × List (Envelope × SocketAddr)} (hp : t.run cfg d = some p) :
    Trusts G p.1 ∧ ∀ q ∈ p.2, ∀ m inc, .alive m inc ∈ q.1.gossip → G m := by
  cases t with
  | forwardAck i => exact h.drained (drained_forwardAck hp) (view_forwardAck hp)
  | forwardTimeout i =>
    obtain ⟨d', hd, rfl⟩ := map_eq_some_iff.1 hp
    exact h.drained ((forwardTimeout_kept hd).2 ▸ .refl) (forwardTimeout_kept hd).1
  | probeStart pick => exact h.drained (drained_probeStart hp) (view_probeStart hp)
  | probeAck =>
    obtain ⟨d', hd, rfl⟩ := map_eq_some_iff.1 hp
    exact h.drained ((probeAck_kept hd).2 ▸ .refl) (probeAck_kept hd).1
  | probeTimeout now order =>
    rcases probeTimeout_cases hp with ⟨hv, hd⟩ | ⟨d₀, target, hv, hq, hs, hv', hq'⟩
    · exact h.drained hd hv
    have h₀ := (h.congr hv fun g hg => hq ▸ hg).suspectTarget cfg now target
    refine ⟨h₀.congr hv' fun g hg => hq' ▸ hg, ?_⟩
    rw [hs]
    simp
  | reap now =>
    rw [← some.inj hp]
    exact ⟨h.reap now, by simp⟩

theorem candidates {ids : List UInt64} {m : ClusterMember} (hm : m ∈ d.candidates ids) : G m := by
  simp only [SwimDriver.candidates, snapshotAll, List.mem_map, List.mem_filter,
    List.mem_filterMap] at hm
  obtain ⟨_, ⟨⟨i, -, he⟩, -⟩, rfl⟩ := hm
  obtain ⟨e, he', rfl⟩ := map_eq_some_iff.1 he
  exact h.entries i e he'

end Trusts

theorem trusts_assemble {me : ClusterMember} (hme : G me) : Trusts G (assemble me) := by
  refine ⟨fun i e he => ?_, fun m inc hm => ?_⟩
  · have he : (AList.insert me.id ⟨me, .alive, 1, 0⟩ ∅ :
        HMap UInt64 MemberEntry).lookup i = some e := he
    rw [HMap.lookup_insert_eq_ite] at he
    split_ifs at he
    · exact some.inj he ▸ hme
    · cases he
  · rcases GossipQueue.mem_events_push hm with heq | hm
    · cases heq
      exact hme
    · cases hm

end SwimDriver

namespace SwimNet

open SwimDriver

variable {net net' : SwimNet} {ev : SwimEvent} {id : UInt64} {node : SwimNode}

def Genuine (net : SwimNet) (m : ClusterMember) : Prop :=
  ∃ node, net.nodes.lookup m.id = some node ∧ node.self = m

structure Truthful (net : SwimNet) : Prop where
  named : ∀ id node, net.nodes.lookup id = some node → node.self.id = id
  trusts : ∀ id node, net.nodes.lookup id = some node → Trusts net.Genuine node.swim
  sent : ∀ dg ∈ net.sent, ∀ m inc, .alive m inc ∈ dg.env.gossip → net.Genuine m

theorem truthful_empty : empty.Truthful := by
  refine ⟨fun id node h => ?_, fun id node h => ?_, fun dg h => ?_⟩ <;> cases h

theorem Truthful.genuine (h : net.Truthful) (hn : net.nodes.lookup id = some node) :
    net.Genuine node.self :=
  ⟨node, h.named id node hn ▸ hn, rfl⟩

variable {sends : List (Envelope × SocketAddr)}

theorem Acts.trusts {phase : NodePhase} {swim : SwimDriver} {cause : Option ℕ}
    {handled : List (UInt64 × ℕ)} (h : net.Truthful) (hn : net.nodes.lookup id = some node)
    (ha : Acts net id node ev phase swim sends cause handled) :
    Trusts net.Genuine swim ∧ ∀ p ∈ sends, ∀ m inc, .alive m inc ∈ p.1.gossip → net.Genuine m := by
  have ht := h.trusts id node hn
  cases ha with
  | join peers _ =>
    refine ⟨ht, fun p hp m inc hm => ?_⟩
    obtain ⟨addr, -, rfl⟩ := mem_map.1 hp
    cases mem_singleton.1 hm
    exact h.genuine hn
  | spawn _ => exact ⟨ht, by simp⟩
  | deliver now sent hk _ _ =>
    exact ht.handleEnvelope node.cfg now _ sent (h.sent _ (mem_of_getElem? hk))
  | task _ hp => exact ht.run hp
  | shutdown _ =>
    refine ⟨ht.push (by simp), fun p hp m inc hm => ?_⟩
    obtain ⟨peer, -, rfl⟩ := mem_map.1 hp
    cases mem_singleton.1 hm
  | stop _ => exact ⟨ht, by simp⟩

theorem Genuine.update {m : ClusterMember} (h : net.Genuine m)
    (sends : List (Envelope × SocketAddr)) (cause : Option ℕ)
    (hid : ∀ old, net.nodes.lookup id = some old → node.self = old.self) :
    (net.update id node sends cause).Genuine m := by
  obtain ⟨old, hold, hm⟩ := h
  rw [Genuine, lookup_update]
  split_ifs with heq
  · exact ⟨node, rfl, (hid old (heq ▸ hold)).trans hm⟩
  · exact ⟨old, hold, hm⟩

theorem Truthful.update {cause : Option ℕ} (h : net.Truthful) (hid : node.self.id = id)
    (hold : ∀ old, net.nodes.lookup id = some old → node.self = old.self)
    (ht : Trusts (net.update id node sends cause).Genuine node.swim)
    (hs : ∀ p ∈ sends, ∀ m inc, .alive m inc ∈ p.1.gossip →
      (net.update id node sends cause).Genuine m) :
    (net.update id node sends cause).Truthful := by
  refine ⟨fun i n hi => ?_, fun i n hi => ?_, fun dg hdg m inc hm => ?_⟩
  · rw [lookup_update] at hi
    split_ifs at hi with heq
    · rw [← some.inj hi, hid, heq]
    · exact h.named i n hi
  · rw [lookup_update] at hi
    split_ifs at hi with heq
    · exact some.inj hi ▸ ht
    · exact (h.trusts i n hi).mono fun m hm => hm.update sends cause hold
  rcases mem_append.1 hdg with hdg | hdg
  · exact (h.sent dg hdg m inc hm).update sends cause hold
  · obtain ⟨p, hp, rfl⟩ := mem_map.1 hdg
    exact hs p hp m inc hm

/-- No step makes up a member. -/
theorem Truthful.step (h : net.Truthful) (hs : step net ev = some net') : net'.Truthful := by
  rcases step_cases hs with ⟨self, cfg, rfl, hnone, -, rfl⟩ |
    ⟨id, node, phase, swim, sends, cause, handled, hn, ha, rfl⟩
  · refine h.update rfl (fun old hold => by rw [hnone] at hold; cases hold)
      (trusts_assemble ⟨_, (lookup_update _ _ _ _ _ _).trans (if_pos rfl), rfl⟩) (by simp)
  obtain ⟨ht, hsends⟩ := ha.trusts h hn
  have h' : { net with handled }.Truthful := ⟨h.named, h.trusts, h.sent⟩
  have hold : ∀ old, { net with handled }.nodes.lookup id = some old → node.self = old.self :=
    fun old hold => by cases hn.symm.trans hold; rfl
  have hmono : ∀ m, net.Genuine m →
      ({ net with handled }.update id { node with phase, swim } sends cause).Genuine m :=
    fun m hm => (show { net with handled }.Genuine m from hm).update sends cause hold
  exact h'.update (h.named id node hn) hold (ht.mono hmono)
    fun p hp m inc hm => hmono m (hsends p hp m inc hm)

end SwimNet

end Kamino
