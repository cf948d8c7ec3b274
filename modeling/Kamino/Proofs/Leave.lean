import Kamino.Proofs.Incarnations

/-!
# A graceful leave and its echo

A leaving node goes on receiving until its tasks are cancelled.
-/

namespace Kamino

open Runs List Option

namespace SwimNet

open SwimDriver MembershipView

variable {net net' : SwimNet} {ev : SwimEvent} {i j : UInt64} {node : SwimNode}

/-- A leaving node receives no accusation of itself. -/
def Echoless (net : SwimNet) : SwimEvent → Prop
  | .deliver id k _ _ => ∀ node ∈ net.nodes.lookup id, ∀ dg ∈ net.sent[k]?,
    node.phase = .leaving → dg.env.clusterSecret = node.cfg.clusterSecret →
      accusations id dg.env.gossip = 0
  | _ => True

def Left (net : SwimNet) (i n : UInt64) : Prop :=
  ∃ node, net.nodes.lookup i = some node ∧ (node.phase = .leaving ∨ node.phase = .stopped) ∧
    node.swim.view.localIncarnation = n

/-- The peer `j` holds `i` for dead at the incarnation `n` or a higher one. -/
def HoldsDead (net : SwimNet) (i n j : UInt64) : Prop :=
  ∃ peer e, net.nodes.lookup j = some peer ∧ peer.swim.view.get i = some e ∧ e.state = .dead ∧
    n ≤ e.incarnation

variable {sends : List (Envelope × SocketAddr)} {handled : List (UInt64 × ℕ)}

theorem Acts.left {phase : NodePhase} {swim : SwimDriver} {cause : Option ℕ} (hs : net.Sound)
    (hn : net.nodes.lookup i = some node) (hp : node.phase = .leaving ∨ node.phase = .stopped)
    (ha : Acts net i node ev phase swim sends cause handled) (he : net.Echoless ev) :
    (phase = .leaving ∨ phase = .stopped) ∧
      swim.view.localIncarnation = node.swim.view.localIncarnation := by
  have hk := hs.keeps i node hn
  cases ha with
  | join peers h | spawn h =>
    rw [h] at hp
    simp at hp
  | @deliver k dg now sent hk' hloop _ =>
    refine ⟨hp, ?_⟩
    by_cases hsecret : dg.env.clusterSecret = node.cfg.clusterSecret
    · have hleaving : node.phase = .leaving := by
        rcases hp with hp | hp
        · exact hp
        · simp [SwimNode.looping, hp] at hloop
      rw [localIncarnation_handleEnvelope node.cfg now hk.wf (hs.named i node hn ▸ hk.localId)
        dg.env dg.src sent hsecret, he node hn dg hk' hleaving hsecret]
      exact UInt64.add_zero _
    · rw [handleEnvelope, if_pos hsecret]
  | task _ hrun => exact ⟨hp, SwimTask.localIncarnation_run hk.wf hrun⟩
  | shutdown h =>
    rw [h] at hp
    simp at hp
  | stop _ => exact ⟨.inr rfl, rfl⟩

theorem Acts.holdsDead {peer : SwimNode} {phase : NodePhase} {swim : SwimDriver} {cause : Option ℕ}
    {e : MemberEntry} (hs : net.Sound) (hj : i ≠ j) (hp : net.nodes.lookup j = some peer)
    (ha : Acts net j peer ev phase swim sends cause handled) (he : peer.swim.view.get i = some e)
    (hd : e.state = .dead) (hle : ∀ g, net.Carries g → g.id = i → g.incarnation ≤ e.incarnation) :
    swim.view.get i = some e := by
  have hk := hs.keeps j peer hp
  have hid : some i ≠ peer.swim.view.localId := by
    rw [hk.localId, hs.named j peer hp]
    exact fun heq => hj (Option.some.inj heq)
  cases ha with
  | join peers _ | spawn _ | stop _ | shutdown _ => exact he
  | @deliver k dg now sent hk' _ _ =>
    have ht : Takes peer.swim.view _
        (peer.swim.handleEnvelope peer.cfg now dg.env dg.src sent).1.view :=
      takes_handleEnvelope now dg.env dg.src sent
    refine ht.dead hk.wf hid he hd fun g hg hgi => hle g (.inr ⟨dg, ?_, ?_⟩) hgi
    · exact mem_of_getElem? hk'
    · split_ifs at hg
      · exact hg
      · cases hg
  | task _ hrun =>
    rcases SwimTask.run_view hrun with ht | ⟨now, hv⟩
    · exact ht.dead hk.wf hid he hd (by simp)
    rw [hv]
    refine (lookup_reap _ _ _).trans ?_
    rw [show peer.swim.view.byId.lookup i = some e from he, map_some, reapEntry, if_neg]
    simp [overdue, hd]

/-- Without an echo a node that has left stays gone. -/
theorem Left.step {n : UInt64} (h : net.Left i n) (hs : net.Sound) (he : net.Echoless ev)
    (hstep : step net ev = some net') : net'.Left i n := by
  obtain ⟨node, hn, hp, hinc⟩ := h
  rcases step_cases hstep with ⟨self, cfg, rfl, hnone, -, rfl⟩ |
    ⟨id, node', phase, swim, sends, cause, handled, hn', ha, rfl⟩
  · refine ⟨node, ?_, hp, hinc⟩
    rw [lookup_update, if_neg, hn]
    rintro rfl
    rw [hn] at hnone
    cases hnone
  by_cases hi : i = id
  · subst hi
    obtain rfl := Option.some.inj (hn.symm.trans hn')
    obtain ⟨hp', hinc'⟩ := ha.left hs hn hp he
    exact ⟨_, (lookup_update _ _ _ _ _ _).trans (if_pos rfl), hp', hinc'.trans hinc⟩
  · exact ⟨node, by rw [lookup_update, if_neg hi, hn], hp, hinc⟩

/-- A peer that holds a left node dead goes on doing so. -/
theorem HoldsDead.step {n : UInt64} (h : net.HoldsDead i n j) (hl : net.Left i n) (hs : net.Sound)
    (hj : i ≠ j) (hstep : SwimNet.step net ev = some net') : net'.HoldsDead i n j := by
  obtain ⟨peer, e, hp, he, hd, hle⟩ := h
  obtain ⟨node, hn, -, hinc⟩ := hl
  rcases step_cases hstep with ⟨self, cfg, rfl, hnone, -, rfl⟩ |
    ⟨id, peer', phase, swim, sends, cause, handled, hp', ha, rfl⟩
  · refine ⟨peer, e, ?_, he, hd, hle⟩
    rw [lookup_update, if_neg, hp]
    rintro rfl
    rw [hp] at hnone
    cases hnone
  by_cases hid : j = id
  · subst hid
    obtain rfl := Option.some.inj (hp.symm.trans hp')
    refine ⟨_, e, (lookup_update _ _ _ _ _ _).trans (if_pos rfl), ?_, hd, hle⟩
    refine ha.holdsDead hs hj hp he hd fun g hg hgi => ?_
    exact UInt64.le_trans (hinc ▸ (hs.bounded i node hn).1 g hg hgi) hle
  · exact ⟨peer, e, by rw [lookup_update, if_neg hid, hp], he, hd, hle⟩

/-- In a run in which no incarnation wraps and no leaving node receives an accusation of itself, a
node that has started to shut down never says again that it is alive at a higher incarnation, and
a peer that has taken in its `Leave` never holds it for alive again. -/
theorem leave_final {evs evs' : List SwimEvent} {n : UInt64}
    (hg : Guarded step (fun net ev => net.NoWrap ev ∧ net.Echoless ev) empty (evs ++ evs'))
    (h : exec step empty evs = some net) (hl : net.Left i n)
    (h' : exec step net evs' = some net') :
    (∀ member inc, net'.Carries (.alive member inc) → member.id = i → inc ≤ n) ∧
      ∀ j, i ≠ j → net.HoldsDead i n j → net'.HoldsDead i n j := by
  have hs : net.Sound := hg.of_append.invariant
    (fun _ _ _ hs hw hstep => (hs.step hw.1 hstep).2) sound_empty h
  have hleft : net'.Sound ∧ net'.Left i n := by
    refine @Guarded.invariant _ _ _ _ (fun net => net.Sound ∧ net.Left i n)
      (fun _ _ _ hinv hw hstep => ?_) _ _ _ ⟨hs, hl⟩ (hg.after h) h'
    exact ⟨(hinv.1.step hw.1 hstep).2, hinv.2.step hinv.1 hw.2 hstep⟩
  constructor
  · intro member inc hc hm
    obtain ⟨node, hn, -, hinc⟩ := hleft.2
    exact hinc ▸ (hleft.1.bounded i node hn).1 _ hc hm
  intro j hj hd
  have hdead : net'.Sound ∧ net'.Left i n ∧ net'.HoldsDead i n j := by
    refine @Guarded.invariant _ _ _ _ (fun net => net.Sound ∧ net.Left i n ∧ net.HoldsDead i n j)
      (fun _ _ _ hinv hw hstep => ?_) _ _ _ ⟨hs, hl, hd⟩ (hg.after h) h'
    exact ⟨(hinv.1.step hw.1 hstep).2, hinv.2.1.step hinv.1 hw.2 hstep,
      hinv.2.2.step hinv.2.1 hinv.1 hj hstep⟩
  exact hdead.2.2

section Sample

/-- Node 1 joins node 2, leaves, and 2 takes the `Leave` in. -/
def leaving : List SwimEvent :=
  [.start (ClusterNode.sampleMember 1 "a" 1) sampleSwim,
    .start (ClusterNode.sampleMember 2 "b" 2) sampleSwim,
    .join 1 ["b"], .spawn 1, .spawn 2, .deliver 2 0 0 true, .deliver 1 1 0 true,
    .shutdown 1, .deliver 2 2 0 true]

/-- The answer to the `Leave` reaches node 1, whose probe loop still runs, and its next ping reaches
node 2. -/
def echoing : List SwimEvent :=
  [.deliver 1 3 0 true, .task 1 (.probeStart 0), .deliver 2 4 0 true]

instance (net : SwimNet) : ∀ ev, Decidable (net.Echoless ev)
  | .deliver id k _ _ => inferInstanceAs (Decidable (∀ node ∈ net.nodes.lookup id,
      ∀ dg ∈ net.sent[k]?, node.phase = .leaving →
        dg.env.clusterSecret = node.cfg.clusterSecret → accusations id dg.env.gossip = 0))
  | .start .. | .join .. | .spawn _ | .task .. | .shutdown _ | .stop _ => .isTrue trivial

theorem exec_leaving : ∃ net, exec step empty leaving = some net ∧ net.Left 1 1 ∧
    net.HoldsDead 1 1 2 := by
  have h : ((exec step empty leaving).bind fun net => (net.nodes.lookup 1).bind fun node =>
      (net.nodes.lookup 2).bind fun peer => (peer.swim.view.get 1).map fun e =>
        (node.phase, node.swim.view.localIncarnation, e.state, e.incarnation)) =
      some (.leaving, 1, .dead, 1) := by decide +kernel
  obtain ⟨net, hnet, h⟩ := bind_eq_some_iff.1 h
  obtain ⟨node, hnode, h⟩ := bind_eq_some_iff.1 h
  obtain ⟨peer, hpeer, h⟩ := bind_eq_some_iff.1 h
  obtain ⟨e, he, h⟩ := map_eq_some_iff.1 h
  simp only [Prod.mk.injEq] at h
  obtain ⟨hphase, hinc, hdead, heinc⟩ := h
  exact ⟨net, hnet, ⟨node, hnode, .inl hphase, hinc⟩,
    ⟨peer, e, hpeer, he, hdead, heinc ▸ UInt64.le_refl _⟩⟩

theorem leave_final_stopped : ∃ net net', exec step empty leaving = some net ∧
    exec step net [.stop 1] = some net' ∧ net'.HoldsDead 1 1 2 := by
  obtain ⟨net, hx, hl, hd⟩ := exec_leaving
  have hg : Guarded step (fun net ev => net.NoWrap ev ∧ net.Echoless ev) empty
      (leaving ++ [.stop 1]) := by decide +kernel
  have h : ((exec step empty leaving).bind fun net => exec step net [.stop 1]).isSome := by
    decide +kernel
  rw [hx, bind_some] at h
  obtain ⟨net', hx'⟩ := isSome_iff_exists.1 h
  exact ⟨net, net', hx, hx', (leave_final hg hx hl hx').2 2 (by decide) hd⟩

/-- Node 2 answers the `Leave` with its gossip, the `Leave` among it; node 1 refutes it, and 2
takes 1 for alive again. -/
theorem leave_refuted : ∃ net net' node peer e, exec step empty leaving = some net ∧
    net.Left 1 1 ∧ net.HoldsDead 1 1 2 ∧ exec step net echoing = some net' ∧
    net'.nodes.lookup 1 = some node ∧ node.phase = .leaving ∧
    .alive (ClusterNode.sampleMember 1 "a" 1) 2 ∈ node.swim.queue.events ∧
    net'.nodes.lookup 2 = some peer ∧ peer.swim.view.get 1 = some e ∧ e.state = .alive := by
  obtain ⟨net, hx, hl, hd⟩ := exec_leaving
  have h : ((exec step empty leaving).bind fun net => (exec step net echoing).bind fun net' =>
      (net'.nodes.lookup 1).bind fun node => (net'.nodes.lookup 2).bind fun peer =>
        (peer.swim.view.get 1).map fun e => (node.phase,
          decide (.alive (ClusterNode.sampleMember 1 "a" 1) 2 ∈ node.swim.queue.events), e.state)) =
      some (.leaving, true, .alive) := by decide +kernel
  rw [hx, bind_some] at h
  obtain ⟨net', hx', h⟩ := bind_eq_some_iff.1 h
  obtain ⟨node, hnode, h⟩ := bind_eq_some_iff.1 h
  obtain ⟨peer, hpeer, h⟩ := bind_eq_some_iff.1 h
  obtain ⟨e, he, h⟩ := map_eq_some_iff.1 h
  simp only [Prod.mk.injEq, decide_eq_true_eq] at h
  exact ⟨net, net', node, peer, e, hx, hl, hd, hx', hnode, h.1, h.2.1, hpeer, he, h.2.2⟩

end Sample

end SwimNet

end Kamino
