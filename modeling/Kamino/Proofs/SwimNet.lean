import Kamino.Proofs.Swim
import Kamino.SwimNet

/-!
# What a step of the network does
-/

namespace Kamino

open List Option

deriving instance DecidableEq for MembershipView, GossipQueue, SwimConfig, ProbeStage, Forward,
  SwimDriver, SwimNode, SwimNet

namespace GossipQueue

variable {q : GossipQueue} {g : GossipEvent} {n : ℕ}

def events (q : GossipQueue) : List GossipEvent := q.pending.map (·.1)

theorem events_push (q : GossipQueue) (event : GossipEvent) (n : ℕ) : (q.push event n).events =
    if event ∈ q.events then q.events
    else (if q.pending.length = q.capacity ∧ 0 < q.capacity then q.events.tail else q.events)
      ++ [event] := by
  have hany : q.pending.any (·.1 = event) = true ↔ event ∈ q.events := by simp [events]
  unfold push
  dsimp only
  by_cases h : event ∈ q.events
  · rw [if_pos (hany.2 h), if_pos h, events, List.map_map]
    refine List.map_congr_left fun p _ => ?_
    dsimp only [Function.comp]
    split_ifs <;> rfl
  · rw [if_neg (mt hany.1 h), if_neg h]
    split_ifs <;> simp [events]

theorem mem_events_push {event : GossipEvent} (h : g ∈ (q.push event n).events) :
    g = event ∨ g ∈ q.events := by
  rw [events_push] at h
  split_ifs at h
  · exact .inr h
  · rcases mem_append.1 h with h | h
    · exact .inr (mem_of_mem_tail h)
    · exact .inl (mem_singleton.1 h)
  · rcases mem_append.1 h with h | h
    · exact .inr h
    · exact .inl (mem_singleton.1 h)

theorem event_mem_push (q : GossipQueue) (event : GossipEvent) (n : ℕ) :
    event ∈ (q.push event n).events := by
  rw [events_push]
  split_ifs with h
  · exact h
  all_goals simp

theorem drainForSend_fst (q : GossipQueue) (n : ℕ) : (q.drainForSend n).1 = q.events.take n := by
  simp [drainForSend, events]

theorem events_drained (q : GossipQueue) (n : ℕ) :
    (q.drainForSend n).2.events.Sublist q.events := by
  have hspent : (((q.pending.take n).map fun p => (p.1, p.2 - 1)).filter (0 < ·.2)).Sublist
      ((q.pending.take n).map fun p => (p.1, p.2 - 1)) := filter_sublist
  have hevents : q.events = ((q.pending.take n).map (·.1)) ++ ((q.pending.drop n).map (·.1)) := by
    rw [← map_append, take_append_drop, events]
  simp only [drainForSend, events, splitAt_eq, map_append] at hevents ⊢
  rw [hevents]
  refine .append ?_ (List.Sublist.refl _)
  simpa [List.map_map, Function.comp_def] using hspent.map (·.1)

theorem mem_of_drained (h : g ∈ (q.drainForSend n).1) : g ∈ q.events :=
  List.mem_of_mem_take (drainForSend_fst q n ▸ h)

theorem mem_of_kept (h : g ∈ (q.drainForSend n).2.events) : g ∈ q.events :=
  (events_drained q n).subset h

end GossipQueue

/-- The queue `q` becomes `q'` by giving its gossip to the envelopes, and to envelopes that the
transport does not take. -/
inductive Drained : GossipQueue → List (Envelope × SocketAddr) → GossipQueue → Prop
  | refl {q} : Drained q [] q
  | send {q q' env dst sends} (henv : env.gossip = (q.drainForSend SwimDriver.piggybackBatch).1)
    (h : Drained (q.drainForSend SwimDriver.piggybackBatch).2 sends q') :
    Drained q ((env, dst) :: sends) q'
  | lose {q q' sends} (h : Drained (q.drainForSend SwimDriver.piggybackBatch).2 sends q') :
    Drained q sends q'

variable {p : Envelope × SocketAddr}

namespace Drained

variable {q q' : GossipQueue} {sends : List (Envelope × SocketAddr)} {g : GossipEvent}

theorem mem_kept (h : Drained q sends q') (hg : g ∈ q'.events) : g ∈ q.events := by
  induction h with
  | refl => exact hg
  | send _ _ ih | lose _ ih => exact GossipQueue.mem_of_kept (ih hg)

theorem mem_sent (h : Drained q sends q') (hp : p ∈ sends)
    (hg : g ∈ p.1.gossip) : g ∈ q.events := by
  induction h with
  | refl => cases hp
  | send henv _ ih =>
    rcases mem_cons.1 hp with rfl | hp
    · exact GossipQueue.mem_of_drained (henv ▸ hg)
    · exact GossipQueue.mem_of_kept (ih hp)
  | lose _ ih => exact GossipQueue.mem_of_kept (ih hp)

end Drained

namespace SwimDriver

variable {cfg : SwimConfig} {d d' : SwimDriver} {l : UInt64}
  {p : SwimDriver × List (Envelope × SocketAddr)}

theorem drained_handleMessage (d : SwimDriver) (cfg : SwimConfig) (l : UInt64) (src : SocketAddr)
    (sent : Bool) (msg : SwimMessage) :
    ∃ d₀, (d₀ = d ∨ (∃ seq, msg = .ping seq joinTargetSentinel) ∧ d₀ = d.announce l) ∧
      Drained d₀.queue (d.handleMessage cfg l src sent msg).2
        (d.handleMessage cfg l src sent msg).1.queue := by
  cases msg with
  | ping seq target =>
    simp only [handleMessage]
    split_ifs with h₁ h₂
    · exact ⟨d, .inl rfl, .refl⟩
    · exact ⟨d.announce l, .inr ⟨⟨seq, by rw [h₂]⟩, rfl⟩, .send rfl .refl⟩
    · exact ⟨d, .inl rfl, .send rfl .refl⟩
  | ack seq sender | indirectAck seq target sender =>
    refine ⟨d, .inl rfl, ?_⟩
    simp only [handleMessage, completeInflight]
    split_ifs <;> exact .refl
  | pingReq seq target addr =>
    refine ⟨d, .inl rfl, ?_⟩
    simp only [handleMessage]
    split_ifs
    · exact .send rfl .refl
    · exact .lose .refl

theorem drained_forwardAck {i : ℕ} (h : d.forwardAck cfg i = some p) :
    Drained d.queue p.2 p.1.queue := by
  obtain ⟨task, -, h⟩ := bind_eq_some_iff.1 h
  split_ifs at h
  dsimp only at h
  split at h
  · exact some.inj h ▸ .lose .refl
  · exact some.inj h ▸ .send rfl .refl

theorem drained_probeStart {pick : ℕ} (h : d.probeStart cfg pick = some p) :
    Drained d.queue p.2 p.1.queue := by
  unfold probeStart at h
  split at h
  · split at h
    · exact some.inj h ▸ .refl
    · obtain ⟨target, -, rfl⟩ := map_eq_some_iff.1 h
      exact .send rfl .refl
  · cases h

theorem drained_requestAll (l : UInt64) (msg : SwimMessage) (proxies : List ClusterMember)
    (d : SwimDriver) : Drained d.queue (requestAll cfg l msg proxies d).2
      (requestAll cfg l msg proxies d).1.queue := by
  induction proxies generalizing d with
  | nil => exact .refl
  | cons proxy proxies ih => exact .send rfl (ih (d.compose cfg l msg).2)

theorem probeTimeout_cases {now : UInt64} {order : List ℕ}
    (h : d.probeTimeout cfg now order = some p) :
    p.1.view = d.view ∧ Drained d.queue p.2 p.1.queue ∨
      ∃ (d₀ : SwimDriver) (target : ClusterMember), d₀.view = d.view ∧ d₀.queue = d.queue ∧
        p.2 = [] ∧
        p.1.view = (d₀.suspectTarget cfg now target).view ∧
        p.1.queue = (d₀.suspectTarget cfg now target).queue := by
  unfold probeTimeout at h
  split at h
  · rename_i target seq l _ _
    dsimp only at h
    split_ifs at h
    split at h
    · rw [← some.inj h]
      exact .inr ⟨d.forgetInflight seq, target, rfl, rfl, rfl, rfl, rfl⟩
    · rw [← some.inj h]
      exact .inl ⟨view_requestAll _ _ _ _,
        drained_requestAll l _ _ (d.forgetInflight seq).register.2⟩
  · rename_i target seq _ _ _
    split_ifs at h
    rw [← some.inj h]
    exact .inr ⟨d.forgetInflight seq, target, rfl, rfl, rfl, rfl, rfl⟩
  · cases h

theorem view_tickReaper (d : SwimDriver) (now : UInt64) :
    (d.tickReaper now).2.view = (d.view.reapSuspects (nowNs now)).2 := by
  simp only [tickReaper]
  split
  · rfl
  · exact List.foldlRecOn (motive := fun d' : SwimDriver =>
      d'.view = (d.view.reapSuspects (nowNs now)).2) _ _
      rfl fun _ hd _ _ => hd

theorem localIncarnation_suspectTarget (hv : d.view.WF) (now : UInt64) (target : ClusterMember) :
    (d.suspectTarget cfg now target).view.localIncarnation = d.view.localIncarnation := by
  unfold suspectTarget
  split
  · rename_i l e _ _
    have h := MembershipView.localIncarnation_apply hv (.suspect target.id e.incarnation l)
      (nowNs now) cfg.suspicionTimeoutNs
    dsimp only
    split <;> rename_i heq <;> rw [heq] at h <;> exact h
  · rfl

end SwimDriver

variable {t : SwimTask}

namespace SwimTask

open SwimDriver MembershipView

variable {cfg : SwimConfig} {d : SwimDriver} {p : SwimDriver × List (Envelope × SocketAddr)}

theorem run_view (h : t.run cfg d = some p) :
    Takes d.view [] p.1.view ∨ ∃ now, p.1.view = (d.view.reapSuspects now).2 := by
  cases t with
  | forwardAck i => exact .inl (view_forwardAck h ▸ .refl)
  | forwardTimeout i =>
    obtain ⟨d', hd, rfl⟩ := map_eq_some_iff.1 h
    exact .inl ((forwardTimeout_kept hd).1 ▸ .refl)
  | probeStart pick => exact .inl (view_probeStart h ▸ .refl)
  | probeAck =>
    obtain ⟨d', hd, rfl⟩ := map_eq_some_iff.1 h
    exact .inl ((probeAck_kept hd).1 ▸ .refl)
  | probeTimeout now order => exact .inl (takes_probeTimeout h)
  | reap now =>
    rw [← some.inj h]
    exact .inr ⟨_, view_tickReaper d now⟩

theorem localIncarnation_run (hv : d.view.WF) (h : t.run cfg d = some p) :
    p.1.view.localIncarnation = d.view.localIncarnation := by
  cases t with
  | forwardAck i => rw [view_forwardAck h]
  | forwardTimeout i =>
    obtain ⟨d', hd, rfl⟩ := map_eq_some_iff.1 h
    rw [(forwardTimeout_kept hd).1]
  | probeStart pick => rw [view_probeStart h]
  | probeAck =>
    obtain ⟨d', hd, rfl⟩ := map_eq_some_iff.1 h
    rw [(probeAck_kept hd).1]
  | probeTimeout now order =>
    rcases probeTimeout_cases h with ⟨hv', -⟩ | ⟨d₀, target, hv', -, -, hv'', -⟩
    · rw [hv']
    · rw [hv'', localIncarnation_suspectTarget (hv' ▸ hv), hv']
  | reap now =>
    rw [← some.inj h, view_tickReaper, localIncarnation_reap]

end SwimTask

namespace SwimNet

variable {net net' : SwimNet} {ev : SwimEvent}

def actor : SwimEvent → UInt64
  | .start self _ => self.id
  | .join id _ | .spawn id | .deliver id _ _ _ | .task id _ | .shutdown id | .stop id => id

/-- What the node `id` can do: the event, the node's new phase and state, what it sends in answer to
what, and the record of the handled datagrams. -/
inductive Acts (net : SwimNet) (id : UInt64) (node : SwimNode) : SwimEvent → NodePhase →
    SwimDriver → List (Envelope × SocketAddr) → Option ℕ → List (UInt64 × ℕ) → Prop
  | join (peers : List SocketAddr) (h : node.phase = .joining) :
    Acts net id node (.join id peers) .joining node.swim
      (node.swim.joinRequests node.cfg node.self peers) none net.handled
  | spawn (h : node.phase = .joining) :
    Acts net id node (.spawn id) .running node.swim [] none net.handled
  | deliver {k : ℕ} {dg : Datagram} (now : UInt64) (sent : Bool) (hk : net.sent[k]? = some dg)
    (h : node.looping) (hdst : dg.dst = node.self.discoveryAddr) :
    Acts net id node (.deliver id k now sent) node.phase
      (node.swim.handleEnvelope node.cfg now dg.env dg.src sent).1
      (node.swim.handleEnvelope node.cfg now dg.env dg.src sent).2 (some k)
      (net.handle id node k dg).handled
  | task {t : SwimTask} {p : SwimDriver × List (Envelope × SocketAddr)}
    (h : node.looping ∨ node.phase = .stopped ∧ t.detached)
    (hp : t.run node.cfg node.swim = some p) :
    Acts net id node (.task id t) node.phase p.1 p.2 none net.handled
  | shutdown (h : node.phase = .running) :
    Acts net id node (.shutdown id) .leaving (node.swim.leave node.cfg node.self.id).1
      (node.swim.leave node.cfg node.self.id).2 none net.handled
  | stop (h : node.phase = .leaving) :
    Acts net id node (.stop id) .stopped node.swim [] none net.handled

variable {id : UInt64} {node : SwimNode} {k : ℕ}

theorem Acts.actor_eq {phase : NodePhase} {swim : SwimDriver}
    {sends : List (Envelope × SocketAddr)} {cause : Option ℕ} {handled : List (UInt64 × ℕ)}
    (h : Acts net id node ev phase swim sends cause handled) : actor ev = id := by
  cases h <;> rfl

/-- One node acts in a step, or a node starts. -/
theorem step_cases (h : step net ev = some net') :
    (∃ self cfg, ev = .start self cfg ∧ net.nodes.lookup self.id = none ∧
      net.addressTaken self.discoveryAddr = false ∧
      net' = net.update self.id ⟨self, cfg, .joining, .assemble self⟩ [] none) ∨
    ∃ id node phase swim sends cause handled, net.nodes.lookup id = some node ∧
      Acts net id node ev phase swim sends cause handled ∧
      net' = { net with handled }.update id { node with phase, swim } sends cause := by
  cases ev with
  | start self cfg =>
    rw [step] at h
    split_ifs at h with hc
    obtain ⟨hl, ha⟩ := not_or.1 hc
    refine .inl ⟨self, cfg, rfl, ?_, ?_, (some.inj h).symm⟩
    · simpa using hl
    · simpa using ha
  | join id peers =>
    obtain ⟨node, hn, h⟩ := bind_eq_some_iff.1 h
    split_ifs at h with hp
    have hp := not_not.1 hp
    refine .inr ⟨id, node, _, _, _, _, _, hn, .join peers hp, ?_⟩
    rw [← some.inj h, ← hp]
  | spawn id =>
    obtain ⟨node, hn, h⟩ := bind_eq_some_iff.1 h
    split_ifs at h with hp
    exact .inr ⟨id, node, _, _, _, _, _, hn, .spawn (not_not.1 hp), (some.inj h).symm⟩
  | deliver id k now sent =>
    obtain ⟨node, hn, h⟩ := bind_eq_some_iff.1 h
    obtain ⟨dg, hk, h⟩ := bind_eq_some_iff.1 h
    split_ifs at h with hc
    obtain ⟨hl, hdst⟩ := not_or.1 hc
    refine .inr ⟨id, node, _, _, _, _, _, hn,
      .deliver now sent hk (not_not.1 hl) (not_not.1 hdst), ?_⟩
    rw [← some.inj h]
    unfold handle
    split_ifs <;> rfl
  | task id t =>
    obtain ⟨node, hn, h⟩ := bind_eq_some_iff.1 h
    split_ifs at h with hc
    obtain ⟨p, hp, h⟩ := bind_eq_some_iff.1 h
    exact .inr ⟨id, node, _, _, _, _, _, hn, .task hc hp, (some.inj h).symm⟩
  | shutdown id =>
    obtain ⟨node, hn, h⟩ := bind_eq_some_iff.1 h
    split_ifs at h with hp
    exact .inr ⟨id, node, _, _, _, _, _, hn, .shutdown (not_not.1 hp), (some.inj h).symm⟩
  | stop id =>
    obtain ⟨node, hn, h⟩ := bind_eq_some_iff.1 h
    split_ifs at h with hp
    exact .inr ⟨id, node, _, _, _, _, _, hn, .stop (not_not.1 hp), (some.inj h).symm⟩

theorem step_task
    {p : SwimDriver × List (Envelope × SocketAddr)} (hn : net.nodes.lookup id = some node)
    (hl : node.looping) (hp : t.run node.cfg node.swim = some p) :
    step net (.task id t) = some (net.update id { node with swim := p.1 } p.2 none) := by
  simp [step, hn, hl, hp]

theorem step_deliver {dg : Datagram} (now : UInt64)
    (sent : Bool) (hn : net.nodes.lookup id = some node) (hl : node.looping)
    (hk : net.sent[k]? = some dg) (hdst : dg.dst = node.self.discoveryAddr) :
    step net (.deliver id k now sent) = some ((net.handle id node k dg).update id
      { node with swim := (node.swim.handleEnvelope node.cfg now dg.env dg.src sent).1 }
      (node.swim.handleEnvelope node.cfg now dg.env dg.src sent).2 (some k)) := by
  simp [step, hn, hk, hl, hdst]

theorem lookup_update (net : SwimNet) (id a : UInt64) (node : SwimNode)
    (sends : List (Envelope × SocketAddr)) (cause : Option ℕ) :
    (net.update id node sends cause).nodes.lookup a =
      if a = id then some node else net.nodes.lookup a :=
  HMap.lookup_insert_eq_ite _ _ _ _

theorem sent_update {dg : Datagram} (id : UInt64) (node : SwimNode)
    (sends : List (Envelope × SocketAddr)) (cause : Option ℕ) (h : net.sent[k]? = some dg) :
    (net.update id node sends cause).sent[k]? = some dg := by
  obtain ⟨hlt, -⟩ := List.getElem?_eq_some_iff.1 h
  rw [update, List.getElem?_append_left hlt, h]

theorem length_update (net : SwimNet) (id : UInt64) (node : SwimNode)
    (sends : List (Envelope × SocketAddr)) (cause : Option ℕ) :
    (net.update id node sends cause).sent.length = net.sent.length + sends.length := by
  rw [update, length_append, length_map]

theorem sent_update_last (id : UInt64) (node : SwimNode)
    (cause : Option ℕ) (hk : net.sent.length = k) : (net.update id node [p] cause).sent[k]? =
      some ⟨node.self.discoveryAddr, p.2, p.1, cause⟩ := by
  rw [update, map_singleton, ← hk, getElem?_concat_length]

theorem nodes_handle (net : SwimNet) (id : UInt64) (node : SwimNode) (k : ℕ) (dg : Datagram) :
    (net.handle id node k dg).nodes = net.nodes := by
  unfold handle
  split_ifs <;> rfl

theorem sent_handle (net : SwimNet) (id : UInt64) (node : SwimNode) (k : ℕ) (dg : Datagram) :
    (net.handle id node k dg).sent = net.sent := by
  unfold handle
  split_ifs <;> rfl

end SwimNet

end Kamino
