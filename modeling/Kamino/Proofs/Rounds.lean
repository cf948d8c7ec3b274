import Kamino.Proofs.SwimNet

/-!
# Two nodes that probe each other for ever

A node pings another again and again, and every datagram arrives.
-/

namespace Kamino

open Runs SwimNet

namespace SwimDriver

variable (cfg : SwimConfig) (now : UInt64)

def resting (view : MembershipView) (queue : GossipQueue) (seq : UInt64) : SwimDriver :=
  ⟨view, queue, [], [], seq, .idle, []⟩

variable {d : SwimDriver} {id : UInt64}

theorem applyEvent_frame {d₀ : SwimDriver} (hv : d.view = d₀.view) (hq : d.queue = d₀.queue)
    (g : GossipEvent) : d₀.applyEvent cfg now g =
      { d₀ with
        view := (d.applyEvent cfg now g).view
        queue := (d.applyEvent cfg now g).queue } := by
  simp only [applyEvent, hv]
  split
  · simp [pushGossip, hq]
  · simp [pushGossip, hq]
  · simp only [refute]
    split <;> simp [pushGossip, hq]
  · simp [hq]

theorem applyPiggyback_frame : ∀ (gossip : List GossipEvent) {d d₀ : SwimDriver},
    d.view = d₀.view → d.queue = d₀.queue → d₀.applyPiggyback cfg now gossip =
      { d₀ with
        view := (d.applyPiggyback cfg now gossip).view
        queue := (d.applyPiggyback cfg now gossip).queue }
  | [], d, d₀, hv, hq => by
    change d₀ = { d₀ with view := d.view, queue := d.queue }
    rw [hv, hq]
  | g :: gossip, d, d₀, hv, hq => by
    have hg := applyEvent_frame cfg now hv hq g
    have hview : (d.applyEvent cfg now g).view = (d₀.applyEvent cfg now g).view := by rw [hg]
    refine (applyPiggyback_frame gossip hview (by rw [hg])).trans ?_
    rw [hg]
    rfl

theorem probeStart_eq {target : ClusterMember} {pick : ℕ} (hp : d.probe = .idle)
    (hid : d.view.localId = some id) (ht : (d.candidates [id])[pick]? = some target) :
    d.probeStart cfg pick = some ({ d with
          probeSeq := d.probeSeq + 1
          inFlight := d.probeSeq :: d.inFlight
          queue := (d.queue.drainForSend piggybackBatch).2
          probe := .direct target d.probeSeq },
        [(⟨cfg.clusterSecret, id, .ping d.probeSeq target.id,
          (d.queue.drainForSend piggybackBatch).1⟩, target.discoveryAddr)]) := by
  rw [probeStart, hp, hid]
  dsimp only
  split
  · rename_i hnil
    rw [hnil] at ht
    cases ht
  · rw [ht]
    rfl

variable {gossip : List GossipEvent}

theorem handlePing_eq {seq sender : UInt64} (src : SocketAddr) (sent : Bool)
    (hid : (d.applyPiggyback cfg now gossip).view.localId = some id)
    (hne : id ≠ joinTargetSentinel) :
    d.handleEnvelope cfg now ⟨cfg.clusterSecret, sender, .ping seq id, gossip⟩ src sent =
      ({ d.applyPiggyback cfg now gossip with
          queue := ((d.applyPiggyback cfg now gossip).queue.drainForSend piggybackBatch).2 },
        [(⟨cfg.clusterSecret, id, .ack seq id,
          ((d.applyPiggyback cfg now gossip).queue.drainForSend piggybackBatch).1⟩, src)]) := by
  simp only [handleEnvelope, hid, handleMessage, ne_eq, not_true_eq_false, and_false, if_false,
    if_neg hne]
  rfl

theorem handleAck_eq {seq sender : UInt64} (src : SocketAddr) (sent : Bool)
    (hid : (d.applyPiggyback cfg now gossip).view.localId = some id) (from_ : UInt64) :
    d.handleEnvelope cfg now ⟨cfg.clusterSecret, sender, .ack seq from_, gossip⟩ src sent =
      ((d.applyPiggyback cfg now gossip).completeInflight seq, []) := by
  simp [handleEnvelope, hid, handleMessage, ne_eq, not_true_eq_false]

end SwimDriver

/-- Two nodes, the first of which pings the second. What they know may depend on when they last
heard of each other. -/
structure Exchange where
  cfg : SwimConfig
  first : ClusterMember
  second : ClusterMember
  view : UInt64 → MembershipView
  queue : GossipQueue
  peer : UInt64 → SwimDriver

namespace Exchange

open SwimDriver

variable (x : Exchange)

def asks : List GossipEvent := (x.queue.drainForSend piggybackBatch).1

/-- The second node when it has taken the ping's gossip in. -/
def heard (last now : UInt64) : SwimDriver := (x.peer last).applyPiggyback x.cfg now x.asks

def waiting (last seq : UInt64) : SwimDriver :=
  ⟨x.view last, (x.queue.drainForSend piggybackBatch).2, [seq], [], seq + 1,
    .direct x.second seq, []⟩

/-- A round leaves what both nodes know and have queued as it was, up to the time; `answers` is the
gossip on the answer. -/
structure Repeats (x : Exchange) (answers : List GossipEvent) : Prop where
  ne : x.first.id ≠ x.second.id
  second_ne : x.second.id ≠ joinTargetSentinel
  first_id : ∀ last, (x.view last).localId = some x.first.id
  second_id : ∀ last, (x.peer last).view.localId = some x.second.id
  target : ∀ last, ((x.waiting last 0).candidates [x.first.id])[0]? = some x.second
  answers_eq : ∀ last now, ((x.heard last now).queue.drainForSend piggybackBatch).1 = answers
  heard_eq : ∀ last now, { x.heard last now with
    queue := ((x.heard last now).queue.drainForSend piggybackBatch).2 } = x.peer now
  after_view : ∀ last now, ((x.waiting last 0).applyPiggyback x.cfg now answers).view = x.view now
  after_queue : ∀ last now, ((x.waiting last 0).applyPiggyback x.cfg now answers).queue = x.queue

/-- Before a round, with the next sequence number and `k` datagrams sent so far. -/
structure Before (x : Exchange) (net : SwimNet) (last seq : UInt64) (k : ℕ) : Prop where
  first : net.nodes.lookup x.first.id =
    some ⟨x.first, x.cfg, .running, resting (x.view last) x.queue seq⟩
  second : net.nodes.lookup x.second.id = some ⟨x.second, x.cfg, .running, x.peer last⟩
  length : net.sent.length = k

structure Pinged (x : Exchange) (net : SwimNet) (last seq : UInt64) (k : ℕ) : Prop where
  first : net.nodes.lookup x.first.id = some ⟨x.first, x.cfg, .running, x.waiting last seq⟩
  second : net.nodes.lookup x.second.id = some ⟨x.second, x.cfg, .running, x.peer last⟩
  length : net.sent.length = k + 1
  ping : net.sent[k]? = some ⟨x.first.discoveryAddr, x.second.discoveryAddr,
    ⟨x.cfg.clusterSecret, x.first.id, .ping seq x.second.id, x.asks⟩, none⟩

structure Answered (x : Exchange) (answers : List GossipEvent) (net : SwimNet)
    (last now seq : UInt64) (k : ℕ) : Prop where
  first : net.nodes.lookup x.first.id = some ⟨x.first, x.cfg, .running, x.waiting last seq⟩
  second : net.nodes.lookup x.second.id = some ⟨x.second, x.cfg, .running, x.peer now⟩
  length : net.sent.length = k + 2
  ack : net.sent[k + 1]? = some ⟨x.second.discoveryAddr, x.first.discoveryAddr,
    ⟨x.cfg.clusterSecret, x.second.id, .ack seq x.second.id, answers⟩, some k⟩

structure Acked (x : Exchange) (net : SwimNet) (now seq : UInt64) (k : ℕ) : Prop where
  first : net.nodes.lookup x.first.id = some ⟨x.first, x.cfg, .running,
    ⟨x.view now, x.queue, [], [seq], seq + 1, .direct x.second seq, []⟩⟩
  second : net.nodes.lookup x.second.id = some ⟨x.second, x.cfg, .running, x.peer now⟩
  length : net.sent.length = k + 2

variable {x} {answers : List GossipEvent} {net : SwimNet} {last seq : UInt64} {k : ℕ}

section

variable (hx : x.Repeats answers)
include hx

theorem Before.step (h : x.Before net last seq k) :
    ∃ net', step net (.task x.first.id (.probeStart 0)) = some net' ∧ x.Pinged net' last seq k := by
  refine ⟨_, step_task h.first rfl
    (probeStart_eq x.cfg rfl (hx.first_id last) (hx.target last)), ?_, ?_, ?_, ?_⟩
  · rw [lookup_update, if_pos rfl]
    rfl
  · rw [lookup_update, if_neg hx.ne.symm, h.second]
  · rw [length_update, h.length]
    rfl
  · exact sent_update_last _ _ _ h.length

theorem Pinged.step (h : x.Pinged net last seq k) (now : UInt64) :
    ∃ net', step net (.deliver x.second.id k now true) = some net' ∧
      x.Answered answers net' last now seq k := by
  have hid : (x.heard last now).view.localId = some x.second.id := by
    rw [← hx.second_id now, ← hx.heard_eq last now]
  have hhandle : (x.peer last).handleEnvelope x.cfg now
      ⟨x.cfg.clusterSecret, x.first.id, .ping seq x.second.id, x.asks⟩ x.first.discoveryAddr true =
        (x.peer now, [(⟨x.cfg.clusterSecret, x.second.id, .ack seq x.second.id, answers⟩,
          x.first.discoveryAddr)]) := by
    rw [handlePing_eq x.cfg now _ _ hid hx.second_ne, ← hx.answers_eq last now]
    exact Prod.ext (hx.heard_eq last now) rfl
  refine ⟨_, step_deliver now true h.second rfl h.ping rfl, ?_, ?_, ?_, ?_⟩ <;> dsimp only <;>
    rw [hhandle]
  · rw [lookup_update, if_neg hx.ne, nodes_handle, h.first]
  · rw [lookup_update, if_pos rfl]
  · rw [length_update, sent_handle, h.length]
    rfl
  · exact sent_update_last _ _ _ (by rw [sent_handle, h.length])

theorem Answered.step {now : UInt64} (h : x.Answered answers net last now seq k) :
    ∃ net', step net (.deliver x.first.id (k + 1) now true) = some net' ∧
      x.Acked net' now seq k := by
  have hframe : (x.waiting last seq).applyPiggyback x.cfg now answers =
      ⟨x.view now, x.queue, [seq], [], seq + 1, .direct x.second seq, []⟩ := by
    have hwait : (x.waiting last seq).applyPiggyback x.cfg now answers =
        { x.waiting last seq with
          view := ((x.waiting last 0).applyPiggyback x.cfg now answers).view
          queue := ((x.waiting last 0).applyPiggyback x.cfg now answers).queue } :=
      applyPiggyback_frame x.cfg now answers (d := x.waiting last 0) rfl rfl
    rw [hwait, hx.after_view, hx.after_queue]
    rfl
  have hhandle : (x.waiting last seq).handleEnvelope x.cfg now
      ⟨x.cfg.clusterSecret, x.second.id, .ack seq x.second.id, answers⟩ x.second.discoveryAddr
        true = (⟨x.view now, x.queue, [], [seq], seq + 1, .direct x.second seq, []⟩, []) := by
    rw [handleAck_eq x.cfg now _ _ (by rw [hframe]; exact hx.first_id now), hframe]
    simp [completeInflight, forgetInflight]
  refine ⟨_, step_deliver now true h.first rfl h.ack rfl, ?_, ?_, ?_⟩ <;> dsimp only <;>
    rw [hhandle]
  · rw [lookup_update, if_pos rfl]
  · rw [lookup_update, if_neg hx.ne.symm, nodes_handle, h.second]
  · rw [length_update, sent_handle, h.length]
    rfl

theorem Acked.step {now : UInt64} (h : x.Acked net now seq k) :
    ∃ net', step net (.task x.first.id .probeAck) = some net' ∧
      x.Before net' now (seq + 1) (k + 2) := by
  have hrun : SwimTask.probeAck.run x.cfg
      ⟨x.view now, x.queue, [], [seq], seq + 1, .direct x.second seq, []⟩ =
        some (resting (x.view now) x.queue (seq + 1), []) := by
    simp [SwimTask.run, probeAck, consume, resting]
  refine ⟨_, step_task h.first rfl hrun, ?_, ?_, ?_⟩
  · rw [lookup_update, if_pos rfl]
  · rw [lookup_update, if_neg hx.ne.symm, h.second]
  · rw [length_update, h.length]
    rfl

end

/-- The steps of a round that starts when `k` datagrams have been sent. -/
def event (x : Exchange) (now : UInt64) (k : ℕ) : ℕ → SwimEvent
  | 0 => .task x.first.id (.probeStart 0)
  | 1 => .deliver x.second.id k now true
  | 2 => .deliver x.first.id (k + 1) now true
  | _ => .task x.first.id .probeAck

/-- The steps of the rounds; round `r` takes place at time `clock r`. -/
def events (x : Exchange) (clock : ℕ → UInt64) (k t : ℕ) : SwimEvent :=
  x.event (clock (t / 4)) (k + 2 * (t / 4)) (t % 4)

def state (x : Exchange) (clock : ℕ → UInt64) (net : SwimNet) (k : ℕ) : ℕ → SwimNet
  | 0 => net
  | t + 1 => (step (x.state clock net k t) (x.events clock k t)).getD net

variable {clock : ℕ → UInt64} {c r : ℕ}

theorem events_round (x : Exchange) (clock : ℕ → UInt64) (k r : ℕ) (hc : c < 4) :
    x.events clock k (4 * r + c) = x.event (clock r) (k + 2 * r) c := by
  rw [events, Nat.mul_add_div (by decide), Nat.div_eq_of_lt hc, Nat.mul_add_mod,
    Nat.mod_eq_of_lt hc, Nat.add_zero]

theorem state_succ {net' : SwimNet} (hc : c < 4)
    (h : step (x.state clock net k (4 * r + c)) (x.event (clock r) (k + 2 * r) c) = some net') :
    x.state clock net k (4 * r + c + 1) = net' := by
  rw [state, events_round x clock k r hc, h, Option.getD_some]

structure Round (x : Exchange) (answers : List GossipEvent) (S : ℕ → SwimNet) (r : ℕ)
    (last now seq : UInt64) (k : ℕ) : Prop where
  before : x.Before (S (4 * r)) last seq k
  pinged : x.Pinged (S (4 * r + 1)) last seq k
  answered : x.Answered answers (S (4 * r + 2)) last now seq k
  acked : x.Acked (S (4 * r + 3)) now seq k
  next : x.Before (S (4 * r + 4)) now (seq + 1) (k + 2)

theorem round_of_before (hx : x.Repeats answers)
    (h : x.Before (x.state clock net k (4 * r)) last seq (k + 2 * r)) :
    x.Round answers (x.state clock net k) r last (clock r) seq (k + 2 * r) := by
  obtain ⟨n₁, h₁, hpinged⟩ := h.step hx
  have s₁ := state_succ (by decide : 0 < 4) h₁
  rw [← s₁] at hpinged
  obtain ⟨n₂, h₂, hanswered⟩ := hpinged.step hx (clock r)
  have s₂ := state_succ (by decide : 1 < 4) h₂
  rw [← s₂] at hanswered
  obtain ⟨n₃, h₃, hacked⟩ := hanswered.step hx
  have s₃ := state_succ (by decide : 2 < 4) h₃
  rw [← s₃] at hacked
  obtain ⟨n₄, h₄, hnext⟩ := hacked.step hx
  have s₄ := state_succ (by decide : 3 < 4) h₄
  rw [← s₄] at hnext
  exact ⟨h, hpinged, hanswered, hacked, hnext⟩

/-- Each of the four events of a round is a step. -/
theorem Round.step (hx : x.Repeats answers)
    (h : x.Round answers (x.state clock net k) r last (clock r) seq (k + 2 * r)) (hc : c < 4) :
    step (x.state clock net k (4 * r + c)) (x.events clock k (4 * r + c)) =
      some (x.state clock net k (4 * r + c + 1)) := by
  have hstep : ∃ net', SwimNet.step (x.state clock net k (4 * r + c))
      (x.event (clock r) (k + 2 * r) c) = some net' := by
    obtain rfl | rfl | rfl | rfl : c = 0 ∨ c = 1 ∨ c = 2 ∨ c = 3 := by omega
    · exact (h.before.step hx).imp fun _ => And.left
    · exact (h.pinged.step hx (clock r)).imp fun _ => And.left
    · exact (h.answered.step hx).imp fun _ => And.left
    · exact (h.acked.step hx).imp fun _ => And.left
  obtain ⟨net', hnet⟩ := hstep
  rw [events_round x clock k r hc, hnet, state_succ hc hnet]

/-- The two nodes go through one round after another. -/
theorem rounds (hx : x.Repeats answers) (h : x.Before net last seq k) (clock : ℕ → UInt64) :
    ∀ r, ∃ last seq, x.Round answers (x.state clock net k) r last (clock r) seq (k + 2 * r)
  | 0 => ⟨last, seq, round_of_before hx h⟩
  | r + 1 =>
    let ⟨_, _, hr⟩ := rounds hx h clock r
    ⟨_, _, round_of_before hx hr.next⟩

/-- So the exchange goes on for ever. -/
theorem isRun (hx : x.Repeats answers) (h : x.Before net last seq k) (clock : ℕ → UInt64) :
    IsRun step (x.state clock net k) (x.events clock k) := by
  intro t
  obtain ⟨_, _, hr⟩ := rounds hx h clock (t / 4)
  have := hr.step hx (Nat.mod_lt t (by decide : 0 < 4))
  rwa [Nat.div_add_mod] at this

end Exchange

end Kamino
