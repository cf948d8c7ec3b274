import Kamino.Proofs.Coordinator
import Kamino.Proofs.Membership
import Kamino.Swim

/-!
# What a node's loops do to its view
-/

namespace Kamino

open Runs Option List SwimDriver

namespace SwimDriver

open MembershipView

variable {cfg : SwimConfig} {d d' : SwimDriver}

theorem view_refute (d : SwimDriver) : d.refute.view = d.view.bumpLocalIncarnation.2 := by
  unfold refute
  dsimp only
  split <;> rfl

theorem takes_applyEvent (now : UInt64) (g : GossipEvent) :
    Takes d.view [g] (d.applyEvent cfg now g).view := by
  have h := Takes.refl.hear (v := d.view) g (nowNs now) cfg.suspicionTimeoutNs
  unfold applyEvent
  split <;> rename_i hv <;> rw [hv] at h
  · exact h
  · exact h
  · rw [view_refute]
    exact h.refute
  · exact h

theorem takes_applyPiggyback (now : UInt64) (events : List GossipEvent) (d : SwimDriver) :
    Takes d.view events (d.applyPiggyback cfg now events).view := by
  induction events generalizing d with
  | nil => exact .refl
  | cons g events ih => exact (takes_applyEvent now g).trans (ih _)

theorem view_announce (l : UInt64) : (d.announce l).view = d.view := by
  unfold announce
  split <;> rfl

theorem view_handleMessage (l : UInt64) (src : SocketAddr) (sent : Bool) (msg : SwimMessage) :
    (d.handleMessage cfg l src sent msg).1.view = d.view := by
  cases msg with
  | ping seq target =>
    simp only [handleMessage]
    split_ifs
    · rfl
    · exact view_announce l
    · rfl
  | ack seq sender | indirectAck seq target sender =>
    simp only [handleMessage, completeInflight]
    split_ifs <;> rfl
  | pingReq seq target addr =>
    simp only [handleMessage]
    split_ifs <;> rfl

theorem takes_handleEnvelope (now : UInt64) (env : Envelope) (src : SocketAddr) (sent : Bool) :
    Takes d.view (if env.clusterSecret = cfg.clusterSecret then env.gossip else [])
      (d.handleEnvelope cfg now env src sent).1.view := by
  simp only [handleEnvelope]
  by_cases h : env.clusterSecret = cfg.clusterSecret
  · rw [if_pos h, if_neg (not_not.2 h)]
    split
    · exact takes_applyPiggyback now env.gossip d
    · rw [view_handleMessage]
      exact takes_applyPiggyback now env.gossip d
  · rw [if_neg h, if_pos h]
    exact .refl

theorem takes_suspectTarget (now : UInt64) (target : ClusterMember) :
    Takes d.view [] (d.suspectTarget cfg now target).view := by
  unfold suspectTarget
  split
  · rename_i l e _ he
    have h := Takes.refl.suspect (v := d.view) he l (nowNs now) cfg.suspicionTimeoutNs
    dsimp only
    split <;> rename_i hv <;> rw [hv] at h <;> exact h
  · exact .refl

theorem view_requestAll (l : UInt64) (msg : SwimMessage) (proxies : List ClusterMember)
    (d : SwimDriver) : (requestAll cfg l msg proxies d).1.view = d.view := by
  induction proxies generalizing d with
  | nil => rfl
  | cons proxy proxies ih => exact ih _

variable {p : SwimDriver × List (Envelope × SocketAddr)}

theorem view_forwardAck {i : ℕ} (h : d.forwardAck cfg i = some p) : p.1.view = d.view := by
  obtain ⟨task, -, h⟩ := bind_eq_some_iff.1 h
  split_ifs at h
  dsimp only at h
  split at h <;> exact some.inj h ▸ rfl

theorem forwardTimeout_kept {i : ℕ} (h : d.forwardTimeout i = some d') :
    d'.view = d.view ∧ d'.queue = d.queue := by
  obtain ⟨task, -, h⟩ := bind_eq_some_iff.1 h
  split_ifs at h
  exact some.inj h ▸ ⟨rfl, rfl⟩

theorem view_probeStart {pick : ℕ} (h : d.probeStart cfg pick = some p) : p.1.view = d.view := by
  unfold probeStart at h
  split at h
  · split at h
    · exact some.inj h ▸ rfl
    · obtain ⟨target, -, rfl⟩ := map_eq_some_iff.1 h
      rfl
  · cases h

theorem probeAck_kept (h : d.probeAck = some d') : d'.view = d.view ∧ d'.queue = d.queue := by
  unfold probeAck at h
  split at h
  · split_ifs at h
    exact some.inj h ▸ ⟨rfl, rfl⟩
  · split_ifs at h
    exact some.inj h ▸ ⟨rfl, rfl⟩
  · cases h

theorem takes_probeTimeout {now : UInt64} {order : List ℕ}
    (h : d.probeTimeout cfg now order = some p) : Takes d.view [] p.1.view := by
  unfold probeTimeout at h
  split at h
  · rename_i target seq l _ _
    dsimp only at h
    split_ifs at h
    split at h
    · rw [← some.inj h]
      exact takes_suspectTarget (d := d.forgetInflight seq) now target
    · rw [← some.inj h, view_requestAll]
      exact .refl
  · rename_i target seq _ _ _
    split_ifs at h
    rw [← some.inj h]
    exact takes_suspectTarget (d := d.forgetInflight seq) now target
  · cases h

end SwimDriver

def RuntimeEvent.gossip (cfg : RuntimeConfig) : RuntimeEvent → List GossipEvent
  | .receive _ env _ _ => if env.clusterSecret = cfg.swim.clusterSecret then env.gossip else []
  | _ => []

namespace ClusterRuntime

open MembershipView

variable {cfg : RuntimeConfig} {r r' : ClusterRuntime}

/-- The loops change the view by the gossip they receive, by refuting suspicions of the node itself
and by suspecting members. -/
theorem step_takes {ev : RuntimeEvent} (h : step cfg r ev = some r') :
    Takes r.swim.view (ev.gossip cfg) r'.swim.view := by
  cases ev with
  | receive now env src sent =>
    rw [← some.inj h]
    exact takes_handleEnvelope now env src sent
  | forwardAck i =>
    obtain ⟨p, hp, rfl⟩ := map_eq_some_iff.1 h
    exact view_forwardAck hp ▸ .refl
  | forwardTimeout i =>
    obtain ⟨d, hd, rfl⟩ := map_eq_some_iff.1 h
    exact (forwardTimeout_kept hd).1 ▸ .refl
  | probeStart pick =>
    obtain ⟨p, hp, rfl⟩ := map_eq_some_iff.1 h
    exact view_probeStart hp ▸ .refl
  | probeAck =>
    obtain ⟨d, hd, rfl⟩ := map_eq_some_iff.1 h
    exact (probeAck_kept hd).1 ▸ .refl
  | probeTimeout now order =>
    obtain ⟨p, hp, rfl⟩ := map_eq_some_iff.1 h
    exact takes_probeTimeout hp
  | coordinatorTick =>
    rw [← some.inj h]
    exact .refl

/-- So does a whole run. -/
theorem exec_takes {evs : List RuntimeEvent} (h : exec (step cfg) r evs = some r') :
    Takes r.swim.view (evs.flatMap (·.gossip cfg)) r'.swim.view := by
  induction evs generalizing r with
  | nil => exact some.inj h ▸ .refl
  | cons ev evs ih =>
    rcases hs : step cfg r ev with _ | r₁ <;> rw [exec, hs] at h
    · cases h
    · exact (step_takes hs).trans (ih h)

/-- The gossip about `m` that the receive loop takes in during the run. -/
def heardAbout (cfg : RuntimeConfig) (m : UInt64) (evs : List RuntimeEvent) : List GossipEvent :=
  (evs.flatMap (·.gossip cfg)).filter (·.id = m)

/-- A suspected member is no longer listed after a run of the loops exactly when the run has
received a declaration of its death that no other gossip about it supersedes. -/
theorem delisted_iff_declared {self : ClusterMember} {evs₀ evs : List RuntimeEvent} {m : UInt64}
    {e : MemberEntry} (h₀ : exec (step cfg) (start self) evs₀ = some r) (hm : m ≠ self.id)
    (he : r.swim.view.get m = some e) (hs : e.state = .suspect)
    (h : exec (step cfg) r evs = some r') :
    m ∉ r'.members.map (·.id) ↔ ∃ g ∈ heardAbout cfg m evs, g.Final ∧
      e.incarnation ≤ g.incarnation ∧
      ∀ g' ∈ heardAbout cfg m evs, g'.incarnation ≤ g.incarnation := by
  obtain ⟨hw, hl⟩ := (exec_takes h₀).localId_eq (wf_bootstrap self)
  have hid : some m ≠ r.swim.view.localId := fun heq => hm (Option.some.inj (heq.trans hl))
  obtain ⟨e', he', ht⟩ := (exec_takes h).tracks hw hid he (by simp [hs])
  have hw' := ((exec_takes h).localId_eq hw).1
  have hmem : m ∈ r'.members.map (·.id) ↔ e'.state ≠ .dead := by
    rw [members, List.map_map]
    refine (mem_snapshot hw').trans ?_
    rw [he']
    simp
  rw [hmem, not_not]
  exact ht.dead_iff_declared

section Sample

def sampleRuntime : RuntimeConfig := ⟨⟨"secret", 1000000, 3, 5⟩, ClusterNode.sampleCoordinator⟩

def sampleSelf : ClusterMember := ClusterNode.sampleMember 1 "a" 1

def envelopeFrom3 (msg : SwimMessage) (gossip : List GossipEvent) : Envelope :=
  ⟨"secret", 3, msg, gossip⟩

/-- Node 1 learns of 2 and 3, and suspects 2 when neither its ping nor the one it asks 3 for is
acknowledged. -/
def suspecting : List RuntimeEvent :=
  [.receive 0 (envelopeFrom3 (.ping 1 1) [.alive (ClusterNode.sampleMember 2 "b" 2) 1,
      .alive (ClusterNode.sampleMember 3 "c" 3) 1]) "c" true,
    .probeStart 0, .probeTimeout 1000 [0], .probeTimeout 2000 []]

/-- A second later: an envelope, a whole probe round with 3, and a tick of the coordinator. -/
def lateRounds (gossip : List GossipEvent) : List RuntimeEvent :=
  [.receive 1000000 (envelopeFrom3 (.ping 2 1) gossip) "c" true, .probeStart 0,
    .receive 1000001 (envelopeFrom3 (.ack 3 3) []) "c" true, .probeAck, .coordinatorTick]

theorem exec_suspecting : ∃ r e, exec (step sampleRuntime) (start sampleSelf) suspecting = some r ∧
    r.swim.view.get 2 = some e ∧ e.state = .suspect ∧ e.incarnation = 1 ∧
    e.suspectDeadlineNs = 7000000 := by
  have h : ((exec (step sampleRuntime) (start sampleSelf) suspecting).bind fun r =>
      (r.swim.view.get 2).map fun e => (e.state, e.incarnation, e.suspectDeadlineNs)) =
        some (.suspect, 1, 7000000) := by decide +kernel
  obtain ⟨r, hr, h⟩ := bind_eq_some_iff.1 h
  obtain ⟨e, he, h⟩ := map_eq_some_iff.1 h
  simp only [Prod.mk.injEq] at h
  exact ⟨r, e, hr, he, h⟩

theorem delisted_after_dead : ∃ r r',
    exec (step sampleRuntime) (start sampleSelf) suspecting = some r ∧
      exec (step sampleRuntime) r (lateRounds [.dead 2 1 3]) = some r' ∧
      2 ∉ r'.members.map (·.id) := by
  obtain ⟨r, e, hr, he, hs, hi, -⟩ := exec_suspecting
  have h : ((exec (step sampleRuntime) (start sampleSelf) suspecting).bind fun r =>
      exec (step sampleRuntime) r (lateRounds [.dead 2 1 3])).isSome := by decide +kernel
  rw [hr, bind_some] at h
  obtain ⟨r', hr'⟩ := isSome_iff_exists.1 h
  refine ⟨r, r', hr, hr', (delisted_iff_declared hr (by decide) he hs hr').2 ?_⟩
  rw [hi]
  exact ⟨.dead 2 1 3, by decide⟩

/-- The deadline of the suspicion passes and every loop runs again, but 2 stays listed: the
reaper, which would remove it, is not among the loops. -/
theorem suspect_never_reaped : ∃ r r' e,
    exec (step sampleRuntime) (start sampleSelf) suspecting = some r ∧
      r.swim.view.get 2 = some e ∧ e.state = .suspect ∧
      e.suspectDeadlineNs ≤ nowNs 1000000 ∧
      exec (step sampleRuntime) r (lateRounds []) = some r' ∧ 2 ∈ r'.members.map (·.id) ∧
      (r'.swim.tickReaper 1000000).1 = [2] := by
  obtain ⟨r, e, hr, he, hs, -, hd⟩ := exec_suspecting
  have h : ((exec (step sampleRuntime) (start sampleSelf) suspecting).bind fun r =>
      (exec (step sampleRuntime) r (lateRounds [])).map fun r' =>
        (r'.members.map (·.id), (r'.swim.tickReaper 1000000).1)) = some ([1, 2, 3], [2]) := by
    decide +kernel
  rw [hr, bind_some] at h
  obtain ⟨r', hr', h⟩ := map_eq_some_iff.1 h
  obtain ⟨hmem, hreap⟩ := Prod.mk.inj h
  exact ⟨r, r', e, hr, he, hs, hd ▸ by decide, hr', hmem ▸ by decide, hreap⟩

end Sample

end ClusterRuntime

end Kamino
