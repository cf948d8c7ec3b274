import Kamino.Proofs.Genuine
import Kamino.Proofs.Incarnations
import Kamino.Proofs.Rounds

/-!
# What an acknowledged probe means

A node numbers what it asks of others, and an acknowledgement repeats the number.
-/

namespace Kamino

open Runs Option List SwimMessage

namespace SwimMessage

def asks : SwimMessage → Option UInt64
  | ping seq _ | pingReq seq _ _ => some seq
  | ack _ _ | indirectAck _ _ _ => none

def answers : SwimMessage → Option UInt64
  | ping _ _ | pingReq _ _ _ => none
  | ack seq _ | indirectAck seq _ _ => some seq

end SwimMessage

namespace SwimDriver

variable {cfg : SwimConfig} {d d' : SwimDriver} {starts : Prop}

structure Waits (d d' : SwimDriver) : Prop where
  fired : ∀ seq ∈ d'.fired, seq ∈ d.fired
  forwards : ∀ f ∈ d'.forwards, f ∈ d.forwards
  probe : d'.probe = d.probe ∨ d'.probe = .idle

theorem Waits.of_eq (hfired : d'.fired = d.fired) (hforwards : d'.forwards = d.forwards)
    (hprobe : d'.probe = d.probe) : Waits d d' :=
  ⟨fun _ h => hfired ▸ h, fun _ h => hforwards ▸ h, .inl hprobe⟩

/-- What a node can do with its numbers, when it has received the datagram, and what it sends;
`starts` says whether it starts a round. -/
inductive Moves (starts : Prop) (d : SwimDriver) :
    Option Datagram → SwimDriver → List (Envelope × SocketAddr) → Prop
  | rest {got d' sends} (hw : Waits d d')
    (hseq : d'.probeSeq = d.probeSeq ∨ d'.probeSeq = d.probeSeq + 1)
    (hs : ∀ p ∈ sends, ∃ target, p.1.msg = .ping 0 target) : Moves starts d got d' sends
  | answer {dg d' seq target l env} (hmsg : dg.env.msg = .ping seq target) (hw : Waits d d')
    (hseq : d'.probeSeq = d.probeSeq) (henv : env.msg = .ack seq l) :
    Moves starts d (some dg) d' [(env, dg.src)]
  | hear {dg d' seq} (hmsg : dg.env.msg.answers = some seq)
    (hfired : ∀ s ∈ d'.fired, s = seq ∨ s ∈ d.fired) (hforwards : d'.forwards = d.forwards)
    (hprobe : d'.probe = d.probe) (hseq : d'.probeSeq = d.probeSeq) : Moves starts d (some dg) d' []
  | forward {dg d' seq target addr env} (hmsg : dg.env.msg = .pingReq seq target addr)
    (hfired : d'.fired = d.fired)
    (hforwards : d'.forwards = d.forwards ++ [⟨d.probeSeq, seq, target, dg.src⟩])
    (hprobe : d'.probe = d.probe) (hseq : d'.probeSeq = d.probeSeq + 1)
    (henv : env.msg = .ping d.probeSeq target) : Moves starts d (some dg) d' [(env, addr)]
  | relay {got d' f l env} (hf : f ∈ d.forwards) (hfired : f.innerSeq ∈ d.fired)
    (hw : Waits d d') (hseq : d'.probeSeq = d.probeSeq)
    (henv : env.msg = .indirectAck f.seq f.target l) : Moves starts d got d' [(env, f.src)]
  | direct {got d' l target env} (hstarts : starts) (htarget : target ∈ d.candidates [l])
    (hfired : d'.fired = d.fired) (hforwards : d'.forwards = d.forwards)
    (hprobe : d'.probe = .direct target d.probeSeq) (hseq : d'.probeSeq = d.probeSeq + 1)
    (henv : env.msg = .ping d.probeSeq target.id) :
    Moves starts d got d' [(env, target.discoveryAddr)]
  | indirect {got d' target seq sends} (hp : d.probe = .direct target seq)
    (hfired : d'.fired = d.fired) (hforwards : d'.forwards = d.forwards)
    (hprobe : d'.probe = .indirect target d.probeSeq) (hseq : d'.probeSeq = d.probeSeq + 1)
    (hne : sends ≠ [])
    (hs : ∀ p ∈ sends, p.1.msg = .pingReq d.probeSeq target.id target.discoveryAddr) :
    Moves starts d got d' sends

theorem announce_frame (d : SwimDriver) (l : UInt64) :
    d.announce l = { d with queue := (d.announce l).queue } := by
  unfold announce
  split <;> rfl

theorem suspectTarget_frame (d : SwimDriver) (cfg : SwimConfig) (now : UInt64)
    (target : ClusterMember) : d.suspectTarget cfg now target =
      { d with
        view := (d.suspectTarget cfg now target).view
        queue := (d.suspectTarget cfg now target).queue } := by
  unfold suspectTarget
  split
  · dsimp only
    split <;> rfl
  · rfl

theorem tickReaper_frame (d : SwimDriver) (now : UInt64) : (d.tickReaper now).2 =
    { d with view := (d.tickReaper now).2.view, queue := (d.tickReaper now).2.queue } := by
  simp only [tickReaper]
  split
  · rfl
  refine foldlRecOn (motive := fun d' : SwimDriver =>
    d' = { d with view := d'.view, queue := d'.queue }) _ _ rfl fun d' hd' _ _ => ?_
  rw [hd']
  rfl

theorem moves_handleMessage (starts : Prop) (d : SwimDriver) (cfg : SwimConfig)
    (view : MembershipView) (queue : GossipQueue) (l : UInt64) (dg : Datagram) (sent : Bool) :
    Moves starts d (some dg) ({ d with view, queue }.handleMessage cfg l dg.src sent dg.env.msg).1
      ({ d with view, queue }.handleMessage cfg l dg.src sent dg.env.msg).2 := by
  cases hmsg : dg.env.msg with
  | ping seq target =>
    simp only [handleMessage]
    split_ifs
    · exact .rest (.of_eq rfl rfl rfl) (.inl rfl) (by simp)
    · rw [announce_frame]
      exact .answer hmsg (.of_eq rfl rfl rfl) rfl rfl
    · exact .answer hmsg (.of_eq rfl rfl rfl) rfl rfl
  | pingReq seq target addr =>
    simp only [handleMessage]
    split_ifs
    · exact .forward hmsg rfl rfl rfl rfl rfl
    · exact .rest (.of_eq rfl rfl rfl) (.inr rfl) (by simp)
  | ack | indirectAck =>
    simp only [handleMessage, completeInflight]
    split_ifs
    · exact .hear (by rw [hmsg]; rfl) (fun s hs => mem_cons.1 hs) rfl rfl rfl
    · exact .rest (.of_eq rfl rfl rfl) (.inl rfl) (by simp)

theorem moves_handleEnvelope (starts : Prop) (d : SwimDriver) (cfg : SwimConfig) (now : UInt64)
    (dg : Datagram) (sent : Bool) (hs : dg.env.clusterSecret = cfg.clusterSecret) :
    Moves starts d (some dg) (d.handleEnvelope cfg now dg.env dg.src sent).1
      (d.handleEnvelope cfg now dg.env dg.src sent).2 := by
  have hframe := applyPiggyback_frame cfg now dg.env.gossip (d := d) rfl rfl
  simp only [handleEnvelope]
  rw [if_neg (not_not.2 hs)]
  split
  · rw [hframe]
    exact .rest (.of_eq rfl rfl rfl) (.inl rfl) (by simp)
  · rw [hframe]
    exact moves_handleMessage starts d cfg _ _ _ dg sent

section Tasks

variable {p : SwimDriver × List (Envelope × SocketAddr)} {got : Option Datagram}

theorem moves_forwardAck {i : ℕ} (h : d.forwardAck cfg i = some p) :
    Moves starts d got p.1 p.2 := by
  obtain ⟨f, hf, h⟩ := bind_eq_some_iff.1 h
  split_ifs at h with hfired
  have hw : ∀ d' : SwimDriver, d'.fired = (d.consume f.innerSeq).fired →
      d'.forwards = d.forwards.eraseIdx i → d'.probe = d.probe → Waits d d' := by
    intro d' h₁ h₂ h₃
    refine ⟨fun s hs => ?_, fun g hg => ?_, .inl h₃⟩
    · rw [h₁] at hs
      exact (mem_filter.1 hs).1
    · rw [h₂] at hg
      exact mem_of_mem_eraseIdx hg
  dsimp only at h
  split at h
  · rw [← some.inj h]
    exact .rest (hw _ rfl rfl rfl) (.inl rfl) (by simp)
  · rw [← some.inj h]
    exact .relay (mem_of_getElem? hf) hfired (hw _ rfl rfl rfl) rfl rfl

theorem moves_forwardTimeout {i : ℕ} (h : d.forwardTimeout i = some d') :
    Moves starts d got d' [] := by
  obtain ⟨f, -, h⟩ := bind_eq_some_iff.1 h
  split_ifs at h
  rw [← some.inj h]
  exact .rest ⟨fun _ h => h, fun g hg => mem_of_mem_eraseIdx hg, .inl rfl⟩ (.inl rfl) (by simp)

theorem moves_probeStart {pick : ℕ} (hstarts : starts)
    (h : d.probeStart cfg pick = some p) : Moves starts d got p.1 p.2 := by
  unfold probeStart at h
  split at h
  · split at h
    · rw [← some.inj h]
      exact .rest (.of_eq rfl rfl rfl) (.inl rfl) (by simp)
    · obtain ⟨target, ht, rfl⟩ := map_eq_some_iff.1 h
      exact .direct hstarts (mem_of_getElem? ht) rfl rfl rfl rfl rfl
  · cases h

theorem fired_of_probeAck {target : ClusterMember} {seq : UInt64} (h : d.probeAck.isSome)
    (hp : d.probe = .direct target seq ∨ d.probe = .indirect target seq) : seq ∈ d.fired := by
  by_contra hseq
  rcases hp with hp | hp <;> simp [probeAck, hp, hseq] at h

theorem moves_probeAck (h : d.probeAck = some d') : Moves starts d got d' [] := by
  have hw : ∀ seq, Waits d { d.consume seq with probe := .idle } :=
    fun seq => ⟨fun s hs => (mem_filter.1 hs).1, fun _ h => h, .inr rfl⟩
  unfold probeAck at h
  split at h
  · split_ifs at h
    rw [← some.inj h]
    exact .rest (hw _) (.inl rfl) (by simp)
  · split_ifs at h
    rw [← some.inj h]
    exact .rest (hw _) (.inl rfl) (by simp)
  · cases h

theorem requestAll_frame (cfg : SwimConfig) (l : UInt64) (msg : SwimMessage)
    (proxies : List ClusterMember) (d : SwimDriver) :
    (requestAll cfg l msg proxies d).1 =
        { d with queue := (requestAll cfg l msg proxies d).1.queue } ∧
      (requestAll cfg l msg proxies d).2.length = proxies.length ∧
      ∀ p ∈ (requestAll cfg l msg proxies d).2, p.1.msg = msg := by
  induction proxies generalizing d with
  | nil => exact ⟨rfl, rfl, by simp [requestAll]⟩
  | cons proxy proxies ih =>
    obtain ⟨hframe, hlength, hmsg⟩ := ih (d.compose cfg l msg).2
    refine ⟨hframe.trans rfl, congrArg (· + 1) hlength, fun p hp => ?_⟩
    rcases mem_cons.1 hp with rfl | hp
    · rfl
    · exact hmsg p hp

theorem moves_probeTimeout {now : UInt64} {order : List ℕ}
    (h : d.probeTimeout cfg now order = some p) : Moves starts d got p.1 p.2 := by
  have hsuspect : ∀ seq target, Waits d
      { (d.forgetInflight seq).suspectTarget cfg now target with probe := .idle } ∧
      ((d.forgetInflight seq).suspectTarget cfg now target).probeSeq = d.probeSeq := by
    intro seq target
    rw [suspectTarget_frame]
    exact ⟨⟨fun _ h => h, fun _ h => h, .inr rfl⟩, rfl⟩
  unfold probeTimeout at h
  split at h
  · rename_i target seq l hp _
    dsimp only at h
    split_ifs at h
    split at h
    · rw [← some.inj h]
      exact .rest (hsuspect seq target).1 (.inl (hsuspect seq target).2) (by simp)
    rename_i proxies hproxies
    rw [← some.inj h]
    obtain ⟨hframe, hlength, hmsg⟩ := requestAll_frame cfg l
      (.pingReq d.probeSeq target.id target.discoveryAddr)
      (order.filterMap ((d.candidates [l, target.id])[·]?)) (d.forgetInflight seq).register.2
    refine .indirect hp ?_ ?_ rfl ?_ ?_ hmsg
    · exact (congrArg SwimDriver.fired hframe).trans rfl
    · exact (congrArg SwimDriver.forwards hframe).trans rfl
    · exact (congrArg SwimDriver.probeSeq hframe).trans rfl
    · intro hnil
      have hzero := hlength.symm.trans (congrArg length hnil)
      exact hproxies (length_eq_zero_iff.1 hzero)
  · rename_i target seq _ _ _
    split_ifs at h
    rw [← some.inj h]
    exact .rest (hsuspect seq target).1 (.inl (hsuspect seq target).2) (by simp)
  · cases h

theorem moves_run {t : SwimTask} (hstarts : ∀ pick, t = .probeStart pick → starts)
    (h : t.run cfg d = some p) : Moves starts d got p.1 p.2 := by
  cases t with
  | forwardAck i => exact moves_forwardAck h
  | forwardTimeout i =>
    obtain ⟨d', hd, rfl⟩ := map_eq_some_iff.1 h
    exact moves_forwardTimeout hd
  | probeStart pick => exact moves_probeStart (hstarts pick rfl) h
  | probeAck =>
    obtain ⟨d', hd, rfl⟩ := map_eq_some_iff.1 h
    exact moves_probeAck hd
  | probeTimeout now order => exact moves_probeTimeout h
  | reap now =>
    rw [← some.inj h]
    dsimp only
    rw [tickReaper_frame]
    exact .rest (.of_eq rfl rfl rfl) (.inl rfl) (by simp)

end Tasks

end SwimDriver

namespace SwimNet

open SwimDriver

variable {net net' : SwimNet} {ev : SwimEvent} {id : UInt64} {node : SwimNode}

theorem Acts.moves {phase : NodePhase} {swim : SwimDriver} {sends : List (Envelope × SocketAddr)}
    {cause : Option ℕ} {handled : List (UInt64 × ℕ)}
    (ha : Acts net id node ev phase swim sends cause handled) :
    (∀ x ∈ net.handled, x ∈ handled) ∧
      ∃ got, SwimDriver.Moves (∃ pick, ev = .task id (.probeStart pick)) node.swim got swim sends ∧
      ∀ dg ∈ got, ∃ k, cause = some k ∧ net.sent[k]? = some dg ∧
        dg.dst = node.self.discoveryAddr ∧ (id, k) ∈ handled := by
  cases ha with
  | join peers _ =>
    refine ⟨fun _ h => h, none, .rest (.of_eq rfl rfl rfl) (.inl rfl) fun p hp => ?_, by simp⟩
    obtain ⟨addr, -, rfl⟩ := mem_map.1 hp
    exact ⟨_, rfl⟩
  | spawn _ | stop _ =>
    exact ⟨fun _ h => h, none, .rest (.of_eq rfl rfl rfl) (.inl rfl) (by simp), by simp⟩
  | @deliver k dg now sent hk _ hdst =>
    unfold handle
    split_ifs with hs
    · refine ⟨fun x hx => mem_cons_of_mem _ hx, some dg,
        moves_handleEnvelope _ node.swim node.cfg now dg sent hs, ?_⟩
      rintro _ ⟨⟩
      exact ⟨k, rfl, hk, hdst, mem_cons_self⟩
    · rw [handleEnvelope, if_pos hs]
      exact ⟨fun _ h => h, none, .rest (.of_eq rfl rfl rfl) (.inl rfl) (by simp), by simp⟩
  | task _ hp =>
    exact ⟨fun _ h => h, none, moves_run (fun pick ht => ⟨pick, ht ▸ rfl⟩) hp, by simp⟩
  | shutdown _ =>
    refine ⟨fun _ h => h, none, .rest (.of_eq rfl rfl rfl) (.inl rfl) fun p hp => ?_, by simp⟩
    obtain ⟨peer, -, rfl⟩ := mem_map.1 hp
    exact ⟨_, rfl⟩

def Sent (net : SwimNet) (k : ℕ) (src dst : SocketAddr) (msg : SwimMessage) (cause : Option ℕ) :
    Prop :=
  ∃ env, net.sent[k]? = some ⟨src, dst, env, cause⟩ ∧ env.msg = msg

def HandledAt (net : SwimNet) (addr : SocketAddr) (k : ℕ) : Prop :=
  ∃ i node, net.nodes.lookup i = some node ∧ node.self.discoveryAddr = addr ∧ (i, k) ∈ net.handled

/-- The proxy has handled the ping request `q` and has sent the ping `k` for it. -/
structure Relays (net : SwimNet) (origin proxy addr : SocketAddr) (seq inner target : UInt64)
    (q k : ℕ) : Prop where
  request : ∃ dst cause, net.Sent q origin dst (.pingReq seq target addr) cause
  handled : net.HandledAt proxy q
  ping : net.Sent k proxy addr (.ping inner target) (some q)

/-- What the address has asked under the number has been done: its ping has been handled, or a ping
that a proxy has sent for its request. -/
def Answered (net : SwimNet) (origin : SocketAddr) (seq : UInt64) : Prop :=
  (∃ k dst target cause, net.Sent k origin dst (.ping seq target) cause ∧ net.HandledAt dst k) ∨
    ∃ proxy addr inner target q k, net.Relays origin proxy addr seq inner target q k ∧
      net.HandledAt addr k

/-- What a node waits for in its probe round has been sent. -/
def Probing (net : SwimNet) (addr : SocketAddr) : ProbeStage → Prop
  | .idle => True
  | .direct target seq => seq ≠ 0 ∧ net.Genuine target ∧
    ∃ k cause, net.Sent k addr target.discoveryAddr (.ping seq target.id) cause
  | .indirect target seq => seq ≠ 0 ∧ net.Genuine target ∧
    ∃ k dst cause, net.Sent k addr dst (.pingReq seq target.id target.discoveryAddr) cause

/-- The task of a forwarded ping belongs to a ping request. -/
def Forwards (net : SwimNet) (addr : SocketAddr) (f : Forward) : Prop :=
  f.innerSeq ≠ 0 ∧ ∃ dst q k, net.Relays f.src addr dst f.seq f.innerSeq f.target q k

structure Extends (net net' : SwimNet) : Prop where
  sent : ∀ (k : ℕ) (dg : Datagram), net.sent[k]? = some dg → net'.sent[k]? = some dg
  handled : ∀ x ∈ net.handled, x ∈ net'.handled
  nodes : ∀ i node, net.nodes.lookup i = some node →
    ∃ node', net'.nodes.lookup i = some node' ∧ node'.self = node.self

variable {m : ClusterMember}

section Extends

variable {origin proxy addr src dst : SocketAddr} {seq inner target : UInt64} {q k : ℕ}
  {msg : SwimMessage} {cause : Option ℕ}

variable (hx : net.Extends net')
include hx

theorem Sent.mono (h : net.Sent k src dst msg cause) : net'.Sent k src dst msg cause := by
  obtain ⟨env, hk, hmsg⟩ := h
  exact ⟨env, hx.sent k _ hk, hmsg⟩

theorem HandledAt.mono (h : net.HandledAt addr k) : net'.HandledAt addr k := by
  obtain ⟨i, node, hn, ha, hk⟩ := h
  obtain ⟨node', hn', hself⟩ := hx.nodes i node hn
  exact ⟨i, node', hn', hself ▸ ha, hx.handled _ hk⟩

theorem Relays.mono (h : net.Relays origin proxy addr seq inner target q k) :
    net'.Relays origin proxy addr seq inner target q k := by
  obtain ⟨⟨dst, cause, hreq⟩, hq, hk⟩ := h
  exact ⟨⟨dst, cause, hreq.mono hx⟩, hq.mono hx, hk.mono hx⟩

theorem Answered.mono (h : net.Answered origin seq) : net'.Answered origin seq := by
  rcases h with ⟨k, dst, target, cause, hk, hh⟩ | ⟨proxy, addr, inner, target, q, k, hr, hh⟩
  · exact .inl ⟨k, dst, target, cause, hk.mono hx, hh.mono hx⟩
  · exact .inr ⟨proxy, addr, inner, target, q, k, hr.mono hx, hh.mono hx⟩

theorem Genuine.mono (h : net.Genuine m) : net'.Genuine m := by
  obtain ⟨node, hn, hm⟩ := h
  obtain ⟨node', hn', hself⟩ := hx.nodes _ node hn
  exact ⟨node', hn', hself.trans hm⟩

theorem Probing.mono {p : ProbeStage} (h : net.Probing addr p) : net'.Probing addr p := by
  cases p with
  | idle => trivial
  | direct target seq =>
    obtain ⟨hne, hg, k, cause, hk⟩ := h
    exact ⟨hne, hg.mono hx, k, cause, hk.mono hx⟩
  | indirect target seq =>
    obtain ⟨hne, hg, k, dst, cause, hk⟩ := h
    exact ⟨hne, hg.mono hx, k, dst, cause, hk.mono hx⟩

theorem Forwards.mono {f : Forward} (h : net.Forwards addr f) : net'.Forwards addr f := by
  obtain ⟨hne, dst, q, k, hr⟩ := h
  exact ⟨hne, dst, q, k, hr.mono hx⟩

end Extends

/-- The numbers on the network: each node's numbers are below its counter, a number stands for one
ping or for the requests of one round, and only what has been done is acknowledged. -/
structure Accounts (net : SwimNet) : Prop where
  distinct : ∀ i j node node', net.nodes.lookup i = some node → net.nodes.lookup j = some node' →
    node.self.discoveryAddr = node'.self.discoveryAddr → i = j
  senders : ∀ dg ∈ net.sent, ∃ i node, net.nodes.lookup i = some node ∧
    node.self.discoveryAddr = dg.src
  positive : ∀ i node, net.nodes.lookup i = some node → 0 < node.swim.probeSeq
  asked : ∀ i node, net.nodes.lookup i = some node → ∀ dg ∈ net.sent,
    dg.src = node.self.discoveryAddr → ∀ seq, dg.env.msg.asks = some seq → seq < node.swim.probeSeq
  unique : ∀ (k k' : ℕ) (dg dg' : Datagram) (seq : UInt64), net.sent[k]? = some dg →
    net.sent[k']? = some dg' → dg.src = dg'.src → dg.env.msg.asks = some seq →
    dg'.env.msg.asks = some seq → seq ≠ 0 →
    dg.env.msg = dg'.env.msg ∧ ((∃ target, dg.env.msg = .ping seq target) → k = k')
  acks : ∀ dg ∈ net.sent, ∀ seq, dg.env.msg.answers = some seq → net.Answered dg.dst seq
  fired : ∀ i node, net.nodes.lookup i = some node → ∀ seq ∈ node.swim.fired,
    net.Answered node.self.discoveryAddr seq
  forwards : ∀ i node, net.nodes.lookup i = some node → ∀ f ∈ node.swim.forwards,
    net.Forwards node.self.discoveryAddr f
  probing : ∀ i node, net.nodes.lookup i = some node →
    net.Probing node.self.discoveryAddr node.swim.probe

theorem accounts_empty : empty.Accounts := by
  constructor <;> intros <;> simp_all [empty]

variable {dg : Datagram}

namespace Accounts

variable {proxy addr src dst dst' : SocketAddr} {seq inner target : UInt64}
  {q k k' : ℕ} {cause cause' : Option ℕ}

variable (h : net.Accounts)
include h

theorem asked_unique {msg msg' : SwimMessage} (hseq : seq ≠ 0)
    (hk : net.Sent k src dst msg cause) (hk' : net.Sent k' src dst' msg' cause')
    (hs : msg.asks = some seq) (hs' : msg'.asks = some seq) :
    msg = msg' ∧ ((∃ target, msg = .ping seq target) → k = k' ∧ dst = dst') := by
  obtain ⟨env, hk, rfl⟩ := hk
  obtain ⟨env', hk', rfl⟩ := hk'
  obtain ⟨heq, hsame⟩ := h.unique k k' _ _ seq hk hk' rfl hs hs' hseq
  refine ⟨heq, fun hping => ?_⟩
  obtain rfl := hsame hping
  cases hk.symm.trans hk'
  exact ⟨rfl, rfl⟩

theorem at_target (hm : net.Genuine m)
    (hk : net.HandledAt m.discoveryAddr k) : (m.id, k) ∈ net.handled := by
  obtain ⟨i, node, hn, haddr, hk⟩ := hk
  obtain ⟨node', hn', hself⟩ := hm
  have hi := h.distinct i m.id node node' hn hn' (haddr.trans (hself ▸ rfl))
  exact hi ▸ hk

theorem relayed {f : Forward} (hf : net.Forwards proxy f)
    (ha : net.Answered proxy f.innerSeq) : net.Answered f.src f.seq := by
  obtain ⟨hne, dst, q, k, hr⟩ := hf
  rcases ha with ⟨k', dst', target, cause, hk', hh⟩ | ⟨_, _, _, _, _, _, ⟨⟨_, _, hreq⟩, _, _⟩, _⟩
  · obtain ⟨rfl, rfl⟩ := (h.asked_unique hne hr.ping hk' rfl rfl).2 ⟨_, rfl⟩
    exact .inr ⟨proxy, dst, f.innerSeq, f.target, q, k, hr, hh⟩
  · cases (h.asked_unique hne hr.ping hreq rfl rfl).1

theorem direct_handled (hm : net.Genuine m) (hseq : seq ≠ 0)
    (hk : net.Sent k addr m.discoveryAddr (.ping seq m.id) cause) (ha : net.Answered addr seq) :
    (m.id, k) ∈ net.handled := by
  rcases ha with ⟨k', dst, target, cause', hk', hh⟩ | ⟨_, _, _, _, _, _, ⟨⟨_, _, hreq⟩, _, _⟩, _⟩
  · obtain ⟨rfl, rfl⟩ := (h.asked_unique hseq hk hk' rfl rfl).2 ⟨_, rfl⟩
    exact h.at_target hm hh
  · cases (h.asked_unique hseq hk hreq rfl rfl).1

theorem indirect_handled (hm : net.Genuine m)
    (hseq : seq ≠ 0) (hk : net.Sent k addr dst (.pingReq seq m.id m.discoveryAddr) cause)
    (ha : net.Answered addr seq) : ∃ proxy inner q k,
      net.Relays addr proxy m.discoveryAddr seq inner m.id q k ∧ (m.id, k) ∈ net.handled := by
  rcases ha with ⟨k', dst', target, cause', hk', -⟩ | ⟨proxy, addr', inner, target, q, k', hr, hh⟩
  · cases (h.asked_unique hseq hk' hk rfl rfl).1
  · obtain ⟨dst', cause', hreq⟩ := hr.request
    cases (h.asked_unique hseq hk hreq rfl rfl).1
    exact ⟨proxy, inner, q, k', hr, h.at_target hm hh⟩

theorem sent_since (hx : net.Extends net')
    (hn : net.nodes.lookup id = some node) (hle : node.swim.probeSeq ≤ seq)
    (hq : net'.sent[q]? = some dg) (hsrc : dg.src = node.self.discoveryAddr)
    (hasks : dg.env.msg.asks = some seq) : net.sent.length ≤ q := by
  by_contra hlt
  have hget := getElem?_eq_getElem (Nat.not_le.1 hlt)
  cases hq.symm.trans (hx.sent q _ hget)
  exact UInt64.not_lt.2 hle (h.asked id node hn _ (getElem_mem _) hsrc seq hasks)

end Accounts

/-- The network after the node at `id` has become `new` and has sent what it sends. -/
structure Becomes (net net' : SwimNet) (id : UInt64) (new : SwimNode)
    (sends : List (Envelope × SocketAddr)) (cause : Option ℕ) : Prop where
  lookup : ∀ i, net'.nodes.lookup i = if i = id then some new else net.nodes.lookup i
  sent : net'.sent = net.sent ++ sends.map fun p => ⟨new.self.discoveryAddr, p.2, p.1, cause⟩
  handled : ∀ x ∈ net.handled, x ∈ net'.handled
  self : ∀ old ∈ net.nodes.lookup id, old.self = new.self

/-- What the numbers of the acting node and of what it sends have to meet. -/
structure Fresh (seq seq' : UInt64) (sends : List (Envelope × SocketAddr)) : Prop where
  le : seq ≤ seq'
  asks : ∀ p ∈ sends, ∀ s, p.1.msg.asks = some s → s = 0 ∨ s = seq ∧ seq < seq'
  unique : ∀ (i j : ℕ) (p p' : Envelope × SocketAddr) (s : UInt64), sends[i]? = some p →
    sends[j]? = some p' → p.1.msg.asks = some s → p'.1.msg.asks = some s → s ≠ 0 →
    p.1.msg = p'.1.msg ∧ ((∃ target, p.1.msg = .ping s target) → i = j)

section Update

variable {phase : NodePhase} {swim : SwimDriver} {sends : List (Envelope × SocketAddr)}
  {cause : Option ℕ} {handled : List (UInt64 × ℕ)} {new : SwimNode}

namespace Becomes

theorem start {self : ClusterMember} (hnone : net.nodes.lookup self.id = none)
    (cfg : SwimConfig) : net.Becomes
      (net.update self.id ⟨self, cfg, .joining, .assemble self⟩ [] none) self.id
      ⟨self, cfg, .joining, .assemble self⟩ [] none :=
  ⟨fun i => lookup_update _ _ i _ _ _, rfl, fun _ h => h, by simp [hnone]⟩

theorem acts (hn : net.nodes.lookup id = some node) (hh : ∀ x ∈ net.handled, x ∈ handled) :
    net.Becomes ({ net with handled }.update id { node with phase, swim } sends cause) id
      { node with phase, swim } sends cause :=
  ⟨fun i => lookup_update _ _ i _ _ _, rfl, hh, by simp [hn]⟩

variable (hb : net.Becomes net' id new sends cause)
include hb

theorem lookup_self : net'.nodes.lookup id = some new := (hb.lookup id).trans (if_pos rfl)

theorem cases {i : UInt64} {n : SwimNode} (hi : net'.nodes.lookup i = some n) :
    i = id ∧ n = new ∨ i ≠ id ∧ net.nodes.lookup i = some n := by
  rw [hb.lookup] at hi
  split_ifs at hi with heq
  · exact .inl ⟨heq, (some.inj hi).symm⟩
  · exact .inr ⟨heq, hi⟩

theorem grows : net.Extends net' := by
  refine ⟨fun k dg hk => ?_, hb.handled, fun i old hi => ?_⟩
  · rw [hb.sent]
    exact List.getElem?_append_left (List.getElem?_eq_some_iff.1 hk).1 ▸ hk
  rw [hb.lookup]
  split_ifs with heq
  · exact ⟨new, rfl, (hb.self old (heq ▸ hi)).symm⟩
  · exact ⟨old, hi, rfl⟩

theorem mem_sent (h : dg ∈ net'.sent) :
    dg ∈ net.sent ∨ ∃ p ∈ sends, dg = ⟨new.self.discoveryAddr, p.2, p.1, cause⟩ := by
  rw [hb.sent, List.mem_append, List.mem_map] at h
  simpa only [eq_comm] using h

theorem sent_cases {k : ℕ} (h : net'.sent[k]? = some dg) :
    net.sent[k]? = some dg ∨ ∃ i p, k = net.sent.length + i ∧ sends[i]? = some p ∧
      dg = ⟨new.self.discoveryAddr, p.2, p.1, cause⟩ := by
  rw [hb.sent, getElem?_append] at h
  split_ifs at h with hlt
  · exact .inl h
  · rw [getElem?_map] at h
    obtain ⟨p, hp, rfl⟩ := map_eq_some_iff.1 h
    exact .inr ⟨_, p, by omega, hp, rfl⟩

theorem sent_head {p : Envelope × SocketAddr} (hp : sends[0]? = some p) :
    net'.Sent net.sent.length new.self.discoveryAddr p.2 p.1.msg cause := by
  refine ⟨p.1, ?_, rfl⟩
  rw [hb.sent, getElem?_append_right (Nat.le_refl _), Nat.sub_self, getElem?_map, hp]
  rfl

end Becomes

theorem Accounts.becomes {seq₀ : UInt64} (h : net.Accounts)
    (hb : net.Becomes net' id new sends cause)
    (hdist : ∀ i n, i ≠ id → net.nodes.lookup i = some n →
      n.self.discoveryAddr ≠ new.self.discoveryAddr) (hpos : 0 < new.swim.probeSeq)
    (hold : ∀ dg ∈ net.sent, dg.src = new.self.discoveryAddr → ∀ seq,
      dg.env.msg.asks = some seq → seq < seq₀)
    (hfresh : Fresh seq₀ new.swim.probeSeq sends)
    (hacks : ∀ p ∈ sends, ∀ seq, p.1.msg.answers = some seq → net'.Answered p.2 seq)
    (hfired : ∀ seq ∈ new.swim.fired, net'.Answered new.self.discoveryAddr seq)
    (hforwards : ∀ f ∈ new.swim.forwards, net'.Forwards new.self.discoveryAddr f)
    (hprobing : net'.Probing new.self.discoveryAddr new.swim.probe) : net'.Accounts := by
  have hx := hb.grows
  -- an old number of the node is below its counter, where the new ones start
  have hzero : ∀ dg ∈ net.sent, dg.src = new.self.discoveryAddr → ∀ p ∈ sends, ∀ seq,
      dg.env.msg.asks = some seq → p.1.msg.asks = some seq → seq = 0 := by
    intro dg hdg hsrc p hp seq hseq hseq'
    rcases hfresh.asks p hp seq hseq' with h₀ | ⟨rfl, -⟩
    · exact h₀
    · exact absurd (hold dg hdg hsrc _ hseq) (UInt64.lt_irrefl _)
  constructor
  · intro i j n n' hi hj haddr
    rcases hb.cases hi with ⟨rfl, rfl⟩ | ⟨hne, hi⟩ <;>
      rcases hb.cases hj with ⟨rfl, rfl⟩ | ⟨hne', hj⟩
    · rfl
    · exact absurd haddr.symm (hdist j n' hne' hj)
    · exact absurd haddr (hdist i n hne hi)
    · exact h.distinct i j n n' hi hj haddr
  · intro dg hdg
    rcases hb.mem_sent hdg with hdg | ⟨p, -, rfl⟩
    · obtain ⟨i, n, hi, hsrc⟩ := h.senders dg hdg
      obtain ⟨n', hi', hs⟩ := hx.nodes i n hi
      exact ⟨i, n', hi', hs ▸ hsrc⟩
    · exact ⟨id, new, hb.lookup_self, rfl⟩
  · intro i n hi
    rcases hb.cases hi with ⟨rfl, rfl⟩ | ⟨-, hi⟩
    · exact hpos
    · exact h.positive i n hi
  · intro i n hi dg hdg hsrc seq hseq
    rcases hb.mem_sent hdg with hdg | ⟨p, hp, rfl⟩ <;>
      rcases hb.cases hi with ⟨rfl, rfl⟩ | ⟨hne, hi⟩
    · exact UInt64.lt_of_lt_of_le (hold dg hdg hsrc seq hseq) hfresh.le
    · exact h.asked i n hi dg hdg hsrc seq hseq
    · rcases hfresh.asks p hp seq hseq with rfl | ⟨rfl, hlt⟩
      · exact hpos
      · exact hlt
    · exact absurd hsrc.symm (hdist i n hne hi)
  · intro k k' dg dg' seq hk hk' hsrc hs hs' hne
    rcases hb.sent_cases hk with hk | ⟨i, p, rfl, hp, rfl⟩ <;>
      rcases hb.sent_cases hk' with hk' | ⟨i', p', rfl, hp', rfl⟩
    · exact h.unique k k' dg dg' seq hk hk' hsrc hs hs' hne
    · exact absurd (hzero dg (mem_of_getElem? hk) hsrc p' (mem_of_getElem? hp') seq hs hs') hne
    · exact absurd (hzero dg' (mem_of_getElem? hk') hsrc.symm p (mem_of_getElem? hp) seq hs' hs) hne
    · obtain ⟨hmsg, hij⟩ := hfresh.unique i i' p p' seq hp hp' hs hs' hne
      exact ⟨hmsg, fun ht => by rw [hij ht]⟩
  · intro dg hdg seq hseq
    rcases hb.mem_sent hdg with hdg | ⟨p, hp, rfl⟩
    · exact (h.acks dg hdg seq hseq).mono hx
    · exact hacks p hp seq hseq
  · intro i n hi
    rcases hb.cases hi with ⟨rfl, rfl⟩ | ⟨-, hi⟩
    · exact hfired
    · exact fun seq hseq => (h.fired i n hi seq hseq).mono hx
  · intro i n hi
    rcases hb.cases hi with ⟨rfl, rfl⟩ | ⟨-, hi⟩
    · exact hforwards
    · exact fun f hf => (h.forwards i n hi f hf).mono hx
  · intro i n hi
    rcases hb.cases hi with ⟨rfl, rfl⟩ | ⟨-, hi⟩
    · exact hprobing
    · exact (h.probing i n hi).mono hx

theorem fresh_of_zero {seq seq' : UInt64} (hle : seq ≤ seq')
    (hs : ∀ p ∈ sends, ∀ s, p.1.msg.asks = some s → s = 0) : Fresh seq seq' sends :=
  ⟨hle, fun p hp s h => .inl (hs p hp s h),
    fun _ _ p _ s hp _ h _ hne => absurd (hs p (mem_of_getElem? hp) s h) hne⟩

theorem fresh_of_next {seq seq' : UInt64} {msg : SwimMessage} (hle : seq ≤ seq')
    (hseq : seq' = seq + 1) (hs : ∀ p ∈ sends, p.1.msg = msg) (hmsg : msg.asks = some seq)
    (hone : (∃ target, msg = .ping seq target) → sends.length ≤ 1) : Fresh seq seq' sends := by
  have hlt : seq < seq' := UInt64.lt_of_le_of_ne hle (by rw [hseq]; simp)
  have hasks : ∀ p ∈ sends, ∀ s, p.1.msg.asks = some s → s = seq := by
    intro p hp s h
    rw [hs p hp, hmsg] at h
    exact (some.inj h).symm
  refine ⟨hle, fun p hp s h => .inr ⟨hasks p hp s h, hlt⟩, fun i j p p' s hi hj h h' _ => ?_⟩
  have hp := mem_of_getElem? hi
  refine ⟨(hs p hp).trans (hs p' (mem_of_getElem? hj)).symm, ?_⟩
  rintro ⟨target, ht⟩
  rw [hs p hp, hasks p hp s h] at ht
  have hlen := hone ⟨target, ht⟩
  obtain ⟨hi, -⟩ := List.getElem?_eq_some_iff.1 hi
  obtain ⟨hj, -⟩ := List.getElem?_eq_some_iff.1 hj
  omega

theorem Accounts.acts (h : net.Accounts) (ht : net.Truthful) (hn : net.nodes.lookup id = some node)
    (ha : Acts net id node ev phase swim sends cause handled)
    (hle : node.swim.probeSeq ≤ swim.probeSeq) :
    ({ net with handled }.update id { node with phase, swim } sends cause).Accounts := by
  obtain ⟨hh, got, hm, hgot⟩ := ha.moves
  have hb := @Becomes.acts net id node phase swim sends cause handled hn hh
  generalize hnet : { net with handled }.update id { node with phase, swim } sends cause = net'
    at hb ⊢
  have hx := hb.grows
  have hpos := h.positive id node hn
  have hne : node.swim.probeSeq ≠ 0 := (UInt64.ne_of_lt hpos).symm
  have hfired := fun seq hseq => (h.fired id node hn seq hseq).mono hx
  have hforwards := fun f hf => (h.forwards id node hn f hf).mono hx
  have hprobing := (h.probing id node hn).mono hx
  have hupdate (hfresh : Fresh node.swim.probeSeq swim.probeSeq sends) := h.becomes hb
    (fun i n hne hi haddr => hne (h.distinct i id n node hi hn haddr))
    (UInt64.lt_of_lt_of_le hpos hle) (h.asked id node hn) hfresh
  have hwaits (hw : Waits node.swim swim) (hs : ∀ p ∈ sends, ∀ s, p.1.msg.asks = some s → s = 0)
      (hacks : ∀ p ∈ sends, ∀ seq, p.1.msg.answers = some seq → net'.Answered p.2 seq) :
      net'.Accounts := by
    refine hupdate (fresh_of_zero hle hs) hacks (fun seq hseq => hfired seq (hw.fired seq hseq))
      (fun f hf => hforwards f (hw.forwards f hf)) ?_
    rcases hw.probe with hp | hp <;> rw [hp]
    · exact hprobing
    · trivial
  -- what has been received was sent, and is handled now
  have hreceived : ∀ dg ∈ got, ∃ k, cause = some k ∧ net.sent[k]? = some dg ∧
      dg.dst = node.self.discoveryAddr ∧ net'.HandledAt dg.dst k := by
    intro dg hdg
    obtain ⟨k, hcause, hk, hdst, hhandled⟩ := hgot dg hdg
    exact ⟨k, hcause, hk, hdst, id, _, hb.lookup_self, hdst.symm, by rwa [← hnet]⟩
  cases hm with
  | rest hw hseq hs =>
    refine hwaits hw (fun p hp s hasks => ?_) fun p hp seq hanswers => ?_
    · obtain ⟨target, hmsg⟩ := hs p hp
      rw [hmsg] at hasks
      exact (some.inj hasks).symm
    · obtain ⟨target, hmsg⟩ := hs p hp
      rw [hmsg] at hanswers
      cases hanswers
  | @answer dg _ seq target l env hmsg hw hseq henv =>
    obtain ⟨k, -, hk, -, hhandled⟩ := hreceived dg rfl
    refine hwaits hw (by simp [henv, asks]) ?_
    simp only [mem_singleton, forall_eq, henv, answers, some.injEq]
    rintro _ rfl
    exact .inl ⟨k, dg.dst, target, dg.cause, ⟨dg.env, hx.sent k dg hk, hmsg⟩, hhandled⟩
  | @hear dg _ seq hmsg hf hforwards' hprobe hseq =>
    obtain ⟨k, -, hk, hdst, -⟩ := hreceived dg rfl
    refine hupdate (fresh_of_zero hle (by simp)) (by simp) ?_ (hforwards' ▸ hforwards)
      (hprobe ▸ hprobing)
    intro s hs
    rcases hf s hs with rfl | hs
    · exact (hdst ▸ h.acks dg (mem_of_getElem? hk) s hmsg).mono hx
    · exact hfired s hs
  | @forward dg _ seq target addr env hmsg hf hforwards' hprobe hseq henv =>
    obtain ⟨k, hcause, hk, hdst, hhandled⟩ := hreceived dg rfl
    refine hupdate (fresh_of_next hle hseq (by simpa using henv) rfl fun _ => Nat.le_refl 1)
      (by simp [henv, answers]) (hf ▸ hfired) ?_ (hprobe ▸ hprobing)
    intro f hmem
    rw [hforwards'] at hmem
    rcases mem_append.1 hmem with hmem | hmem
    · exact hforwards f hmem
    have hping := henv ▸ hcause ▸ hb.sent_head rfl
    rw [mem_singleton.1 hmem]
    exact ⟨hne, addr, k, net.sent.length,
      ⟨dg.dst, dg.cause, dg.env, hx.sent k dg hk, hmsg⟩, hdst ▸ hhandled, hping⟩
  | @relay _ _ f l env hf hf' hw hseq henv =>
    refine hwaits hw (by simp [henv, asks]) ?_
    simp only [mem_singleton, forall_eq, henv, answers, some.injEq]
    rintro _ rfl
    exact (h.relayed (h.forwards id node hn f hf) (h.fired id node hn _ hf')).mono hx
  | @direct _ _ l target env _ htarget hf hforwards' hprobe hseq henv =>
    refine hupdate (fresh_of_next hle hseq (by simpa using henv) rfl fun _ => Nat.le_refl 1)
      (by simp [henv, answers]) (hf ▸ hfired) (hforwards' ▸ hforwards) ?_
    rw [hprobe]
    exact ⟨hne, ((ht.trusts id node hn).candidates htarget).mono hx, _, _, henv ▸ hb.sent_head rfl⟩
  | @indirect _ _ target seq _ hp hf hforwards' hprobe hseq hne' hs =>
    refine hupdate (fresh_of_next hle hseq hs rfl ?_) ?_ (hf ▸ hfired) (hforwards' ▸ hforwards) ?_
    · rintro ⟨t, ht⟩
      cases ht
    · intro p hp s hanswers
      rw [hs p hp] at hanswers
      cases hanswers
    obtain ⟨p, rest, rfl⟩ := exists_cons_of_ne_nil hne'
    rw [hp] at hprobing
    rw [hprobe]
    exact ⟨hne, hprobing.2.1, _, _, _, hs p mem_cons_self ▸ hb.sent_head rfl⟩

end Update

theorem address_ne {self : ClusterMember} (h : net.addressTaken self.discoveryAddr = false)
    (hn : net.nodes.lookup id = some node) : node.self.discoveryAddr ≠ self.discoveryAddr := by
  intro heq
  have hany := any_eq_false.1 h ⟨id, node⟩ (HMap.mem_entries_iff.2 hn)
  exact hany (by simpa using heq)

def SeqGrows (net : SwimNet) (ev : SwimEvent) : Prop :=
  ∀ net' ∈ step net ev, ∀ node ∈ net.nodes.lookup (actor ev),
    ∀ node' ∈ net'.nodes.lookup (actor ev), node.swim.probeSeq ≤ node'.swim.probeSeq

/-- Every step keeps the account of the numbers. -/
theorem Accounts.step (h : net.Accounts) (ht : net.Truthful) (hg : net.SeqGrows ev)
    (hs : step net ev = some net') : net'.Accounts := by
  have hle := hg net' hs
  rcases step_cases hs with ⟨self, cfg, rfl, hnone, haddr, rfl⟩ |
    ⟨id, node, phase, swim, sends, cause, handled, hn, ha, rfl⟩
  · refine h.becomes (.start hnone cfg) (fun i n _ hi => address_ne haddr hi)
      (show (0 : UInt64) < 1 by decide) (fun dg hdg hsrc => ?_)
      (fresh_of_zero (UInt64.le_refl 1) (by simp)) (by simp) (by simp [assemble])
      (by simp [assemble]) trivial
    obtain ⟨j, n, hj, hsrc'⟩ := h.senders dg hdg
    exact absurd (hsrc'.trans hsrc) (address_ne haddr hj)
  · rw [ha.actor_eq] at hle
    exact h.acts ht hn ha (hle node hn _ ((lookup_update _ _ _ _ _ _).trans (if_pos rfl)))

theorem step_extends (hs : step net ev = some net') : net.Extends net' := by
  rcases step_cases hs with ⟨self, cfg, rfl, hnone, -, rfl⟩ |
    ⟨id, node, phase, swim, sends, cause, handled, hn, ha, rfl⟩
  · exact (Becomes.start hnone cfg).grows
  · exact (Becomes.acts hn ha.moves.1).grows

theorem exec_extends {evs : List SwimEvent} (h : exec step net evs = some net') :
    net.Extends net' := by
  have hrefl : net.Extends net := ⟨fun _ _ h => h, fun _ h => h, fun _ n h => ⟨n, h, rfl⟩⟩
  refine exec_invariant (fun _ _ _ hx _ hs => ?_) hrefl (fun _ _ => trivial) h
  have hx' := step_extends hs
  refine ⟨fun k dg hk => hx'.sent k dg (hx.sent k dg hk),
    fun x hh => hx'.handled x (hx.handled x hh), fun i n hi => ?_⟩
  obtain ⟨n₁, hi₁, hself₁⟩ := hx.nodes i n hi
  obtain ⟨n₂, hi₂, hself₂⟩ := hx'.nodes i n₁ hi₁
  exact ⟨n₂, hi₂, hself₂.trans hself₁⟩

/-- The node `id` is in the round that has begun with the stage `first`, at the number `seq₀`, or
has ended it. -/
def InRound (net : SwimNet) (id : UInt64) (first : ProbeStage) (seq₀ : UInt64) : Prop :=
  ∃ node, net.nodes.lookup id = some node ∧ seq₀ ≤ node.swim.probeSeq ∧
    (node.swim.probe = first ∨ node.swim.probe = .idle ∨
      ∃ target seq seq', first = .direct target seq ∧ node.swim.probe = .indirect target seq' ∧
        seq₀ ≤ seq')

theorem InRound.step {first : ProbeStage} {seq₀ : UInt64} (h : net.InRound id first seq₀)
    (hg : net.SeqGrows ev) (hev : ∀ pick, ev ≠ .task id (.probeStart pick))
    (hs : step net ev = some net') : net'.InRound id first seq₀ := by
  obtain ⟨n, hn, hle, hstage⟩ := h
  have hgrow := hg net' hs
  rcases step_cases hs with ⟨self, cfg, rfl, hnone, -, rfl⟩ |
    ⟨i, node, phase, swim, sends, cause, handled, hi, ha, rfl⟩
  · refine ⟨n, ?_, hle, hstage⟩
    rw [lookup_update, if_neg]
    · exact hn
    · rintro rfl
      rw [hnone] at hn
      cases hn
  by_cases heq : id = i
  · subst heq
    cases hi.symm.trans hn
    rw [ha.actor_eq] at hgrow
    have hle' := hgrow n hn _ ((lookup_update _ _ _ _ _ _).trans (if_pos rfl))
    refine ⟨_, (lookup_update _ _ _ _ _ _).trans (if_pos rfl), UInt64.le_trans hle hle', ?_⟩
    obtain ⟨-, got, hm, -⟩ := ha.moves
    cases hm with
    | rest hw | answer _ hw | relay _ _ hw =>
      rcases hw.probe with hp | hp
      · exact hp ▸ hstage
      · exact .inr (.inl hp)
    | hear _ _ _ hprobe | forward _ _ _ hprobe => exact hprobe ▸ hstage
    | direct hstarts =>
      obtain ⟨pick, hpick⟩ := hstarts
      exact absurd hpick (hev pick)
    | indirect hp _ _ hprobe =>
      rcases hstage with hs | hs | ⟨_, _, _, -, hs, -⟩
      · exact .inr (.inr ⟨_, _, _, hs.symm.trans hp, hprobe, hle⟩)
      · cases hs.symm.trans hp
      · cases hs.symm.trans hp
  · exact ⟨n, (lookup_update _ _ _ _ _ _).trans ((if_neg heq).trans hn), hle, hstage⟩

/-- A run whose sequence numbers never fall keeps the account of them. -/
theorem accounts_exec {evs : List SwimEvent} (hg : Guarded step SeqGrows empty evs)
    (h : exec step empty evs = some net) : net.Truthful ∧ net.Accounts := by
  refine @Guarded.invariant _ _ _ _ (fun net => net.Truthful ∧ net.Accounts)
    (fun _ _ _ hinv hgrow hs => ?_) _ _ _ ⟨truthful_empty, accounts_empty⟩ hg h
  exact ⟨hinv.1.step hs, hinv.2.step hinv.1 hgrow hs⟩

theorem probeStart_sent {pick : ℕ} (hs : step net (.task id (.probeStart pick)) = some net') :
    (∃ node, net'.nodes.lookup id = some node ∧ node.swim.probe = .idle) ∨
      ∃ node target seq, net'.nodes.lookup id = some node ∧ node.swim.probe = .direct target seq ∧
        net'.Sent net.sent.length node.self.discoveryAddr target.discoveryAddr
          (.ping seq target.id) none ∧ net'.sent.length = net.sent.length + 1 := by
  obtain ⟨node, hn, hs⟩ := bind_eq_some_iff.1 hs
  split_ifs at hs
  obtain ⟨p, hp, hs⟩ := bind_eq_some_iff.1 hs
  rw [← some.inj hs]
  have hlookup := (lookup_update net id id { node with swim := p.1 } p.2 none).trans (if_pos rfl)
  have hp : node.swim.probeStart node.cfg pick = some p := hp
  unfold probeStart at hp
  split at hp
  · rename_i l hidle _
    split at hp
    · rw [← some.inj hp] at hlookup ⊢
      exact .inl ⟨_, hlookup, hidle⟩
    obtain ⟨target, -, rfl⟩ := map_eq_some_iff.1 hp
    refine .inr ⟨_, target, _, hlookup, rfl, ⟨_, sent_update_last _ _ _ rfl, rfl⟩, ?_⟩
    rw [length_update]
    rfl
  · cases hp

/-- In a run in which no node's counter wraps, a round that ends with an acknowledgement while its
direct ping is waited for (`DirectAck`) has had that ping handled by the target. A round that ends
so while its ping requests are waited for (`IndirectAck`) has had one of them handled by a proxy,
and the ping that the proxy has sent for it by the target. -/
theorem probe_sound {before after : List SwimEvent} {net₁ net₂ : SwimNet} {pick : ℕ}
    (hg : Guarded step SeqGrows empty (before ++ .task id (.probeStart pick) :: after))
    (h₁ : exec step empty before = some net₁)
    (h₂ : step net₁ (.task id (.probeStart pick)) = some net₂)
    (h : exec step net₂ after = some net)
    (hround : ∀ pick', .task id (.probeStart pick') ∉ after)
    (hn : net.nodes.lookup id = some node) (hack : node.swim.probeAck.isSome) :
    match node.swim.probe with
    | .idle => False
    | .direct target seq =>
      net.Sent net₁.sent.length node.self.discoveryAddr target.discoveryAddr
        (.ping seq target.id) none ∧ (target.id, net₁.sent.length) ∈ net.handled
    | .indirect target seq => ∃ proxy inner q k, net₁.sent.length < q ∧
      net.Relays node.self.discoveryAddr proxy target.discoveryAddr seq inner target.id q k ∧
        (target.id, k) ∈ net.handled := by
  have hg₂ : Guarded step SeqGrows net₂ after := (hg.after h₁).2 net₂ h₂
  have hexec₂ : exec step empty (before ++ [.task id (.probeStart pick)]) = some net₂ :=
    (exec_append h₁).trans (exec_cons h₂)
  have hexec : exec step empty (before ++ .task id (.probeStart pick) :: after) = some net :=
    (exec_append h₁).trans ((exec_cons h₂).trans h)
  have hacc₂ : net₂.Accounts := (accounts_exec (by
    rw [← singleton_append, ← append_assoc] at hg
    exact hg.of_append) hexec₂).2
  have hacc : net.Accounts := (accounts_exec hg hexec).2
  have hx : net₂.Extends net := exec_extends h
  have hin : ∀ first seq₀, net₂.InRound id first seq₀ → net.InRound id first seq₀ := by
    intro first seq₀ hin
    refine @Guarded.invariant _ _ _ _ (fun net => net.InRound id first seq₀)
      (fun _ _ _ hin hguard hs => ?_) _ _ _ hin
      (hg₂.and_forall (Q := fun ev => ∀ pick', ev ≠ .task id (.probeStart pick')) ?_) h
    · exact hin.step hguard.1 hguard.2 hs
    · rintro ev hev pick' rfl
      exact hround pick' hev
  have hprobing := hacc.probing id node hn
  rcases probeStart_sent h₂ with ⟨node₂, hn₂, hidle⟩ |
    ⟨node₂, target, seq, hn₂, hdirect, hping, hlength⟩
  · obtain ⟨_, hn', -, hstage⟩ := hin .idle _ ⟨node₂, hn₂, UInt64.le_refl _, .inl hidle⟩
    cases hn.symm.trans hn'
    have hidle' : node.swim.probe = .idle := by
      rcases hstage with h | h | ⟨_, _, _, h, -⟩
      · exact h
      · exact h
      · cases h
    simp [probeAck, hidle'] at hack
  obtain ⟨node', hn', -, hstage⟩ := hin _ _ ⟨node₂, hn₂, UInt64.le_refl _, .inl hdirect⟩
  cases hn.symm.trans hn'
  obtain ⟨node', hn', hself⟩ := hx.nodes id node₂ hn₂
  cases hn.symm.trans hn'
  rw [← hself] at hping
  rcases hstage with hp | hp | ⟨_, _, seq', heq, hp, hle⟩
  · have ha := hacc.fired id node hn seq (fired_of_probeAck hack (.inl hp))
    rw [hp] at hprobing ⊢
    exact ⟨hping.mono hx, hacc.direct_handled hprobing.2.1 hprobing.1 (hping.mono hx) ha⟩
  · simp [probeAck, hp] at hack
  cases heq
  have ha := hacc.fired id node hn seq' (fired_of_probeAck hack (.inr hp))
  rw [hp] at hprobing ⊢
  obtain ⟨hne, hgenuine, k₀, dst₀, cause₀, hreq₀⟩ := hprobing
  obtain ⟨proxy, inner, q, k, hr, hh⟩ := hacc.indirect_handled hgenuine hne hreq₀ ha
  refine ⟨proxy, inner, q, k, ?_, hr, hh⟩
  obtain ⟨dst, cause, env, hq, hmsg⟩ := hr.request
  have hsince := hacc₂.sent_since hx hn₂ hle hq (hself ▸ rfl) (by rw [hmsg]; rfl)
  omega

section Sample

open ClusterNode

def acquainted : List SwimEvent :=
  [.start (sampleMember 1 "a" 1) sampleSwim, .start (sampleMember 2 "b" 2) sampleSwim,
    .start (sampleMember 3 "c" 3) sampleSwim, .join 1 ["b"], .join 3 ["b"], .spawn 1, .spawn 2,
    .spawn 3, .deliver 2 0 0 true, .deliver 2 1 0 true, .deliver 1 2 0 true, .deliver 3 3 0 true,
    .task 1 (.probeStart 0), .deliver 2 4 0 true, .deliver 1 5 0 true, .task 1 .probeAck]

/-- A ping of node 2 to node 3 is lost, and node 1 pings 3 for it. -/
def relaying : List SwimEvent :=
  [.task 2 (.probeTimeout 0 [0]), .deliver 1 7 0 true, .deliver 3 8 0 true, .deliver 1 9 0 true,
    .task 1 (.forwardAck 0), .deliver 2 10 0 true]

instance (net : SwimNet) (ev : SwimEvent) : Decidable (net.SeqGrows ev) :=
  inferInstanceAs (Decidable (∀ net' ∈ step net ev, ∀ node ∈ net.nodes.lookup (actor ev),
    ∀ node' ∈ net'.nodes.lookup (actor ev), node.swim.probeSeq ≤ node'.swim.probeSeq))

theorem probe_sound_relaying : ∃ net node proxy inner q k,
    exec step empty (acquainted ++ .task 2 (.probeStart 1) :: relaying) = some net ∧
      net.nodes.lookup 2 = some node ∧ node.swim.probe = .indirect (sampleMember 3 "c" 3) 2 ∧
      net.Relays "b" proxy "c" 2 inner 3 q k ∧ (3, k) ∈ net.handled := by
  have hg : Guarded step SeqGrows empty (acquainted ++ .task 2 (.probeStart 1) :: relaying) := by
    decide +kernel
  have hrun : ((exec step empty acquainted).bind fun net₁ =>
      (step net₁ (.task 2 (.probeStart 1))).bind fun net₂ =>
        (exec step net₂ relaying).bind fun net => (net.nodes.lookup 2).map fun node =>
          (node.swim.probe, node.swim.probeAck.isSome, node.self.discoveryAddr)) =
      some (.indirect (sampleMember 3 "c" 3) 2, true, "b") := by decide +kernel
  obtain ⟨net₁, h₁, hrun⟩ := bind_eq_some_iff.1 hrun
  obtain ⟨net₂, h₂, hrun⟩ := bind_eq_some_iff.1 hrun
  obtain ⟨net, h, hrun⟩ := bind_eq_some_iff.1 hrun
  obtain ⟨node, hn, hrun⟩ := map_eq_some_iff.1 hrun
  rw [Prod.mk.injEq, Prod.mk.injEq] at hrun
  obtain ⟨hprobe, hack, haddr⟩ := hrun
  have hsound := probe_sound hg h₁ h₂ h (by simp [relaying]) hn hack
  rw [hprobe, haddr] at hsound
  obtain ⟨proxy, inner, q, k, -, hr, hh⟩ := hsound
  exact ⟨net, node, proxy, inner, q, k, (exec_append h₁).trans ((exec_cons h₂).trans h), hn, hprobe,
    hr, hh⟩

theorem applyPiggyback_ignored (cfg : SwimConfig) (now : UInt64) {d : SwimDriver} :
    ∀ {gossip : List GossipEvent}, (∀ g ∈ gossip,
      d.view.apply g (nowNs now) cfg.suspicionTimeoutNs = (.ignored, d.view)) →
        d.applyPiggyback cfg now gossip = d
  | [], _ => rfl
  | g :: gossip, h => by
    have hg : d.applyEvent cfg now g = d := by rw [applyEvent, h g mem_cons_self]
    change (d.applyEvent cfg now g).applyPiggyback cfg now gossip = d
    rw [hg]
    exact applyPiggyback_ignored cfg now fun g' hg' => h g' (mem_cons_of_mem g hg')

theorem handlePingReq_unsent {cfg : SwimConfig} {d : SwimDriver} {l : UInt64}
    {seq target : UInt64} {addr : SocketAddr} (hs : dg.env.clusterSecret = cfg.clusterSecret)
    (hmsg : dg.env.msg = .pingReq seq target addr) (hid : d.view.localId = some l)
    (hfree : d.inFlight = [])
    (hignored : ∀ g ∈ dg.env.gossip,
      d.view.apply g (nowNs 0) cfg.suspicionTimeoutNs = (.ignored, d.view)) :
    ∃ queue, d.handleEnvelope cfg 0 dg.env dg.src false =
      ({ d with queue, probeSeq := d.probeSeq + 1 }, []) := by
  refine ⟨(d.queue.drainForSend piggybackBatch).2, ?_⟩
  simp only [handleEnvelope, hs, applyPiggyback_ignored cfg 0 hignored, hid, hmsg, handleMessage,
    register, compose, drainGossip, forgetInflight, hfree, ne_eq, not_true_eq_false, if_false]
  simp

theorem exec_redeliver_request {i : UInt64} {k : ℕ} {l seq target : UInt64}
    {addr : SocketAddr} (hmsg : dg.env.msg = .pingReq seq target addr) (n : ℕ) :
    ∀ {net : SwimNet} {node : SwimNode}, net.nodes.lookup i = some node → node.looping →
      net.sent[k]? = some dg → dg.dst = node.self.discoveryAddr →
      dg.env.clusterSecret = node.cfg.clusterSecret → node.swim.view.localId = some l →
      node.swim.inFlight = [] → (∀ g ∈ dg.env.gossip, node.swim.view.apply g (nowNs 0)
        node.cfg.suspicionTimeoutNs = (.ignored, node.swim.view)) →
      ∃ net' queue, exec step net (replicate n (.deliver i k 0 false)) = some net' ∧
        net'.nodes.lookup i = some { node with
          swim := { node.swim with queue, probeSeq := node.swim.probeSeq + UInt64.ofNat n } } ∧
        net'.sent = net.sent ∧ ∀ x ∈ net'.handled, x ∈ net.handled ∨ x = (i, k) := by
  induction n with
  | zero =>
    intro net node hn _ _ _ _ _ _ _
    refine ⟨net, node.swim.queue, rfl, ?_, rfl, fun _ h => .inl h⟩
    rw [hn]
    exact congrArg (fun seq => some { node with swim := { node.swim with probeSeq := seq } })
      (UInt64.add_zero _).symm
  | succ n ih =>
    intro net node hn hl hk hdst hs hid hfree hignored
    have hstep := step_deliver 0 false hn hl hk hdst
    obtain ⟨queue, hhandle⟩ := handlePingReq_unsent hs hmsg hid hfree hignored
    rw [hhandle] at hstep
    have hsent : ((net.handle i node k dg).update i { node with swim := { node.swim with
        queue, probeSeq := node.swim.probeSeq + 1 } } [] (some k)).sent = net.sent :=
      (append_nil _).trans (sent_handle net i node k dg)
    have hn₁ := (lookup_update (net.handle i node k dg) i i { node with swim := { node.swim with
        queue, probeSeq := node.swim.probeSeq + 1 } } [] (some k)).trans (if_pos rfl)
    obtain ⟨net', queue', hx, hn', hsent', hhandled⟩ :=
      ih hn₁ hl (hsent ▸ hk) hdst hs hid hfree hignored
    refine ⟨net', queue', ?_, ?_, hsent'.trans hsent, fun x hx' => ?_⟩
    · rw [replicate_succ, exec_cons hstep]
      exact hx
    · rw [hn']
      have hseq : node.swim.probeSeq + 1 + UInt64.ofNat n =
          node.swim.probeSeq + UInt64.ofNat (n + 1) := by
        rw [UInt64.ofNat_add, UInt64.add_assoc, UInt64.add_comm 1]
        rfl
      exact congrArg (fun seq => some { node with swim := { node.swim with
        queue := queue', probeSeq := seq } }) hseq
    rcases hhandled x hx' with hx' | hx'
    · have hx' : x ∈ (net.handle i node k dg).handled := hx'
      rw [handle, if_pos hs] at hx'
      rcases mem_cons.1 hx' with rfl | hx'
      · exact .inr rfl
      · exact .inl hx'
    · exact .inr hx'

def requesting : List SwimEvent :=
  acquainted ++ [.task 2 (.probeStart 1), .task 2 (.probeTimeout 0 [0]), .deliver 1 7 0 false]

def Stale (node : SwimNode) (dg : Datagram) : Prop :=
  dg.dst = node.self.discoveryAddr ∧ dg.env.clusterSecret = node.cfg.clusterSecret ∧
    ∀ g ∈ dg.env.gossip, node.swim.view.apply g (nowNs 0) node.cfg.suspicionTimeoutNs =
      (.ignored, node.swim.view)

instance (node : SwimNode) (dg : Datagram) : Decidable (Stale node dg) :=
  inferInstanceAs (Decidable (_ ∧ _ ∧ ∀ _ ∈ _, _))

abbrev Requested (net : SwimNet) (node : SwimNode) (request answer : Datagram) : Prop :=
  node.looping ∧ node.swim.view.localId = some 1 ∧ node.swim.inFlight = [] ∧
    node.swim.probe = .idle ∧ node.swim.probeSeq = 3 ∧
    (node.swim.candidates [1])[0]? = some (sampleMember 2 "b" 2) ∧
    request.env.msg = .pingReq 2 3 "c" ∧ Stale node request ∧
    answer.env.msg = .ack 1 2 ∧ Stale node answer ∧ net.sent.length = 8 ∧ ∀ x ∈ net.handled, x.2 < 8

theorem exec_requesting : ∃ net node request answer, exec step empty requesting = some net ∧
    net.nodes.lookup 1 = some node ∧ net.sent[7]? = some request ∧ net.sent[5]? = some answer ∧
    Requested net node request answer := by
  have hrun : ((exec step empty requesting).bind fun net => (net.nodes.lookup 1).bind fun node =>
      (net.sent[7]?).bind fun request => (net.sent[5]?).map fun answer =>
        decide (Requested net node request answer)) = some true := by decide +kernel
  obtain ⟨net, hnet, hrun⟩ := bind_eq_some_iff.1 hrun
  obtain ⟨node, hnode, hrun⟩ := bind_eq_some_iff.1 hrun
  obtain ⟨request, hrequest, hrun⟩ := bind_eq_some_iff.1 hrun
  obtain ⟨answer, hanswer, hrun⟩ := map_eq_some_iff.1 hrun
  exact ⟨net, node, request, answer, hnet, hnode, hrequest, hanswer, of_decide_eq_true hrun⟩

/-- The ping request that node 2 has sent arrives at node 1 so often that its counter comes back to
the number of its first probe. The ping of the new round is lost, and the old acknowledgement ends
the round. -/
theorem probe_seq_wraps : ∃ before after net₁ net₂ net node,
    exec step empty before = some net₁ ∧ step net₁ (.task 1 (.probeStart 0)) = some net₂ ∧
    exec step net₂ after = some net ∧ (∀ pick, .task 1 (.probeStart pick) ∉ after) ∧
    net.nodes.lookup 1 = some node ∧ node.swim.probeAck.isSome ∧
    node.swim.probe = .direct (sampleMember 2 "b" 2) 1 ∧
    (2, net₁.sent.length) ∉ net.handled := by
  obtain ⟨net₀, node, request, answer, h₀, hn₀, hrequest, hanswer, hl, hid, hfree, hidle, hseq,
    htarget, hmsg, ⟨hdst, hs, hstale⟩, hmsg', ⟨hdst', hs', hstale'⟩, hlength, hhandled⟩ :=
    exec_requesting
  obtain ⟨net₁, queue, h₁, hn₁, hsent, hhandled₁⟩ := exec_redeliver_request hmsg (2 ^ 64 - 2) hn₀ hl
    hrequest hdst hs hid hfree hstale
  have hone : node.swim.probeSeq + UInt64.ofNat (2 ^ 64 - 2) = 1 := by rw [hseq]; decide
  rw [hone] at hn₁
  -- the new round
  have h₂ := step_task hn₁ hl (t := .probeStart 0) (probeStart_eq node.cfg hidle hid htarget)
  let d₂ : SwimDriver := { node.swim with
    queue := (queue.drainForSend piggybackBatch).2
    probeSeq := 1 + 1
    inFlight := 1 :: node.swim.inFlight
    probe := .direct (sampleMember 2 "b" 2) 1 }
  have hn₂ := (lookup_update net₁ 1 1 { node with swim := d₂ }
    [(⟨node.cfg.clusterSecret, 1, .ping 1 2, (queue.drainForSend piggybackBatch).1⟩, "b")]
    none).trans (if_pos rfl)
  -- the old answer
  have hstep := step_deliver 0 true hn₂ hl (sent_update _ _ _ _ (hsent ▸ hanswer)) hdst'
  have hstale₂ : d₂.applyPiggyback node.cfg 0 answer.env.gossip = d₂ :=
    applyPiggyback_ignored node.cfg 0 hstale'
  have hhandle : d₂.handleEnvelope node.cfg 0 answer.env answer.src true =
      ({ d₂ with inFlight := [], fired := 1 :: node.swim.fired }, []) := by
    simp only [handleEnvelope, hs', hstale₂, hmsg', ne_eq, not_true_eq_false, if_false]
    simp [d₂, hid, handleMessage, completeInflight, forgetInflight, hfree]
  dsimp only at hstep
  rw [hhandle] at hstep
  refine ⟨_, [.deliver 1 5 0 true], net₁, _, _, _, (exec_append h₀).trans h₁, h₂, exec_cons hstep,
    by simp, (lookup_update _ _ _ _ _ _).trans (if_pos rfl), ?_, rfl, ?_⟩
  · simp [probeAck, d₂]
  rw [hsent, hlength]
  intro hmem
  have hmem : (2, 8) ∈ (((net₁.update 1 { node with swim := d₂ } _ none).handle 1
    { node with swim := d₂ } 5 answer)).handled := hmem
  rw [handle, if_pos hs'] at hmem
  rcases mem_cons.1 hmem with hmem | hmem
  · cases hmem
  · rcases hhandled₁ _ hmem with hmem | hmem
    · exact absurd (hhandled _ hmem) (by decide)
    · cases hmem

end Sample

end SwimNet

end Kamino
