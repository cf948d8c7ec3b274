import Kamino.Proofs.Network

/-!
# Convergence of the routing tables

Once all views are the same and stay so, only their first member goes on pushing.
-/

namespace Kamino

open Runs ClusterNode Option

variable {cfg : CoordinatorConfig}

namespace Network

variable {s s' : Network} {M : List ClusterMember} {c : ClusterMember}

section Definitions

/-- All views are `M`, which lists every running node and `c` first, and `c` runs. -/
structure Settled (M : List ClusterMember) (c : ClusterMember) (s : Network) : Prop where
  first : M.head? = some c
  running : ∃ n, s.nodes.lookup c.addr = some n ∧ n.localId = c.id
  views : ∀ a n, s.nodes.lookup a = some n → n.view = M
  listed : ∀ a n, s.nodes.lookup a = some n → ∃ m ∈ M, m.addr = a ∧ m.id = n.localId

/-- The event leaves the members and their views as they are. -/
def Routine : NetworkEvent → Prop
  | .tick _ | .deliver .. | .lose _ => True
  | .bootstrap .. | .crash _ | .view .. => False

def Delivers (s : Network) (ev : NetworkEvent) (p : Push) : Prop :=
  ∃ i again, ev = .deliver i again ∧ s.wire[i]? = some p

/-- An infinite run from `s` in which members and views stay fixed, the node at `addr` keeps
ticking and every push is eventually delivered. -/
structure FairRun (cfg : CoordinatorConfig) (addr : SocketAddr) (s : Network) (σ : ℕ → Network)
    (ev : ℕ → NetworkEvent) : Prop where
  start : σ 0 = s
  isRun : IsRun (step cfg) σ ev
  routine : ∀ t, Routine (ev t)
  ticks : ∀ t, ∃ u ≥ t, ev u = .tick addr
  delivers : ∀ t, ∀ p ∈ (σ t).wire, ∃ u ≥ t, Delivers (σ u) (ev u) p

/-- From some point on every running node stores one and the same table, built for `M`. -/
def Converges (M : List ClusterMember) (σ : ℕ → Network) : Prop :=
  ∃ T : ClusterTable, T.members = M ∧
    ∃ t₀, ∀ t ≥ t₀, ∀ a n, (σ t).nodes.lookup a = some n → n.store = some T

/-- The coordinator is to build, and nothing stored or in flight is above the table it will build:
its clock is at `k`, or at `k + 1` after a push. -/
structure Ahead (cfg : CoordinatorConfig) (addr : SocketAddr) (k : ℕ) (s : Network) : Prop where
  coord : ∃ n, s.nodes.lookup addr = some n ∧ n.topologyChanged cfg ∧
    k ≤ n.signature.toNat ∧ n.signature.toNat ≤ k + 1
  stored : ∀ a n, s.nodes.lookup a = some n → a ≠ addr → ∀ t ∈ n.store, t.signature.toNat ≤ k
  wired : ∀ a n, s.nodes.lookup a = some n → a ≠ addr →
    ∀ p ∈ s.wire, p.target = a → p.table.signature.toNat ≤ k
  wiredBack : ∀ p ∈ s.wire, p.target = addr → p.table.signature.toNat ≤ k + 1

/-- The coordinator has built `T` and stores it, and every other table that a running node stores
or will be pushed is below `T`, or ties with it at a node that already stores `T`. -/
structure Leading (cfg : CoordinatorConfig) (addr : SocketAddr) (T : ClusterTable) (s : Network) :
    Prop where
  coord : ∃ n, s.nodes.lookup addr = some n ∧ ¬ n.topologyChanged cfg ∧ n.currentTable = some T ∧
    n.store = some T
  stored : ∀ a n, s.nodes.lookup a = some n → ∀ t ∈ n.store, t = T ∨ t.signature < T.signature
  wired : ∀ a n, s.nodes.lookup a = some n → ∀ p ∈ s.wire, p.target = a →
    p.table = T ∨ p.table.signature < T.signature ∨
      p.table.signature = T.signature ∧ n.store = some T

/-- The coordinator's table, built for `M` or about to be, has the highest signature. -/
def Newest (cfg : CoordinatorConfig) (M : List ClusterMember) (addr : SocketAddr) (s : Network) :
    Prop :=
  (∃ n, s.nodes.lookup addr = some n ∧ Ahead cfg addr n.signature.toNat s) ∨
    ∃ T, T.members = M ∧ Leading cfg addr T s

end Definitions

variable {ev : NetworkEvent} {e : NetworkEvent}

section Routine

structure Quiet (s s' : Network) : Prop where
  lookup : ∀ a, s'.nodes.lookup a = s.nodes.lookup a
  wire : s'.wire ⊆ s.wire

structure Received (p : Push) (s s' : Network) : Prop where
  mem : p ∈ s.wire
  lookup : ∀ a, s'.nodes.lookup a =
    if a = p.target then (s.nodes.lookup a).map fun n => (n.applyRoutingUpdate p.table).2
    else s.nodes.lookup a
  wire : s'.wire ⊆ s.wire

variable {p : Push} {a : SocketAddr} {n : ClusterNode}

theorem Received.lookup_target (hp : Received p s s')
    (ha : a = p.target) (hn : s.nodes.lookup a = some n) :
    s'.nodes.lookup a = some (n.applyRoutingUpdate p.table).2 := by
  rw [hp.lookup, if_pos ha, hn, map_some]

theorem Received.lookup_of_ne (hp : Received p s s')
    (ha : a ≠ p.target) : s'.nodes.lookup a = s.nodes.lookup a := by
  rw [hp.lookup, if_neg ha]

theorem Received.of_lookup (hp : Received p s s') {n' : ClusterNode}
    (hn' : s'.nodes.lookup a = some n') : ∃ n, s.nodes.lookup a = some n ∧
      (a = p.target ∧ n' = (n.applyRoutingUpdate p.table).2 ∨ n' = n) := by
  by_cases ha : a = p.target
  · rw [hp.lookup, if_pos ha] at hn'
    obtain ⟨n, hn, rfl⟩ := map_eq_some_iff.1 hn'
    exact ⟨n, hn, .inl ⟨ha, rfl⟩⟩
  · exact ⟨n', hp.lookup_of_ne ha ▸ hn', .inr rfl⟩

theorem Settled.isCoord_iff (hset : Settled M c s) (hs : s.Honest cfg)
    (hn : s.nodes.lookup a = some n) : n.isCoord ↔ a = c.addr := by
  obtain ⟨n₀, hn₀, hid⟩ := hset.running
  have hcoord : n.isCoord ↔ c.id = n.localId := by
    simp [isCoord, hset.views a n hn, hset.first]
  rw [hcoord]
  constructor
  · intro h
    exact hs.unique a c.addr n n₀ hn hn₀ (h.symm.trans hid.symm)
  · rintro rfl
    obtain rfl : n₀ = n := some.inj (hn₀.symm.trans hn)
    exact hid.symm

theorem lookup_setNode_self {addr : SocketAddr}
    (h : s.nodes.lookup addr = some n) (a : SocketAddr) :
    (s.setNode addr n).nodes.lookup a = s.nodes.lookup a := by
  rw [lookup_setNode]
  split_ifs with ha
  · rw [ha, h]
  · rfl

theorem wire_receive (s : Network) (p : Push) : (s.receive p).wire = s.wire := by
  unfold receive
  split <;> rfl

theorem received_of_deliver {i : ℕ} {again : Bool} (h : s.step cfg (.deliver i again) = some s') :
    ∃ p, s.wire[i]? = some p ∧ Received p s s' := by
  obtain ⟨p, hp, rfl⟩ := map_eq_some_iff.1 h
  refine ⟨p, hp, List.mem_of_getElem? hp, lookup_receive _ p, fun q hq => ?_⟩
  rw [wire_receive] at hq
  dsimp only at hq
  split_ifs at hq
  · exact hq
  · exact List.mem_of_mem_eraseIdx hq

theorem Settled.step_cases (hset : Settled M c s) (hs : s.Honest cfg)
    (hr : Routine ev) (h : s.step cfg ev = some s') :
    (ev = .tick c.addr ∧ ∃ n, s.nodes.lookup c.addr = some n ∧ s' = s.tickAt cfg c.addr n) ∨
      (∃ p, Received p s s') ∨ Quiet s s' := by
  cases ev with
  | bootstrap => exact hr.elim
  | crash => exact hr.elim
  | view => exact hr.elim
  | tick a =>
    obtain ⟨n, hn, rfl⟩ := map_eq_some_iff.1 h
    by_cases ha : a = c.addr
    · exact .inl ⟨by rw [ha], n, ha ▸ hn, by rw [ha]⟩
    · have hc : ¬ n.isCoord := fun hc => ha ((hset.isCoord_iff hs hn).1 hc)
      rw [tickAt_of_not_rebuilds (fun h => hc h.1), if_neg hc, List.append_nil]
      exact .inr (.inr ⟨lookup_setNode_self hn, List.Subset.refl _⟩)
  | deliver i again =>
    obtain ⟨p, -, hp⟩ := received_of_deliver h
    exact .inr (.inl ⟨p, hp⟩)
  | lose i =>
    obtain ⟨p, -, rfl⟩ := map_eq_some_iff.1 h
    exact .inr (.inr ⟨fun _ => rfl, fun _ => List.mem_of_mem_eraseIdx⟩)

theorem localId_tick (n : ClusterNode) : (n.tick cfg).1.localId = n.localId ∧
    (n.tick cfg).1.view = n.view := by
  by_cases hr : n.Rebuilds cfg
  · obtain ⟨table, -, htick⟩ := tick_of_rebuilds hr
    rw [htick]
    exact ⟨rfl, rfl⟩
  · rw [tick_of_not_rebuilds hr]
    exact ⟨rfl, rfl⟩

theorem localId_applyRoutingUpdate (n : ClusterNode) (t : ClusterTable) :
    (n.applyRoutingUpdate t).2.localId = n.localId ∧ (n.applyRoutingUpdate t).2.view = n.view := by
  rcases n.applyRoutingUpdate_spec t with he | ⟨-, he⟩ <;> rw [he] <;> exact ⟨rfl, rfl⟩

theorem Settled.node_of_step (hset : Settled M c s) (hs : s.Honest cfg)
    (hr : Routine ev) (h : s.step cfg ev = some s') (a : SocketAddr) :
    (s.nodes.lookup a).map (fun n => (n.localId, n.view)) =
      (s'.nodes.lookup a).map (fun n => (n.localId, n.view)) := by
  rcases hset.step_cases hs hr h with ⟨-, n, hn, rfl⟩ | ⟨p, hp⟩ | hq
  · rw [lookup_tickAt]
    split_ifs with ha
    · rw [ha, hn, map_some, map_some, (localId_tick n).1, (localId_tick n).2]
    · rfl
  · rw [hp.lookup]
    split_ifs with ha
    · rw [map_map]
      congr 1
      funext n
      exact Prod.ext (localId_applyRoutingUpdate n p.table).1.symm
        (localId_applyRoutingUpdate n p.table).2.symm
    · rfl
  · rw [hq.lookup]

/-- No routine event unsettles the cluster. -/
theorem Settled.step (hset : Settled M c s) (hs : s.Honest cfg)
    (hr : Routine e) (h : s.step cfg e = some s') : Settled M c s' := by
  have hnode := hset.node_of_step hs hr h
  have hback : ∀ a n', s'.nodes.lookup a = some n' →
      ∃ n, s.nodes.lookup a = some n ∧ n.localId = n'.localId ∧ n.view = n'.view := by
    intro a n' hn'
    have he := hnode a
    rw [hn', map_some] at he
    obtain ⟨n, hn, hp⟩ := map_eq_some_iff.1 he
    exact ⟨n, hn, congrArg Prod.fst hp, congrArg Prod.snd hp⟩
  refine ⟨hset.first, ?_, fun a n' hn' => ?_, fun a n' hn' => ?_⟩
  · obtain ⟨n, hn, hid⟩ := hset.running
    have he := hnode c.addr
    rw [hn, map_some] at he
    obtain ⟨n', hn', hp⟩ := map_eq_some_iff.1 he.symm
    exact ⟨n', hn', (congrArg Prod.fst hp).trans hid⟩
  · obtain ⟨n, hn, -, hv⟩ := hback a n' hn'
    exact hv ▸ hset.views a n hn
  · obtain ⟨n, hn, hid, -⟩ := hback a n' hn'
    exact hid ▸ hset.listed a n hn

end Routine

section Leading

variable {T : ClusterTable} {a : SocketAddr} {n : ClusterNode} {p : Push}
  (hl : Leading cfg c.addr T s)
include hl

theorem Leading.le (hn : s.nodes.lookup a = some n) (hp : p ∈ s.wire) (ha : p.target = a) :
    p.table.signature ≤ T.signature := by
  rcases hl.wired a n hn p hp ha with he | hlt | ⟨he, -⟩
  · exact UInt64.le_of_eq (congrArg _ he)
  · exact UInt64.le_of_lt hlt
  · exact UInt64.le_of_eq he

theorem Leading.received (hn : s.nodes.lookup p.target = some n) (hp : p ∈ s.wire) :
    (n.store = some T → (n.applyRoutingUpdate p.table).2 = n) ∧
      ∀ t ∈ (n.applyRoutingUpdate p.table).2.store, t = T ∨ t.signature < T.signature := by
  have hkeep : n.store = some T → (n.applyRoutingUpdate p.table).2 = n := by
    intro hT
    rw [applyRoutingUpdate_stale hT (hl.le hn hp rfl)]
  refine ⟨hkeep, fun t ht => ?_⟩
  rcases n.applyRoutingUpdate_spec p.table with he | ⟨-, he⟩
  · rw [he] at ht
    exact hl.stored _ n hn t ht
  rcases hl.wired _ n hn p hp rfl with hT | hlt | ⟨-, hT⟩
  · rw [he] at ht
    exact .inl ((some.inj ht).symm.trans hT)
  · rw [he] at ht
    exact .inr (some.inj ht ▸ hlt)
  · rw [hkeep hT] at ht
    exact .inl (some.inj (ht.symm.trans hT))

theorem Leading.lookup_received (hp : Received p s s') (hn : s.nodes.lookup a = some n)
    (hT : n.store = some T) : s'.nodes.lookup a = some n := by
  by_cases ha : a = p.target
  · rw [hp.lookup_target ha hn, (hl.received (ha ▸ hn) hp.mem).1 hT]
  · rw [hp.lookup_of_ne ha, hn]

theorem Leading.quiet (hq : Quiet s s') : Leading cfg c.addr T s' where
  coord := by rw [hq.lookup]; exact hl.coord
  stored a n hn := hl.stored a n (hq.lookup a ▸ hn)
  wired a n hn p hp := hl.wired a n (hq.lookup a ▸ hn) p (hq.wire hp)

theorem Leading.deliver {p : Push} (hp : Received p s s') : Leading cfg c.addr T s' := by
  have hnode : ∀ a n', s'.nodes.lookup a = some n' → ∃ n, s.nodes.lookup a = some n ∧
      (n.store = some T → n' = n) ∧ ∀ t ∈ n'.store, t = T ∨ t.signature < T.signature := by
    intro a n' hn'
    obtain ⟨n, hn, ⟨rfl, rfl⟩ | rfl⟩ := hp.of_lookup hn'
    · exact ⟨n, hn, hl.received hn hp.mem⟩
    · exact ⟨n', hn, fun _ => rfl, hl.stored a n' hn⟩
  refine ⟨?_, fun a n' hn' => ?_, fun a n' hn' q hq hqa => ?_⟩
  · obtain ⟨n, hn, hch, hcur, hst⟩ := hl.coord
    exact ⟨n, hl.lookup_received hp hn hst, hch, hcur, hst⟩
  · obtain ⟨n, -, -, hbelow⟩ := hnode a n' hn'
    exact hbelow
  obtain ⟨n, hn, hkeep, -⟩ := hnode a n' hn'
  rcases hl.wired a n hn q (hp.wire hq) hqa with h | h | ⟨he, hT⟩
  · exact .inl h
  · exact .inr (.inl h)
  · exact .inr (.inr ⟨he, hkeep hT ▸ hT⟩)

theorem Leading.tick (hset : Settled M c s) (hs : s.Honest cfg)
    (hn : s.nodes.lookup c.addr = some n) :
    Leading cfg c.addr T (s.tickAt cfg c.addr n) ∧
      ∀ m ∈ M, m.id ≠ c.id → ⟨m.addr, T⟩ ∈ (s.tickAt cfg c.addr n).wire := by
  obtain ⟨n₀, hn₀, hch, hcur, hst⟩ := hl.coord
  obtain rfl : n₀ = n := some.inj (hn₀.symm.trans hn)
  obtain ⟨n₁, hn₁, hid⟩ := hset.running
  obtain rfl : n₁ = n₀ := some.inj (hn₁.symm.trans hn₀)
  have hcoord : n₁.isCoord := (hset.isCoord_iff hs hn).2 rfl
  rw [tickAt_of_not_rebuilds (fun h => hch h.2), if_pos hcoord]
  refine ⟨⟨?_, fun a m hm => ?_, fun a m hm p hp ha => ?_⟩, fun m hm hne => ?_⟩
  · exact ⟨n₁, (lookup_setNode_self hn _).trans hn, hch, hcur, hst⟩
  · exact hl.stored a m ((lookup_setNode_self hn a).symm.trans hm)
  · rcases List.mem_append.1 hp with hp | hp
    · exact hl.wired a m ((lookup_setNode_self hn a).symm.trans hm) p hp ha
    · exact .inl (some.inj ((mem_pushToPeers hp).symm.trans hcur))
  · refine List.mem_append_right _ ?_
    rw [pushToPeers, hcur, hset.views _ n₁ hn]
    exact List.mem_map.2 ⟨m, List.mem_filter.2 ⟨hm, by simpa [hid] using hne⟩, rfl⟩

/-- A table that leads goes on leading. -/
theorem Leading.step (hset : Settled M c s) (hs : s.Honest cfg) (hr : Routine ev)
    (h : s.step cfg ev = some s') : Leading cfg c.addr T s' := by
  rcases hset.step_cases hs hr h with ⟨-, n, hn, rfl⟩ | ⟨p, hp⟩ | hq
  · exact (hl.tick hset hs hn).1
  · exact hl.deliver hp
  · exact hl.quiet hq

theorem Leading.kept (hset : Settled M c s) (hs : s.Honest cfg) (hr : Routine ev)
    (h : s.step cfg ev = some s') (hn : s.nodes.lookup a = some n) (hT : n.store = some T) :
    ∃ n', s'.nodes.lookup a = some n' ∧ n'.store = some T := by
  rcases hset.step_cases hs hr h with ⟨-, n₀, hn₀, rfl⟩ | ⟨p, hp⟩ | hq
  · obtain ⟨n₁, hn₁, hch, -⟩ := hl.coord
    obtain rfl : n₁ = n₀ := some.inj (hn₁.symm.trans hn₀)
    rw [lookup_tickAt]
    split_ifs with ha
    · subst ha
      obtain rfl : n₁ = n := some.inj (hn₁.symm.trans hn)
      rw [tick_of_not_rebuilds fun h => hch h.2]
      exact ⟨n₁, rfl, hT⟩
    · exact ⟨n, hn, hT⟩
  · exact ⟨n, hl.lookup_received hp hn hT, hT⟩
  · exact ⟨n, by rw [hq.lookup, hn], hT⟩

theorem Leading.arrives (hp : Received p s s')
    (hT : p.table = T) (hn : s.nodes.lookup p.target = some n) :
    ∃ n', s'.nodes.lookup p.target = some n' ∧ n'.store = some T := by
  refine ⟨(n.applyRoutingUpdate p.table).2, hp.lookup_target rfl hn, ?_⟩
  by_cases hst : n.store = some T
  · rw [(hl.received hn hp.mem).1 hst, hst]
  rw [applyRoutingUpdate_accepted]
  · rw [hT]
    rfl
  · intro t ht
    rw [hT]
    exact (hl.stored _ n hn t ht).resolve_left fun he => hst (he ▸ ht)

end Leading

section Ahead

variable {k : ℕ} (ha : Ahead cfg c.addr k s)
include ha

theorem Ahead.quiet (hq : Quiet s s') : Ahead cfg c.addr k s' where
  coord := by rw [hq.lookup]; exact ha.coord
  stored a n hn := ha.stored a n (hq.lookup a ▸ hn)
  wired a n hn hne p hp := ha.wired a n (hq.lookup a ▸ hn) hne p (hq.wire hp)
  wiredBack p hp := ha.wiredBack p (hq.wire hp)

theorem Ahead.deliver {p : Push} (hp : Received p s s') : Ahead cfg c.addr k s' := by
  have hnode : ∀ a n', s'.nodes.lookup a = some n' → a ≠ c.addr →
      ∃ n, s.nodes.lookup a = some n ∧ ∀ t ∈ n'.store, t.signature.toNat ≤ k := by
    intro a n' hn' hne
    obtain ⟨n, hn, ⟨rfl, rfl⟩ | rfl⟩ := hp.of_lookup hn'
    · refine ⟨n, hn, fun t ht => ?_⟩
      rcases n.applyRoutingUpdate_spec p.table with he | ⟨-, he⟩
      · exact ha.stored _ n hn hne t (he ▸ ht)
      · rw [he] at ht
        exact some.inj ht ▸ ha.wired _ n hn hne p hp.mem rfl
    · exact ⟨n', hn, ha.stored a n' hn hne⟩
  refine ⟨?_, fun a n' hn' hne => ?_, fun a n' hn' hne q hq => ?_, fun q hq => ?_⟩
  · obtain ⟨n, hn, hch, hlo, hhi⟩ := ha.coord
    by_cases hat : c.addr = p.target
    · refine ⟨_, hp.lookup_target hat hn, ?_⟩
      rcases n.applyRoutingUpdate_spec p.table with he | ⟨-, he⟩
      · rw [he]
        exact ⟨hch, hlo, hhi⟩
      have hback := ha.wiredBack p hp.mem hat.symm
      rw [he]
      refine ⟨hch, ?_⟩
      simp only [bumpSignatureToAtLeast]
      split_ifs with hlt
      · rw [UInt64.lt_iff_toNat_lt] at hlt
        omega
      · exact ⟨hlo, hhi⟩
    · exact ⟨n, (hp.lookup_of_ne hat).trans hn, hch, hlo, hhi⟩
  · obtain ⟨n, -, hbelow⟩ := hnode a n' hn' hne
    exact hbelow
  · obtain ⟨n, hn, -⟩ := hnode a n' hn' hne
    exact ha.wired a n hn hne q (hp.wire hq)
  · exact ha.wiredBack q (hp.wire hq)

theorem Ahead.tick (hset : Settled M c s) (hs : s.Sound cfg)
    (hk : k + 2 < 2 ^ 64) {n : ClusterNode} (hn : s.nodes.lookup c.addr = some n) :
    ∃ T, T.members = M ∧ Leading cfg c.addr T (s.tickAt cfg c.addr n) := by
  obtain ⟨n₀, hn₀, hch, hlo, hhi⟩ := ha.coord
  obtain rfl : n₀ = n := some.inj (hn₀.symm.trans hn)
  have hcoord : n₀.isCoord := (hset.isCoord_iff hs.1 hn).2 rfl
  have hr : n₀.Rebuilds cfg := ⟨hcoord, hch⟩
  obtain ⟨T, hT, -, he⟩ := tickAt_of_rebuilds hr s c.addr
  obtain ⟨hsig, hmem⟩ := buildTable_spec cfg hT
  have hmax : n₀.signature.toNat + 1 < 2 ^ 64 := by omega
  have hTk : T.signature.toNat = n₀.signature.toNat + 1 := by
    rw [hsig, toNat_succ hmax]
  have hbelow : ∀ t : ClusterTable, t.signature.toNat ≤ k → t.signature < T.signature := by
    intro t ht
    rw [UInt64.lt_iff_toNat_lt]
    omega
  have hstore : (n₀.built cfg T).store = some T := by
    rw [built, RoutingTableStore.apply_accepted]
    rw [hsig]
    exact (hs.2.ordered _ n₀ hn).covered.lt hmax
  refine ⟨T, hmem.trans (hset.views _ n₀ hn), ?_⟩
  rw [he]
  refine ⟨⟨n₀.built cfg T, (lookup_setNode _ _ _ _).trans (if_pos rfl), ?_, rfl, hstore⟩,
    fun a m hm t ht => ?_, fun a m hm p hp hpa => ?_⟩
  · simp [topologyChanged, built]
  · rcases of_lookup_setNode hm with ⟨-, rfl⟩ | ⟨hne, hm⟩
    · exact .inl (some.inj (ht.symm.trans hstore))
    · exact .inr (hbelow t (ha.stored a m hm hne t ht))
  rcases List.mem_append.1 hp with hp | hp
  · rcases of_lookup_setNode hm with ⟨rfl, rfl⟩ | ⟨hne, hm⟩
    · have hback := ha.wiredBack p hp hpa
      by_cases hlt : p.table.signature.toNat < T.signature.toNat
      · exact .inr (.inl (UInt64.lt_iff_toNat_lt.2 hlt))
      · exact .inr (.inr ⟨UInt64.toNat_inj.1 (by omega), hstore⟩)
    · exact .inr (.inl (hbelow p.table (ha.wired a m hm hne p hp hpa)))
  · exact .inl (some.inj (mem_pushToPeers hp)).symm

end Ahead

section Convergence

variable {σ : ℕ → Network} {ev : ℕ → NetworkEvent} {T : ClusterTable} {k : ℕ} {addr : SocketAddr}

theorem FairRun.shift (hrun : FairRun cfg addr s σ ev) (t : ℕ) :
    FairRun cfg addr (σ t) (fun i => σ (t + i)) (fun i => ev (t + i)) where
  start := rfl
  isRun i := hrun.isRun (t + i)
  routine i := hrun.routine (t + i)
  ticks i := by
    obtain ⟨u, hu, he⟩ := hrun.ticks (t + i)
    exact ⟨u - t, by omega, by rwa [Nat.add_sub_cancel' (by omega)]⟩
  delivers i p hp := by
    obtain ⟨u, hu, he⟩ := hrun.delivers (t + i) p hp
    exact ⟨u - t, by omega, by rwa [Nat.add_sub_cancel' (by omega)]⟩

theorem Converges.of_shift {t : ℕ} (h : Converges M fun i => σ (t + i)) : Converges M σ := by
  obtain ⟨T, hT, t₀, hconv⟩ := h
  refine ⟨T, hT, t + t₀, fun u hu => ?_⟩
  have hu' := hconv (u - t) (by omega)
  dsimp only at hu'
  rwa [Nat.add_sub_cancel' (by omega)] at hu'

theorem FairRun.settled (hrun : FairRun cfg addr s σ ev) (hset : Settled M c s)
    (hs : s.Honest cfg) (t : ℕ) : Settled M c (σ t) ∧ (σ t).Honest cfg := by
  induction t with
  | zero => exact hrun.start ▸ ⟨hset, hs⟩
  | succ t ih => exact ⟨ih.1.step ih.2 (hrun.routine t) (hrun.isRun t), ih.2.step (hrun.isRun t)⟩

theorem FairRun.running (hrun : FairRun cfg addr s σ ev) (hset : Settled M c s) (hs : s.Honest cfg)
    (a : SocketAddr) (t : ℕ) : ((σ t).nodes.lookup a).isSome = (s.nodes.lookup a).isSome := by
  induction t with
  | zero => rw [hrun.start]
  | succ t ih =>
    obtain ⟨hset', hs'⟩ := hrun.settled hset hs t
    have hnode := hset'.node_of_step hs' (hrun.routine t) (hrun.isRun t) a
    rw [← ih, ← isSome_map (f := fun n : ClusterNode => (n.localId, n.view)), ← hnode, isSome_map]

/-- The invariant of the run once the coordinator's table leads. -/
def Led (cfg : CoordinatorConfig) (M : List ClusterMember) (c : ClusterMember) (T : ClusterTable)
    (s : Network) : Prop :=
  Settled M c s ∧ s.Honest cfg ∧ Leading cfg c.addr T s

/-- A routine step leaves the coordinator's table in the lead. -/
theorem Led.step (h : Led cfg M c T s) (hr : Routine e)
    (hs : s.step cfg e = some s') : Led cfg M c T s' :=
  ⟨h.1.step h.2.1 hr hs, h.2.1.step hs, h.2.2.step h.1 h.2.1 hr hs⟩

section

variable (hrun : FairRun cfg c.addr s σ ev)
include hrun

variable (h : Led cfg M c T s)
include h

theorem FairRun.led (t : ℕ) : Led cfg M c T (σ t) :=
  hrun.isRun.invariant (fun t _ hs hstep => hs.step (hrun.routine t) hstep) (hrun.start ▸ h) t
    (Nat.zero_le t)

theorem FairRun.kept {a : SocketAddr}
    {t₀ : ℕ} (h₀ : ∃ n, (σ t₀).nodes.lookup a = some n ∧ n.store = some T) :
    ∀ t ≥ t₀, ∃ n, (σ t).nodes.lookup a = some n ∧ n.store = some T := by
  intro t ht
  induction t, ht using Nat.le_induction with
  | base => exact h₀
  | succ t _ ih =>
    obtain ⟨n, hn, hT⟩ := ih
    obtain ⟨hset, hh, hl⟩ := hrun.led h t
    exact hl.kept hset hh (hrun.routine t) (hrun.isRun t) hn hT

theorem FairRun.reaches
    (a : SocketAddr) : ∃ t₀, ∀ t ≥ t₀, ∀ n, (σ t).nodes.lookup a = some n → n.store = some T := by
  obtain ⟨u, -, hu⟩ := hrun.ticks 0
  obtain ⟨hset, hh, hl⟩ := hrun.led h u
  obtain ⟨n₀, hn₀, -⟩ := hset.running
  have hstep := hrun.isRun u
  rw [hu, step_tick hn₀] at hstep
  have hwire := (hl.tick hset hh hn₀).2
  rw [some.inj hstep] at hwire
  obtain ⟨hset', hh', hl'⟩ := hrun.led h (u + 1)
  have hkeep : ∀ t₀, (∃ n, (σ t₀).nodes.lookup a = some n ∧ n.store = some T) →
      ∃ t₀, ∀ t ≥ t₀, ∀ n, (σ t).nodes.lookup a = some n → n.store = some T := by
    intro t₀ h₀
    refine ⟨t₀, fun t ht n hn => ?_⟩
    obtain ⟨n', hn', hT⟩ := hrun.kept h h₀ t ht
    exact some.inj (hn'.symm.trans hn) ▸ hT
  by_cases hrunning : (s.nodes.lookup a).isSome
  · obtain ⟨n, hn⟩ := isSome_iff_exists.1 ((hrun.running h.1 h.2.1 a (u + 1)).trans hrunning)
    obtain ⟨m, hm, rfl, hid⟩ := hset'.listed a n hn
    by_cases hmc : m.id = c.id
    · obtain ⟨n₁, hn₁, hT⟩ := hl'.coord
      obtain ⟨n₂, hn₂, hid₂⟩ := hset'.running
      have ha := hh'.unique m.addr c.addr n n₂ hn hn₂ (by rw [← hid, hmc, hid₂])
      exact hkeep (u + 1) ⟨n₁, ha ▸ hn₁, hT.2.2⟩
    obtain ⟨v, -, i, again, hev, hget⟩ := hrun.delivers (u + 1) _ (hwire m hm hmc)
    have hdeliver := hrun.isRun v
    rw [hev] at hdeliver
    obtain ⟨p, hp, hrec⟩ := received_of_deliver hdeliver
    obtain rfl : p = ⟨m.addr, T⟩ := some.inj (hp.symm.trans hget)
    obtain ⟨n', hn'⟩ := isSome_iff_exists.1 ((hrun.running h.1 h.2.1 m.addr v).trans hrunning)
    exact hkeep (v + 1) ((hrun.led h v).2.2.arrives hrec rfl hn')
  · refine ⟨0, fun t _ n hn => absurd ?_ hrunning⟩
    rw [← hrun.running h.1 h.2.1 a t, hn]
    rfl

theorem FairRun.converges (hT : T.members = M) : Converges M σ := by
  have hall : ∀ l : List SocketAddr, ∃ t₀, ∀ a ∈ l, ∀ t ≥ t₀, ∀ n,
      (σ t).nodes.lookup a = some n → n.store = some T := by
    intro l
    induction l with
    | nil => exact ⟨0, nofun⟩
    | cons a l ih =>
      obtain ⟨t₁, h₁⟩ := hrun.reaches h a
      obtain ⟨t₂, h₂⟩ := ih
      refine ⟨max t₁ t₂, fun b hb t ht => ?_⟩
      rcases List.mem_cons.1 hb with rfl | hb
      · exact h₁ t (le_of_max_le_left ht)
      · exact h₂ b hb t (le_of_max_le_right ht)
  obtain ⟨t₀, h₀⟩ := hall (M.map (·.addr))
  refine ⟨T, hT, t₀, fun t ht a n hn => h₀ a ?_ t ht n hn⟩
  obtain ⟨m, hm, rfl, -⟩ := (hrun.led h t).1.listed a n hn
  exact List.mem_map_of_mem hm

end

variable (hset : Settled M c s)
include hset

theorem Settled.noWrap (hs : s.Honest cfg)
    (h : ∀ n, s.nodes.lookup c.addr = some n → n.topologyChanged cfg →
      n.signature.toNat + 1 < 2 ^ 64) (e : NetworkEvent) : s.NoWrap cfg e := by
  cases e with
  | tick a =>
    intro n hn hr
    obtain rfl := (hset.isCoord_iff hs hn).1 hr.1
    exact h n hn hr.2
  | bootstrap => trivial
  | crash => trivial
  | view => trivial
  | deliver => trivial
  | lose => trivial

/-- The coordinator stays ahead until it ticks; then its table leads. -/
theorem Ahead.step (ha : Ahead cfg c.addr k s) (hs : s.Sound cfg)
    (hk : k + 2 < 2 ^ 64) (hr : Routine e) (h : s.step cfg e = some s') :
    s'.Sound cfg ∧ (e ≠ .tick c.addr ∧ Ahead cfg c.addr k s' ∨
      ∃ T, T.members = M ∧ Leading cfg c.addr T s') := by
  have hwrap : s.NoWrap cfg e := by
    refine hset.noWrap hs.1 (fun n hn _ => ?_) e
    obtain ⟨n₀, hn₀, -, -, hhi⟩ := ha.coord
    obtain rfl : n₀ = n := some.inj (hn₀.symm.trans hn)
    omega
  refine ⟨hs.step hwrap h, ?_⟩
  by_cases he : e = .tick c.addr
  · subst he
    obtain ⟨n, hn, rfl⟩ := map_eq_some_iff.1 h
    exact .inr (ha.tick hset hs hk hn)
  rcases hset.step_cases hs.1 hr h with ⟨he', -⟩ | ⟨p, hp⟩ | hq
  · exact absurd he' he
  · exact .inl ⟨he, ha.deliver hp⟩
  · exact .inl ⟨he, ha.quiet hq⟩

theorem FairRun.leads (hrun : FairRun cfg c.addr s σ ev) (hs : s.Sound cfg) (hk : k + 2 < 2 ^ 64)
    (ha : Ahead cfg c.addr k s) : ∃ t T, T.members = M ∧ Led cfg M c T (σ t) := by
  by_contra hno
  have hstill : ∀ t, (σ t).Sound cfg ∧ Ahead cfg c.addr k (σ t) := by
    intro t
    induction t with
    | zero => exact hrun.start ▸ ⟨hs, ha⟩
    | succ t ih =>
      obtain ⟨hset', -⟩ := hrun.settled hset hs.1 t
      obtain ⟨hs', hcase⟩ := ih.2.step hset' ih.1 hk (hrun.routine t) (hrun.isRun t)
      refine ⟨hs', ?_⟩
      rcases hcase with ⟨-, ha'⟩ | ⟨T, hT, hl⟩
      · exact ha'
      · obtain ⟨hset'', hh''⟩ := hrun.settled hset hs.1 (t + 1)
        exact absurd ⟨t + 1, T, hT, hset'', hh'', hl⟩ hno
  obtain ⟨u, -, hu⟩ := hrun.ticks 0
  obtain ⟨hset', -⟩ := hrun.settled hset hs.1 u
  obtain ⟨-, ⟨hne, -⟩ | ⟨T, hT, hl⟩⟩ :=
    (hstill u).2.step hset' (hstill u).1 hk (hrun.routine u) (hrun.isRun u)
  · exact hne hu
  · obtain ⟨hset'', hh''⟩ := hrun.settled hset hs.1 (u + 1)
    exact hno ⟨u + 1, T, hT, hset'', hh'', hl⟩

theorem converges_of_newest (hs : s.Sound cfg)
    (hroom : ∀ n, s.nodes.lookup c.addr = some n → n.signature.toNat + 2 < 2 ^ 64)
    (hnew : Newest cfg M c.addr s) (hrun : FairRun cfg c.addr s σ ev) : Converges M σ := by
  rcases hnew with ⟨n, hn, ha⟩ | ⟨T, hT, hl⟩
  · obtain ⟨t, T, hT, hled⟩ := hrun.leads hset hs (hroom n hn) ha
    exact ((hrun.shift t).converges hled hT).of_shift
  · exact hrun.converges ⟨hset, hs.1, hl⟩ hT

end Convergence

end Network

end Kamino
