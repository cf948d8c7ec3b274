import Kamino.Proofs.Convergence

/-!
# Fair runs that do not converge

From every settled state there is a fair run (`Network.scheduled`).
-/

namespace Kamino

open Runs ClusterNode Option List Network

variable {cfg : CoordinatorConfig}

namespace Network

variable {s s' : Network} {M : List ClusterMember} {c : ClusterMember} {e : NetworkEvent}

section Schedule

variable {σ : ℕ → Network} {ev : ℕ → NetworkEvent} {T : ClusterTable}

/-- The coordinator ticks at every other step, and in between the oldest push arrives. -/
def turn (addr : SocketAddr) (t : ℕ) (s : Network) : NetworkEvent :=
  if t % 2 = 0 ∨ s.wire = [] then .tick addr else .deliver 0 false

def scheduled (cfg : CoordinatorConfig) (addr : SocketAddr) (s : Network) : ℕ → Network
  | 0 => s
  | t + 1 =>
    let s' := scheduled cfg addr s t
    (s'.step cfg (turn addr t s')).getD s'

theorem routine_turn (addr : SocketAddr) (t : ℕ) (s : Network) : Routine (turn addr t s) := by
  unfold turn
  split_ifs <;> trivial

theorem Settled.turn_isSome (hset : Settled M c s) (cfg : CoordinatorConfig) (t : ℕ) :
    (s.step cfg (turn c.addr t s)).isSome := by
  obtain ⟨n, hn, -⟩ := hset.running
  unfold turn
  split_ifs with h
  · rw [step_tick hn]
    rfl
  · obtain ⟨p, ps, hw⟩ := exists_cons_of_ne_nil (not_or.1 h).2
    simp [Network.step, hw]

variable {t i : ℕ} {p : Push}

theorem step_scheduled (hset : Settled M c (scheduled cfg c.addr s t)) :
    (scheduled cfg c.addr s t).step cfg (turn c.addr t (scheduled cfg c.addr s t)) =
      some (scheduled cfg c.addr s (t + 1)) := by
  obtain ⟨s₁, h₁⟩ := isSome_iff_exists.1 (hset.turn_isSome cfg t)
  have hnext : scheduled cfg c.addr s (t + 1) = s₁ := by
    rw [scheduled, h₁]
    rfl
  rw [h₁, hnext]

theorem settled_scheduled (hset : Settled M c s) (hs : s.Honest cfg) (t : ℕ) :
    Settled M c (scheduled cfg c.addr s t) ∧ (scheduled cfg c.addr s t).Honest cfg := by
  induction t with
  | zero => exact ⟨hset, hs⟩
  | succ t ih =>
    have hstep := step_scheduled ih.1
    exact ⟨ih.1.step ih.2 (routine_turn _ _ _) hstep, ih.2.step hstep⟩

theorem wire_tickAt (s : Network) (addr : SocketAddr) (n : ClusterNode) :
    (s.tickAt cfg addr n).wire = s.wire ++ (n.tick cfg).2.2 :=
  rfl

theorem step_deliver (cfg : CoordinatorConfig) (hp : s.wire[i]? = some p) :
    ∃ s', s.step cfg (.deliver i false) = some s' ∧ s'.wire = s.wire.eraseIdx i := by
  refine ⟨_, by rw [step, hp, map_some], ?_⟩
  rw [wire_receive]
  rfl

section

variable (hset : Settled M c s)
include hset

variable (hs : s.Honest cfg)
include hs

theorem wire_scheduled_even (ht : t % 2 = 0) (hp : (scheduled cfg c.addr s t).wire[i]? = some p) :
    (scheduled cfg c.addr s (t + 1)).wire[i]? = some p := by
  have hset' := (settled_scheduled hset hs t).1
  have hstep := step_scheduled hset'
  obtain ⟨n, hn, -⟩ := hset'.running
  rw [turn, if_pos (.inl ht), step_tick hn] at hstep
  rw [← some.inj hstep, wire_tickAt,
    List.getElem?_append_left (List.getElem?_eq_some_iff.1 hp).1, hp]

theorem wire_scheduled_odd (ht : t % 2 = 1) (hp : (scheduled cfg c.addr s t).wire[i]? = some p) :
    turn c.addr t (scheduled cfg c.addr s t) = .deliver 0 false ∧
      (scheduled cfg c.addr s (t + 1)).wire = (scheduled cfg c.addr s t).wire.eraseIdx 0 := by
  have hne : (scheduled cfg c.addr s t).wire ≠ [] := ne_nil_of_mem (mem_of_getElem? hp)
  have hturn : turn c.addr t (scheduled cfg c.addr s t) = .deliver 0 false := by
    rw [turn, if_neg]
    rintro (h | h)
    · omega
    · exact hne h
  have hstep := step_scheduled (settled_scheduled hset hs t).1
  obtain ⟨q, qs, hw⟩ := exists_cons_of_ne_nil hne
  have hget : (scheduled cfg c.addr s t).wire[0]? = some q := by rw [hw]; rfl
  obtain ⟨s₁, h₁, hwire⟩ := step_deliver cfg hget
  rw [hturn, h₁] at hstep
  exact ⟨hturn, some.inj hstep ▸ hwire⟩

theorem exists_odd_scheduled (hp : (scheduled cfg c.addr s t).wire[i]? = some p) :
    ∃ u ≥ t, u % 2 = 1 ∧ (scheduled cfg c.addr s u).wire[i]? = some p := by
  rcases Nat.mod_two_eq_zero_or_one t with ht | ht
  · exact ⟨t + 1, by omega, by omega, wire_scheduled_even hset hs ht hp⟩
  · exact ⟨t, le_refl t, ht, hp⟩

theorem delivers_scheduled (hp : (scheduled cfg c.addr s t).wire[i]? = some p) : ∃ u ≥ t,
      Delivers (scheduled cfg c.addr s u) (turn c.addr u (scheduled cfg c.addr s u)) p := by
  induction i generalizing t with
  | zero =>
    obtain ⟨u, hu, hodd, hp'⟩ := exists_odd_scheduled hset hs hp
    exact ⟨u, hu, 0, false, (wire_scheduled_odd hset hs hodd hp').1, hp'⟩
  | succ i ih =>
    obtain ⟨u, hu, hodd, hp'⟩ := exists_odd_scheduled hset hs hp
    have hwire := (wire_scheduled_odd hset hs hodd hp').2
    have hnext : (scheduled cfg c.addr s (u + 1)).wire[i]? = some p := by
      rw [hwire, getElem?_eraseIdx, if_neg (Nat.not_lt_zero i), hp']
    obtain ⟨v, hv, hdel⟩ := ih hnext
    exact ⟨v, by omega, hdel⟩

theorem fairRun_scheduled : FairRun cfg c.addr s (scheduled cfg c.addr s)
      (fun t => turn c.addr t (scheduled cfg c.addr s t)) where
  start := rfl
  isRun t := step_scheduled (settled_scheduled hset hs t).1
  routine t := routine_turn _ _ _
  ticks t := ⟨2 * t, by omega, by rw [turn, if_pos (.inl (by omega))]⟩
  delivers t p hp := by
    obtain ⟨i, hi⟩ := mem_iff_getElem?.1 hp
    exact delivers_scheduled hset hs hi

end

theorem wire_step (hr : Routine e) (hl : ∀ i, e ≠ .lose i) (h : s.step cfg e = some s')
    (hp : p ∈ s.wire) : Delivers s e p ∨ p ∈ s'.wire := by
  cases e with
  | bootstrap => exact hr.elim
  | crash => exact hr.elim
  | view => exact hr.elim
  | tick a =>
    obtain ⟨n, -, rfl⟩ := map_eq_some_iff.1 h
    exact .inr (mem_append_left _ hp)
  | deliver i again =>
    obtain ⟨q, hq, rfl⟩ := map_eq_some_iff.1 h
    rw [wire_receive]
    dsimp only
    obtain ⟨j, hj⟩ := mem_iff_getElem?.1 hp
    by_cases hij : j = i
    · subst hij
      exact .inl ⟨j, again, rfl, hj⟩
    refine .inr ?_
    split_ifs
    · exact hp
    · rw [mem_eraseIdx_iff_getElem?]
      exact ⟨j, hij, hj⟩
  | lose i => exact absurd rfl (hl i)

theorem FairRun.cons {addr : SocketAddr} (hrun : FairRun cfg addr s' σ ev)
    (hr : Routine e) (hl : ∀ i, e ≠ .lose i) (h : s.step cfg e = some s') :
    FairRun cfg addr s (Runs.cons s σ) (Runs.cons e ev) where
  start := rfl
  isRun
    | 0 => by
      change s.step cfg e = some (σ 0)
      rw [h, hrun.start]
    | t + 1 => hrun.isRun t
  routine
    | 0 => hr
    | t + 1 => hrun.routine t
  ticks t := by
    obtain ⟨u, hu, he⟩ := hrun.ticks t
    exact ⟨u + 1, by omega, he⟩
  delivers := by
    have hlater : ∀ t, ∀ p ∈ (σ t).wire, ∃ u ≥ t + 1,
        Delivers (Runs.cons s σ u) (Runs.cons e ev u) p := by
      intro t p hp
      obtain ⟨u, hu, hdel⟩ := hrun.delivers t p hp
      exact ⟨u + 1, by omega, hdel⟩
    rintro (_ | t) p hp
    · rcases wire_step hr hl h hp with hdel | hp'
      · exact ⟨0, le_refl 0, hdel⟩
      · rw [← hrun.start] at hp'
        obtain ⟨u, hu, hdel⟩ := hlater 0 p hp'
        exact ⟨u, by omega, hdel⟩
    · exact hlater t p hp

end Schedule

section Overtaken

variable {σ : ℕ → Network} {ev : ℕ → NetworkEvent} {T : ClusterTable}

/-- The coordinator goes on pushing `T`, and some node stores a table that `T` does not replace. -/
structure Overtaken (cfg : CoordinatorConfig) (M : List ClusterMember) (c : ClusterMember)
    (T : ClusterTable) (s : Network) : Prop where
  coord : ∃ n, s.nodes.lookup c.addr = some n ∧ ¬ n.topologyChanged cfg ∧ n.currentTable = some T
  above : ∃ a n u, s.nodes.lookup a = some n ∧ n.store = some u ∧ T.signature ≤ u.signature ∧
    (T.members = M → u ≠ T)

theorem topologyChanged_applyRoutingUpdate (cfg : CoordinatorConfig) (n : ClusterNode)
    (t : ClusterTable) :
    (n.applyRoutingUpdate t).2.topologyChanged cfg = n.topologyChanged cfg ∧
      (n.applyRoutingUpdate t).2.currentTable = n.currentTable := by
  rcases n.applyRoutingUpdate_spec t with he | ⟨-, he⟩ <;> rw [he] <;> exact ⟨rfl, rfl⟩

theorem Received.coord {p : Push} (hp : Received p s s') {n : ClusterNode}
    (hn : s.nodes.lookup c.addr = some n) (hch : ¬ n.topologyChanged cfg)
    (hcur : n.currentTable = some T) :
    ∃ n', s'.nodes.lookup c.addr = some n' ∧ ¬ n'.topologyChanged cfg ∧
      n'.currentTable = some T := by
  by_cases hat : c.addr = p.target
  · obtain ⟨hch', hcur'⟩ := topologyChanged_applyRoutingUpdate cfg n p.table
    exact ⟨_, hp.lookup_target hat hn, by rwa [hch'], hcur'.trans hcur⟩
  · exact ⟨n, (hp.lookup_of_ne hat).trans hn, hch, hcur⟩

theorem Overtaken.deliver {p : Push} (ho : Overtaken cfg M c T s) (hp : Received p s s') :
    Overtaken cfg M c T s' := by
  constructor
  · obtain ⟨n, hn, hch, hcur⟩ := ho.coord
    exact hp.coord hn hch hcur
  obtain ⟨a, n, u, hn, hu, hle, hne⟩ := ho.above
  by_cases hat : a = p.target
  · have hn' := hp.lookup_target hat hn
    rcases n.applyRoutingUpdate_spec p.table with he | ⟨hlt, he⟩
    · exact ⟨a, n, u, he ▸ hn', hu, hle, hne⟩
    · have hlt' := UInt64.lt_of_le_of_lt hle (hlt u hu)
      refine ⟨a, _, p.table, hn', by rw [he]; rfl, UInt64.le_of_lt hlt', fun _ hT => ?_⟩
      exact UInt64.lt_irrefl _ (hT ▸ hlt')
  · exact ⟨a, n, u, (hp.lookup_of_ne hat).trans hn, hu, hle, hne⟩

theorem Overtaken.of_lookup (ho : Overtaken cfg M c T s)
    (h : ∀ a, s'.nodes.lookup a = s.nodes.lookup a) : Overtaken cfg M c T s' := by
  obtain ⟨hcoord, hab⟩ := ho
  refine ⟨by rwa [h], ?_⟩
  obtain ⟨a, n, u, hn, hu⟩ := hab
  exact ⟨a, n, u, (h a).trans hn, hu⟩

variable (hset : Settled M c s)
include hset

/-- A coordinator that is overtaken stays so. -/
theorem Overtaken.step (ho : Overtaken cfg M c T s) (hs : s.Honest cfg) (hr : Routine e)
    (h : s.step cfg e = some s') : Overtaken cfg M c T s' := by
  rcases hset.step_cases hs hr h with ⟨-, n, hn, rfl⟩ | ⟨p, hp⟩ | hq
  · obtain ⟨n₀, hn₀, hch, -⟩ := ho.coord
    obtain rfl : n₀ = n := some.inj (hn₀.symm.trans hn)
    refine ho.of_lookup fun a => ?_
    rw [tickAt_of_not_rebuilds fun hr => hch hr.2]
    exact lookup_setNode_self hn a
  · exact ho.deliver hp
  · exact ho.of_lookup hq.lookup

theorem FairRun.overtaken (hrun : FairRun cfg c.addr s σ ev) (hs : s.Sound cfg)
    (ho : Overtaken cfg M c T s) (t : ℕ) : (σ t).Sound cfg ∧ Overtaken cfg M c T (σ t) := by
  induction t with
  | zero => exact hrun.start ▸ ⟨hs, ho⟩
  | succ t ih =>
    obtain ⟨hset', hs'⟩ := hrun.settled hset hs.1 t
    refine ⟨ih.1.step ?_ (hrun.isRun t), ih.2.step hset' hs' (hrun.routine t) (hrun.isRun t)⟩
    refine hset'.noWrap hs' (fun n hn hch => ?_) _
    obtain ⟨n₀, hn₀, hch₀, -⟩ := ih.2.coord
    obtain rfl : n₀ = n := some.inj (hn₀.symm.trans hn)
    exact absurd hch hch₀

theorem Settled.builder_eq (hs : s.Honest cfg) {b : Build}
    (hb : b ∈ s.builds) (hM : b.table.members = M) : b.builder = c.id := by
  have hmade := (hs.made b hb).2
  have hhead := hmade.1
  rw [← hmade.members, hM, hset.first, map_some, some.injEq] at hhead
  exact hhead.symm

theorem eq_of_members {n : ClusterNode} {t : ClusterTable} (hs : s.Sound cfg)
    (hn : s.nodes.lookup c.addr = some n) (hcur : n.currentTable = some T)
    (ht : ∃ b ∈ s.builds, b.table = t) (hM : t.members = M) (hle : T.signature ≤ t.signature) :
    t = T := by
  obtain ⟨b, hb, rfl⟩ := ht
  obtain ⟨n₀, hn₀, hid⟩ := hset.running
  obtain rfl : n₀ = n := some.inj (hn₀.symm.trans hn)
  have hbuilder : b.builder = n₀.localId := (hset.builder_eq hs.1 hb hM).trans hid.symm
  obtain ⟨b', hb', rfl, hb''⟩ := hs.1.current _ n₀ T hn hcur
  refine hs.2.agree b hb b' hb' (hbuilder.trans hb''.symm) ?_
  exact UInt64.le_antisymm ((hs.2.ordered _ n₀ hn).latest _ hcur b hb hbuilder) hle

theorem FairRun.not_converges (hrun : FairRun cfg c.addr s σ ev)
    (hs : s.Sound cfg) (ho : Overtaken cfg M c T s) : ¬ Converges M σ := by
  rintro ⟨X, hX, t₀, hconv⟩
  obtain ⟨hs', ho'⟩ := hrun.overtaken hset hs ho t₀
  obtain ⟨hset', -⟩ := hrun.settled hset hs.1 t₀
  obtain ⟨n, hn, -, hcur⟩ := ho'.coord
  obtain ⟨a, m, u, hm, hu, hle, hne⟩ := ho'.above
  obtain rfl : u = X := some.inj (hu.symm.trans (hconv t₀ (le_refl t₀) a m hm))
  have hT := eq_of_members hset' hs' hn hcur (hs'.1.stored a m u hm hu) hX hle
  exact hne (hT ▸ hX) hT

end Overtaken

section Exact

variable {T : ClusterTable}

/-- Every fair run from `s` on ends with one table, built for `M`, on all nodes. -/
def AlwaysConverges (cfg : CoordinatorConfig) (M : List ClusterMember) (addr : SocketAddr)
    (s : Network) : Prop :=
  ∀ σ ev, FairRun cfg addr s σ ev → Converges M σ

theorem AlwaysConverges.step {addr : SocketAddr} (h : AlwaysConverges cfg M addr s) (hr : Routine e)
    (hl : ∀ i, e ≠ .lose i) (hstep : s.step cfg e = some s') : AlwaysConverges cfg M addr s' := by
  intro σ ev hrun
  obtain ⟨T, hT, t₀, hconv⟩ := h _ _ (hrun.cons hr hl hstep)
  exact ⟨T, hT, t₀, fun t ht => hconv (t + 1) (by omega)⟩

theorem AlwaysConverges.not_overtaken (h : AlwaysConverges cfg M c.addr s) (hset : Settled M c s)
    (hs : s.Sound cfg) : ¬ Overtaken cfg M c T s := by
  intro ho
  have hrun := fairRun_scheduled hset hs.1
  exact hrun.not_converges hset hs ho (h _ _ hrun)

theorem le_store_applyRoutingUpdate (n : ClusterNode) (t : ClusterTable) :
    ∃ u, (n.applyRoutingUpdate t).2.store = some u ∧ t.signature ≤ u.signature := by
  by_cases hlt : ∀ current ∈ n.store, current.signature < t.signature
  · rw [applyRoutingUpdate_accepted hlt]
    exact ⟨t, rfl, UInt64.le_refl _⟩
  · obtain ⟨current, hs, hle⟩ := not_forall₂.1 hlt
    rw [applyRoutingUpdate_stale hs (UInt64.not_lt.1 hle)]
    exact ⟨current, hs, UInt64.not_lt.1 hle⟩

variable {n : ClusterNode}

theorem tick_changed (hset : Settled M c s) (hs : s.Sound cfg) (hn : s.nodes.lookup c.addr = some n)
    (hch : n.topologyChanged cfg) (hmax : n.signature.toNat + 1 < 2 ^ 64) :
    ∃ T, T.members = M ∧ T.signature.toNat = n.signature.toNat + 1 ∧
      (s.tickAt cfg c.addr n).Sound cfg ∧ Settled M c (s.tickAt cfg c.addr n) ∧
      (s.tickAt cfg c.addr n).nodes.lookup c.addr = some (n.built cfg T) ∧
      ¬ (n.built cfg T).topologyChanged cfg := by
  have hr : n.Rebuilds cfg := ⟨(hset.isCoord_iff hs.1 hn).2 rfl, hch⟩
  obtain ⟨T, hT, htick⟩ := tick_of_rebuilds hr
  obtain ⟨hsig, hmem⟩ := buildTable_spec cfg hT
  refine ⟨T, hmem.trans (hset.views _ n hn), by rw [hsig, toNat_succ hmax],
    ⟨hs.1.tickAt hn, hs.2.tickAt hs.1 hn fun _ => hmax⟩,
    hset.step hs.1 (e := .tick c.addr) trivial (step_tick hn), ?_, ?_⟩
  · rw [lookup_tickAt, if_pos rfl, htick]
  · simp [topologyChanged, built]

section

variable (h : AlwaysConverges cfg M c.addr s)
include h

variable (hset : Settled M c s)
include hset

variable (hs : s.Sound cfg)
include hs

theorem AlwaysConverges.stored_le (hn : s.nodes.lookup c.addr = some n)
    (hch : n.topologyChanged cfg) (hmax : n.signature.toNat + 1 < 2 ^ 64) {a : SocketAddr}
    {m : ClusterNode} (hm : s.nodes.lookup a = some m) (ha : a ≠ c.addr) {t : ClusterTable}
    (ht : m.store = some t) : t.signature.toNat ≤ n.signature.toNat := by
  by_contra hgt
  obtain ⟨T, hT, hsig, hs', hset', hn', hch'⟩ := tick_changed hset hs hn hch hmax
  refine (h.step (e := .tick c.addr) trivial nofun (step_tick hn)).not_overtaken hset' hs'
    ⟨⟨_, hn', hch', rfl⟩, a, m, t, ?_, ht, ?_, fun _ he => ?_⟩
  · rw [lookup_tickAt, if_neg ha, hm]
  · rw [UInt64.le_iff_toNat_le]
    omega
  obtain ⟨b, hb, rfl⟩ := hs.1.stored a m t hm ht
  obtain ⟨n₀, hn₀, hid⟩ := hset.running
  obtain rfl : n₀ = n := some.inj (hn₀.symm.trans hn)
  have hbuilder := hset.builder_eq hs.1 hb (by rw [he, hT])
  have hle := (hs.2.ordered _ n₀ hn).below b hb (hbuilder.trans hid.symm)
  exact hgt (UInt64.le_iff_toNat_le.1 hle)

theorem AlwaysConverges.received {p : Push} (hp : p ∈ s.wire) :
    ∃ s', Received p s s' ∧ AlwaysConverges cfg M c.addr s' ∧ Settled M c s' ∧ s'.Sound cfg := by
  obtain ⟨i, hi⟩ := mem_iff_getElem?.1 hp
  obtain ⟨s', hstep, -⟩ := step_deliver cfg hi
  obtain ⟨q, hq, hrec⟩ := received_of_deliver hstep
  obtain rfl : q = p := some.inj (hq.symm.trans hi)
  have hr : Routine (.deliver i false) := trivial
  have hw : s.NoWrap cfg (.deliver i false) := trivial
  exact ⟨s', hrec, h.step hr nofun hstep, hset.step hs.1 hr hstep, hs.step hw hstep⟩

theorem AlwaysConverges.ahead (hn : s.nodes.lookup c.addr = some n) (hch : n.topologyChanged cfg)
    (hmax : n.signature.toNat + 1 < 2 ^ 64) : Ahead cfg c.addr n.signature.toNat s := by
  refine ⟨⟨n, hn, hch, le_refl _, Nat.le_succ _⟩, fun a m hm ha t ht => ?_,
    fun a m hm ha p hp hpa => ?_, fun p hp hpc => ?_⟩
  · exact h.stored_le hset hs hn hch hmax hm ha ht
  · obtain ⟨s₁, hrec, h₁, hset₁, hs₁⟩ := h.received hset hs hp
    have hn₁ : s₁.nodes.lookup c.addr = some n :=
      (hrec.lookup_of_ne fun he => ha (hpa.symm.trans he.symm)).trans hn
    obtain ⟨u, hu, hle⟩ := le_store_applyRoutingUpdate m p.table
    have hle₁ := h₁.stored_le hset₁ hs₁ hn₁ hch hmax (hrec.lookup_target hpa.symm hm) ha hu
    exact le_trans (UInt64.le_iff_toNat_le.1 hle) hle₁
  by_contra hgt
  obtain ⟨T, hT, hsig, hs', hset', hn', hch'⟩ := tick_changed hset hs hn hch hmax
  have hp' : p ∈ (s.tickAt cfg c.addr n).wire := mem_append_left _ hp
  have h' := h.step (e := .tick c.addr) trivial nofun (step_tick hn)
  obtain ⟨s₂, hrec, h₂, hset₂, hs₂⟩ := h'.received hset' hs' hp'
  obtain ⟨u, hu, hle⟩ := le_store_applyRoutingUpdate (n.built cfg T) p.table
  rw [UInt64.le_iff_toNat_le] at hle
  refine h₂.not_overtaken hset₂ hs₂ ⟨hrec.coord hn' hch' rfl, c.addr, _, u,
    hrec.lookup_target hpc.symm hn', hu, ?_, fun _ he => ?_⟩
  · rw [UInt64.le_iff_toNat_le]
    omega
  · rw [he] at hle
    omega

theorem AlwaysConverges.leading (hn : s.nodes.lookup c.addr = some n)
    (hch : ¬ n.topologyChanged cfg) : ∃ T, T.members = M ∧ Leading cfg c.addr T s := by
  obtain ⟨T, hcur⟩ : ∃ T, n.currentTable = some T := by
    have hhash := hs.1.hashed _ n hn
    rcases hT : n.currentTable with _ | T
    · rw [hT] at hhash
      simp [topologyChanged, hhash] at hch
    · exact ⟨T, rfl⟩
  have hno : ∀ a m u, s.nodes.lookup a = some m → m.store = some u → T.signature ≤ u.signature →
      T.members = M ∧ u = T := by
    intro a m u hm hu hle
    by_contra hne
    exact h.not_overtaken hset hs
      ⟨⟨n, hn, hch, hcur⟩, a, m, u, hm, hu, hle, fun hM he => hne ⟨hM, he⟩⟩
  obtain ⟨u, hu, hle⟩ := (hs.2.ordered _ n hn).taken T hcur
  obtain ⟨hM, rfl⟩ := hno _ n u hn hu hle
  refine ⟨u, hM, ⟨n, hn, hch, hcur, hu⟩, fun a m hm t ht => ?_, fun a m hm p hp hpa => ?_⟩
  · by_cases hlt : t.signature < u.signature
    · exact .inr hlt
    · exact .inl (hno a m t hm ht (UInt64.not_lt.1 hlt)).2
  by_contra hne
  obtain ⟨hp₁, hp₂, hp₃⟩ : p.table ≠ u ∧ u.signature ≤ p.table.signature ∧
      ¬ (p.table.signature = u.signature ∧ m.store = some u) := by
    obtain ⟨h₁, h₂⟩ := not_or.1 hne
    exact ⟨h₁, UInt64.not_lt.1 (not_or.1 h₂).1, (not_or.1 h₂).2⟩
  by_cases hlt : ∀ current ∈ m.store, current.signature < p.table.signature
  · obtain ⟨s₁, hrec, h₁, hset₁, hs₁⟩ := h.received hset hs hp
    have hm₁ := hrec.lookup_target hpa.symm hm
    rw [applyRoutingUpdate_accepted hlt] at hm₁
    exact h₁.not_overtaken hset₁ hs₁
      ⟨hrec.coord hn hch hcur, a, _, p.table, hm₁, rfl, hp₂, fun _ => hp₁⟩
  · obtain ⟨v, hv, hle'⟩ := not_forall₂.1 hlt
    have hle'' := UInt64.not_lt.1 hle'
    obtain ⟨-, rfl⟩ := hno a m v hm hv (UInt64.le_trans hp₂ hle'')
    exact hp₃ ⟨UInt64.le_antisymm hle'' hp₂, hv⟩

end

/-- From any state that a run without wrapped clocks reaches and in which the views have settled,
the routing tables converge in every fair run exactly when the coordinator's table is the newest. -/
theorem converges_iff_newest {evs : List NetworkEvent}
    (hg : Guarded (step cfg) (NoWrap cfg) empty evs)
    (hx : exec (step cfg) empty evs = some s) (hset : Settled M c s)
    (hroom : ∀ n, s.nodes.lookup c.addr = some n → n.signature.toNat + 2 < 2 ^ 64) :
    (∀ σ ev, FairRun cfg c.addr s σ ev → Converges M σ) ↔ Newest cfg M c.addr s := by
  have hs := sound_of_run hg hx
  constructor
  · intro h
    obtain ⟨n, hn, -⟩ := hset.running
    by_cases hch : n.topologyChanged cfg
    · have := hroom n hn
      exact .inl ⟨n, hn, AlwaysConverges.ahead h hset hs hn hch (by omega)⟩
    · exact .inr (AlwaysConverges.leading h hset hs hn hch)
  · intro hnew σ ev hrun
    exact converges_of_newest hset hs hroom hnew hrun

end Exact

section Sample

theorem settled_iff : Settled M c s ↔ M.head? = some c ∧
    (s.nodes.lookup c.addr).map (·.localId) = some c.id ∧ ∀ e ∈ s.nodes.entries,
      e.2.view = M ∧ ∃ m ∈ M, m.addr = e.1 ∧ m.id = e.2.localId := by
  constructor
  · rintro ⟨hfirst, ⟨n, hn, hid⟩, hviews, hlisted⟩
    refine ⟨hfirst, by rw [hn, map_some, hid], fun e he => ?_⟩
    have hl := HMap.mem_entries_iff.1 he
    exact ⟨hviews _ _ hl, hlisted _ _ hl⟩
  rintro ⟨hfirst, hrunning, hentries⟩
  refine ⟨hfirst, map_eq_some_iff.1 hrunning, fun a n hn => ?_, fun a n hn => ?_⟩
  · exact (hentries ⟨a, n⟩ (HMap.mem_entries_iff.2 hn)).1
  · exact (hentries ⟨a, n⟩ (HMap.mem_entries_iff.2 hn)).2

instance : Decidable (Settled M c s) := decidable_of_iff' _ settled_iff

/-- The members of the two-node cluster, the older first. -/
def pair : List ClusterMember := [sampleMember 1 "a" 1, sampleMember 2 "b" 2]

def joined : List NetworkEvent :=
  [.bootstrap (sampleMember 1 "a" 1) [sampleMember 1 "a" 1], .bootstrap (sampleMember 2 "b" 2) pair,
    .view "a" pair]

def blip : List NetworkEvent :=
  joined ++ [.tick "a", .deliver 0 false, .view "b" [sampleMember 2 "b" 2], .tick "b",
    .view "b" pair]

/-- After the blip both views are the same again, and no fair run converges. -/
theorem stalled : ∃ s, exec (step sampleCoordinator) empty blip = some s ∧
    Settled pair (sampleMember 1 "a" 1) s ∧ (∃ σ ev, FairRun sampleCoordinator "a" s σ ev) ∧
    ∀ σ ev, FairRun sampleCoordinator "a" s σ ev → ¬ Converges pair σ := by
  have hg : Guarded (step sampleCoordinator) (NoWrap sampleCoordinator) empty blip := by
    decide +kernel
  have hrun : (exec (step sampleCoordinator) empty blip).map (fun s =>
      (decide (Settled pair (sampleMember 1 "a" 1) s), (s.nodes.lookup "a").map (fun n =>
          (n.topologyChanged sampleCoordinator, n.currentTable.map (·.signature))),
        (s.storedAt "b").map (·.signature))) = some (true, some (false, some 1), some 2) := by
    decide +kernel
  obtain ⟨s, hx, h⟩ := map_eq_some_iff.1 hrun
  simp only [Prod.mk.injEq, decide_eq_true_eq] at h
  obtain ⟨hset, ha, hb⟩ := h
  obtain ⟨n, hn, hna⟩ := map_eq_some_iff.1 ha
  obtain ⟨hch, hcur⟩ := Prod.mk.inj hna
  obtain ⟨T, hT, hTsig⟩ := map_eq_some_iff.1 hcur
  obtain ⟨u, hu, husig⟩ := map_eq_some_iff.1 hb
  obtain ⟨m, hm, hmu⟩ := bind_eq_some_iff.1 hu
  have hs := sound_of_run hg hx
  have ho : Overtaken sampleCoordinator pair (sampleMember 1 "a" 1) T s := by
    refine ⟨⟨n, hn, by simp [hch], hT⟩, "b", m, u, hm, hmu, ?_, fun _ he => ?_⟩
    · rw [hTsig, husig]
      decide
    · rw [he, hTsig] at husig
      exact absurd husig (by decide)
  exact ⟨s, hx, hset, ⟨_, _, fairRun_scheduled hset hs.1⟩,
    fun σ ev hfair => hfair.not_converges hset hs ho⟩

/-- Before the first tick the coordinator is ahead of the empty stores. -/
theorem started : ∃ s, exec (step sampleCoordinator) empty joined = some s ∧
    Settled pair (sampleMember 1 "a" 1) s ∧ (∃ σ ev, FairRun sampleCoordinator "a" s σ ev) ∧
    ∀ σ ev, FairRun sampleCoordinator "a" s σ ev → Converges pair σ := by
  have hg : Guarded (step sampleCoordinator) (NoWrap sampleCoordinator) empty joined := by
    decide +kernel
  have hrun : (exec (step sampleCoordinator) empty joined).map (fun s =>
      (decide (Settled pair (sampleMember 1 "a" 1) s),
        (s.nodes.lookup "a").map (fun n => (n.topologyChanged sampleCoordinator, n.signature)),
        decide (∀ e ∈ s.nodes.entries, e.2.store.isNone), s.wire.isEmpty)) =
      some (true, some (true, 0), true, true) := by
    decide +kernel
  obtain ⟨s, hx, h⟩ := map_eq_some_iff.1 hrun
  simp only [Prod.mk.injEq, decide_eq_true_eq] at h
  obtain ⟨hset, ha, hstore, hwire⟩ := h
  obtain ⟨n, hn, hna⟩ := map_eq_some_iff.1 ha
  obtain ⟨hch, hsig⟩ := Prod.mk.inj hna
  have hnone : ∀ p, p ∉ s.wire := by
    rw [isEmpty_iff.1 hwire]
    exact fun p => not_mem_nil
  have hnew : Newest sampleCoordinator pair "a" s := by
    refine .inl ⟨n, hn, ⟨n, hn, hch, le_refl _, Nat.le_succ _⟩, fun a m hm _ t ht => ?_,
      fun _ _ _ _ p hp => absurd hp (hnone p), fun p hp => absurd hp (hnone p)⟩
    have := hstore ⟨a, m⟩ (HMap.mem_entries_iff.2 hm)
    rw [isNone_iff_eq_none] at this
    rw [mem_def, this] at ht
    cases ht
  have hroom : ∀ n, s.nodes.lookup "a" = some n → n.signature.toNat + 2 < 2 ^ 64 := by
    intro n' hn'
    rw [← Option.some.inj (hn.symm.trans hn'), hsig]
    decide
  exact ⟨s, hx, hset, ⟨_, _, fairRun_scheduled hset (sound_of_run hg hx).1⟩,
    (converges_iff_newest hg hx hset hroom).2 hnew⟩

end Sample

end Network

end Kamino
