import Kamino.Proofs.Coordinator

/-!
# Tables in a network of coordinators

Every table that a node stores, remembers or has been pushed was built by a node whose view listed
it first (`Network.Honest`).
-/

namespace Kamino

open Runs ClusterNode Option List

variable {cfg : CoordinatorConfig}

/-- The build put its own node first and is what the coordinator loop builds from its data. -/
def Build.Made (cfg : CoordinatorConfig) (b : Build) : Prop :=
  b.members.head?.map (·.id) = some b.builder ∧
    buildTable cfg b.members b.previous b.table.signature = some b.table

theorem Build.Made.members {b : Build} (h : b.Made cfg) : b.table.members = b.members :=
  (buildTable_spec cfg h.2).2

variable {n : ClusterNode}

theorem ClusterNode.head_of_isCoord (h : n.isCoord) : n.view.head?.map (·.id) = some n.localId := by
  simpa [isCoord] using h

theorem ClusterNode.mem_pushToPeers {p : Push} (h : p ∈ n.pushToPeers) :
    n.currentTable = some p.table := by
  unfold pushToPeers at h
  split at h
  · cases h
  · rename_i table ht
    obtain ⟨m, -, rfl⟩ := mem_map.1 h
    exact ht

theorem ClusterNode.applyRoutingUpdate_spec (n : ClusterNode) (table : ClusterTable) :
    (n.applyRoutingUpdate table).2 = n ∨
      (∀ current ∈ n.store, current.signature < table.signature) ∧
      (n.applyRoutingUpdate table).2 =
        { n with store := some table }.bumpSignatureToAtLeast table.signature := by
  by_cases hlt : ∀ current ∈ n.store, current.signature < table.signature
  · exact .inr ⟨hlt, by rw [applyRoutingUpdate_accepted hlt]⟩
  · obtain ⟨current, hs, hle⟩ := not_forall₂.1 hlt
    exact .inl (by rw [applyRoutingUpdate_stale hs (UInt64.not_lt.1 hle)])

namespace Network

variable {s s' : Network}

theorem lookup_setNode (s : Network) (addr a : SocketAddr) (n : ClusterNode) :
    (s.setNode addr n).nodes.lookup a = if a = addr then some n else s.nodes.lookup a :=
  HMap.lookup_insert_eq_ite _ _ _ _

variable {addr a : SocketAddr} {n : ClusterNode}

theorem of_lookup_setNode {m : ClusterNode} (h : (s.setNode addr n).nodes.lookup a = some m) :
    (a = addr ∧ m = n) ∨ (a ≠ addr ∧ s.nodes.lookup a = some m) := by
  rw [lookup_setNode] at h
  split_ifs at h with ha
  · exact .inl ⟨ha, (some.inj h).symm⟩
  · exact .inr ⟨ha, h⟩

theorem lookup_tickAt (s : Network) (addr a : SocketAddr) (n : ClusterNode) :
    (s.tickAt cfg addr n).nodes.lookup a =
      if a = addr then some (n.tick cfg).1 else s.nodes.lookup a :=
  lookup_setNode s addr a _

theorem lookup_receive (s : Network) (p : Push) (a : SocketAddr) : (s.receive p).nodes.lookup a =
      if a = p.target then (s.nodes.lookup a).map fun n => (n.applyRoutingUpdate p.table).2
      else s.nodes.lookup a := by
  unfold receive
  split
  · rename_i hn
    split_ifs with ha
    · rw [ha, hn]
      rfl
    · rfl
  rename_i n hn
  rw [lookup_setNode]
  split_ifs with ha
  · rw [ha, hn]
    rfl
  · rfl

theorem step_tick (h : s.nodes.lookup addr = some n) :
    s.step cfg (.tick addr) = some (s.tickAt cfg addr n) := by
  rw [step, h, map_some]

structure Honest (cfg : CoordinatorConfig) (s : Network) : Prop where
  drawn : ∀ a n, s.nodes.lookup a = some n → n.localId ∈ s.ids
  unique : ∀ a a' n n', s.nodes.lookup a = some n → s.nodes.lookup a' = some n' →
    n.localId = n'.localId → a = a'
  made : ∀ b ∈ s.builds, b.builder ∈ s.ids ∧ b.Made cfg
  stored : ∀ a n t, s.nodes.lookup a = some n → n.store = some t → ∃ b ∈ s.builds, b.table = t
  current : ∀ a n t, s.nodes.lookup a = some n → n.currentTable = some t →
    ∃ b ∈ s.builds, b.table = t ∧ b.builder = n.localId
  hashed : ∀ a n, s.nodes.lookup a = some n →
    n.lastTopologyHash = n.currentTable.map fun t => topologyHash cfg t.members
  wired : ∀ p ∈ s.wire, ∃ b ∈ s.builds, b.table = p.table

theorem honest_empty : Honest cfg empty := by
  constructor <;> simp [empty]

/-- What a node may become: its tables are among those built. -/
structure Fits (cfg : CoordinatorConfig) (s : Network) (n : ClusterNode) : Prop where
  stored : ∀ t, n.store = some t → ∃ b ∈ s.builds, b.table = t
  current : ∀ t, n.currentTable = some t → ∃ b ∈ s.builds, b.table = t ∧ b.builder = n.localId
  hashed : n.lastTopologyHash = n.currentTable.map fun t => topologyHash cfg t.members

section

variable (hs : s.Honest cfg)
include hs

theorem Honest.fits (h : s.nodes.lookup a = some n) : s.Fits cfg n :=
  ⟨fun t => hs.stored a n t h, fun t => hs.current a n t h, hs.hashed a n h⟩

theorem Honest.fits_setNode (hn : s.Fits cfg n) {m : ClusterNode}
    (hm : (s.setNode addr n).nodes.lookup a = some m) : s.Fits cfg m := by
  rcases of_lookup_setNode hm with ⟨-, rfl⟩ | ⟨-, hm⟩
  · exact hn
  · exact hs.fits hm

theorem Honest.setNode {n' : ClusterNode} (h : s.nodes.lookup addr = some n)
    (hid : n'.localId = n.localId) (hn : s.Fits cfg n') : (s.setNode addr n').Honest cfg := by
  have hlocal : ∀ a m, (s.setNode addr n').nodes.lookup a = some m →
      ∃ m₀, s.nodes.lookup a = some m₀ ∧ m₀.localId = m.localId := by
    intro a m hm
    rcases of_lookup_setNode hm with ⟨rfl, rfl⟩ | ⟨-, hm⟩
    · exact ⟨n, h, hid.symm⟩
    · exact ⟨m, hm, rfl⟩
  refine ⟨fun a m hm => ?_, fun a a' m m' hm hm' he => ?_, hs.made,
    fun a m t hm => (hs.fits_setNode hn hm).1 t, fun a m t hm => (hs.fits_setNode hn hm).2 t,
    fun a m hm => (hs.fits_setNode hn hm).3, hs.wired⟩
  · obtain ⟨m₀, h₀, he⟩ := hlocal a m hm
    exact he ▸ hs.drawn a m₀ h₀
  · obtain ⟨m₀, h₀, e₀⟩ := hlocal a m hm
    obtain ⟨m₁, h₁, e₁⟩ := hlocal a' m' hm'
    exact hs.unique a a' m₀ m₁ h₀ h₁ (by rw [e₀, e₁, he])

theorem Honest.addWire {wire : List Push}
    (h : ∀ p ∈ wire, p ∈ s.wire ∨ ∃ b ∈ s.builds, b.table = p.table) :
    { s with wire := wire }.Honest cfg :=
  { hs with wired := fun p hp => (h p hp).elim (hs.wired p) id }

theorem Honest.addBuild {b : Build} (hid : b.builder ∈ s.ids)
    (hb : b.Made cfg) : { s with builds := b :: s.builds }.Honest cfg where
  __ := hs
  made := by
    rintro b' hb'
    rcases mem_cons.1 hb' with rfl | hb'
    · exact ⟨hid, hb⟩
    · exact hs.made b' hb'
  stored a n t h ht := (hs.stored a n t h ht).imp fun _ => .imp_left (mem_cons_of_mem _)
  current a n t h ht := (hs.current a n t h ht).imp fun _ => .imp_left (mem_cons_of_mem _)
  wired p hp := (hs.wired p hp).imp fun _ => .imp_left (mem_cons_of_mem _)

theorem Honest.erase (addr : SocketAddr) :
    { s with nodes := s.nodes.erase addr }.Honest cfg where
  __ := hs
  drawn a n h := hs.drawn a n (HMap.lookup_of_erase h)
  unique a a' n n' h h' := hs.unique a a' n n' (HMap.lookup_of_erase h) (HMap.lookup_of_erase h')
  stored a n t h := hs.stored a n t (HMap.lookup_of_erase h)
  current a n t h := hs.current a n t (HMap.lookup_of_erase h)
  hashed a n h := hs.hashed a n (HMap.lookup_of_erase h)

theorem Honest.bootstrap {self : ClusterMember} (hid : self.id ∉ s.ids)
    (view : List ClusterMember) :
    { s.setNode self.addr (.start self.id view) with ids := self.id :: s.ids }.Honest cfg := by
  have hfresh : ∀ a m, s.nodes.lookup a = some m → m.localId ≠ self.id := by
    rintro a m hm he
    exact hid (he ▸ hs.drawn a m hm)
  have hn : s.Fits cfg (.start self.id view) := ⟨nofun, nofun, rfl⟩
  refine ⟨fun a m hm => ?_, fun a a' m m' hm hm' he => ?_, fun b hb => ?_,
    fun a m t hm => (hs.fits_setNode hn hm).1 t, fun a m t hm => (hs.fits_setNode hn hm).2 t,
    fun a m hm => (hs.fits_setNode hn hm).3, hs.wired⟩
  · rcases of_lookup_setNode hm with ⟨-, rfl⟩ | ⟨-, hm⟩
    · exact mem_cons_self
    · exact mem_cons_of_mem _ (hs.drawn a m hm)
  · rcases of_lookup_setNode hm with ⟨ha, rfl⟩ | ⟨-, hm⟩ <;>
      rcases of_lookup_setNode hm' with ⟨ha', rfl⟩ | ⟨-, hm'⟩
    · rw [ha, ha']
    · exact absurd he.symm (hfresh a' m' hm')
    · exact absurd he (hfresh a m hm)
    · exact hs.unique a a' m m' hm hm' he
  · exact ⟨mem_cons_of_mem _ (hs.made b hb).1, (hs.made b hb).2⟩

theorem Honest.receive {p : Push} (hp : ∃ b ∈ s.builds, b.table = p.table) :
    (s.receive p).Honest cfg := by
  unfold Network.receive
  split
  · exact hs
  rename_i n hn
  rcases n.applyRoutingUpdate_spec p.table with he | ⟨-, he⟩
  · rw [he]
    exact hs.setNode hn rfl (hs.fits hn)
  rw [he]
  refine hs.setNode hn rfl ⟨?_, (hs.fits hn).2, (hs.fits hn).3⟩
  rintro t ht
  exact some.inj ht ▸ hp

end

def record (n : ClusterNode) (table : ClusterTable) : Build :=
  ⟨n.localId, n.view, n.currentTable, table⟩

variable {table : ClusterTable}

theorem made_record (hr : n.Rebuilds cfg)
    (h : buildTable cfg n.view n.currentTable (n.signature + 1) = some table) :
    (record n table).Made cfg := by
  refine ⟨head_of_isCoord hr.1, ?_⟩
  rw [record, (buildTable_spec cfg h).1]
  exact h

theorem tickAt_of_rebuilds (hr : n.Rebuilds cfg) (s : Network) (addr : SocketAddr) :
    ∃ table, buildTable cfg n.view n.currentTable (n.signature + 1) = some table ∧
      (record n table).Made cfg ∧
      s.tickAt cfg addr n = { { s with builds := record n table :: s.builds }.setNode addr
        (n.built cfg table) with wire := s.wire ++ (n.built cfg table).pushToPeers } := by
  obtain ⟨table, htable, htick⟩ := tick_of_rebuilds hr
  refine ⟨table, htable, made_record hr htable, ?_⟩
  rw [tickAt, htick]
  rfl

theorem tickAt_of_not_rebuilds (hr : ¬ n.Rebuilds cfg) (s : Network) (addr : SocketAddr) :
    s.tickAt cfg addr n =
      { s.setNode addr n with wire := s.wire ++ if n.isCoord then n.pushToPeers else [] } := by
  rw [tickAt, tick_of_not_rebuilds hr]
  rfl

theorem fits_built (hs : s.Honest cfg)
    (hn : s.nodes.lookup addr = some n) (hm : table.members = n.view) :
    { s with builds := record n table :: s.builds }.Fits cfg (n.built cfg table) where
  stored t ht := by
    rcases RoutingTableStore.apply_snd n.store table with he | he
    · obtain ⟨b, hb, rfl⟩ := hs.stored addr n t hn (he ▸ ht)
      exact ⟨b, mem_cons_of_mem _ hb, rfl⟩
    · exact ⟨_, mem_cons_self, some.inj (he ▸ ht)⟩
  current t ht := ⟨_, mem_cons_self, some.inj ht, rfl⟩
  hashed := by rw [built, map_some, hm]

theorem Honest.tickAt (hs : s.Honest cfg)
    (hn : s.nodes.lookup addr = some n) : (s.tickAt cfg addr n).Honest cfg := by
  by_cases hr : n.Rebuilds cfg
  · obtain ⟨table, htable, hmade, he⟩ := tickAt_of_rebuilds hr s addr
    rw [he]
    have hs₁ := hs.addBuild (hs.drawn addr n hn) hmade
    have hid : (n.built cfg table).localId = n.localId := rfl
    have hs₂ := hs₁.setNode hn hid (fits_built hs hn (buildTable_spec cfg htable).2)
    refine hs₂.addWire fun p hp => ?_
    rcases mem_append.1 hp with hp | hp
    · exact .inl hp
    · refine .inr ⟨_, mem_cons_self, ?_⟩
      exact some.inj (mem_pushToPeers hp)
  · rw [tickAt_of_not_rebuilds hr]
    refine (hs.setNode hn rfl (hs.fits hn)).addWire fun p hp => ?_
    rcases mem_append.1 hp with hp | hp
    · exact .inl hp
    split_ifs at hp
    · obtain ⟨b, hb, ht, -⟩ := hs.current addr n _ hn (mem_pushToPeers hp)
      exact .inr ⟨b, hb, ht⟩
    · cases hp

variable {ev : NetworkEvent}

/-- No step makes a table that was not built. -/
theorem Honest.step (hs : s.Honest cfg) (h : s.step cfg ev = some s') : s'.Honest cfg := by
  cases ev with dsimp only [Network.step] at h
  | bootstrap self view =>
    split_ifs at h with hid
    exact some.inj h ▸ hs.bootstrap hid view
  | crash addr => exact some.inj h ▸ hs.erase addr
  | view addr members =>
    obtain ⟨n, hn, rfl⟩ := map_eq_some_iff.1 h
    exact hs.setNode hn rfl ⟨(hs.fits hn).1, (hs.fits hn).2, (hs.fits hn).3⟩
  | tick addr =>
    obtain ⟨n, hn, rfl⟩ := map_eq_some_iff.1 h
    exact hs.tickAt hn
  | deliver i again =>
    obtain ⟨p, hp, rfl⟩ := map_eq_some_iff.1 h
    refine Honest.receive (hs.addWire fun q hq => .inl ?_) (hs.wired p (mem_of_getElem? hp))
    split_ifs at hq
    · exact hq
    · exact mem_of_mem_eraseIdx hq
  | lose i =>
    obtain ⟨p, hp, rfl⟩ := map_eq_some_iff.1 h
    exact hs.addWire fun q hq => .inl (mem_of_mem_eraseIdx hq)

section Counted

/-- No clock is at its greatest value when its node builds. -/
def NoWrap (cfg : CoordinatorConfig) (s : Network) : NetworkEvent → Prop
  | .tick addr => ∀ n ∈ s.nodes.lookup addr, n.Rebuilds cfg → n.signature.toNat + 1 < 2 ^ 64
  | _ => True

instance (ev : NetworkEvent) : Decidable (s.NoWrap cfg ev) :=
  match ev with
  | .tick addr => inferInstanceAs
    (Decidable (∀ n ∈ s.nodes.lookup addr, n.Rebuilds cfg → n.signature.toNat + 1 < 2 ^ 64))
  | .bootstrap .. | .crash _ | .view .. | .deliver .. | .lose _ => .isTrue trivial

/-- The node's own builds are in the order of its clock, the last one is remembered, and its store
has taken it or a later table. -/
structure Ordered (builds : List Build) (n : ClusterNode) : Prop where
  covered : n.Covered
  below : ∀ b ∈ builds, b.builder = n.localId → b.table.signature ≤ n.signature
  latest : ∀ t, n.currentTable = some t →
    ∀ b ∈ builds, b.builder = n.localId → b.table.signature ≤ t.signature
  taken : ∀ t, n.currentTable = some t → ∃ u, n.store = some u ∧ t.signature ≤ u.signature

structure Counted (s : Network) : Prop where
  ordered : ∀ a n, s.nodes.lookup a = some n → Ordered s.builds n
  agree : ∀ b ∈ s.builds, ∀ b' ∈ s.builds, b.builder = b'.builder →
    b.table.signature = b'.table.signature → b.table = b'.table

theorem counted_empty : Counted empty := by
  constructor <;> simp [empty]

variable {n : ClusterNode}

theorem Counted.setNode (hs : s.Counted) (addr : SocketAddr)
    (hn : Ordered s.builds n) : (s.setNode addr n).Counted := by
  refine ⟨fun a m hm => ?_, hs.agree⟩
  rcases of_lookup_setNode hm with ⟨-, rfl⟩ | ⟨-, hm⟩
  · exact hn
  · exact hs.ordered a m hm

theorem Ordered.start (hs : s.Honest cfg) {id : UInt64} (hid : id ∉ s.ids)
    (view : List ClusterMember) : Ordered s.builds (.start id view) := by
  refine ⟨UInt64.le_refl 0, fun b hb he => ?_, nofun, nofun⟩
  have hdrawn := (hs.made b hb).1
  rw [he] at hdrawn
  exact absurd hdrawn hid

variable {builds : List Build}

theorem Ordered.addBuild (hn : Ordered builds n) {b : Build}
    (hb : b.builder ≠ n.localId) : Ordered (b :: builds) n where
  __ := hn
  below b' hb' he := by
    rcases mem_cons.1 hb' with rfl | hb'
    · exact absurd he hb
    · exact hn.below b' hb' he
  latest t ht b' hb' he := by
    rcases mem_cons.1 hb' with rfl | hb'
    · exact absurd he hb
    · exact hn.latest t ht b' hb' he

theorem Ordered.accept (hn : Ordered builds n)
    (h : ∀ current ∈ n.store, current.signature < table.signature) :
    Ordered builds ({ n with store := some table }.bumpSignatureToAtLeast table.signature) where
  covered := le_bumpSignature _ _
  below b hb he := by
    refine UInt64.le_trans (hn.below b hb he) ?_
    exact signature_le_bump { n with store := some table } table.signature
  latest := hn.latest
  taken t ht := by
    obtain ⟨u, hu, hle⟩ := hn.taken t ht
    exact ⟨table, rfl, UInt64.le_of_lt (UInt64.lt_of_le_of_lt hle (h u hu))⟩

theorem Ordered.built (hn : Ordered builds n) (hmax : n.signature.toNat + 1 < 2 ^ 64)
    (hsig : table.signature = n.signature + 1) :
    Ordered (record n table :: builds) (n.built cfg table) := by
  have hstore : (n.built cfg table).store = some table := by
    rw [ClusterNode.built,
      RoutingTableStore.apply_accepted (by rw [hsig]; exact hn.covered.lt hmax)]
  have hle : n.signature ≤ n.signature + 1 := by
    rw [UInt64.le_iff_toNat_le, ClusterNode.toNat_succ hmax]
    exact Nat.le_succ _
  have hbelow : ∀ b ∈ record n table :: builds, b.builder = n.localId →
      b.table.signature ≤ n.signature + 1 := by
    intro b hb he
    rcases mem_cons.1 hb with rfl | hb
    · exact UInt64.le_of_eq hsig
    · exact UInt64.le_trans (hn.below b hb he) hle
  refine ⟨?_, hbelow, fun t ht => ?_, fun t ht => ⟨table, hstore, ?_⟩⟩
  · rw [ClusterNode.Covered, hstore]
    exact UInt64.le_of_eq hsig
  · rw [← some.inj ht, hsig]
    exact hbelow
  · rw [← some.inj ht]
    exact UInt64.le_refl _

theorem Counted.tickAt (hs : s.Counted) (hh : s.Honest cfg) {addr : SocketAddr}
    (hn : s.nodes.lookup addr = some n)
    (hmax : n.Rebuilds cfg → n.signature.toNat + 1 < 2 ^ 64) : (s.tickAt cfg addr n).Counted := by
  by_cases hr : n.Rebuilds cfg
  · obtain ⟨table, htable, -, he⟩ := tickAt_of_rebuilds hr s addr
    have hsig := (buildTable_spec cfg htable).1
    have hord := hs.ordered addr n hn
    rw [he]
    refine ⟨fun a m hm => ?_, fun b hb b' hb' hbb hss => ?_⟩
    · rcases of_lookup_setNode hm with ⟨-, rfl⟩ | ⟨ha, hm⟩
      · exact hord.built (hmax hr) hsig
      · exact (hs.ordered a m hm).addBuild fun he => ha (hh.unique a addr m n hm hn he.symm)
    have hnew : ∀ b ∈ s.builds, b.builder = n.localId → b.table.signature ≠ table.signature := by
      rintro b hb he hss
      have hle := hord.below b hb he
      rw [hss, hsig, UInt64.le_iff_toNat_le, toNat_succ (hmax hr)] at hle
      omega
    rcases mem_cons.1 hb with rfl | hb <;> rcases mem_cons.1 hb' with rfl | hb'
    · rfl
    · exact absurd hss.symm (hnew b' hb' hbb.symm)
    · exact absurd hss (hnew b hb hbb)
    · exact hs.agree b hb b' hb' hbb hss
  · rw [tickAt_of_not_rebuilds hr]
    have hs' := hs.setNode addr (hs.ordered addr n hn)
    exact ⟨hs'.ordered, hs'.agree⟩

theorem Counted.receive (hs : s.Counted) (p : Push) : (s.receive p).Counted := by
  unfold Network.receive
  split
  · exact hs
  rename_i n hn
  rcases n.applyRoutingUpdate_spec p.table with he | ⟨hlt, he⟩
  · rw [he]
    exact hs.setNode _ (hs.ordered _ n hn)
  · rw [he]
    exact hs.setNode _ ((hs.ordered _ n hn).accept hlt)

/-- A step without a wrapped clock keeps each builder's signatures apart. -/
theorem Counted.step (hs : s.Counted) (hh : s.Honest cfg)
    (hw : s.NoWrap cfg ev) (h : s.step cfg ev = some s') : s'.Counted := by
  cases ev with dsimp only [Network.step] at h
  | bootstrap self view =>
    split_ifs at h with hid
    have hs' := hs.setNode self.addr (Ordered.start hh hid view)
    exact some.inj h ▸ ⟨hs'.ordered, hs'.agree⟩
  | crash addr =>
    rw [← some.inj h]
    exact ⟨fun a n hn => hs.ordered a n (HMap.lookup_of_erase hn), hs.agree⟩
  | view addr members =>
    obtain ⟨n, hn, rfl⟩ := map_eq_some_iff.1 h
    obtain ⟨h₁, h₂, h₃, h₄⟩ := hs.ordered addr n hn
    exact hs.setNode addr ⟨h₁, h₂, h₃, h₄⟩
  | tick addr =>
    obtain ⟨n, hn, rfl⟩ := map_eq_some_iff.1 h
    exact hs.tickAt hh hn (hw n hn)
  | deliver i again =>
    obtain ⟨p, -, rfl⟩ := map_eq_some_iff.1 h
    refine Counted.receive ?_ p
    exact ⟨hs.ordered, hs.agree⟩
  | lose i =>
    obtain ⟨p, -, rfl⟩ := map_eq_some_iff.1 h
    exact ⟨hs.ordered, hs.agree⟩

def Sound (cfg : CoordinatorConfig) (s : Network) : Prop := s.Honest cfg ∧ s.Counted

theorem Sound.step (hs : s.Sound cfg) (hw : s.NoWrap cfg ev)
    (h : s.step cfg ev = some s') : s'.Sound cfg :=
  ⟨hs.1.step h, hs.2.step hs.1 hw h⟩

/-- Every run without a wrapped clock is sound. -/
theorem sound_of_run {evs : List NetworkEvent} (hg : Guarded (step cfg) (NoWrap cfg) empty evs)
    (hx : exec (step cfg) empty evs = some s) : s.Sound cfg :=
  Guarded.invariant (fun _ _ _ hs hw h => hs.step hw h) ⟨honest_empty, counted_empty⟩ hg hx

/-- In every run whose clocks do not wrap, two nodes that store tables with the same signature and
the same coordinator listed first store the same table. -/
theorem stored_eq_of_signature_eq {evs : List NetworkEvent}
    (hg : Guarded (step cfg) (NoWrap cfg) empty evs) (hx : exec (step cfg) empty evs = some s)
    {a a' : SocketAddr} {n n' : ClusterNode} (hn : s.nodes.lookup a = some n)
    (hn' : s.nodes.lookup a' = some n') {t t' : ClusterTable} (ht : n.store = some t)
    (ht' : n'.store = some t') (hsig : t.signature = t'.signature)
    (hcoord : t.members.head?.map (·.id) = t'.members.head?.map (·.id)) : t = t' := by
  obtain ⟨hh, hc⟩ := sound_of_run hg hx
  obtain ⟨b, hb, rfl⟩ := hh.stored a n t hn ht
  obtain ⟨b', hb', rfl⟩ := hh.stored a' n' t' hn' ht'
  refine hc.agree b hb b' hb' ?_ hsig
  rw [(hh.made b hb).2.members, (hh.made b' hb').2.members, (hh.made b hb).2.1,
    (hh.made b' hb').2.1] at hcoord
  exact Option.some.inj hcoord

section Sample

def storedAt (s : Network) (addr : SocketAddr) : Option ClusterTable :=
  (s.nodes.lookup addr).bind (·.store)

/-- Two nodes that have not heard of each other when they tick. -/
def apart : List NetworkEvent :=
  [.bootstrap (sampleMember 1 "a" 1) [sampleMember 1 "a" 1],
    .bootstrap (sampleMember 2 "b" 2) [sampleMember 2 "b" 2], .tick "a", .tick "b"]

theorem signature_shared : ∃ s t t', exec (step sampleCoordinator) empty apart = some s ∧
    s.storedAt "a" = some t ∧ s.storedAt "b" = some t' ∧ t.signature = t'.signature ∧ t ≠ t' := by
  have ha : ((exec (step sampleCoordinator) empty apart).bind (storedAt · "a")).map
      (fun t => (t.signature, (t.primaryFor 0).map (·.id))) = some (1, some 1) := by decide +kernel
  have hb : ((exec (step sampleCoordinator) empty apart).bind (storedAt · "b")).map
      (fun t => (t.signature, (t.primaryFor 0).map (·.id))) = some (1, some 2) := by decide +kernel
  obtain ⟨t, ht, hta⟩ := map_eq_some_iff.1 ha
  obtain ⟨s, hs, ht⟩ := bind_eq_some_iff.1 ht
  rw [hs, bind_some] at hb
  obtain ⟨t', ht', htb⟩ := map_eq_some_iff.1 hb
  refine ⟨s, t, t', hs, ht, ht', ?_, ?_⟩
  · exact (congrArg Prod.fst hta).trans (congrArg Prod.fst htb).symm
  · rintro rfl
    exact absurd (hta.symm.trans htb) (by decide)

/-- The second node has joined the first, whose table reaches it. -/
def together : List NetworkEvent :=
  [.bootstrap (sampleMember 1 "a" 1) [sampleMember 1 "a" 1],
    .bootstrap (sampleMember 2 "b" 2) [sampleMember 1 "a" 1, sampleMember 2 "b" 2],
    .view "a" [sampleMember 1 "a" 1, sampleMember 2 "b" 2], .tick "a", .deliver 0 true]

theorem signature_unshared : ∃ s n n' t t', Guarded (step sampleCoordinator)
    (NoWrap sampleCoordinator) empty together ∧
    exec (step sampleCoordinator) empty together = some s ∧ s.nodes.lookup "a" = some n ∧
    s.nodes.lookup "b" = some n' ∧ n.store = some t ∧ n'.store = some t' ∧
    t.signature = t'.signature ∧ t = t' := by
  have hg : Guarded (step sampleCoordinator) (NoWrap sampleCoordinator) empty together := by
    decide +kernel
  have ha : ((exec (step sampleCoordinator) empty together).bind (storedAt · "a")).map
      (fun t => (t.signature, t.members.head?.map (·.id))) = some (1, some 1) := by decide +kernel
  have hb : ((exec (step sampleCoordinator) empty together).bind (storedAt · "b")).map
      (fun t => (t.signature, t.members.head?.map (·.id))) = some (1, some 1) := by decide +kernel
  obtain ⟨t, ht, hta⟩ := map_eq_some_iff.1 ha
  obtain ⟨s, hs, ht⟩ := bind_eq_some_iff.1 ht
  rw [hs, bind_some] at hb
  obtain ⟨t', ht', htb⟩ := map_eq_some_iff.1 hb
  obtain ⟨n, hn, hnt⟩ := bind_eq_some_iff.1 ht
  obtain ⟨n', hn', hnt'⟩ := bind_eq_some_iff.1 ht'
  have hpair := hta.trans htb.symm
  have hsig := congrArg Prod.fst hpair
  exact ⟨s, n, n', t, t', hg, hs, hn, hn', hnt, hnt', hsig,
    stored_eq_of_signature_eq hg hs hn hn' hnt hnt' hsig (congrArg Prod.snd hpair)⟩

end Sample

end Counted

end Network

end Kamino
