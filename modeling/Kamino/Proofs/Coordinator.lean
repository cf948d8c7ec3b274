import Kamino.Coordinator
import Kamino.Lib.Runs
import Kamino.Proofs.Ring
import Kamino.Proofs.Server
import Mathlib.Data.UInt

/-!
# Signatures and owners of routing tables

A node's signature clock stands at the signature of the table it stores, so that its next build is
above it (`ClusterNode.monotone_iff_counts`), until the clock wraps or an empty store takes a table
with signature zero.
-/

namespace Kamino

open Runs Option RoutingTableStore

variable (cfg : CoordinatorConfig) {members : List ClusterMember}

theorem buildTable_isSome (h : members ≠ [])
    (currentTable : Option ClusterTable) (nextSig : UInt64) :
    (buildTable cfg members currentTable nextSig).isSome := by
  rw [buildTable, isSome_map]
  exact ClusterTable.build_isSome cfg.toRingConfig h nextSig

theorem buildTable_spec {currentTable : Option ClusterTable} {nextSig : UInt64} {t : ClusterTable}
    (h : buildTable cfg members currentTable nextSig = some t) :
    t.signature = nextSig ∧ t.members = members := by
  obtain ⟨base, hbase, rfl⟩ := map_eq_some_iff.1 h
  obtain ⟨hsig, hmem⟩ := ClusterTable.build_spec _ hbase
  cases currentTable <;> exact ⟨hsig, hmem⟩

theorem RoutingTableStore.apply_accepted {slot : Option ClusterTable} {t : ClusterTable}
    (h : ∀ current ∈ slot, current.signature < t.signature) :
    apply slot t = (.accepted, some t) := by
  cases slot with
  | none => rfl
  | some current => rw [apply, if_neg (UInt64.not_le.2 (h current rfl))]

theorem RoutingTableStore.apply_stale {current t : ClusterTable}
    (h : t.signature ≤ current.signature) :
    apply (some current) t = (.stale, some current) := by
  rw [apply, if_pos h]

theorem RoutingTableStore.apply_snd (slot : Option ClusterTable) (t : ClusterTable) :
    (apply slot t).2 = slot ∨ (apply slot t).2 = some t := by
  unfold apply
  split
  · split_ifs
    · exact .inl rfl
    · exact .inr rfl
  · exact .inr rfl

namespace ClusterNode

variable {cfg} {n : ClusterNode}

def Rebuilds (cfg : CoordinatorConfig) (n : ClusterNode) : Prop := n.isCoord ∧ n.topologyChanged cfg

instance : Decidable (n.Rebuilds cfg) := inferInstanceAs (Decidable (_ ∧ _))

theorem view_ne_nil (h : n.isCoord) : n.view ≠ [] := by
  rintro hv
  simp [isCoord, hv] at h

def built (cfg : CoordinatorConfig) (n : ClusterNode) (table : ClusterTable) : ClusterNode :=
  { n with
    signature := n.signature + 1
    store := (apply n.store table).2
    lastTopologyHash := some (topologyHash cfg n.view)
    currentTable := some table }

theorem tick_of_rebuilds (h : n.Rebuilds cfg) :
    ∃ table, buildTable cfg n.view n.currentTable (n.signature + 1) = some table ∧
      n.tick cfg = (n.built cfg table, some ⟨n.localId, n.view, n.currentTable, table⟩,
        (n.built cfg table).pushToPeers) := by
  obtain ⟨table, htable⟩ := isSome_iff_exists.1
    (buildTable_isSome cfg (view_ne_nil h.1) n.currentTable (n.signature + 1))
  refine ⟨table, htable, ?_⟩
  rw [tick, if_neg (not_not.2 h.1), if_pos h.2, rebuild]
  simp only [htable]
  rfl

theorem tick_of_not_rebuilds (h : ¬ n.Rebuilds cfg) :
    n.tick cfg = (n, none, if n.isCoord then n.pushToPeers else []) := by
  unfold tick
  by_cases hc : n.isCoord
  · rw [if_neg (not_not.2 hc), if_neg fun ht => h ⟨hc, ht⟩, if_pos hc]
  · rw [if_pos hc, if_neg hc]

theorem applyRoutingUpdate_accepted {table : ClusterTable}
    (h : ∀ current ∈ n.store, current.signature < table.signature) :
    n.applyRoutingUpdate table =
      (.accepted, { n with store := some table }.bumpSignatureToAtLeast table.signature) := by
  rw [applyRoutingUpdate, apply_accepted h]

theorem applyRoutingUpdate_stale {current table : ClusterTable} (hs : n.store = some current)
    (h : table.signature ≤ current.signature) : n.applyRoutingUpdate table = (.stale, n) := by
  rw [applyRoutingUpdate, hs, apply_stale h]

theorem le_bumpSignature (n : ClusterNode) (target : UInt64) :
    target ≤ (n.bumpSignatureToAtLeast target).signature := by
  unfold bumpSignatureToAtLeast
  dsimp only
  split_ifs with h
  · exact UInt64.le_refl _
  · exact UInt64.not_lt.1 h

theorem signature_le_bump (n : ClusterNode) (target : UInt64) :
    n.signature ≤ (n.bumpSignatureToAtLeast target).signature := by
  unfold bumpSignatureToAtLeast
  dsimp only
  split_ifs with h
  · exact UInt64.le_of_lt h
  · exact UInt64.le_refl _

section Monotone

variable (cfg) (n)

def Accepts : RoutingEvent → Prop
  | .view _ => False
  | .tick => ∃ b ∈ (n.tick cfg).2.1, (apply n.store b.table).1 = .accepted
  | .push table => (n.applyRoutingUpdate table).1 = .accepted

/-- An accepted table's signature is above the one stored before, the clock is not below the stored
signature, and a table the node builds is accepted by its store. -/
def Monotone (ev : RoutingEvent) : Prop :=
  (n.Accepts cfg ev → RoutingTableStore.signature n.store
    < RoutingTableStore.signature (n.react cfg ev).store) ∧
  RoutingTableStore.signature (n.react cfg ev).store ≤ (n.react cfg ev).signature ∧
  (ev = .tick → ∀ b ∈ (n.tick cfg).2.1, (apply n.store b.table).1 = .accepted)

/-- The clock does not wrap at a build, and an empty store is not pushed a table with signature
zero. -/
def Counts : RoutingEvent → Prop
  | .view _ => True
  | .tick => n.Rebuilds cfg → n.signature.toNat + 1 < 2 ^ 64
  | .push table => n.store = none → table.signature ≠ 0

end Monotone

def Covered (n : ClusterNode) : Prop := RoutingTableStore.signature n.store ≤ n.signature

theorem toNat_succ {x : UInt64} (h : x.toNat + 1 < 2 ^ 64) : (x + 1).toNat = x.toNat + 1 := by
  rw [UInt64.toNat_add]
  exact Nat.mod_eq_of_lt h

theorem monotone_view (hn : n.Covered) (members : List ClusterMember) :
    n.Monotone cfg (.view members) :=
  ⟨fun h => h.elim, hn, nofun⟩

theorem Covered.lt (hn : n.Covered) (h : n.signature.toNat + 1 < 2 ^ 64) :
    ∀ current ∈ n.store, current.signature < n.signature + 1 := by
  rintro current hc
  rw [Covered, mem_def.1 hc] at hn
  rw [UInt64.lt_iff_toNat_lt, toNat_succ h]
  exact Nat.lt_succ_of_le (UInt64.le_iff_toNat_le.1 hn)

theorem succ_eq_zero {x : UInt64} (h : ¬ x.toNat + 1 < 2 ^ 64) : x + 1 = 0 := by
  have hx := x.toNat_lt
  apply UInt64.toNat_inj.1
  rw [UInt64.toNat_add, show x.toNat = 2 ^ 64 - 1 by omega]
  rfl

theorem monotone_tick (hn : n.Covered) : n.Monotone cfg .tick ↔ n.Counts cfg .tick := by
  by_cases hr : n.Rebuilds cfg
  · obtain ⟨table, htable, htick⟩ := tick_of_rebuilds hr
    have hsig := (buildTable_spec cfg htable).1
    simp only [Monotone, Counts, Accepts, react, htick, mem_some_iff, exists_eq_left',
      forall_eq', hr, true_imp_iff, built]
    constructor
    · rintro ⟨hlt, -, hacc⟩
      by_contra hmax
      rw [succ_eq_zero hmax] at hsig
      rcases hs : n.store with _ | current
      · have := hlt hacc
        rw [hs, RoutingTableStore.apply_accepted (by simp), RoutingTableStore.signature,
          RoutingTableStore.signature, hsig] at this
        exact absurd this (by decide)
      · rw [hs, apply_stale (by rw [hsig]; exact UInt64.zero_le)] at hacc
        cases hacc
    · intro hmax
      have hlt := hn.lt hmax
      rw [RoutingTableStore.apply_accepted (by rwa [hsig]), RoutingTableStore.signature, hsig]
      refine ⟨fun _ => ?_, UInt64.le_refl _, rfl⟩
      rcases hs : n.store with _ | current
      · rw [UInt64.lt_iff_toNat_lt, toNat_succ hmax]
        exact Nat.succ_pos _
      · exact hlt current hs
  · simp only [Monotone, Counts, Accepts, react, tick_of_not_rebuilds hr, hr]
    exact ⟨fun _ h => h.elim, fun _ => ⟨by simp, hn, by simp⟩⟩

theorem monotone_push (hn : n.Covered) (table : ClusterTable) :
    n.Monotone cfg (.push table) ↔ n.Counts cfg (.push table) := by
  by_cases hlt : ∀ current ∈ n.store, current.signature < table.signature
  · simp only [Monotone, Counts, Accepts, react, applyRoutingUpdate_accepted hlt, true_imp_iff,
      reduceCtorEq, false_imp_iff, and_true]
    have hle := le_bumpSignature { n with store := some table } table.signature
    rcases hs : n.store with _ | current
    · refine ⟨fun h _ h0 => ?_, fun h => ⟨?_, hle⟩⟩
      · exact UInt64.ne_of_lt h.1 (by rw [RoutingTableStore.signature]; exact h0.symm)
      · exact UInt64.pos_iff_ne_zero.2 (h rfl)
    · exact ⟨fun _ h => absurd h (by simp), fun _ => ⟨hlt current hs, hle⟩⟩
  obtain ⟨current, hs, hle⟩ := not_forall₂.1 hlt
  rw [mem_def] at hs
  have hstale := applyRoutingUpdate_stale hs (UInt64.not_lt.1 hle)
  simp only [Monotone, Counts, Accepts, react, hstale, hs]
  refine ⟨fun _ h => absurd h (by simp), fun _ => ⟨fun h => absurd h (by simp), ?_, ?_⟩⟩
  · rw [← hs]
    exact hn
  · exact fun h => absurd h (by simp)

theorem Covered.of_monotone {ev : RoutingEvent} (h : n.Monotone cfg ev) :
    (n.react cfg ev).Covered :=
  h.2.1

/-- Over every run of one node, the stored signature grows at each accepted table, the clock stays
at or above it and the node's own builds are accepted, exactly when the clock never wraps at a build
and no table with signature zero is pushed to the empty store. -/
theorem monotone_iff_counts (localId : UInt64) (view : List ClusterMember)
    (evs : List RoutingEvent) :
    Guarded (fun n ev => some (n.react cfg ev)) (Monotone cfg) (start localId view) evs ↔
      Guarded (fun n ev => some (n.react cfg ev)) (Counts cfg) (start localId view) evs := by
  refine Guarded.congr Covered ?_ ?_ (UInt64.le_refl 0) (Guarded.of_forall (fun _ _ => trivial) _ _)
  · rintro n ev _ - hm hs
    exact Option.some.inj hs ▸ Covered.of_monotone hm
  rintro n ev hn -
  cases ev with
  | view members => exact iff_of_true (monotone_view hn members) trivial
  | tick => exact monotone_tick hn
  | push table => exact monotone_push hn table

section Sample

def sampleCoordinator : CoordinatorConfig where
  env := sumEnv
  partitionCount := 3
  virtualNodesPerMember := 1
  loadFactor := 1
  replicaCount := 1
  partitionCount_pos := by decide
  virtualNodesPerMember_pos := by decide
  one_le_loadFactor := by decide
  replicaCount_pos := by decide
  memberHash id birthdate := id * 1000 + birthdate

def sampleMember (id : UInt64) (addr : SocketAddr) (birthdate : UInt64) : ClusterMember :=
  ⟨⟨id, addr⟩, addr, addr, birthdate⟩

def bareTable (signature : UInt64) : ClusterTable := ⟨1, signature, [], fun _ => [], fun _ => []⟩

/-- An empty store accepts signature zero, which is the signature it already reports; and a node
that has been pushed the greatest signature builds its next table with signature zero. -/
theorem signature_not_monotone :
    ¬ Guarded (fun n ev => some (n.react sampleCoordinator ev)) (Monotone sampleCoordinator)
        (start 1 [sampleMember 1 "a" 1]) [.push (bareTable 0)] ∧
      ¬ Guarded (fun n ev => some (n.react sampleCoordinator ev)) (Monotone sampleCoordinator)
        (start 1 [sampleMember 1 "a" 1]) [.push (bareTable (2 ^ 64 - 1)), .tick] := by
  constructor
  · intro h
    exact absurd (h.1.1 rfl) (by decide)
  · intro h
    have hcounts := (monotone_tick h.1.2.1).1 (h.2 _ rfl).1
    exact absurd (hcounts (by decide)) (by decide +kernel)

end Sample

end ClusterNode

end Kamino
