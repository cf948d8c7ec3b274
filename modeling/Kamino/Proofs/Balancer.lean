import Kamino.Proofs.Migration
import Mathlib.Data.List.Dedup

/-!
# Migrations and balancer ticks
-/

namespace Kamino

open Function Runs List Option Node

section MigrateOne

variable {env : Env} {partitionCount : UInt32} {n n' r r' : Node} {dmap : Bytes}
  {part : UInt32}

def Node.storedKeys (n : Node) : Set Bytes :=
  {key | ∃ dmap hkey e, n.slot dmap hkey = some e ∧ e.key = key}

/-- The entries of the partition that had not expired at `now` are on the receiver, unless it held
the key with a stamp at least as high, and none of their keys is left on the sender. -/
def Moved (env : Env) (partitionCount : UInt32) (n n' r r' : Node) (dmap : Bytes)
    (part : UInt32) (now : Int64) : Prop :=
  ∀ hkey e, n.slot dmap hkey = some e → partitionFor env dmap e.key partitionCount = part →
    e.isExpired now = false →
      (∃ e', r'.slot dmap hkey = some e' ∧ (e' = e ∨ r.slot dmap hkey = some e' ∧
        e'.key = e.key ∧ e.timestampNanos ≤ e'.timestampNanos)) ∧
      ∀ hkey' e', n'.slot dmap hkey' = some e' → e'.key ≠ e.key

/-- The entries of other partitions and other DMaps are the same on both nodes. -/
def SameElsewhere (env : Env) (partitionCount : UInt32) (n n' : Node) (dmap : Bytes)
    (part : UInt32) : Prop :=
  ∀ dmap' hkey e, ¬ (dmap' = dmap ∧ partitionFor env dmap e.key partitionCount = part) →
    (n'.slot dmap' hkey = some e ↔ n.slot dmap' hkey = some e)

theorem sameElsewhere_refl (n : Node) : SameElsewhere env partitionCount n n dmap part :=
  fun _ _ _ _ => Iff.rfl

theorem sameElsewhere_clear (n : Node) :
    SameElsewhere env partitionCount n (n.clearPartition env partitionCount dmap part).2 dmap
      part := by
  intro dmap' hkey e hne
  rw [slot_clearPartition]
  exact and_iff_left hne

theorem key_eq_of_hash (hinj : Set.InjOn env.hash64 (n.storedKeys ∪ r.storedKeys))
    {dmap dmap' : Bytes} {hkey hkey' : UInt64} {e e' : Entry}
    (he : n.slot dmap hkey = some e ∨ r.slot dmap hkey = some e)
    (he' : n.slot dmap' hkey' = some e' ∨ r.slot dmap' hkey' = some e')
    (hhash : env.hash64 e.key = env.hash64 e'.key) : e.key = e'.key := by
  have hstored : ∀ {dmap hkey} {e : Entry}, n.slot dmap hkey = some e ∨ r.slot dmap hkey = some e →
      e.key ∈ n.storedKeys ∪ r.storedKeys := by
    rintro dmap hkey e (h | h)
    · exact .inl ⟨dmap, hkey, e, h, rfl⟩
    · exact .inr ⟨dmap, hkey, e, h, rfl⟩
  exact hinj (hstored he) (hstored he') hhash

section Import

variable {es : List Entry}

theorem arrived_of_imported (hn : n.Kept env) (hr : r.Kept env)
    (hinj : Set.InjOn env.hash64 (n.storedKeys ∪ r.storedKeys))
    (hes : ∀ e ∈ es, ∃ hkey, n.slot dmap hkey = some e) (himp : r.Imported env r' dmap es)
    {hkey : UInt64} {e : Entry} (he : n.slot dmap hkey = some e) (hmem : e ∈ es) :
    ∃ e', r'.slot dmap hkey = some e' ∧ (e' = e ∨ r.slot dmap hkey = some e' ∧
      e'.key = e.key ∧ e.timestampNanos ≤ e'.timestampNanos) := by
  have hhash := (hn dmap hkey e he).1
  obtain ⟨e', he', hle⟩ := covers_some.1 (himp.brought e hmem)
  rw [hhash] at he'
  refine ⟨e', he', ?_⟩
  rcases himp.origin dmap hkey e' he' with hold | ⟨-, hmem', hhash'⟩
  · have hkeys := (hr dmap hkey e' hold).1.trans hhash.symm
    exact .inr ⟨hold, key_eq_of_hash hinj (.inr hold) (.inl he) hkeys, hle⟩
  · obtain ⟨hkey', hold⟩ := hes e' hmem'
    rw [← (hn dmap hkey' e' hold).1, hhash', he] at hold
    exact .inl (Option.some.inj hold).symm

theorem sameElsewhere_of_imported (hr : r.Kept env)
    (hinj : Set.InjOn env.hash64 (n.storedKeys ∪ r.storedKeys))
    (hes : ∀ e ∈ es, partitionFor env dmap e.key partitionCount = part ∧
      ∃ hkey, n.slot dmap hkey = some e)
    (himp : r.Imported env r' dmap es) : SameElsewhere env partitionCount r r' dmap part := by
  intro dmap' hkey e hne
  constructor
  · intro he
    rcases himp.origin dmap' hkey e he with hold | ⟨hd, hmem, -⟩
    · exact hold
    · exact absurd ⟨hd, (hes e hmem).1⟩ hne
  intro he
  obtain ⟨e', he', -⟩ := himp.kept dmap' hkey e he
  rcases himp.origin dmap' hkey e' he' with hold | ⟨hd, hmem, hhash⟩
  · rw [he] at hold
    rw [Option.some.inj hold]
    exact he'
  -- A newer entry of the same hash is of the same key, and so of the partition.
  obtain ⟨hpart, hkey', hold⟩ := hes e' hmem
  have hkeys : e'.key = e.key := key_eq_of_hash hinj (.inl hold) (.inr he)
    (hhash.trans (hr dmap' hkey e he).1.symm)
  exact absurd ⟨hd, hkeys ▸ hpart⟩ hne

end Import

theorem ok_of_fragmentReply {peer : SocketAddr} {f : Frame}
    (h : fragmentReply env peer (.ok f) = .ok ()) : f = .ok := by
  rcases f with s | s | m | b <;> simp only [fragmentReply] at h
  · split_ifs at h with hs
    rw [hs]
    rfl
  · cases h
  · cases h
  · cases h

theorem forwarderTransport_ok {routing : SocketAddr → Option Routing} {delivery : Delivery}
    {c c' : Cluster} {peer : SocketAddr} {type : PartitionType} {payload : Bytes}
    (h : (forwarderTransport env routing delivery).sendFragment c peer part type dmap payload =
      (.ok (), c')) :
    payload.length ≤ defaultMaxBulkSize ∧ ∃ es r', decodeFragmentPayload payload = .ok (part, es) ∧
      (c peer).Imported env r' dmap es ∧ c' = update c peer r' := by
  simp only [forwarderTransport] at h
  rcases delivery with _ | ⟨_ | _, e⟩
  · rcases receiveFragment_cases env (c peer) (routing peer) part type dmap payload with
      ⟨f, hf, hrun⟩ | ⟨hlen, es, r', hdec, hrun, himp⟩ <;> rw [hrun] at h <;>
      obtain ⟨hreply, rfl⟩ := Prod.mk.inj h
    · exact absurd (ok_of_fragmentReply hreply) hf
    · exact ⟨hlen, es, r', hdec, himp, rfl⟩
  · cases (Prod.mk.inj h).1
  · cases (Prod.mk.inj h).1

/-- A migration that succeeds moves the partition's live entries to the receiver and nothing else
on either node, and one that fails leaves the sender unchanged. -/
theorem migrateOne_moves (env : Env) (partitionCount : UInt32)
    (routing : SocketAddr → Option Routing) (delivery : Delivery) (n n' : Node) (c c' : Cluster)
    (plan : MigrationPlan) (nowMicros : UInt64) (result : Except MigrationError Unit)
    (hn : n.Kept env) (hr : (c plan.peer).Kept env)
    (hinj : Set.InjOn env.hash64 (n.storedKeys ∪ (c plan.peer).storedKeys))
    (h : migrateOne env partitionCount (forwarderTransport env routing delivery) n c plan nowMicros
      = (result, n', c')) :
    (result = .ok () →
      Moved env partitionCount n n' (c plan.peer) (c' plan.peer) plan.dmap plan.partitionId
        (microsToNanosI64 nowMicros) ∧
      SameElsewhere env partitionCount n n' plan.dmap plan.partitionId ∧
      SameElsewhere env partitionCount (c plan.peer) (c' plan.peer) plan.dmap plan.partitionId) ∧
    (∀ e, result = .error e → n' = n) := by
  obtain ⟨payload, es, hexp, hes, hempty, hdec⟩ := exportPartition_spec
    hn partitionCount plan.dmap plan.partitionId nowMicros
  unfold migrateOne at h
  rw [hexp] at h
  dsimp only at h
  split_ifs at h with hlen
  · -- Nothing to send: no entry of the partition is live.
    obtain ⟨rfl, rfl, rfl⟩ : result = .ok () ∧ n' = n ∧ c' = c := by
      simpa [Prod.ext_iff, eq_comm] using h
    refine ⟨fun _ => ⟨?_, sameElsewhere_refl _, sameElsewhere_refl _⟩, fun _ _ => rfl⟩
    intro hkey e he hpart hlive
    have hmem := (hes e).2 ⟨hkey, he, hpart, hlive⟩
    rw [hempty.1 hlen] at hmem
    simp at hmem
  split at h
  · rename_i e t hsend
    obtain ⟨rfl, rfl, rfl⟩ : result = .error (.cluster e) ∧ n' = n ∧ c' = t := by
      simpa [Prod.ext_iff, eq_comm] using h
    exact ⟨by simp, fun _ _ => rfl⟩
  rename_i t hsend
  obtain ⟨hmax, es', r', hdec', himp, rfl⟩ := forwarderTransport_ok hsend
  obtain rfl : es' = es := by
    rw [hdec hmax] at hdec'
    exact (Prod.mk.inj (Except.ok.inj hdec')).2.symm
  obtain ⟨rfl, rfl, rfl⟩ : result = .ok () ∧
      n' = (n.clearPartition env partitionCount plan.dmap plan.partitionId).2 ∧
      c' = update c plan.peer r' := by
    simpa [Prod.ext_iff, eq_comm] using h
  rw [update_self]
  refine ⟨fun _ => ⟨?_, sameElsewhere_clear n, ?_⟩, by simp⟩
  · intro hkey e he hpart hlive
    have hmem := (hes e).2 ⟨hkey, he, hpart, hlive⟩
    refine ⟨arrived_of_imported hn hr hinj ?_ himp he hmem, ?_⟩
    · intro e he
      obtain ⟨hkey, hslot, -⟩ := (hes e).1 he
      exact ⟨hkey, hslot⟩
    intro hkey' e' he' hkeys
    have hleft := (slot_clearPartition.1 he').2
    rw [hkeys] at hleft
    exact hleft ⟨rfl, hpart⟩
  · refine sameElsewhere_of_imported hr hinj (fun e he => ?_) himp
    obtain ⟨hkey, hslot, hpart, -⟩ := (hes e).1 he
    exact ⟨hpart, hkey, hslot⟩

def heldEntry : Entry := ⟨[107], 0, 5, 5, [1]⟩

def holderOf (held : Entry) : Node :=
  empty.setDMap [100] { DMap.new {} with fragment := AList.insert 107 held ∅ }

def holder : Node := holderOf heldEntry

theorem holder_slot {dmap : Bytes} {hkey : UInt64} {held e : Entry}
    (h : (holderOf held).slot dmap hkey = some e) : hkey = 107 ∧ e = held := by
  rw [holderOf, slot_setDMap] at h
  split_ifs at h
  · by_cases hk : hkey = 107
    · rw [hk, AList.lookup_insert] at h
      exact ⟨hk, (Option.some.inj h).symm⟩
    · rw [AList.lookup_insert_ne hk] at h
      cases h
  · cases h

theorem holderOf_kept {held : Entry} (hheld : sumEnv.hash64 held.key = 107 ∧ held.Encodable) :
    (holderOf held).Kept sumEnv := by
  intro dmap hkey e h
  obtain ⟨rfl, rfl⟩ := holder_slot h
  exact hheld

theorem holder_kept : holder.Kept sumEnv := holderOf_kept (by decide)

/-- The one entry moves to an empty receiver. -/
theorem holder_moves :
    ∃ n' c', migrateOne sumEnv 1 (forwarderTransport sumEnv (fun _ => none) .replied) holder
        (fun _ => .empty) ⟨[100], 0, "b"⟩ 0 = (.ok (), n', c') ∧
      Moved sumEnv 1 holder n' .empty ( c' "b") [100] 0 0 := by
  refine ⟨_, _, rfl, ?_⟩
  refine ((migrateOne_moves sumEnv 1 (fun _ => none) .replied holder _ (fun _ => .empty) _
    ⟨[100], 0, "b"⟩ 0 (.ok ()) holder_kept ?_ ?_ rfl).1 rfl).1
  · intro dmap hkey e h
    cases h
  rintro _ (⟨dmap, hkey, e, he, rfl⟩ | ⟨dmap, hkey, e, he, rfl⟩) _
    (⟨dmap', hkey', e', he', rfl⟩ | ⟨dmap', hkey', e', he', rfl⟩) _
  · rw [(holder_slot he).2, (holder_slot he').2]
  · cases he'
  · cases he
  · cases he

end MigrateOne

section Tick

variable {τ : Type*} {env : Env} {partitionCount : UInt32} {transport : MigrationTransport τ}
  {n : Node} {t : τ} {dmap : Bytes} {hkey : UInt64} {e : Entry}

/-- The plan is to clear the entry: its partition has something to send. -/
def ToClear (env : Env) (partitionCount : UInt32) (n : Node) (clk : MigrationPlan → UInt64)
    (plan : MigrationPlan) (dmap : Bytes) (e : Entry) : Prop :=
  plan.dmap = dmap ∧ plan.partitionId = partitionFor env dmap e.key partitionCount ∧
    n.Live env partitionCount dmap plan.partitionId (microsToNanosI64 (clk plan))

variable {clk : MigrationPlan → UInt64}

theorem migrateOne_ok (hn : n.Kept env) {t t' : τ} {n' : Node} {plan : MigrationPlan}
    (h : migrateOne env partitionCount transport n t plan (clk plan) = (.ok (), n', t')) :
    ∀ dmap hkey e, n'.slot dmap hkey = some e ↔
      n.slot dmap hkey = some e ∧ ¬ ToClear env partitionCount n clk plan dmap e := by
  intro dmap hkey e
  obtain ⟨payload, es, hexp, hes, hempty, -⟩ := exportPartition_spec
    hn partitionCount plan.dmap plan.partitionId (clk plan)
  have hlive : n.Live env partitionCount plan.dmap plan.partitionId
      (microsToNanosI64 (clk plan)) ↔ ¬ payload.length ≤ 9 := by
    rw [hempty]
    constructor
    · rintro ⟨hkey, e, he, hpart, hexp⟩
      exact ne_nil_of_mem ((hes e).2 ⟨hkey, he, hpart, hexp⟩)
    intro hne
    obtain ⟨e, he⟩ := exists_mem_of_ne_nil es hne
    obtain ⟨hkey, hslot, hpart, hexp⟩ := (hes e).1 he
    exact ⟨hkey, e, hslot, hpart, hexp⟩
  have htoClear : ToClear env partitionCount n clk plan dmap e ↔
      (dmap = plan.dmap ∧ partitionFor env plan.dmap e.key partitionCount = plan.partitionId) ∧
        ¬ payload.length ≤ 9 := by
    rw [← hlive]
    constructor
    · rintro ⟨rfl, hpart, hl⟩
      exact ⟨⟨rfl, hpart.symm⟩, hl⟩
    · rintro ⟨⟨rfl, hpart⟩, hl⟩
      exact ⟨rfl, hpart.symm, hl⟩
  rw [htoClear]
  unfold migrateOne at h
  rw [hexp] at h
  dsimp only at h
  split_ifs at h with hlen
  · cases h
    simp [hlen]
  · split at h <;> cases h
    rw [slot_clearPartition]
    simp [hlen]

theorem kept_migrateOne (partitionCount : UInt32) (transport : MigrationTransport τ)
    (hn : n.Kept env) (t : τ) (plan : MigrationPlan) (nowMicros : UInt64) :
    (migrateOne env partitionCount transport n t plan nowMicros).2.1.Kept env := by
  unfold migrateOne
  split
  · exact hn
  split_ifs
  · exact hn
  · split
    · exact hn
    · exact kept_clearPartition hn

theorem live_congr {n n' : Node} {plan : MigrationPlan}
    (hslot : ∀ dmap hkey e, n'.slot dmap hkey = some e ↔
      n.slot dmap hkey = some e ∧ ¬ ToClear env partitionCount n clk plan dmap e)
    (he : ¬ ToClear env partitionCount n clk plan dmap e) (now : Int64) :
    n'.Live env partitionCount dmap (partitionFor env dmap e.key partitionCount) now ↔
      n.Live env partitionCount dmap (partitionFor env dmap e.key partitionCount) now := by
  constructor
  · rintro ⟨hkey, e', he', hpart, hexp⟩
    exact ⟨hkey, e', ((hslot dmap hkey e').1 he').1, hpart, hexp⟩
  · rintro ⟨hkey, e', he', hpart, hexp⟩
    refine ⟨hkey, e', (hslot dmap hkey e').2 ⟨he', fun hc => he ?_⟩, hpart, hexp⟩
    exact ⟨hc.1, hc.2.1.trans hpart, hc.2.2⟩

def AllSent (env : Env) (partitionCount : UInt32) (transport : MigrationTransport τ)
    (clk : MigrationPlan → UInt64) : Node → τ → List MigrationPlan → Prop
  | _, _, [] => True
  | n, t, plan :: plans =>
    match migrateOne env partitionCount transport n t plan (clk plan) with
    | (.ok (), n, t) => AllSent env partitionCount transport clk n t plans
    | (.error _, _, _) => False

theorem kept_migrateAll (clk : MigrationPlan → UInt64) :
    ∀ (plans : List MigrationPlan) {n : Node} (t : τ), n.Kept env →
      (migrateAll env partitionCount transport clk n t plans).1.Kept env
  | [], _, _, hn => hn
  | plan :: plans, n, t, hn => by
    have hone := kept_migrateOne partitionCount transport hn t plan (clk plan)
    unfold migrateAll
    split <;> rename_i h <;> rw [h] at hone
    · exact hone
    · exact kept_migrateAll clk plans _ hone
    · exact kept_migrateAll clk plans _ hone

theorem migrateAll_slot (clk : MigrationPlan → UInt64) :
    ∀ (plans : List MigrationPlan) {n : Node} (t : τ), n.Kept env →
      AllSent env partitionCount transport clk n t plans → ∀ dmap hkey e,
        (migrateAll env partitionCount transport clk n t plans).1.slot dmap hkey = some e ↔
          n.slot dmap hkey = some e ∧ ∀ plan ∈ plans, ¬ ToClear env partitionCount n clk plan dmap e
  | [], n, t, _, _ => by simp [migrateAll]
  | plan :: plans, n, t, hn, hsent => by
    have hone := kept_migrateOne partitionCount transport hn t plan (clk plan)
    unfold AllSent at hsent
    split at hsent
    · rename_i n₁ t₁ hrun
      rw [hrun] at hone
      have hslot := migrateOne_ok hn hrun
      have hrest := migrateAll_slot clk plans t₁ hone hsent
      intro dmap hkey e
      unfold migrateAll
      rw [hrun]
      dsimp only
      rw [hrest, hslot, forall_mem_cons, and_assoc]
      refine and_congr_right fun _ => and_congr_right fun hc => forall₂_congr fun plan' _ => ?_
      -- The entries that share the entry's partition are all still there.
      refine not_congr (and_congr_right fun _ => and_congr_right fun hpart => ?_)
      rw [hpart]
      exact live_congr hslot hc _
    · exact absurd hsent id

theorem mem_localPartitions {part : UInt32} : (dmap, part) ∈ n.localPartitions env partitionCount ↔
    ∃ hkey, ∃ e ∈ n.slot dmap hkey, partitionFor env dmap e.key partitionCount = part := by
  have hparts : part ∈ n.partitionsOf env partitionCount dmap ↔
      ∃ hkey, ∃ e ∈ n.slot dmap hkey, partitionFor env dmap e.key partitionCount = part := by
    unfold partitionsOf
    rcases hl : n.dmaps.lookup dmap with _ | d
    · simp [slot, hl]
    simp only [List.mem_insertionSort, List.mem_dedup, List.mem_map, slot, hl, Option.bind_some]
    constructor
    · rintro ⟨⟨hkey, e⟩, hmem, rfl⟩
      exact ⟨hkey, e, HMap.mem_entries_iff.1 hmem, rfl⟩
    · rintro ⟨hkey, e, he, rfl⟩
      exact ⟨⟨hkey, e⟩, HMap.mem_entries_iff.2 he, rfl⟩
  rw [← hparts]
  simp only [localPartitions, List.mem_flatMap, List.mem_map, Prod.mk.injEq, List.mem_insertionSort]
  constructor
  · rintro ⟨name, -, id, hid, rfl, rfl⟩
    exact hid
  intro hid
  refine ⟨dmap, ?_, part, hid, rfl, rfl⟩
  rw [← AList.mem_keys, ← AList.lookup_isSome]
  unfold partitionsOf at hid
  rcases hl : n.dmaps.lookup dmap with _ | d
  · rw [hl] at hid
    simp at hid
  · rfl

def TickSent (env : Env) (partitionCount : UInt32) (transport : MigrationTransport τ)
    (localId : UInt64) (table : RoutingTable) (n : Node) (t : τ) (clk : MigrationPlan → UInt64) :
    Prop :=
  AllSent env partitionCount transport clk n t
    ((n.localPartitions env partitionCount).filterMap (planFor localId table))

theorem runTick_slot (hn : n.Kept env) {localId : UInt64} {table : RoutingTable} {t : τ}
    (hsent : TickSent env partitionCount transport localId table n t clk) (dmap : Bytes)
    (hkey : UInt64) (e : Entry) :
    (runTick env partitionCount transport localId (some table) n t clk).1.slot dmap hkey = some e ↔
      n.slot dmap hkey = some e ∧
        ∀ primary, table.primaryFor (partitionFor env dmap e.key partitionCount) =
            some primary → primary.id ≠ localId →
          ¬ n.Live env partitionCount dmap (partitionFor env dmap e.key partitionCount)
            (microsToNanosI64 (clk ⟨dmap, partitionFor env dmap e.key partitionCount,
              primary.addr⟩)) := by
  refine (migrateAll_slot clk _ t hn hsent dmap hkey e).trans (and_congr_right fun he => ?_)
  have hheld : (dmap, partitionFor env dmap e.key partitionCount) ∈
      n.localPartitions env partitionCount := mem_localPartitions.2 ⟨hkey, e, he, rfl⟩
  constructor
  · intro h primary hprimary hid hlive
    refine h ⟨dmap, partitionFor env dmap e.key partitionCount, primary.addr⟩
      (mem_filterMap.2 ⟨_, hheld, ?_⟩) ⟨rfl, rfl, hlive⟩
    simp only [planFor, hprimary, if_neg hid]
  rintro h plan hmem ⟨rfl, hpart, hlive⟩
  obtain ⟨⟨name, part⟩, -, hplan⟩ := mem_filterMap.1 hmem
  unfold planFor at hplan
  dsimp only at hplan
  split at hplan
  · cases hplan
  rename_i primary hprimary
  split_ifs at hplan with hid
  obtain rfl := Option.some.inj hplan
  dsimp only at hpart hlive h
  subst hpart
  exact h primary hprimary hid hlive

end Tick

section Backups

variable {τ : Type*} (env : Env) (partitionCount : UInt32) (transport : MigrationTransport τ)
  (localId : UInt64)

/-- A balancer's tick, with the routing table it finds, or a request in between. -/
inductive BalancerEvent where
  | tick (snapshot : Option RoutingTable) (clk : MigrationPlan → UInt64)
  | request (op : NodeOp)

def balancerStep (s : Node × τ) : BalancerEvent → Option (Node × τ)
  | .tick snapshot clk =>
    some (runTick env partitionCount transport localId snapshot s.1 s.2 clk)
  | .request op => some (s.1.apply env op, s.2)

/-- The table lists the local node as a backup of the partition. -/
def ListedAsBackup (table : RoutingTable) (part : UInt32) : Prop :=
  ∃ m ∈ table.backupsFor part, m.id = localId

/-- A tick removes no entry of a partition that the local node is listed as a backup of. -/
def KeepsBackups (s : Node × τ) : BalancerEvent → Prop
  | .tick (some table) clk => ∀ dmap hkey e, s.1.slot dmap hkey = some e →
      ListedAsBackup localId table (partitionFor env dmap e.key partitionCount) →
        (runTick env partitionCount transport localId (some table) s.1 s.2 clk).1.slot dmap hkey =
          some e
  | _ => True

/-- Where a tick finds entries of a partition that the local node is listed as a backup of, the
table has no other node as the partition's primary, or all the entries the DMap has in the
partition have expired. -/
def NothingToSend (s : Node × τ) : BalancerEvent → Prop
  | .tick (some table) clk => ∀ dmap hkey e, s.1.slot dmap hkey = some e →
      ListedAsBackup localId table (partitionFor env dmap e.key partitionCount) →
        ∀ primary, table.primaryFor (partitionFor env dmap e.key partitionCount) = some primary →
          primary.id = localId ∨ ∀ hkey' e', s.1.slot dmap hkey' = some e' →
            partitionFor env dmap e'.key partitionCount =
                partitionFor env dmap e.key partitionCount →
              e'.isExpired (microsToNanosI64 (clk ⟨dmap,
                partitionFor env dmap e.key partitionCount, primary.addr⟩)) = true
  | _ => True

def TransfersSucceed (s : Node × τ) : BalancerEvent → Prop
  | .tick (some table) clk => TickSent env partitionCount transport localId table s.1 s.2 clk
  | _ => True

variable {env partitionCount transport localId}

theorem keepsBackups_iff {s : Node × τ} (hn : s.1.Kept env) {ev : BalancerEvent}
    (hsent : TransfersSucceed env partitionCount transport localId s ev) :
    KeepsBackups env partitionCount transport localId s ev ↔
      NothingToSend env partitionCount localId s ev := by
  rcases ev with ⟨_ | table, clk⟩ | op
  · exact Iff.rfl
  · refine forall₄_congr fun dmap hkey e he => forall_congr' fun _ => ?_
    rw [runTick_slot hn hsent]
    refine (and_iff_right he).trans (forall₂_congr fun primary _ => ?_)
    rw [← or_iff_not_imp_left]
    refine or_congr_right ?_
    simp [Node.Live]
  · exact Iff.rfl

theorem kept_balancerStep {s s' : Node × τ} {ev : BalancerEvent} (hn : s.1.Kept env)
    (h : balancerStep env partitionCount transport localId s ev = some s') : s'.1.Kept env := by
  rcases ev with ⟨_ | table, clk⟩ | op <;> obtain rfl := Option.some.inj h
  · exact hn
  · exact kept_migrateAll clk _ s.2 hn
  · exact kept_apply hn op

/-- In a run of ticks whose transfers succeed, with any requests in between, no tick removes an
entry the local node is a backup of exactly when no tick finds one with another node as primary
and something to send. -/
theorem keepsBackups_of_nothingToSend (env : Env) (partitionCount : UInt32)
    (transport : MigrationTransport τ) (localId : UInt64) (n : Node) (hn : n.Kept env) (t : τ)
    (evs : List BalancerEvent)
    (hsent : Guarded (balancerStep env partitionCount transport localId)
      (TransfersSucceed env partitionCount transport localId) (n, t) evs) :
    Guarded (balancerStep env partitionCount transport localId)
        (KeepsBackups env partitionCount transport localId) (n, t) evs ↔
      Guarded (balancerStep env partitionCount transport localId)
        (NothingToSend env partitionCount localId) (n, t) evs :=
  Guarded.congr (fun s => s.1.Kept env) (fun _ _ _ h _ hstep => kept_balancerStep h hstep)
    (fun _ _ h hg => keepsBackups_iff h hg) hn hsent

/-- The routing of a partition with member 2 as its primary and member 1 as its backup. -/
def backedUp : RoutingTable := ⟨fun _ => [⟨2, "b"⟩], fun _ => [⟨1, "a"⟩]⟩

/-- A backup's tick sends its copy to the primary, which takes it, and clears it. -/
theorem backup_cleared :
    let ship := forwarderTransport sumEnv (fun _ => none) .replied
    let evs := [.tick (some backedUp) fun _ => 0]
    Guarded (balancerStep sumEnv 1 ship 1) (TransfersSucceed sumEnv 1 ship 1)
        (holder, fun _ => .empty) evs ∧
      ¬ Guarded (balancerStep sumEnv 1 ship 1) (KeepsBackups sumEnv 1 ship 1)
        (holder, fun _ => .empty) evs := by
  refine ⟨⟨trivial, fun _ _ => trivial⟩, fun h => ?_⟩
  have hkept := h.1 [100] 107 heldEntry rfl ⟨⟨1, "a"⟩, mem_singleton_self _, rfl⟩
  exact absurd hkept (by decide)

def staleEntry : Entry := ⟨[107], 1, 5, 5, [1]⟩

/-- A backup's ticks send nothing, and clear nothing, once all it has in the partition has
expired. -/
theorem keepsBackups_expired :
    let ship := forwarderTransport sumEnv (fun _ => none) .replied
    (holderOf staleEntry).slot [100] 107 = some staleEntry ∧
      Guarded (balancerStep sumEnv 1 ship 1) (KeepsBackups sumEnv 1 ship 1)
        (holderOf staleEntry, fun _ => .empty)
        [.tick (some backedUp) fun _ => 1, .tick (some backedUp) fun _ => 2] := by
  intro ship
  have hkept : (holderOf staleEntry).Kept sumEnv := holderOf_kept (by decide)
  have hstale : ∀ now, staleEntry.isExpired (microsToNanosI64 now) = true →
      NothingToSend sumEnv 1 1 (holderOf staleEntry, fun _ : SocketAddr => Node.empty)
        (.tick (some backedUp) fun _ => now) := by
    intro now hnow dmap hkey e _ _ primary _
    refine .inr fun hkey' e' he' _ => ?_
    rw [(holder_slot he').2]
    exact hnow
  refine ⟨rfl, (keepsBackups_of_nothingToSend sumEnv 1 ship 1 _ hkept _ _ ?_).2 ?_⟩
  · exact ⟨trivial, fun _ h => Option.some.inj h ▸ ⟨trivial, fun _ _ => trivial⟩⟩
  · refine ⟨hstale 1 (by decide), fun _ h => Option.some.inj h ▸ ⟨?_, fun _ _ => trivial⟩⟩
    exact hstale 2 (by decide)

end Backups

end Kamino
