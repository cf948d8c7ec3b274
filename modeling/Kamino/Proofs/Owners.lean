import Kamino.Proofs.Network
import Kamino.Reads

/-!
# Earlier owners across builds

What a build knows of earlier owners is its coordinator's own last build, and a coordinator that
takes over has none.
-/

namespace Kamino

open Runs ClusterTable List ClusterNode

variable {cfg : CoordinatorConfig}

section Splice

variable (live : List ClusterMember) (primary : ClusterMember)

def spliceOne (owners : List ClusterMember) (ancestor : ClusterMember) : List ClusterMember :=
  if ancestor.id = primary.id then owners
  else if ancestor.id ∉ liveIds live then owners
  else if ancestor.id ∈ liveIds owners then owners
  else owners ++ [ancestor]

variable {owners : List ClusterMember}

theorem head_spliceOne (h : owners.head? = some primary)
    (ancestor : ClusterMember) : (spliceOne live primary owners ancestor).head? = some primary := by
  unfold spliceOne
  split_ifs
  · exact h
  · exact h
  · rw [head?_append, h]
    rfl
  · exact h

variable {id : UInt64}

theorem mem_spliceOne {ancestor : ClusterMember}
    (hid : id ≠ primary.id) (hlive : id ∈ liveIds live) :
    id ∈ liveIds (spliceOne live primary owners ancestor) ↔
      id ∈ liveIds owners ∨ id = ancestor.id := by
  unfold spliceOne
  split_ifs with h₁ h₂ h₃
  · exact ⟨.inl, fun h => h.resolve_right fun he => hid (he.trans h₁)⟩
  · exact ⟨.inl, fun h => h.elim (fun h => h) fun he => he ▸ h₃⟩
  · simp [liveIds, map_append, mem_append, map_cons, map_nil]
  · exact ⟨.inl, fun h => h.resolve_right fun he => h₂ (he ▸ hlive)⟩

theorem head_splice : ∀ (prevOwners owners : List ClusterMember), owners.head? = some primary →
    (prevOwners.foldl (spliceOne live primary) owners).head? = some primary
  | [], _, h => h
  | ancestor :: prevOwners, _, h =>
    head_splice prevOwners _ (head_spliceOne live primary h ancestor)

theorem mem_splice (hid : id ≠ primary.id) (hlive : id ∈ liveIds live) :
    ∀ prevOwners owners : List ClusterMember,
      id ∈ liveIds (prevOwners.foldl (spliceOne live primary) owners) ↔
        id ∈ liveIds owners ∨ id ∈ liveIds prevOwners
  | [], owners => by simp [liveIds]
  | ancestor :: prevOwners, owners => by
    rw [foldl_cons, mem_splice hid hlive, mem_spliceOne live primary hid hlive, or_assoc]
    simp [liveIds]

theorem spliceOwners_cons (prevPrimary : ClusterMember) (prevOwners : List ClusterMember) :
    spliceOwners live (prevPrimary :: prevOwners) [primary] =
      if prevPrimary.id = primary.id then [primary]
      else if prevPrimary.id ∉ liveIds live then [primary]
      else (prevPrimary :: prevOwners).foldl (spliceOne live primary) [primary] :=
  rfl

theorem head_spliceOwners (prevOwners : List ClusterMember) :
    (spliceOwners live prevOwners [primary]).head? = some primary := by
  cases prevOwners with
  | nil => rfl
  | cons prevPrimary prevOwners =>
    rw [spliceOwners_cons]
    split_ifs
    · rfl
    · exact head_splice live primary _ [primary] rfl
    · rfl

theorem mem_spliceOwners (hid : id ≠ primary.id) (hlive : id ∈ liveIds live)
    (prevOwners : List ClusterMember) :
    id ∈ liveIds (spliceOwners live prevOwners [primary]) ↔ ∃ p ∈ prevOwners.head?,
        p.id ≠ primary.id ∧ p.id ∈ liveIds live ∧ id ∈ liveIds prevOwners := by
  have hno : id ∉ liveIds [primary] := by simpa [liveIds] using hid
  cases prevOwners with
  | nil => simpa [spliceOwners] using hno
  | cons prevPrimary prevOwners =>
    rw [spliceOwners_cons]
    simp only [head?_cons, Option.mem_some_iff, exists_eq_left']
    split_ifs with h₁ h₂
    · exact ⟨fun h => absurd h hno, fun h => absurd h₁ h.1⟩
    · rw [mem_splice live primary hid hlive]
      exact ⟨fun h => ⟨h₁, h₂, h.resolve_left hno⟩, fun h => .inr h.2.2⟩
    · exact ⟨fun h => absurd h hno, fun h => absurd h.2.1 h₂⟩

theorem spliceOne_cases (earlier : List ClusterMember) (ancestor : ClusterMember) :
    spliceOne live primary (primary :: earlier) ancestor = primary :: earlier
    ∨ spliceOne live primary (primary :: earlier) ancestor = primary :: (earlier ++ [ancestor])
      ∧ ancestor.id ∈ liveIds live ∧ ancestor.id ∉ liveIds (primary :: earlier) := by
  unfold spliceOne
  split_ifs with h₁ h₂ h₃
  · exact .inl rfl
  · exact .inl rfl
  · exact .inr ⟨rfl, h₂, h₃⟩
  · exact .inl rfl

/-- What follows the new primary: owners of the earlier table, in its order, live, and no member
twice. -/
structure Spliced (prevOwners earlier : List ClusterMember) : Prop where
  sublist : earlier.Sublist prevOwners
  nodup : (liveIds (primary :: earlier)).Nodup
  live : ∀ m ∈ earlier, m.id ∈ liveIds live

theorem spliced_foldl (prevOwners : List ClusterMember) :
    ∃ earlier, prevOwners.foldl (spliceOne live primary) [primary] = primary :: earlier
      ∧ Spliced live primary prevOwners earlier := by
  induction prevOwners using reverseRecOn with
  | nil => exact ⟨[], rfl, List.Sublist.refl _, nodup_singleton _, by simp⟩
  | append_singleton prevOwners ancestor ih =>
    obtain ⟨earlier, hfold, hsub, hnodup, hlive⟩ := ih
    rw [foldl_append, foldl_cons, foldl_nil, hfold]
    rcases spliceOne_cases live primary earlier ancestor with h | ⟨h, halive, hnew⟩ <;> rw [h]
    · exact ⟨earlier, rfl, hsub.trans (sublist_append_left _ _), hnodup, hlive⟩
    refine ⟨earlier ++ [ancestor], rfl, hsub.append_right [ancestor], ?_, ?_⟩
    · have hids : liveIds (primary :: (earlier ++ [ancestor]))
          = liveIds (primary :: earlier) ++ [ancestor.id] := by simp [liveIds]
      rw [hids]
      refine nodup_append.2 ⟨hnodup, nodup_singleton _, ?_⟩
      rintro a ha b hb rfl
      exact hnew (mem_singleton.1 hb ▸ ha)
    · intro m hm
      rcases mem_append.1 hm with hm | hm
      · exact hlive m hm
      · exact mem_singleton.1 hm ▸ halive

theorem mem_foldl_spliceOne {m : ClusterMember} : ∀ {prevOwners owners : List ClusterMember},
    m ∈ owners → m ∈ prevOwners.foldl (spliceOne live primary) owners
  | [], _, h => h
  | ancestor :: prevOwners, owners, h => by
    rw [foldl_cons]
    refine mem_foldl_spliceOne ?_
    unfold spliceOne
    split_ifs
    · exact h
    · exact h
    · exact mem_append_left _ h
    · exact h

theorem spliceOwners_spec (prevOwners : List ClusterMember) :
    ∃ earlier, spliceOwners live prevOwners [primary] = primary :: earlier
      ∧ Spliced live primary prevOwners earlier
      ∧ ∀ p ∈ prevOwners.head?, (p ∈ earlier ↔ p.id ∈ liveIds live ∧ p.id ≠ primary.id)
          ∧ (p.id = primary.id → earlier = []) := by
  have hnone : Spliced live primary prevOwners [] :=
    ⟨nil_sublist _, nodup_singleton _, by simp⟩
  cases prevOwners with
  | nil => exact ⟨[], rfl, hnone, by simp⟩
  | cons prevPrimary prevOwners =>
    simp only [head?_cons, Option.mem_some_iff, forall_eq']
    rw [spliceOwners_cons]
    split_ifs with hsame hlive
    · exact ⟨[], rfl, hnone, by simp [hsame], fun _ => rfl⟩
    · obtain ⟨earlier, hfold, hspliced⟩ := spliced_foldl live primary (prevPrimary :: prevOwners)
      have hfirst : spliceOne live primary [primary] prevPrimary = [primary, prevPrimary] := by
        unfold spliceOne
        rw [if_neg hsame, if_neg (not_not.2 hlive), if_neg (by simpa [liveIds] using hsame)]
        rfl
      have hmem : prevPrimary ∈ primary :: earlier := by
        rw [← hfold, foldl_cons, hfirst]
        exact mem_foldl_spliceOne live primary (by simp)
      have hne : prevPrimary ≠ primary := fun h => hsame (h ▸ rfl)
      refine ⟨earlier, hfold, hspliced, iff_of_true ?_ ⟨hlive, hsame⟩, fun h => absurd h hsame⟩
      exact (mem_cons.1 hmem).resolve_left hne
    · exact ⟨[], rfl, hnone, by simp [hlive], fun _ => rfl⟩

/-- The splice on a freshly built table: every partition keeps its primary first, then come live
owners of the earlier table in its order, no owner twice. The earlier primary is among them exactly
when it is live and not the new one, and then so is every other live owner of the earlier table. -/
theorem preservePreviousOwners_spec (cfg : RingConfig) {members : List ClusterMember}
    {signature : UInt64} {new : ClusterTable}
    (hnew : build cfg members signature = some new) (prev : ClusterTable)
    (live : List ClusterMember) :
    (∀ part, (preservePreviousOwners new prev live).backup part = new.backup part)
    ∧ ∀ part < cfg.partitionCount, ∃ primary earlier, new.primary part = [primary]
      ∧ (preservePreviousOwners new prev live).primary part = primary :: earlier
      ∧ (liveIds (primary :: earlier)).Nodup
      ∧ (∀ m ∈ earlier, m.id ∈ liveIds live)
      ∧ earlier.Sublist (prev.primary part)
      ∧ (∀ id, id ∈ liveIds earlier ↔
          id ≠ primary.id ∧ id ∈ liveIds live ∧ id ∈ liveIds (prev.primary part)
          ∧ ∃ p ∈ prev.primaryFor part, p.id ≠ primary.id ∧ p.id ∈ liveIds live)
      ∧ ∀ p, prev.primaryFor part = some p → (p ∈ earlier ↔ p.id ∈ liveIds live ∧ p.id ≠ primary.id)
          ∧ (p.id = primary.id → earlier = []) := by
  refine ⟨fun part => rfl, fun part hpart => ?_⟩
  obtain ⟨primary, -, hprimary⟩ := build_primary cfg hnew hpart
  obtain ⟨earlier, howners, hspliced, hprev⟩ :=
    spliceOwners_spec live primary (prev.primary part)
  refine ⟨primary, earlier, hprimary, ?_, hspliced.nodup, hspliced.live, hspliced.sublist,
    fun id => ?_, hprev⟩
  · change spliceOwners live (prev.primary part) (new.primary part) = primary :: earlier
    rw [hprimary, howners]
  have hmem : id ≠ primary.id → (id ∈ liveIds (primary :: earlier) ↔ id ∈ liveIds earlier) :=
    fun hne => by simp [liveIds, hne]
  constructor
  · intro h
    have hne : id ≠ primary.id := by
      rintro rfl
      exact (nodup_cons.1 hspliced.nodup).1 h
    obtain ⟨m, hm, rfl⟩ := mem_map.1 h
    have hlive := hspliced.live m hm
    rw [← hmem hne, ← howners, mem_spliceOwners _ _ hne hlive] at h
    obtain ⟨p, hp, hpne, hplive, hin⟩ := h
    exact ⟨hne, hlive, hin, p, hp, hpne, hplive⟩
  · rintro ⟨hne, hlive, hin, p, hp, hpne, hplive⟩
    rw [← hmem hne, ← howners, mem_spliceOwners _ _ hne hlive]
    exact ⟨p, hp, hpne, hplive, hin⟩

/-- Two members' first table, spliced with one that has the second member first and then the first
one. -/
theorem preservePreviousOwners_spec_two :
    let cfg : RingConfig := ⟨twoMembers, by decide, by decide, by norm_num [twoMembers], by decide⟩
    let prev : ClusterTable :=
      ⟨1, 1, [], fun _ => [secondMember, firstMember], fun _ => []⟩
    ∃ new, build cfg [firstMember, secondMember] 2 = some new
      ∧ ∃ primary earlier, new.primary 0 = [primary]
        ∧ (preservePreviousOwners new prev [firstMember, secondMember]).primary 0
            = primary :: earlier
        ∧ (liveIds (primary :: earlier)).Nodup := by
  intro cfg prev
  obtain ⟨new, hnew⟩ := Option.isSome_iff_exists.1
    (@ClusterTable.build_isSome [firstMember, secondMember] cfg (by simp) 2)
  obtain ⟨-, hparts⟩ := preservePreviousOwners_spec cfg hnew prev [firstMember, secondMember]
  obtain ⟨primary, earlier, hnew', howners, hnodup, -⟩ := hparts 0 (by decide)
  exact ⟨new, hnew, primary, earlier, hnew', howners, hnodup⟩

end Splice

section Handover

/-- The partition's primary was `A` and is now `B`, and `A` is still a member. -/
structure Moves (old new : ClusterTable) (part : UInt32) (A B : ClusterMember) : Prop where
  before : old.primaryFor part = some A
  after : new.primaryFor part = some B
  moved : A.id ≠ B.id
  live : A.id ∈ liveIds new.members

/-- Every partition that moves has its new primary first and its earlier one among its owners. -/
def Keeps (old new : ClusterTable) : Prop :=
  ∀ part A B, Moves old new part A B →
    (new.ownersFor part).head? = some B ∧ A.id ∈ liveIds (new.ownersFor part)

/-- For every partition that moves from `A`, the coordinator's last build lists `A`, and its primary
there is live and not the new one. -/
def Carried (previous : Option ClusterTable) (old new : ClusterTable) : Prop :=
  ∀ part A B, Moves old new part A B → ∃ last ∈ previous, ∃ P ∈ last.primaryFor part,
    P.id ≠ B.id ∧ P.id ∈ liveIds new.members ∧ A.id ∈ liveIds (last.ownersFor part)

theorem buildTable_owners {members : List ClusterMember} {previous : Option ClusterTable}
    {sig : UInt64} {t : ClusterTable} (h : buildTable cfg members previous sig = some t)
    {part : UInt32} {B : ClusterMember} (hB : t.primaryFor part = some B) :
    t.ownersFor part =
      previous.elim [B] fun last => spliceOwners members (last.primary part) [B] := by
  obtain ⟨base, hbase, rfl⟩ := Option.map_eq_some_iff.1 h
  have howners := build_owners _ hbase part
  cases previous with
  | none =>
    dsimp only at hB ⊢
    rw [ownersFor, howners, hB]
    rfl
  | some last =>
    dsimp only [preservePreviousOwners, primaryFor] at hB
    dsimp only [preservePreviousOwners, ownersFor]
    rcases hp : base.primaryFor part with _ | B'
    · rw [howners, hp] at hB
      cases hl : last.primary part <;> rw [hl] at hB <;> cases hB
    rw [hp, Option.toList_some] at howners
    rw [howners, head_spliceOwners, Option.some.injEq] at hB
    rw [howners, hB]
    rfl

/-- A partition that moves from a live member to another keeps the earlier one among its owners
exactly when the coordinator's own last build lists it and has a live primary of its own that is not
the new one. -/
theorem keeps_iff_carried {b : Build} (hb : b.Made cfg) (old : ClusterTable) :
    Keeps old b.table ↔ Carried b.previous old b.table := by
  refine forall₃_congr fun part A B => forall_congr' fun hm => ?_
  have howners := buildTable_owners hb.2 hm.after
  have hlive := hm.live
  rw [hb.members] at hlive ⊢
  rw [howners]
  rcases hp : b.previous with _ | last <;> dsimp only [Option.elim]
  · simpa [liveIds] using hm.moved
  · rw [head_spliceOwners, mem_spliceOwners _ _ hm.moved hlive]
    simp [primaryFor, ownersFor]

namespace Network

variable {s s' : Network}

/-- The event makes a node that stores `old` accept the table of the build `b`. -/
inductive Accepted (cfg : CoordinatorConfig) (s : Network) :
    NetworkEvent → ClusterTable → Build → Prop
  | built {addr : SocketAddr} {n : ClusterNode} {old table : ClusterTable}
      (hn : s.nodes.lookup addr = some n) (hr : n.Rebuilds cfg) (ho : n.store = some old)
      (ht : buildTable cfg n.view n.currentTable (n.signature + 1) = some table)
      (hlt : old.signature < table.signature) : Accepted cfg s (.tick addr) old (record n table)
  | pushed {i : ℕ} {again : Bool} {p : Push} {n : ClusterNode} {old : ClusterTable} {b : Build}
      (hp : s.wire[i]? = some p) (hn : s.nodes.lookup p.target = some n) (ho : n.store = some old)
      (hb : b ∈ s.builds) (hbt : b.table = p.table) (hlt : old.signature < p.table.signature) :
      Accepted cfg s (.deliver i again) old b

variable {ev : NetworkEvent} {old : ClusterTable}

theorem Accepted.made (hs : s.Honest cfg) {b : Build}
    (h : Accepted cfg s ev old b) : b.Made cfg := by
  cases h with
  | built hn hr ho ht => exact made_record hr ht
  | pushed hp hn ho hb => exact (hs.made _ hb).2

/-- A node stores `old` before the step and another table, `new`, after it. -/
def Replaces (cfg : CoordinatorConfig) (s : Network) (ev : NetworkEvent)
    (old new : ClusterTable) : Prop :=
  ∃ s' a n n', s.step cfg ev = some s' ∧ s.nodes.lookup a = some n ∧
    s'.nodes.lookup a = some n' ∧ n.store = some old ∧ n'.store = some new ∧ old ≠ new

theorem Accepted.replaces {b : Build}
    (h : Accepted cfg s ev old b) : Replaces cfg s ev old b.table := by
  have hne : ∀ {t t' : ClusterTable}, t.signature < t'.signature → t ≠ t' := by
    rintro t t' hlt rfl
    exact UInt64.lt_irrefl _ hlt
  cases h with
  | @built addr n old table hn hr ho ht hlt =>
    obtain ⟨table', ht', htick⟩ := tick_of_rebuilds hr
    obtain rfl : table' = table := Option.some.inj (ht'.symm.trans ht)
    refine ⟨s.tickAt cfg addr n, addr, n, (n.tick cfg).1, step_tick hn, hn, ?_, ho, ?_, hne hlt⟩
    · rw [lookup_tickAt, if_pos rfl]
    · rw [htick, ClusterNode.built, ho, RoutingTableStore.apply_accepted (by simpa using hlt)]
      rfl
  | @pushed i again p n old b hp hn ho hb hbt hlt =>
    have hacc : n.applyRoutingUpdate p.table = _ :=
      applyRoutingUpdate_accepted (by simpa [ho] using hlt)
    refine ⟨_, p.target, n, (n.applyRoutingUpdate p.table).2, by rw [step, hp, Option.map_some], hn,
      ?_, ho, ?_, ?_⟩
    · rw [lookup_receive, if_pos rfl]
      dsimp only
      rw [hn, Option.map_some]
    · rw [hacc, hbt]
      rfl
    · rw [hbt]
      exact hne hlt

theorem Replaces.accepted (hs : s.Honest cfg) {new : ClusterTable}
    (h : Replaces cfg s ev old new) : ∃ b, Accepted cfg s ev old b ∧ b.table = new := by
  obtain ⟨s', a, n, n', hstep, hn, hn', ho, hw, hne⟩ := h
  have hsame : n' ≠ n := by
    rintro rfl
    exact hne (Option.some.inj (ho.symm.trans hw))
  cases ev with dsimp only [Network.step] at hstep
  | bootstrap self view =>
    split_ifs at hstep
    rw [← Option.some.inj hstep] at hn'
    rcases of_lookup_setNode hn' with ⟨-, rfl⟩ | ⟨-, hm⟩
    · cases hw
    · exact absurd (Option.some.inj (hm.symm.trans hn)) hsame
  | crash addr =>
    rw [← Option.some.inj hstep] at hn'
    exact absurd (Option.some.inj ((HMap.lookup_of_erase hn').symm.trans hn)) hsame
  | view addr members =>
    obtain ⟨m, hm, rfl⟩ := Option.map_eq_some_iff.1 hstep
    rcases of_lookup_setNode hn' with ⟨rfl, rfl⟩ | ⟨-, hm⟩
    · obtain rfl : m = n := Option.some.inj (hm.symm.trans hn)
      exact absurd (Option.some.inj (ho.symm.trans hw)) hne
    · exact absurd (Option.some.inj (hm.symm.trans hn)) hsame
  | tick addr =>
    obtain ⟨m, hm, rfl⟩ := Option.map_eq_some_iff.1 hstep
    rw [lookup_tickAt] at hn'
    split_ifs at hn' with ha
    · obtain rfl : m = n := Option.some.inj (hm.symm.trans (ha ▸ hn))
      by_cases hr : m.Rebuilds cfg
      · obtain ⟨table, ht, htick⟩ := tick_of_rebuilds hr
        rw [htick, Option.some.injEq] at hn'
        rw [← hn', built, ho] at hw
        by_cases hlt : old.signature < table.signature
        · rw [RoutingTableStore.apply_accepted (by simpa using hlt), Option.some.injEq] at hw
          exact ⟨record m table, .built hm hr ho ht hlt, hw⟩
        · rw [RoutingTableStore.apply_stale (UInt64.not_lt.1 hlt), Option.some.injEq] at hw
          exact absurd hw hne
      · rw [tick_of_not_rebuilds hr, Option.some.injEq] at hn'
        exact absurd hn'.symm hsame
    · exact absurd (Option.some.inj (hn'.symm.trans hn)) hsame
  | deliver i again =>
    obtain ⟨p, hp, rfl⟩ := Option.map_eq_some_iff.1 hstep
    rw [lookup_receive] at hn'
    dsimp only at hn'
    split_ifs at hn' with ha
    · rw [hn, Option.map_some, Option.some.injEq] at hn'
      rcases n.applyRoutingUpdate_spec p.table with he | ⟨hlt, he⟩
      · exact absurd (hn'.symm.trans he) hsame
      obtain ⟨b, hb, hbt⟩ := hs.wired p (mem_of_getElem? hp)
      refine ⟨b, .pushed hp (ha ▸ hn) ho hb hbt (hlt old ho), ?_⟩
      rw [← hn', he] at hw
      rw [hbt]
      exact Option.some.inj hw
    · exact absurd (Option.some.inj (hn'.symm.trans hn)) hsame
  | lose i =>
    obtain ⟨p, hp, rfl⟩ := Option.map_eq_some_iff.1 hstep
    exact absurd (Option.some.inj (hn'.symm.trans hn)) hsame

/-- Every table that a node accepts in place of another keeps the earlier primaries reachable. -/
def HandsOver (cfg : CoordinatorConfig) (s : Network) (ev : NetworkEvent) : Prop :=
  ∀ old new, Replaces cfg s ev old new → Keeps old new

/-- Every table that is accepted was spliced with a last build that knows the owners of the table it
replaces. -/
def KnowsOwners (cfg : CoordinatorConfig) (s : Network) (ev : NetworkEvent) : Prop :=
  ∀ old b, Accepted cfg s ev old b → Carried b.previous old b.table

theorem handsOver_iff (hs : s.Honest cfg) (ev : NetworkEvent) :
    HandsOver cfg s ev ↔ KnowsOwners cfg s ev := by
  constructor
  · intro h old b hb
    exact (keeps_iff_carried (hb.made hs) old).1 (h old b.table hb.replaces)
  · intro h old new hr
    obtain ⟨b, hb, rfl⟩ := hr.accepted hs
    exact (keeps_iff_carried (hb.made hs) old).2 (h old b hb)

/-- In every run, each accepted table keeps the earlier primaries reachable exactly when the last
build of each table's coordinator knew the owners of the table it replaces. -/
theorem handsOver_iff_knowsOwners (evs : List NetworkEvent) :
    Guarded (step cfg) (HandsOver cfg) empty evs ↔
      Guarded (step cfg) (KnowsOwners cfg) empty evs := by
  refine Guarded.congr (Honest cfg) (fun _ _ _ hs _ h => hs.step h)
    (fun _ ev hs _ => handsOver_iff hs ev) honest_empty (Guarded.of_forall (fun _ _ => trivial) _ _)

section Sample

def coordinators (s : Network) : List SocketAddr :=
  (s.nodes.entries.filter fun e => e.2.isCoord).map (·.1)

/-- Three members, the oldest of which builds the first table and crashes. -/
def failover : List NetworkEvent :=
  let c := sampleMember 9 "c" 1
  let a := sampleMember 3 "a" 2
  let b := sampleMember 2 "b" 3
  [.bootstrap c [c], .bootstrap a [c, a], .bootstrap b [c, a, b], .view "c" [c, a, b],
    .view "a" [c, a, b], .tick "c", .deliver 0 false, .deliver 0 false, .crash "c",
    .view "a" [a, b], .view "b" [a, b]]

/-- The next-oldest node's first build moves partition 1 from itself to `b` and lists only `b`. -/
theorem owner_dropped :
    Guarded (step sampleCoordinator) (fun s _ => s.coordinators.length ≤ 1) empty
        (failover ++ [.tick "a"]) ∧
      ¬ Guarded (step sampleCoordinator) (HandsOver sampleCoordinator) empty
        (failover ++ [.tick "a"]) := by
  refine ⟨by decide +kernel, fun hg => ?_⟩
  have hrun : ((exec (step sampleCoordinator) empty failover).bind fun s =>
      (s.nodes.lookup "a").bind fun n => n.store.bind fun old =>
        (buildTable sampleCoordinator n.view n.currentTable (n.signature + 1)).map fun new =>
          (decide (n.Rebuilds sampleCoordinator ∧ old.signature < new.signature),
            old.primaryFor 1, new.ownersFor 1, liveIds new.members)) =
      some (true, some (sampleMember 3 "a" 2), [sampleMember 2 "b" 3], [3, 2]) := by
    decide +kernel
  obtain ⟨s, hs, h⟩ := Option.bind_eq_some_iff.1 hrun
  obtain ⟨n, hn, h⟩ := Option.bind_eq_some_iff.1 h
  obtain ⟨old, ho, h⟩ := Option.bind_eq_some_iff.1 h
  obtain ⟨new, ht, h⟩ := Option.map_eq_some_iff.1 h
  simp only [Prod.mk.injEq, decide_eq_true_eq] at h
  obtain ⟨⟨hr, hlt⟩, hA, hB, hlive⟩ := h
  have hacc : Accepted sampleCoordinator s (.tick "a") old (record n new) :=
    .built hn hr ho ht hlt
  have hmoves : Moves old new 1 (sampleMember 3 "a" 2) (sampleMember 2 "b" 3) :=
    ⟨hA, by rw [primaryFor, ← ownersFor, hB]; rfl, by decide, by rw [hlive]; decide⟩
  have hkept := ((hg.after hs).1 old new hacc.replaces 1 _ _ hmoves).2
  rw [hB] at hkept
  exact absurd hkept (by decide)

end Sample

end Network

end Handover

end Kamino
