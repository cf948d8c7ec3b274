import Kamino.Proofs.Delete
import Kamino.Proofs.Handover
import Kamino.Proofs.Reads
import Kamino.Rebalance

/-!
# Deletes while the cluster rebalances

A delete leaves no trace, so any copy of the key that it did not reach can come back: a previous
owner's, which a later `DM.GET` asks for and its balancer sends, a backup's, or one that is on its
way.
-/

namespace Kamino

open Function Runs Option List Asked Node

section Copies

variable (cfg : RebalanceConfig)

def RebalanceConfig.hkey : UInt64 := cfg.env.hash64 cfg.key

def RebalanceConfig.OfKey (dmap key : Bytes) : Prop :=
  dmap = cfg.dmap ∧ cfg.env.hash64 key = cfg.hkey

/-- A fragment with an entry for the slot. One that is too long for a connection has none. -/
def RebalanceConfig.InFragment (plan : MigrationPlan) (payload : Bytes) : Prop :=
  plan.dmap = cfg.dmap ∧ payload.length ≤ defaultMaxBulkSize ∧ ∃ part es,
    decodeFragmentPayload payload = .ok (part, es) ∧ ∃ e ∈ es, cfg.env.hash64 e.key = cfg.hkey

def Parcel.Carries : Parcel → Prop
  | .fragment _ plan payload => cfg.InFragment plan payload
  | .put _ dmap key _ _ => cfg.OfKey dmap key
  | .touch _ dmap key _ => cfg.OfKey dmap key

/-- A read's write is of an entry under the hash it was read from. -/
def Parcel.Fits (env : Env) : Parcel → Prop
  | .touch _ _ key entry => env.hash64 entry.key = env.hash64 key
  | _ => True

end Copies

namespace DelStage

/-- The key has been deleted on the node the delete came to. -/
def Deleted : DelStage → Prop
  | .idle | .answered (.error _) => False
  | .asking .. | .answered _ => True

def left : DelStage → List SocketAddr
  | .asking _ _ asked => asked.pending
  | _ => []

def Asking (stage : DelStage) : Prop := ∃ deleted writeQuorum asked,
  stage = .asking deleted writeQuorum asked

theorem asking_of_left {stage : DelStage} (h : ¬ stage.Asking) : stage.left = [] := by
  cases stage with
  | asking deleted writeQuorum asked => exact absurd ⟨_, _, _, rfl⟩ h
  | _ => rfl

end DelStage

def RebalanceEvent.OfDelete : RebalanceEvent → Prop
  | .del | .delPeer .. | .delAnswer => True
  | _ => False

namespace Rebalance

variable {cfg : RebalanceConfig} {s s' : Rebalance} {D : Prop} {left : List SocketAddr}

/-- Once the delete is under way (`D`), the only copies of the key are on the nodes in `left`, and
no `DM.GET` that started after its answer has heard of one. -/
structure Clean (cfg : RebalanceConfig) (D : Prop) (left : List SocketAddr) (s : Rebalance) :
    Prop where
  kept : ∀ a, (s.nodes a).Kept cfg.env
  fits : ∀ p ∈ s.parcels, p.Fits cfg.env
  nodes : D → ∀ a ∉ left, (s.nodes a).slot cfg.dmap cfg.hkey = none
  parcels : D → ∀ p ∈ s.parcels, ¬ p.Carries cfg
  exports : D → ∀ a plan payload, s.migrations a = some ⟨plan, .exported payload⟩ →
    ¬ cfg.InFragment plan payload
  repairs : D → cfg.settings.readRepair = true → ∀ g ∈ s.gets, cfg.OfKey g.dmap g.key →
    g.stage.Silent ∨ ∃ reply, g.stage = .done reply
  later : ∀ g ∈ s.gets, g.later = true →
    D ∧ g.node = cfg.self ∧ cfg.OfKey g.dmap g.key ∧ g.stage.Silent

variable {gets : List GetCall}

namespace Clean

variable (h : s.Clean cfg D left)
include h

theorem setNode {a : SocketAddr} {n : Node}
    {W : Bytes → UInt64 → Prop} (hadd : (s.nodes a).Adds cfg.env W n)
    (hw : D → ¬ W cfg.dmap cfg.hkey) : (s.setNode a n).Clean cfg D left := by
  refine ⟨fun b => ?_, h.fits, fun hD b hb => ?_, h.parcels, h.exports, h.repairs, h.later⟩
  · by_cases hba : b = a
    · subst hba
      simpa only [Rebalance.setNode, update_self] using hadd.kept (h.kept b)
    · simpa only [Rebalance.setNode, update_of_ne hba] using h.kept b
  by_cases hba : b = a
  · subst hba
    simpa only [Rebalance.setNode, update_self] using hadd.slot_none (hw hD) (h.nodes hD b hb)
  · simpa only [Rebalance.setNode, update_of_ne hba] using h.nodes hD b hb

theorem addParcels {ps : List Parcel} (hfits : ∀ p ∈ ps, p.Fits cfg.env)
    (hps : D → ∀ p ∈ ps, ¬ p.Carries cfg) : (s.addParcels ps).Clean cfg D left := by
  refine ⟨h.kept, fun p hp => ?_, h.nodes, fun hD p hp => ?_, h.exports, h.repairs, h.later⟩
  · rcases mem_append.1 hp with hp | hp
    · exact h.fits p hp
    · exact hfits p hp
  · rcases mem_append.1 hp with hp | hp
    · exact h.parcels hD p hp
    · exact hps hD p hp

theorem eraseParcel (i : ℕ) : { s with parcels := s.parcels.eraseIdx i }.Clean cfg D left :=
  ⟨h.kept, fun p hp => h.fits p (mem_of_mem_eraseIdx hp), h.nodes,
    fun hD p hp => h.parcels hD p (mem_of_mem_eraseIdx hp), h.exports, h.repairs, h.later⟩

theorem setMigration (a : SocketAddr) {m : Option Migration}
    (hm : D → ∀ plan payload, m = some ⟨plan, .exported payload⟩ →
      ¬ cfg.InFragment plan payload) : (s.setMigration a m).Clean cfg D left := by
  refine ⟨h.kept, h.fits, h.nodes, h.parcels, fun hD b plan payload hb => ?_, h.repairs, h.later⟩
  by_cases hba : b = a
  · subst hba
    exact hm hD plan payload (by simpa only [Rebalance.setMigration, update_self] using hb)
  · exact h.exports hD b plan payload
      (by simpa only [Rebalance.setMigration, update_of_ne hba] using hb)

theorem setGets (hgets : ∀ g ∈ gets, g ∈ s.gets ∨
      (D → cfg.settings.readRepair = true → cfg.OfKey g.dmap g.key →
        g.stage.Silent ∨ ∃ reply, g.stage = .done reply) ∧
      (g.later = true → D ∧ g.node = cfg.self ∧ cfg.OfKey g.dmap g.key ∧ g.stage.Silent)) :
    { s with gets }.Clean cfg D left := by
  refine ⟨h.kept, h.fits, h.nodes, h.parcels, h.exports, fun hD hr g hg hk => ?_, fun g hg hl => ?_⟩
  · rcases hgets g hg with hold | ⟨hrep, -⟩
    · exact h.repairs hD hr g hold hk
    · exact hrep hD hr hk
  · rcases hgets g hg with hold | ⟨-, hlater⟩
    · exact h.later g hold hl
    · exact hlater hl

end Clean

variable {ev : RebalanceEvent} {call : GetCall} {r : Routing}

section Steps

variable {a : SocketAddr} {dmap key : Bytes} {now : UInt64}
  {result : Except Frame (Option Entry)}

theorem fetchAt_spec (hf : s.fetchAt cfg a dmap key now = (result, s')) :
    ∃ n ps, s' = (s.setNode a n).addParcels ps ∧ (s.nodes a).Adds cfg.env (fun _ _ => False) n ∧
      (∀ p ∈ ps, ∃ entry, p = .touch a dmap key entry ∧ result = .ok (some entry)) ∧
      (∀ entry, result = .ok (some entry) →
        (s.nodes a).slot dmap (cfg.env.hash64 key) = some entry) ∧
      (utf8Error dmap 0 = none → utf8Error key 0 = none → ∃ entry, result = .ok entry) := by
  have hutf : utf8Error dmap 0 = none → utf8Error key 0 = none →
      ∃ entry n, (s.nodes a).fetch cfg.env dmap key now = (.ok entry, n) :=
    fun hd hk => fetch_of_utf8 hd hk
  unfold fetchAt at hf
  split at hf <;> rename_i h <;> obtain ⟨rfl, rfl⟩ := Prod.mk.inj hf <;> rw [h] at hutf <;>
    obtain ⟨hadd, hslot⟩ := fetch_spec h
  · exact ⟨_, _, rfl, hadd, by simp, hslot, fun _ _ => ⟨_, rfl⟩⟩
  · refine ⟨_, [], by simp [addParcels, setNode], hadd, by simp, hslot, fun hd hk => ?_⟩
    obtain ⟨entry, n, he⟩ := hutf hd hk
    exact ⟨entry, (Prod.mk.inj he).1⟩

section

variable (h : s.Clean cfg D left)
include h

theorem Clean.fetchAt (hsrc : D → cfg.OfKey dmap key → (s.nodes a).slot cfg.dmap cfg.hkey = none)
    (hf : s.fetchAt cfg a dmap key now = (result, s')) : s'.Clean cfg D left := by
  obtain ⟨n, ps, rfl, hadd, hps, hslot, -⟩ := fetchAt_spec hf
  refine (h.setNode hadd fun _ => id).addParcels (fun p hp => ?_) fun hD p hp hc => ?_
  · obtain ⟨entry, rfl, he⟩ := hps p hp
    exact (h.kept a _ _ _ (hslot entry he)).1
  obtain ⟨entry, rfl, he⟩ := hps p hp
  have hnone := hsrc hD hc
  rw [← hc.1, ← hc.2, hslot entry he] at hnone
  cases hnone

theorem Clean.hearReply (source : SocketAddr) (plan : MigrationPlan) (payload : Bytes)
    (reply : Frame) : (s.hearReply cfg source plan payload reply).Clean cfg D left := by
  unfold Rebalance.hearReply
  split
  · split_ifs
    · refine h.setMigration source fun _ plan' payload' heq => ?_
      split at heq <;> cases heq
    · exact h
  · exact h

theorem Clean.land {p : Parcel} (hfits : p.Fits cfg.env) (hp : D → ¬ p.Carries cfg) (heard : Bool)
    (clk : ℕ → UInt64) : (s.land cfg heard clk p).Clean cfg D left := by
  cases p with
  | fragment source plan payload =>
    have hset : (s.setNode plan.peer ((s.nodes plan.peer).receiveFragment cfg.env
        (s.routings plan.peer) plan.partitionId .primary plan.dmap payload).2).Clean
          cfg D left := by
      refine h.setNode (adds_receiveFragment _ _ _ _ _ _ _) fun hD hw => hp hD ?_
      obtain ⟨hd, hlen, es, hdec, hes⟩ := hw
      exact ⟨hd.symm, hlen, _, es, hdec, hes⟩
    unfold Rebalance.land
    dsimp only
    split_ifs
    · exact hset.hearReply _ _ _ _
    · exact hset
  | put target dmap key value o =>
    exact h.setNode (adds_dmPutPeer _ _ clk dmap key value o)
      fun hD hw => hp hD ⟨hw.1.symm, hw.2.symm⟩
  | touch a dmap key entry =>
    exact h.setNode (adds_touch _ hfits dmap (clk 0)) fun hD hw => hp hD ⟨hw.1.symm, hw.2.symm⟩

theorem exportStep_without {plan : MigrationPlan} {payload : Bytes}
    (hnone : plan.dmap = cfg.dmap → (s.nodes a).slot cfg.dmap cfg.hkey = none)
    (hexp : (s.handover a ⟨plan, .idle⟩).exportStep (s.handoverConfig cfg plan) now =
      .exported payload) : ¬ cfg.InFragment plan payload := by
  rintro ⟨hd, hlen, part, es, hdec, e, he, hhash⟩
  obtain ⟨payload', es', hrun, hes, -, hdec'⟩ := exportPartition_spec (h.kept a)
    cfg.partitionCount plan.dmap plan.partitionId now
  unfold Handover.exportStep handover handoverConfig at hexp
  dsimp only at hexp
  rw [hrun] at hexp
  dsimp only at hexp
  split_ifs at hexp
  obtain rfl := MigrateStage.exported.inj hexp
  rw [hdec' hlen] at hdec
  obtain ⟨-, rfl⟩ := Prod.mk.inj (Except.ok.inj hdec)
  -- An exported entry is stored under its key's hash.
  obtain ⟨hk, hslot, -, -⟩ := (hes e).1 he
  obtain rfl : cfg.env.hash64 e.key = hk := (h.kept a _ hk e hslot).1
  rw [hd, hhash, hnone hd] at hslot
  cases hslot

end

theorem read_of_none {entry : Option Entry} (hslot : ∀ entry, result = .ok (some entry) →
      (s.nodes a).slot dmap (cfg.env.hash64 key) = some entry)
    (hk : cfg.OfKey dmap key) (hnone : (s.nodes a).slot cfg.dmap cfg.hkey = none)
    (he : result = .ok entry) : entry = none := by
  rcases entry with _ | entry
  · rfl
  · rw [← hk.1, ← hk.2, hslot entry he] at hnone
    cases hnone

section

variable (h : s.Clean cfg D left)
include h

theorem Clean.getStart
    (hlater : s.isLater cfg a dmap key = true → D ∧ a = cfg.self ∧ cfg.OfKey dmap key ∧
      utf8Error dmap 0 = none ∧ utf8Error key 0 = none)
    (hsrc : D → cfg.OfKey dmap key → (s.nodes a).slot cfg.dmap cfg.hkey = none) :
    (s.getStart cfg a dmap key now).Clean cfg D left := by
  unfold Rebalance.getStart
  rcases hf : s.fetchAt cfg a dmap key now with ⟨result, s₁⟩
  have hclean := h.fetchAt hsrc hf
  obtain ⟨n, ps, rfl, -, -, hslot, hutf⟩ := fetchAt_spec hf
  refine hclean.setGets fun g hg => ?_
  rcases mem_append.1 hg with hg | hg
  · exact .inl hg
  obtain rfl := mem_singleton.1 hg
  refine .inr ⟨fun hD _ hk => ?_, fun hl => ?_⟩
  · rcases result with f | entry
    · exact .inr ⟨f, rfl⟩
    · obtain rfl := read_of_none hslot hk (hsrc hD hk) rfl
      exact .inl (GetStage.silent_afterLocal _)
  obtain ⟨hD, hself, hk, hd, hkey⟩ := hlater hl
  obtain ⟨entry, rfl⟩ := hutf hd hkey
  obtain rfl := read_of_none hslot hk (hsrc hD hk) rfl
  exact ⟨hD, hself, hk, GetStage.silent_afterLocal _⟩

theorem Clean.askPeer {delivery : Delivery} {reply : Read}
    (hsrc : D → cfg.OfKey dmap key → (s.nodes a).slot cfg.dmap cfg.hkey = none)
    (ha : s.askPeer cfg a dmap key delivery now = (reply, s')) :
    s'.Clean cfg D left ∧ s'.gets = s.gets ∧ (D → cfg.OfKey dmap key → reply = none) := by
  unfold Rebalance.askPeer at ha
  rcases hf : s.fetchAt cfg a dmap key now with ⟨result, s₁⟩
  have hclean := h.fetchAt hsrc hf
  obtain ⟨n, ps, rfl, -, -, hslot, -⟩ := fetchAt_spec hf
  rw [hf] at ha
  rcases delivery with _ | ⟨_ | _, e⟩ <;> obtain ⟨rfl, rfl⟩ := Prod.mk.inj ha
  · refine ⟨hclean, rfl, fun hD hk => ?_⟩
    rcases result with f | entry
    · rfl
    · obtain rfl := read_of_none hslot hk (hsrc hD hk) rfl
      rfl
  · exact ⟨h, rfl, fun _ _ => rfl⟩
  · exact ⟨hclean, rfl, fun _ _ => rfl⟩

theorem Clean.getPeer {g i : ℕ} {delivery : Delivery} {reply : Read} (hg : s.gets[g]? = some call)
    (hsrc : D → cfg.OfKey call.dmap call.key → (s.nodes a).slot cfg.dmap cfg.hkey = none)
    (ha : s.askPeer cfg a call.dmap call.key delivery now = (reply, s')) :
    { s' with gets := s'.gets.set g { call with stage := call.stage.answer i reply } }.Clean
      cfg D left := by
  obtain ⟨hclean, hgets, hreply⟩ := h.askPeer hsrc ha
  refine hclean.setGets fun g' hg' => ?_
  rcases mem_or_eq_of_mem_set hg' with hg' | rfl
  · exact .inl hg'
  have hmem := mem_of_getElem? hg
  refine .inr ⟨fun hD hr hk => ?_, fun hl => ?_⟩
  · rw [hreply hD hk]
    rcases h.repairs hD hr call hmem hk with hs | ⟨f, hs⟩
    · exact .inl (hs.answer i)
    · exact .inr ⟨f, by simp [hs, GetStage.answer]⟩
  · obtain ⟨hD, hself, hk, hs⟩ := h.later call hmem hl
    rw [hreply hD hk]
    exact ⟨hD, hself, hk, hs.answer i⟩

theorem Clean.getNext {g : ℕ} {stage : GetStage} {fix : Option Repair} (hg : s.gets[g]? = some call)
    (hn : call.stage.next cfg.env cfg.settings call.dmap call.key r = some (stage, fix)) :
    ({ s with gets := s.gets.set g { call with stage } }.repair call fix).Clean cfg D left := by
  have hmem := mem_of_getElem? hg
  -- A call for the key that repairs has heard nothing, so it has nothing to repair with.
  have hsilent : D → cfg.settings.readRepair = true → cfg.OfKey call.dmap call.key →
      stage.Silent ∧ fix = none := by
    intro hD hr hk
    rcases h.repairs hD hr call hmem hk with hs | ⟨f, hs⟩
    · exact hs.next hn
    · rw [hs] at hn
      cases hn
  have hclean : { s with gets := s.gets.set g { call with stage } }.Clean cfg D left := by
    refine h.setGets fun g' hg' => ?_
    rcases mem_or_eq_of_mem_set hg' with hg' | rfl
    · exact .inl hg'
    refine .inr ⟨fun hD hr hk => .inl (hsilent hD hr hk).1, fun hl => ?_⟩
    obtain ⟨hD, hself, hk, hs⟩ := h.later call hmem hl
    exact ⟨hD, hself, hk, (hs.next hn).1⟩
  rcases fix with _ | fix
  · exact hclean
  have hnode : (s.nodes call.node).Adds cfg.env (fun _ _ => False)
      { s.nodes call.node with lastTs := max (s.nodes call.node).lastTs fix.timestamp } :=
    fun _ _ _ he => .inl he
  refine (hclean.setNode hnode fun _ => id).addParcels (fun p hp => ?_) fun hD p hp hc => ?_
  · obtain ⟨peer, -, rfl⟩ := mem_map.1 hp
    trivial
  · obtain ⟨peer, -, rfl⟩ := mem_map.1 hp
    cases (hsilent hD (GetStage.repair_of_next hn) hc).2

end

/-- The step neither writes the key nor takes a copy of it from a node. -/
def Untouched (cfg : RebalanceConfig) (s : Rebalance) : RebalanceEvent → Prop
  | .write a op => ¬ op.Into cfg.env (s.nodes a) cfg.dmap cfg.hkey
  | .read a dmap key _ | .get a dmap key _ =>
    cfg.OfKey dmap key → (s.nodes a).slot cfg.dmap cfg.hkey = none
  | .getPeer g i _ _ => ∀ call ∈ s.gets[g]?, ∀ p ∈ call.stage.asked[i]?,
    cfg.OfKey call.dmap call.key → (s.nodes p.1).slot cfg.dmap cfg.hkey = none
  | .exportScan a plan _ => plan.dmap = cfg.dmap → (s.nodes a).slot cfg.dmap cfg.hkey = none
  | _ => True

theorem replicas_into {op : NodeOp} {p : Parcel} (hp : p ∈ s.replicas cfg a op) :
    p.Fits cfg.env ∧ (p.Carries cfg → op.Into cfg.env (s.nodes a) cfg.dmap cfg.hkey) := by
  unfold replicas at hp
  split at hp
  · rename_i rd dmap key value o
    split at hp
    · rename_i o' n r hc hr
      obtain ⟨target, -, rfl⟩ := mem_map.1 hp
      exact ⟨trivial, fun hk => ⟨hk.1.symm, hk.2.symm, o', by rw [hc]⟩⟩
    · cases hp
  · cases hp

/-- No step but the delete's own brings a copy of the key back. -/
theorem Clean.step (h : s.Clean cfg D left)
    (hlater : ∀ a dmap key, s.isLater cfg a dmap key = true → D ∧ a = cfg.self ∧
      cfg.OfKey dmap key ∧ utf8Error dmap 0 = none ∧ utf8Error key 0 = none)
    (hu : D → s.Untouched cfg ev) (hs : s.step cfg ev = some s')
    (hdel : ¬ ev.OfDelete) :
    s'.Clean cfg D left := by
  unfold Rebalance.step at hs
  cases ev with dsimp only at hs
  | write a op =>
    split_ifs at hs
    obtain rfl := some.inj hs
    refine (h.setNode (adds_apply (h.kept a) op) hu).addParcels (fun p hp => ?_)
      fun hD p hp hc => hu hD ((replicas_into hp).2 hc)
    exact (replicas_into hp).1
  | delete a dmap keys =>
    obtain rfl := some.inj hs
    exact h.setNode (adds_dmDelLocal _ _ dmap keys) fun _ => id
  | read a dmap key now =>
    obtain rfl := some.inj hs
    exact h.fetchAt hu rfl
  | deliver i heard clk =>
    obtain ⟨p, hp, rfl⟩ := map_eq_some_iff.1 hs
    have hmem := mem_of_getElem? hp
    exact (h.eraseParcel i).land (h.fits p hmem) (fun hD => h.parcels hD p hmem) heard clk
  | lose i =>
    obtain rfl := some.inj hs
    exact h.eraseParcel i
  | reroute a table =>
    obtain rfl := some.inj hs
    exact ⟨h.kept, h.fits, h.nodes, h.parcels, h.exports, h.repairs, h.later⟩
  | exportScan a plan now =>
    split at hs <;> cases hs
    refine h.setMigration a fun hD plan' payload heq => ?_
    obtain ⟨rfl, hexp⟩ := Migration.mk.inj (some.inj heq)
    exact exportStep_without h (hu hD) hexp
  | send a =>
    split at hs <;> cases hs
    rename_i plan payload hm
    refine h.addParcels (by simp [Parcel.Fits]) fun hD p hp => ?_
    obtain rfl := mem_singleton.1 hp
    exact h.exports hD a plan payload hm
  | giveUp a e | again a =>
    split at hs <;> cases hs
    exact h.setMigration a fun _ _ _ heq => nomatch heq
  | clearScan a =>
    split at hs <;> cases hs
    refine h.setMigration a fun _ _ _ heq => ?_
    obtain ⟨-, heq⟩ := Migration.mk.inj (some.inj heq)
    unfold Handover.scanStep at heq
    split at heq <;> cases heq
  | clearDelete a =>
    split at hs <;> cases hs
    · exact h.setMigration a fun _ _ _ heq => nomatch heq
    rename_i plan hk victims _
    refine (h.setNode (W := fun _ _ => False) (fun dmap hkey e he => .inl ?_)
      fun _ => id).setMigration a fun _ _ _ heq => nomatch heq
    rw [Handover.slot_deleteStep] at he
    split_ifs at he
    exact he
  | get a dmap key now =>
    obtain rfl := some.inj hs
    exact h.getStart (hlater a dmap key) hu
  | getPeer g i delivery now =>
    split at hs
    · cases hs
    rename_i call hg
    split at hs <;> cases hs
    rename_i addr hi
    exact h.getPeer hg (fun hD => hu hD call hg _ hi) rfl
  | getNext g =>
    split at hs
    · cases hs
    rename_i call hg
    split at hs
    · cases hs
    rename_i r hr
    obtain ⟨⟨stage, fix⟩, hn, rfl⟩ := map_eq_some_iff.1 hs
    exact h.getNext hg hn
  | del | delPeer i link | delAnswer => exact absurd trivial hdel

end Steps

section Delete

variable {a : SocketAddr} {dmap key : Bytes} {now : UInt64}

/-- The delete and the routing table are no business of the other steps. -/
def SameDelete (s s' : Rebalance) : Prop := s'.delStage = s.delStage ∧ s'.routings = s.routings

theorem sameDelete_fetchAt (cfg : RebalanceConfig) (s : Rebalance) :
    s.SameDelete (s.fetchAt cfg a dmap key now).2 := by
  unfold fetchAt
  split <;> exact ⟨rfl, rfl⟩

theorem sameDelete_land (p : Parcel) (heard : Bool) (clk : ℕ → UInt64) :
    s.SameDelete (s.land cfg heard clk p) := by
  unfold land
  split
  · dsimp only
    unfold hearReply
    repeat' split
    all_goals exact ⟨rfl, rfl⟩
  · exact ⟨rfl, rfl⟩
  · exact ⟨rfl, rfl⟩

theorem sameDelete_askPeer (cfg : RebalanceConfig) (s : Rebalance) (delivery : Delivery) :
    s.SameDelete (s.askPeer cfg a dmap key delivery now).2 := by
  unfold askPeer
  rcases delivery with _ | ⟨_ | _, e⟩
  · exact sameDelete_fetchAt cfg s
  · exact ⟨rfl, rfl⟩
  · exact sameDelete_fetchAt cfg s

theorem sameDelete_repair (call : GetCall) (fix : Option Repair) :
    s.SameDelete (s.repair call fix) := by
  cases fix <;> exact ⟨rfl, rfl⟩

theorem step_delStage (hs : s.step cfg ev = some s') (hdel : ¬ ev.OfDelete) :
    s'.delStage = s.delStage ∧ ∀ a, (s'.routings a).isSome = (s.routings a).isSome := by
  have hsame : ∀ {s''}, s.SameDelete s'' →
      s''.delStage = s.delStage ∧ ∀ a, (s''.routings a).isSome = (s.routings a).isSome :=
    fun h => ⟨h.1, fun a => by rw [h.2]⟩
  unfold step at hs
  cases ev with dsimp only at hs
  | write a op =>
    split_ifs at hs
    obtain rfl := some.inj hs
    exact hsame ⟨rfl, rfl⟩
  | delete a dmap keys | lose i =>
    obtain rfl := some.inj hs
    exact hsame ⟨rfl, rfl⟩
  | read a dmap key now | get a dmap key now =>
    obtain rfl := some.inj hs
    exact hsame (sameDelete_fetchAt cfg s)
  | deliver i heard clk =>
    obtain ⟨p, -, rfl⟩ := map_eq_some_iff.1 hs
    exact hsame (sameDelete_land p heard clk)
  | reroute a table =>
    obtain rfl := some.inj hs
    refine ⟨rfl, fun b => ?_⟩
    by_cases hb : b = a
    · subst hb
      simp
    · simp [update_of_ne hb]
  | exportScan a plan now | send a | giveUp a e | clearScan a | clearDelete a | again a =>
    split at hs <;> cases hs <;> exact hsame ⟨rfl, rfl⟩
  | getPeer g i delivery now =>
    repeat' split at hs
    all_goals cases hs
    exact hsame (sameDelete_askPeer cfg s delivery)
  | getNext g =>
    split at hs
    · cases hs
    split at hs
    · cases hs
    obtain ⟨⟨stage, fix⟩, -, rfl⟩ := map_eq_some_iff.1 hs
    exact hsame (sameDelete_repair (s := { s with gets := _ }) _ fix)
  | del | delPeer i link | delAnswer => exact absurd trivial hdel

end Delete

section Invariant

structure Inv (cfg : RebalanceConfig) (s : Rebalance) : Prop where
  clean : s.Clean cfg s.delStage.Deleted s.delStage.left
  utf8 : s.delStage.Deleted → utf8Error cfg.dmap 0 = none ∧ utf8Error cfg.key 0 = none
  routed : s.delStage.Deleted → (s.routings cfg.self).isSome

/-- When the delete starts, it goes to every copy of the key, and none is on its way; it arrives at
every backup; until it has, no copy is taken from one; and no write of the key is accepted after
it. -/
def NoOtherCopy (cfg : RebalanceConfig) (s : Rebalance) : RebalanceEvent → Prop
  | .del =>
    (∀ r ∈ s.routings cfg.self, ∀ a ≠ cfg.self, (s.nodes a).slot cfg.dmap cfg.hkey ≠ none →
      1 < r.replicaCount ∧ a ∈ r.backupAddrsForKey cfg.env cfg.dmap cfg.key) ∧
    (∀ p ∈ s.parcels, ¬ p.Carries cfg) ∧
    (∀ a plan payload, s.migrations a = some ⟨plan, .exported payload⟩ →
      ¬ cfg.InFragment plan payload) ∧
    (cfg.settings.readRepair = true → ∀ g ∈ s.gets, cfg.OfKey g.dmap g.key →
      g.stage.Silent ∨ ∃ reply, g.stage = .done reply)
  | .delPeer _ link => link.arrives = true
  | .write a op => s.delStage.Deleted → ¬ op.Into cfg.env (s.nodes a) cfg.dmap cfg.hkey
  | ev => s.delStage.Asking → s.Untouched cfg ev

variable {deleted : ℤ}

theorem slot_deleted {n n' : Node} {env : Env} {dmap key : Bytes}
    (h : n.dmDelLocalCount env dmap [key] = (.ok deleted, n')) :
    n'.slot dmap (env.hash64 key) = none := by
  obtain ⟨hd, hk⟩ := utf8_of_dmDelLocalCount h
  obtain ⟨m, n₁, hrun, -, hgone, -⟩ := dmDelLocalCount_of_utf8 env n hd hk
  rw [h] at hrun
  obtain ⟨-, rfl⟩ := Prod.mk.inj hrun
  exact hgone key (mem_singleton_self _)

variable (h : s.Inv cfg)
include h

theorem delStart_inv (hidle : s.delStage = .idle) (hr : s.routings cfg.self = some r)
    (hg : s.NoOtherCopy cfg .del) : (s.delStart cfg r).Inv cfg := by
  have hclean := h.clean
  rw [hidle] at hclean
  have hearly : ∀ g ∈ s.gets, g.later = false := by
    intro g hg
    by_contra hl
    exact (hclean.later g hg (by simpa using hl)).1
  have hadd := adds_dmDelLocalCount cfg.env (s.nodes cfg.self) cfg.dmap [cfg.key]
  unfold delStart
  rcases hdel : (s.nodes cfg.self).dmDelLocalCount cfg.env cfg.dmap [cfg.key] with ⟨f | deleted, n⟩
  · obtain ⟨e, rfl⟩ := dmDelLocalCount_error hdel
    rw [hdel] at hadd
    have hset := hclean.setNode hadd fun _ => id
    exact ⟨⟨hset.kept, hset.fits, hset.nodes, hset.parcels, hset.exports, hset.repairs, hset.later⟩,
      False.elim, False.elim⟩
  obtain ⟨hcopies, hparcels, hexports, hgets⟩ := hg
  rw [hdel] at hadd
  have hset := hclean.setNode hadd fun _ => id
  obtain ⟨hd, hk⟩ := utf8_of_dmDelLocalCount hdel
  dsimp only
  generalize hb : (if r.replicaCount ≤ 1 then [] else
    r.backupAddrsForKey cfg.env cfg.dmap cfg.key) = backups
  have hleft : (if backups = [] then DelStage.answered (.integer deleted) else
      .asking deleted (max r.writeQuorum 1) (.start backups)).left = backups := by
    split_ifs with hnil
    · exact hnil.symm
    · exact pending_start backups
  refine ⟨⟨hset.kept, hset.fits, fun _ a ha => ?_, fun _ => hparcels, fun _ => hexports,
    fun _ => hgets, fun g hg hl => ?_⟩, fun _ => ⟨hd, hk _ (mem_singleton_self _)⟩,
    fun _ => by simp [setNode, hr]⟩
  · dsimp only at ha
    rw [hleft] at ha
    by_cases hself : a = cfg.self
    · subst hself
      simpa only [setNode, update_self, RebalanceConfig.hkey] using slot_deleted hdel
    simp only [setNode, update_of_ne hself]
    by_contra hcopy
    obtain ⟨hcount, hmem⟩ := hcopies r hr a hself hcopy
    rw [← hb, if_neg (by omega)] at ha
    exact ha hmem
  · rw [hearly g hg] at hl
    cases hl

variable {asked : Asked (Except ClusterError Frame)}

theorem delPeer_inv {writeQuorum i : ℕ} {link : Link} {addr : SocketAddr}
    (hst : s.delStage = .asking deleted writeQuorum asked) (hi : asked[i]? = some (addr, none))
    (hl : link.arrives = true) {reply : Except ClusterError Frame} {nodes : Cluster}
    (hf : forwardCommand cfg.env s.nodes link addr (.dmDel cfg.dmap [cfg.key]) = (reply, nodes)) :
    { s with nodes, delStage := .asking deleted writeQuorum (asked.answer i reply) }.Inv cfg := by
  have hclean := h.clean
  rw [hst] at hclean
  have hD : s.delStage.Deleted := by rw [hst]; trivial
  obtain ⟨hd, hk⟩ := h.utf8 hD
  have hkeys : ∀ k ∈ [cfg.key], utf8Error k 0 = none := by simpa using hk
  obtain ⟨m, n, hrun, -, hgone, -⟩ :=
    dmDelLocalCount_of_utf8 cfg.env (s.nodes addr) hd hkeys
  have hadd := adds_dmDelLocalCount cfg.env (s.nodes addr) cfg.dmap [cfg.key]
  rw [hrun] at hadd
  have hset := hclean.setNode hadd fun _ => id
  obtain rfl : nodes = update s.nodes addr n := by
    unfold forwardCommand peerDispatch dmDelLocal at hf
    dsimp only at hf
    rw [if_neg (by simp), hrun] at hf
    unfold Link.arrives at hl
    rcases hdel : link.delivery with _ | ⟨_ | _, e⟩ <;> rw [hdel] at hf hl
    · exact (Prod.mk.inj hf).2.symm
    · cases hl
    · exact (Prod.mk.inj hf).2.symm
  refine ⟨⟨hset.kept, hset.fits, fun _ a ha => ?_, hset.parcels, hset.exports, hset.repairs,
    hset.later⟩, fun _ => ⟨hd, hk⟩, fun _ => h.routed hD⟩
  by_cases haddr : a = addr
  · subst haddr
    simpa only [update_self, RebalanceConfig.hkey] using hgone cfg.key (mem_singleton_self _)
  refine hset.nodes trivial a fun hmem => ?_
  rcases mem_pending_answer hi hmem with heq | hmem
  · exact haddr heq
  · exact ha hmem

theorem delAnswer_inv {writeQuorum : ℕ} {replies : List (SocketAddr × Except ClusterError Frame)}
    (hst : s.delStage = .asking deleted writeQuorum asked) (ha : asked.answers = some replies) :
    { s with delStage := .answered (delReply cfg deleted writeQuorum (replies.map Prod.snd)) }.Inv
      cfg := by
  have hclean := h.clean
  have hD : s.delStage.Deleted := by rw [hst]; trivial
  rw [hst, DelStage.left, (pending_eq_nil asked).2 (by rw [ha]; rfl)] at hclean
  have hD' : (DelStage.answered
      (delReply cfg deleted writeQuorum (replies.map Prod.snd))).Deleted := by
    unfold delReply
    dsimp only
    split_ifs <;> trivial
  exact ⟨⟨hclean.kept, hclean.fits, fun _ => hclean.nodes trivial, fun _ => hclean.parcels trivial,
    fun _ => hclean.exports trivial, fun _ => hclean.repairs trivial,
    fun g hg hl => ⟨hD', (hclean.later g hg hl).2⟩⟩, fun _ => h.utf8 hD, fun _ => h.routed hD⟩

theorem other_inv (hg : s.NoOtherCopy cfg ev) (hs : s.step cfg ev = some s')
    (hdel : ¬ ev.OfDelete) : s'.Inv cfg := by
  obtain ⟨hstage, hroutes⟩ := step_delStage hs hdel
  have hlater : ∀ a dmap key, s.isLater cfg a dmap key = true → s.delStage.Deleted ∧
      a = cfg.self ∧ cfg.OfKey dmap key ∧ utf8Error dmap 0 = none ∧ utf8Error key 0 = none := by
    intro a dmap key hl
    unfold isLater at hl
    split at hl
    · rename_i n hst
      simp only [Bool.and_eq_true, decide_eq_true_eq] at hl
      obtain ⟨⟨hself, rfl⟩, rfl⟩ := hl
      have hD : s.delStage.Deleted := by rw [hst]; trivial
      exact ⟨hD, hself, ⟨rfl, rfl⟩, h.utf8 hD⟩
    · cases hl
  have hu : s.delStage.Deleted → s.Untouched cfg ev := by
    intro hD
    by_cases hask : s.delStage.Asking
    · cases ev with
      | write a op => exact hg hD
      | del | delPeer i link | delAnswer => trivial
      | _ => exact hg hask
    -- Once the delete is answered there is nothing left to take a copy from.
    · have hnone : ∀ a, (s.nodes a).slot cfg.dmap cfg.hkey = none := by
        intro a
        exact h.clean.nodes hD a (by rw [DelStage.asking_of_left hask]; simp)
      cases ev with
      | write a op => exact hg hD
      | read a dmap key now | get a dmap key now => exact fun _ => hnone a
      | getPeer g i delivery now => exact fun _ _ p _ _ => hnone p.1
      | exportScan a plan now => exact fun _ => hnone a
      | _ => trivial
  refine ⟨?_, ?_, ?_⟩
  · rw [hstage]
    exact h.clean.step hlater hu hs hdel
  · rw [hstage]
    exact h.utf8
  · rw [hstage, hroutes]
    exact h.routed

/-- Every step keeps the invariant while no other copy can come back. -/
theorem step_inv (hg : s.NoOtherCopy cfg ev) (hs : s.step cfg ev = some s') : s'.Inv cfg := by
  cases ev with
  | del =>
    unfold step at hs
    dsimp only at hs
    split at hs
    · rename_i r hidle hr
      split_ifs at hs
      obtain rfl := some.inj hs
      exact delStart_inv h hidle hr hg
    · cases hs
  | delPeer i link =>
    unfold step at hs
    dsimp only at hs
    split at hs
    · rename_i deleted writeQuorum asked hst
      split at hs <;> cases hs
      rename_i addr hi
      exact delPeer_inv h hst hi hg rfl
    · cases hs
  | delAnswer =>
    unfold step at hs
    dsimp only at hs
    split at hs
    · rename_i deleted writeQuorum asked hst
      obtain ⟨replies, ha, rfl⟩ := map_eq_some_iff.1 hs
      exact delAnswer_inv h hst ha
    · cases hs
  | _ => exact other_inv h hg hs id

end Invariant

section Ends

variable {g : ℕ}

theorem set_self (hg : gets[g]? = some call) : gets.set g call = gets := by
  obtain ⟨hlt, hget⟩ := List.getElem?_eq_some_iff.1 hg
  rw [← hget]
  exact List.set_getElem_self hlt

theorem getElem?_set (hg : gets[g]? = some call)
    (call' : GetCall) : (gets.set g call')[g]? = some call' := by
  obtain ⟨hlt, -⟩ := List.getElem?_eq_some_iff.1 hg
  exact List.getElem?_set_self hlt

theorem exec_answers (cfg : RebalanceConfig) (s : Rebalance) (call : GetCall)
    (hg : s.gets[g]? = some call) (hs : call.stage.Silent) :
    ∃ evs stage, exec (step cfg) s evs = some { s with gets := s.gets.set g { call with stage } } ∧
      stage.Silent ∧ stage.rounds = call.stage.rounds ∧ stage.asked.answers.isSome := by
  induction hn : call.stage.asked.pending.length using Nat.strong_induction_on generalizing s call
    with
  | _ n ih =>
    by_cases hnil : call.stage.asked.pending = []
    · refine ⟨[], call.stage, ?_, hs, rfl, (pending_eq_nil _).1 hnil⟩
      rw [set_self hg]
      rfl
    obtain ⟨i, addr, hi⟩ := exists_pending hnil
    have hstep : s.step cfg (.getPeer g i (.failed false (.timeout "")) 0) =
        some { s with gets := s.gets.set g { call with stage := call.stage.answer i none } } := by
      simp [step, hg, hi, askPeer, decodeGetWithTs]
    obtain ⟨evs, stage, hrun, hs', hrounds, hans⟩ := ih _
      (hn ▸ length_pending_answer (none : Read) _ hi)
      { s with gets := s.gets.set g { call with stage := call.stage.answer i none } } _
      (getElem?_set hg _) (hs.answer i) (by rw [GetStage.asked_answer])
    refine ⟨_ :: evs, stage, (exec_cons hstep).trans ?_, hs', by simpa using hrounds, hans⟩
    simpa only [set_set] using hrun

theorem get_ends (cfg : RebalanceConfig) (s : Rebalance) (call : GetCall)
    (hg : s.gets[g]? = some call) (hs : call.stage.Silent) (hr : s.routings call.node = some r) :
    ∃ evs s', exec (step cfg) s evs = some s' ∧
      s'.gets[g]? = some { call with stage := .done (.bulk none) } := by
  induction hn : call.stage.rounds using Nat.strong_induction_on generalizing s call with
  | _ n ih =>
    rcases Nat.eq_zero_or_pos call.stage.rounds with hzero | hpos
    · obtain ⟨reply, hdone⟩ : ∃ reply, call.stage = .done reply := by
        rcases hst : call.stage with _ | _ | _ | reply <;> rw [hst] at hzero <;>
          first | exact ⟨_, rfl⟩ | cases hzero
      rw [hdone] at hs
      obtain rfl : reply = .bulk none := hs
      exact ⟨[], s, rfl, by rw [hg, ← hdone]⟩
    obtain ⟨evs, stage, hrun, hs₁, hrounds, hans⟩ := exec_answers cfg s call hg hs
    obtain ⟨⟨stage', fix⟩, hnext, hlt⟩ := GetStage.exists_next cfg.env cfg.settings call.dmap
      call.key r hans (by omega)
    obtain ⟨hs₂, rfl⟩ := hs₁.next hnext
    have hstep : step cfg { s with gets := s.gets.set g { call with stage } } (.getNext g) =
        some { s with gets := s.gets.set g { call with stage := stage' } } := by
      simp [step, getElem?_set hg, hr, hnext, map_some, repair, set_set]
    obtain ⟨evs', s', hrun', hend⟩ := ih _ (by rw [← hn, ← hrounds]; exact hlt)
      { s with gets := s.gets.set g { call with stage := stage' } } _ (getElem?_set hg _) hs₂ hr rfl
    exact ⟨evs ++ .getNext g :: evs', s', by rw [exec_append hrun, exec_cons hstep, hrun'], hend⟩

end Ends

/-- A cluster before the delete, with whatever it stores and has under way. -/
structure Before (cfg : RebalanceConfig) (s : Rebalance) : Prop where
  kept : ∀ a, (s.nodes a).Kept cfg.env
  fits : ∀ p ∈ s.parcels, p.Fits cfg.env
  idle : s.delStage = .idle
  early : ∀ g ∈ s.gets, g.later = false

/-- In a run that meets the condition at each step, a `DM.GET` of the key that the node starts
after it has answered the delete returns null, and it does return. -/
theorem get_after_delete (cfg : RebalanceConfig) (s : Rebalance) (hs : s.Before cfg)
    (evs : List RebalanceEvent) (s' : Rebalance)
    (hg : Guarded (step cfg) (NoOtherCopy cfg) s evs) (hx : exec (step cfg) s evs = some s')
    (g : ℕ) (call : GetCall) (hc : s'.gets[g]? = some call) (hl : call.later = true) :
    (∀ reply, call.stage = .done reply → reply = .bulk none) ∧
      ∃ evs' s'', exec (step cfg) s' evs' = some s'' ∧
        s''.gets[g]? = some { call with stage := .done (.bulk none) } := by
  have hstart : s.Inv cfg := by
    refine ⟨⟨hs.kept, hs.fits, ?_, ?_, ?_, ?_, fun g hg hl => ?_⟩, ?_, ?_⟩ <;>
      try simp [hs.idle, DelStage.Deleted]
    rw [hs.early g hg] at hl
    cases hl
  have hinv := Guarded.invariant (fun _ _ _ h hp hs => step_inv h hp hs) hstart hg hx
  obtain ⟨hD, hself, -, hsilent⟩ := hinv.clean.later call (List.mem_of_getElem? hc) hl
  refine ⟨fun reply hdone => ?_, ?_⟩
  · rw [hdone] at hsilent
    exact hsilent
  · obtain ⟨r, hr⟩ := Option.isSome_iff_exists.1 (hinv.routed hD)
    exact get_ends cfg s' call hc hsilent (hself ▸ hr)

section Sequential

def backups (cfg : RebalanceConfig) (r : Routing) : List SocketAddr :=
  if r.replicaCount ≤ 1 then [] else r.backupAddrsForKey cfg.env cfg.dmap cfg.key

theorem delBucket_single (cfg : RebalanceConfig) (r : Routing) (c : Cluster)
    (links : ℕ → ℕ → Link) {deleted : ℤ} {n : Node}
    (h : (c cfg.self).dmDelLocalCount cfg.env cfg.dmap [cfg.key] = (.ok deleted, n)) :
    let fan := fanOut cfg.env (.dmDel cfg.dmap [cfg.key]) (update c cfg.self n) (backups cfg r)
      (links 0)
    (delBucket cfg.env ⟨cfg.self, some r⟩ r c links cfg.dmap (some [cfg.key])).map bucketReply id =
      (if backups cfg r = [] then .integer deleted
        else delReply cfg deleted (max r.writeQuorum 1) fan.1, fan.2) := by
  intro fan
  have hnil (hb : backups cfg r = []) : fan.2 = update c cfg.self n := by
    simp only [fan, hb, fanOut]
  simp only [delBucket, h, replicateLocalDeletes]
  by_cases hcount : r.replicaCount ≤ 1
  · have hb : backups cfg r = [] := if_pos hcount
    rw [if_pos hcount, if_pos hb, hnil hb]
    rfl
  have hb : backups cfg r = r.backupAddrsForKey cfg.env cfg.dmap cfg.key := if_neg hcount
  rw [if_neg hcount]
  simp only [replicateDeletes, ← hb]
  by_cases hnone : backups cfg r = []
  · rw [if_pos hnone, if_pos hnone, hnil hnone]
    rfl
  · rw [if_neg hnone, if_neg hnone]
    simp only [replicateDelete, if_neg hnone, delReply]
    split_ifs <;> rfl

theorem exec_delPeers (cfg : RebalanceConfig) {deleted : ℤ} {writeQuorum : ℕ} :
    ∀ (addrs : List SocketAddr) (links : ℕ → Link) (s : Rebalance)
      (heard : List (SocketAddr × Except ClusterError Frame)),
      s.delStage = .asking deleted writeQuorum (full heard ++ start addrs) →
      ∃ evs, (∀ ev ∈ evs, ev.OfDelete) ∧ ∃ replies, replies.map Prod.snd =
          (fanOut cfg.env (.dmDel cfg.dmap [cfg.key]) s.nodes addrs links).1 ∧
        exec (step cfg) s evs = some { s with
          nodes := (fanOut cfg.env (.dmDel cfg.dmap [cfg.key]) s.nodes addrs links).2
          delStage := .asking deleted writeQuorum (full (heard ++ replies)) }
  | [], links, s, heard, hst => by
    refine ⟨[], by simp, [], rfl, ?_⟩
    have hst' : s.delStage = .asking deleted writeQuorum (full heard) := by
      simpa [start] using hst
    rw [append_nil, ← hst']
    rfl
  | addr :: addrs, links, s, heard, hst => by
    rcases hf : forwardCommand cfg.env s.nodes (links 0) addr (.dmDel cfg.dmap [cfg.key])
      with ⟨reply, nodes⟩
    have hopen : (full heard ++ start (addr :: addrs))[heard.length]? = some (addr, none) := by
      simp [full, start]
    obtain ⟨s₁, hstep, hs₁⟩ : ∃ s₁, s.step cfg (.delPeer heard.length (links 0)) = some s₁ ∧
        s₁ = { s with
          nodes
          delStage := .asking deleted writeQuorum
            (full (heard ++ [(addr, reply)]) ++ start addrs) } := by
      simp [step, hst, hopen, hf, answer_full]
    obtain ⟨evs, hevs, replies, hreplies, hrun⟩ := exec_delPeers cfg addrs (fun i => links (i + 1))
      s₁ (heard ++ [(addr, reply)]) (by rw [hs₁])
    refine ⟨.delPeer heard.length (links 0) :: evs, forall_mem_cons.2 ⟨trivial, hevs⟩,
      (addr, reply) :: replies, ?_, ?_⟩
    · simp [fanOut, hf, hreplies, hs₁]
    · rw [exec_cons hstep, hrun]
      simp [fanOut, hf, hs₁]

/-- Run alone, the delete's steps do what `dm_del` does. -/
theorem exec_dmDel (cfg : RebalanceConfig) (s : Rebalance) (hst : s.delStage = .idle)
    (hr : s.routings cfg.self = some r) (hlocal : r.routeKey cfg.env cfg.dmap cfg.key = none)
    (links : DelLinks) {reply : Frame} {nodes : Cluster}
    (h : dmDel cfg.env ⟨cfg.self, some r⟩ s.nodes links false cfg.dmap [cfg.key] = (reply, nodes)) :
    ∃ evs, (∀ ev ∈ evs, ev.OfDelete) ∧
      exec (step cfg) s evs = some { s with nodes, delStage := .answered reply } := by
  have hstep : s.step cfg .del = some (s.delStart cfg r) := by
    simp [step, hst, hr, if_pos hlocal]
  rw [dmDel_local rfl (by simp) (by simpa using hlocal)] at h
  rcases hdel : (s.nodes cfg.self).dmDelLocalCount cfg.env cfg.dmap [cfg.key] with
    ⟨f | deleted, n⟩
  · simp only [delBucket, hdel] at h
    obtain ⟨rfl, rfl⟩ := Prod.mk.inj h
    simp only [delStart, hdel] at hstep
    exact ⟨[.del], by simp [RebalanceEvent.OfDelete], exec_cons hstep⟩
  rcases hf : fanOut cfg.env (.dmDel cfg.dmap [cfg.key]) (update s.nodes cfg.self n)
    (backups cfg r) (links.replicate 0) with ⟨frames, nodes'⟩
  rw [delBucket_single cfg r s.nodes links.replicate hdel, hf] at h
  obtain ⟨rfl, rfl⟩ := Prod.mk.inj h
  have hstart : s.delStart cfg r = { s.setNode cfg.self n with
      delStage := if backups cfg r = [] then .answered (.integer deleted)
        else .asking deleted (max r.writeQuorum 1) (.start (backups cfg r)) } := by
    rw [delStart, hdel]
    rfl
  rw [hstart] at hstep
  by_cases hnone : backups cfg r = []
  · rw [hnone] at hf
    obtain ⟨-, rfl⟩ := Prod.mk.inj hf
    rw [if_pos hnone] at hstep ⊢
    exact ⟨[.del], by simp [RebalanceEvent.OfDelete], exec_cons hstep⟩
  rw [if_neg hnone] at hstep ⊢
  obtain ⟨evs, hevs, replies, hreplies, hrun⟩ := exec_delPeers cfg (backups cfg r)
    (links.replicate 0) { s.setNode cfg.self n with
      delStage := .asking deleted (max r.writeQuorum 1) (.start (backups cfg r)) } [] rfl
  dsimp only [setNode] at hreplies hrun
  rw [hf] at hreplies hrun
  dsimp only at hreplies hrun
  refine ⟨.del :: evs ++ [.delAnswer], ?_, ?_⟩
  · exact forall_mem_append.2 ⟨forall_mem_cons.2 ⟨trivial, hevs⟩, forall_mem_singleton.2 trivial⟩
  · rw [exec_append ((exec_cons hstep).trans hrun), nil_append]
    refine exec_cons ?_
    simp [step, answers_full, map_some, hreplies]

end Sequential

section Sample

def movedCfg : RebalanceConfig := ⟨sumEnv, 1, ⟨1, false⟩, "b", [100], [107]⟩

def movedRouting (localId : UInt64) : Routing where
  localId := localId
  snapshot := some ⟨fun _ => [⟨2, "b"⟩, ⟨1, "a"⟩], fun _ => []⟩
  partitionCount := 1
  multiKeyStrict := false
  replicaCount := 1
  writeQuorum := 1
  mode := .sync
  liveCount := 2
  memberCountQuorum := 1

def moved (nodes : Cluster) : Rebalance where
  nodes := nodes
  routings := fun a => some (movedRouting (if a = "b" then 2 else 1))
  parcels := []
  migrations := fun _ => none
  gets := []
  delStage := .idle

theorem exec_dmDel_moved : ∃ evs s, exec (step movedCfg) (moved fun _ => holder) evs = some s ∧
    s.delStage = .answered (.integer 1) := by
  obtain ⟨evs, -, h⟩ := exec_dmDel movedCfg (moved fun _ => holder) rfl rfl rfl
    ⟨fun _ _ => ⟨.replied, fun _ => 0⟩, fun _ => ⟨.replied, fun _ => 0⟩⟩ rfl
  exact ⟨evs, _, h, rfl⟩

/-- Node `a` still has the key. A read on `b` after the delete asks it for its copy, and so does one
after its balancer has migrated the partition. -/
theorem delete_undone : (∃ s n, exec (step movedCfg) (moved fun _ => holder)
        [.del, .get "b" [100] [107] 0, .getPeer 0 0 .replied 0, .getNext 0] = some s ∧
      s.delStage = .answered (.integer n) ∧
      s.gets = [⟨"b", [100], [107], true, .done (.bulk (some [1]))⟩]) ∧
    ∃ s n, exec (step movedCfg) (moved fun _ => holder)
        [.del, .exportScan "a" ⟨[100], 0, "b"⟩ 0, .send "a", .deliver 0 true fun _ => 0,
          .clearScan "a", .clearDelete "a", .clearDelete "a", .get "b" [100] [107] 0] = some s ∧
      s.delStage = .answered (.integer n) ∧
      s.gets = [⟨"b", [100], [107], true, .done (.bulk (some [1]))⟩] :=
  ⟨⟨_, 1, rfl, rfl, rfl⟩, _, 1, rfl, rfl, rfl⟩

theorem holder_only (a : SocketAddr) (ha : a ≠ "b") (dmap : Bytes) (hkey : UInt64) :
    (update (fun _ => empty) "b" holder a).slot dmap hkey = none := by
  rw [update_of_ne ha]
  rfl

/-- Node `a` has been cleared, and a read on `b` after the delete misses the key there too. -/
theorem delete_kept : ∃ s call, exec (step movedCfg) (moved (update (fun _ => .empty) "b" holder))
        [.del, .get "b" [100] [107] 0, .getPeer 0 0 .replied 0, .getNext 0] = some s ∧
      s.gets[0]? = some call ∧ call.later = true ∧
      ∃ reply, call.stage = .done reply ∧ reply = .bulk none := by
  refine ⟨_, _, rfl, rfl, rfl, _, rfl, ?_⟩
  refine (get_after_delete movedCfg (moved (update (fun _ => .empty) "b" holder)) ?_
    [.del, .get "b" [100] [107] 0, .getPeer 0 0 .replied 0, .getNext 0] _ ?_ rfl 0 _
      rfl rfl).1 _ rfl
  · refine ⟨fun a => ?_, nofun, rfl, nofun⟩
    by_cases ha : a = "b"
    · subst ha
      exact holder_kept
    · intro dmap hkey e he
      cases (holder_only a ha dmap hkey).symm.trans he
  · refine .cons ⟨fun r _ a ha hne => absurd (holder_only a ha _ _) hne, nofun, nofun, nofun⟩ rfl ?_
    refine .cons nofun rfl (.cons nofun rfl (.cons nofun rfl trivial))

end Sample

end Rebalance

end Kamino
