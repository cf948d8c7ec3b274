import Kamino.Handover
import Kamino.Proofs.Balancer

/-!
# Puts beside a migration

What the clear deletes is what its own scan finds, not what the export sent.
-/

namespace Kamino

open Function Runs Option List Node

section Writes

/-- The slot holds the stamp, or a newer one. -/
def Reaches (o : Option Entry) (stamp : Int64) : Prop := ∃ e ∈ o, stamp ≤ e.timestampNanos

theorem Reaches.covers {o o' : Option Entry} {stamp : Int64} (h : Reaches o stamp)
    (hc : Covers o o') : Reaches o' stamp := by
  obtain ⟨e, he, hle⟩ := h
  obtain ⟨e', he', hle'⟩ := hc e he
  exact ⟨e', he', hle.trans hle'⟩

namespace DMap

theorem putLww_effect (env : Env) (d : DMap) (key value : Bytes) (o : PutOptions)
    (clk : ℕ → UInt64) (hl : d.options.evictionPolicy ≠ some .lru) :
    (d.putLww env key value o clk).2.fragment = d.fragment ∧
        (∀ b, (d.putLww env key value o clk).1 = .ok b →
          ∃ ts, o.timestamp = some ts ∧ Reaches (d.fragment.lookup (env.hash64 key)) ts) ∨
      ∃ entry : Entry, entry.key = key ∧ o.timestamp = some entry.timestampNanos ∧
        ¬ Reaches (d.fragment.lookup (env.hash64 key)) entry.timestampNanos ∧
        (d.putLww env key value o clk).2.fragment = d.fragment.insert (env.hash64 key) entry := by
  unfold putLww
  split
  · exact .inl ⟨rfl, by simp⟩
  split
  · exact .inl ⟨rfl, by simp⟩
  rename_i ts hts
  dsimp only
  split
  · exact .inl ⟨rfl, by simp⟩
  split <;> rename_i hput
  · exact .inl ⟨rfl, by simp⟩
  · rcases Fragment.putLww_ok hput with ⟨-, -, hr⟩ | ⟨h, -⟩
    · exact .inl ⟨rfl, fun _ _ => ⟨ts, hts, hr⟩⟩
    · cases h
  rcases Fragment.putLww_ok hput with ⟨h, -⟩ | ⟨-, hr, -, rfl⟩
  · cases h
  · rw [evictIfNeeded_of_not_lru]
    · exact .inr ⟨_, rfl, hts, fun ⟨e, he, hle⟩ => not_le.2 (hr e he) hle, rfl⟩
    · exact hl

end DMap

namespace Node

variable {env : Env} {n n' : Node} {dmap key value : Bytes} {o : PutOptions}

/-- What a put that raises its key's slot does to a node. -/
inductive PutEffect (env : Env) (n n' : Node) (dmap key : Bytes) : Prop where
  | unchanged (h : ∀ dmap' hkey, n'.slot dmap' hkey = n.slot dmap' hkey)
  | stored (entry : Entry) (hkey : entry.key = key)
      (hnew : ∀ old ∈ n.slot dmap (env.hash64 key), old.timestampNanos ≤ entry.timestampNanos)
      (h : ∀ dmap' hkey, n'.slot dmap' hkey =
        if dmap' = dmap ∧ hkey = env.hash64 key then some entry else n.slot dmap' hkey)

theorem commitPut_effect {rd : Readings} {result : Except Frame PutOptions} (hl : n.NoLru)
    (hlive : ∀ old ∈ n.slot dmap (env.hash64 key),
      old.isExpired (microsToNanosI64 (rd.clk 3)) = false)
    (hnew : ∀ old ∈ n.slot dmap (env.hash64 key), old.timestampNanos ≤ (n.stamp o rd.wall).1)
    (h : n.commitPut env rd dmap key value o = (result, n')) :
    PutEffect env n n' dmap key ∧ ∀ o', result = .ok o' →
      ∃ ts, o'.timestamp = some ts ∧ Reaches (n'.slot dmap (env.hash64 key)) ts := by
  rcases result with f | o'
  · obtain ⟨hsame, hslot, -⟩ := commitPut_error h hlive
    refine ⟨.unchanged fun dmap' hkey => ?_, by simp⟩
    by_cases hk : (dmap', hkey) = (dmap, env.hash64 key)
    · obtain ⟨rfl, rfl⟩ := Prod.mk.inj hk
      exact hslot
    · exact hsame.slots dmap' hkey hk
  obtain ⟨rfl, -, hsame, -, e, hslot, hst, -⟩ := commitPut_ok h hl
  have hts : e.timestampNanos = (n.stamp o rd.wall).1 := congrArg Prod.fst hst
  refine ⟨?_, fun o'' ho => ?_⟩
  · have horigin := (n.commitPut_slot env rd dmap key value o).2 dmap (env.hash64 key) e
    rw [h] at horigin
    rcases horigin hslot with hold | ⟨hkey, -⟩
    · refine .unchanged fun dmap' hkey => ?_
      by_cases hk : (dmap', hkey) = (dmap, env.hash64 key)
      · obtain ⟨rfl, rfl⟩ := Prod.mk.inj hk
        rw [hslot, hold]
      · exact hsame.slots dmap' hkey hk
    · refine .stored e hkey (hts ▸ hnew) fun dmap' hkey' => ?_
      split_ifs with hk
      · rw [hk.1, hk.2, hslot]
      · exact hsame.slots dmap' hkey' fun heq => hk (by simpa using heq)
  · obtain rfl := Except.ok.inj ho
    exact ⟨_, rfl, e, hslot, hts.ge⟩

theorem dmPutPeer_effect {clk : ℕ → UInt64} {reply : Frame} (hl : n.NoLru)
    (h : n.dmPutPeer env clk dmap key value o = (reply, n')) :
    PutEffect env n n' dmap key ∧
      (reply = .ok → ∃ ts, o.timestamp = some ts ∧ Reaches (n'.slot dmap (env.hash64 key)) ts) ∧
      ((∃ ts, o.timestamp = some ts ∧ Reaches (n.slot dmap (env.hash64 key)) ts) →
        ∀ dmap' hkey, n'.slot dmap' hkey = n.slot dmap' hkey) := by
  unfold dmPutPeer at h
  split at h
  · rename_i f n₁ hopen
    have hsame : ∀ dmap' hkey, n₁.slot dmap' hkey = n.slot dmap' hkey := by
      rcases (openKey_error hopen).1 with rfl | rfl
      · exact fun _ _ => rfl
      · exact slot_opened n dmap
    obtain ⟨rfl, rfl⟩ := Prod.mk.inj h
    obtain ⟨e, rfl⟩ := (openKey_error hopen).2
    exact ⟨.unchanged hsame, by simp [Frame.ok], fun _ => hsame⟩
  rename_i d n₁ hopen
  obtain ⟨-, -, rfl, rfl⟩ := openKey_ok hopen
  have heffect := (n.dmapAt dmap).putLww_effect env key value o clk (hl dmap)
  rcases hput : (n.dmapAt dmap).putLww env key value o clk with ⟨r, d⟩
  rw [hput] at h heffect
  obtain ⟨rfl, hreply⟩ : n' = n.setDMap dmap d ∧ (reply = .ok → ∃ b, r = .ok b) := by
    simp only [setDMap_opened] at h
    split at h <;> rename_i hp <;> obtain ⟨rfl, rfl⟩ := Prod.mk.inj hp <;>
      obtain ⟨rfl, rfl⟩ := Prod.mk.inj h
    · exact ⟨rfl, fun _ => ⟨_, rfl⟩⟩
    · exact ⟨rfl, by simp [Frame.ok]⟩
    · exact ⟨rfl, by simp [Frame.ok]⟩
    · exact ⟨rfl, fun hok => absurd hok (mapClientError_ne_ok _)⟩
  simp only [slot_setDMap]
  rcases heffect with ⟨hfrag, hdropped⟩ | ⟨entry, hkey, hts, hnew, hfrag⟩
  · have hsame : ∀ dmap' hkey, (if dmap' = dmap then d.fragment.lookup hkey
        else n.slot dmap' hkey) = n.slot dmap' hkey := by
      intro dmap' hkey
      split_ifs with hd
      · rw [hfrag, hd, slot_eq]
      · rfl
    refine ⟨.unchanged fun dmap' hkey => ?_, fun hok => ?_, fun _ => hsame⟩
    · rw [slot_setDMap, hsame]
    · obtain ⟨b, hb⟩ := hreply hok
      rw [if_pos trivial, hfrag]
      exact hdropped b hb
  rw [← slot_eq] at hnew
  refine ⟨.stored entry hkey (fun old hold => ?_) fun dmap' hkey' => ?_, fun _ => ?_, ?_⟩
  · exact le_of_not_ge fun hle => hnew ⟨old, hold, hle⟩
  · rw [slot_setDMap, hfrag]
    by_cases hd : dmap' = dmap
    · by_cases hk : hkey' = env.hash64 key
      · rw [if_pos hd, if_pos ⟨hd, hk⟩, hk, AList.lookup_insert]
      · rw [if_pos hd, if_neg fun h => hk h.2, AList.lookup_insert_ne hk, hd, slot_eq]
    · rw [if_neg hd, if_neg fun h => hd h.1]
  · rw [if_pos trivial, hfrag, AList.lookup_insert]
    exact ⟨_, hts, entry, rfl, le_refl _⟩
  · rintro ⟨ts, hts', hr⟩
    rw [hts] at hts'
    exact absurd (some.inj hts' ▸ hr) hnew

end Node
end Writes

namespace Handover

variable {cfg : HandoverConfig} {s s' : Handover} {dmap key : Bytes}

def Migrates (cfg : HandoverConfig) (e : Entry) : Prop :=
  partitionFor cfg.env cfg.plan.dmap e.key cfg.partitionCount = cfg.plan.partitionId

/-- What the sender still holds of the partition is where the clear may delete it. -/
def StageSafe (cfg : HandoverConfig) (source receiver : Node) : MigrateStage → Prop
  | .idle | .done _ => True
  | .exported payload => payload.length ≤ defaultMaxBulkSize →
      ∀ es, decodeFragmentPayload payload = .ok (cfg.plan.partitionId, es) → ∀ hkey e,
        source.slot cfg.plan.dmap hkey = some e → Migrates cfg e →
          ∃ e' ∈ es, cfg.env.hash64 e'.key = hkey ∧ e.timestampNanos ≤ e'.timestampNanos
  | .sent => ∀ hkey e, source.slot cfg.plan.dmap hkey = some e → Migrates cfg e →
      Reaches (receiver.slot cfg.plan.dmap hkey) e.timestampNanos
  | .clearing victims => ∀ hkey ∈ victims, ∀ e ∈ source.slot cfg.plan.dmap hkey,
      Reaches (receiver.slot cfg.plan.dmap hkey) e.timestampNanos

/-- An acknowledged put is on one of the two nodes, with at least its stamp. -/
def Present (s : Handover) (a : Acked) : Prop :=
  Reaches (s.source.slot a.dmap a.hkey) a.stamp ∨ Reaches (s.receiver.slot a.dmap a.hkey) a.stamp

structure Safe (cfg : HandoverConfig) (s : Handover) : Prop where
  kept : s.source.Kept cfg.env
  acked : ∀ a ∈ s.acked, s.Present a
  stage : StageSafe cfg s.source s.receiver s.stage

/-- A put of the key now comes too late for the export and too early for the clear. -/
def InWindow (cfg : HandoverConfig) (s : Handover) (dmap key : Bytes) : Prop :=
  dmap = cfg.plan.dmap ∧
    match s.stage with
    | .idle | .done _ => False
    | .exported _ | .sent =>
      partitionFor cfg.env cfg.plan.dmap key cfg.partitionCount = cfg.plan.partitionId
    | .clearing victims => cfg.env.hash64 key ∈ victims

/-- No put comes in the window, unless it is a peer's that the sender has already. Nor is anything
lost to an eviction, an expiry or a put that is stamped below what it replaces. -/
def OutsideWindow (cfg : HandoverConfig) (s : Handover) : MigrateEvent → Prop
  | .put rd dmap key _ o => ¬ InWindow cfg s dmap key ∧ s.source.NoLru ∧
      ∀ old ∈ s.source.slot dmap (cfg.env.hash64 key),
        old.isExpired (microsToNanosI64 (rd.clk 3)) = false ∧
          old.timestampNanos ≤ (s.source.stamp o rd.wall).1
  | .putPeer _ dmap key _ o => s.source.NoLru ∧ (InWindow cfg s dmap key →
      ∃ ts, o.timestamp = some ts ∧ Reaches (s.source.slot dmap (cfg.env.hash64 key)) ts)
  | .exportScan nowMicros => ∀ hkey e, s.source.slot cfg.plan.dmap hkey = some e →
      Migrates cfg e → e.isExpired (microsToNanosI64 nowMicros) = false
  | _ => True

section Puts

variable {n : Node}

theorem stageSafe_of_effect (h : StageSafe cfg s.source s.receiver s.stage)
    (heff : Node.PutEffect cfg.env s.source n dmap key)
    (hwin : InWindow cfg s dmap key → ∀ dmap' hkey, n.slot dmap' hkey = s.source.slot dmap' hkey) :
    StageSafe cfg n s.receiver s.stage := by
  rcases heff with hsame | ⟨entry, hkey, hnew, hslot⟩
  · unfold StageSafe at h ⊢
    simpa only [hsame] using h
  by_cases hw : InWindow cfg s dmap key
  · unfold StageSafe at h ⊢
    simpa only [hwin hw] using h
  -- The entry is not of the partition, or not under a hash that is to be deleted.
  unfold InWindow at hw
  unfold StageSafe at h ⊢
  rcases hst : s.stage with _ | payload | _ | victims | result <;> simp only [hst] at h hw ⊢
  · intro hlen es hdec hk e he hmig
    rw [hslot] at he
    split_ifs at he with hd
    · obtain rfl := some.inj he
      exact absurd ⟨hd.1.symm, hkey ▸ hmig⟩ hw
    · exact h hlen es hdec hk e he hmig
  · intro hk e he hmig
    rw [hslot] at he
    split_ifs at he with hd
    · obtain rfl := some.inj he
      exact absurd ⟨hd.1.symm, hkey ▸ hmig⟩ hw
    · exact h hk e he hmig
  · intro hk hmem e he
    rw [hslot] at he
    split_ifs at he with hd
    · exact absurd ⟨hd.1.symm, hd.2 ▸ hmem⟩ hw
    · exact h hk hmem e he

theorem covers_of_effect (heff : Node.PutEffect cfg.env s.source n dmap key) (dmap' : Bytes)
    (hkey : UInt64) : Covers (s.source.slot dmap' hkey) (n.slot dmap' hkey) := by
  rcases heff with hsame | ⟨entry, -, hnew, hslot⟩
  · rw [hsame]
    exact .refl _
  rw [hslot]
  split_ifs with hd
  · rw [hd.1, hd.2]
    exact fun old hold => ⟨entry, rfl, hnew old hold⟩
  · exact .refl _

theorem Safe.put (h : s.Safe cfg) (hkept : n.Kept cfg.env)
    (heff : Node.PutEffect cfg.env s.source n dmap key) (stamp : Option Int64)
    (hwin : InWindow cfg s dmap key → ∀ dmap' hkey, n.slot dmap' hkey = s.source.slot dmap' hkey)
    (hack : ∀ ts ∈ stamp, Reaches (n.slot dmap (cfg.env.hash64 key)) ts) :
    Safe cfg { s with source := n, acked := s.ack cfg dmap key stamp } := by
  have hcov := covers_of_effect heff
  have hold : ∀ a ∈ s.acked, Present { s with source := n } a := fun a ha =>
    (h.acked a ha).imp_left fun hr => hr.covers (hcov _ _)
  have hstage := stageSafe_of_effect h.stage heff hwin
  refine ⟨hkept, fun a ha => ?_, hstage⟩
  rcases stamp with _ | ts
  · exact hold a ha
  · rcases mem_cons.1 ha with rfl | ha
    · exact .inl (hack ts rfl)
    · exact hold a ha

end Puts

section Steps

theorem exportStep_safe (h : s.Safe cfg) {nowMicros : UInt64}
    (hlive : OutsideWindow cfg s (.exportScan nowMicros)) :
    Safe cfg { s with stage := s.exportStep cfg nowMicros } := by
  refine ⟨h.kept, h.acked, ?_⟩
  obtain ⟨payload, es, hexp, hes, -, hdec⟩ := exportPartition_spec
    h.kept cfg.partitionCount cfg.plan.dmap cfg.plan.partitionId nowMicros
  dsimp only
  unfold exportStep
  rw [hexp]
  dsimp only
  split_ifs
  · trivial
  intro hlen es' hdec' hkey e he hmig
  obtain rfl : es = es' := by
    rw [hdec hlen] at hdec'
    exact (Prod.mk.inj (Except.ok.inj hdec')).2
  refine ⟨e, (hes e).2 ⟨hkey, he, hmig, hlive hkey e he hmig⟩, ?_, le_refl _⟩
  exact (h.kept _ hkey e he).1

theorem sendStep_safe (h : s.Safe cfg) {payload : Bytes} (hst : s.stage = .exported payload)
    (delivery : Delivery) : Safe cfg (s.sendStep cfg delivery payload) := by
  have hsafe := h.stage
  rw [hst] at hsafe
  unfold sendStep
  rcases receiveFragment_cases cfg.env s.receiver cfg.routing cfg.plan.partitionId .primary
    cfg.plan.dmap payload with ⟨f, hf, hrun⟩ | ⟨hlen, es, r, hdec, hrun, himp⟩ <;> rw [hrun]
  · rcases delivery with _ | ⟨_ | _, e⟩
    · dsimp only
      split
      · rename_i hreply
        exact absurd (ok_of_fragmentReply hreply) hf
      · exact ⟨h.kept, h.acked, trivial⟩
    · exact ⟨h.kept, h.acked, trivial⟩
    · exact ⟨h.kept, h.acked, trivial⟩
  have hacked : ∀ a ∈ s.acked, Reaches (s.source.slot a.dmap a.hkey) a.stamp ∨
      Reaches (r.slot a.dmap a.hkey) a.stamp := fun a ha =>
    (h.acked a ha).imp_right fun hr => hr.covers (himp.kept _ _)
  rcases delivery with _ | ⟨_ | _, e⟩
  · refine ⟨h.kept, hacked, fun hkey e he hmig => ?_⟩
    obtain ⟨e', hmem, hhash, hle⟩ := hsafe hlen es hdec hkey e he hmig
    obtain ⟨e'', he'', hle'⟩ := covers_some.1 (himp.brought e' hmem)
    exact ⟨e'', hhash ▸ he'', hle.trans hle'⟩
  · exact ⟨h.kept, h.acked, trivial⟩
  · exact ⟨h.kept, hacked, trivial⟩

theorem scanStep_safe (h : s.Safe cfg) (hst : s.stage = .sent) :
    Safe cfg { s with stage := s.scanStep cfg } := by
  refine ⟨h.kept, h.acked, ?_⟩
  have hsafe := h.stage
  rw [hst] at hsafe
  dsimp only
  unfold scanStep
  rcases hl : s.source.dmaps.lookup cfg.plan.dmap with _ | d
  · trivial
  intro hkey hmem e he
  obtain ⟨e', he', hp⟩ := Fragment.mem_victims.1 hmem
  rw [slot, hl, bind_some, he'] at he
  obtain rfl := some.inj he
  exact hsafe hkey e' (by rw [slot, hl]; exact he') hp

theorem slot_deleteStep (hkey : UInt64) (dmap : Bytes) (hkey' : UInt64) :
    (s.deleteStep cfg hkey).slot dmap hkey' =
      if dmap = cfg.plan.dmap ∧ hkey' = hkey then none else s.source.slot dmap hkey' := by
  unfold deleteStep
  rcases hl : s.source.dmaps.lookup cfg.plan.dmap with _ | d
  · split_ifs with hd
    · rw [hd.1, slot, hl]
      rfl
    · rfl
  dsimp only
  rw [slot_setDMap]
  by_cases hd : dmap = cfg.plan.dmap
  · rw [if_pos hd, Fragment.lookup_delete, hd, slot, hl]
    simp
  · simp [hd]

theorem deleteStep_safe (h : s.Safe cfg) {hkey : UInt64} {victims : List UInt64}
    (hst : s.stage = .clearing (hkey :: victims)) :
    Safe cfg { s with source := s.deleteStep cfg hkey, stage := .clearing victims } := by
  have hsafe := h.stage
  rw [hst] at hsafe
  have hsub : ∀ dmap hkey' e, (s.deleteStep cfg hkey).slot dmap hkey' = some e →
      s.source.slot dmap hkey' = some e := by
    intro dmap hkey' e he
    rw [slot_deleteStep] at he
    split_ifs at he
    exact he
  refine ⟨fun dmap hkey' e he => h.kept dmap hkey' e (hsub dmap hkey' e he), fun a ha => ?_,
    fun hkey' hmem e he => ?_⟩
  · rcases h.acked a ha with ⟨e, he, hle⟩ | hr
    · by_cases hd : a.dmap = cfg.plan.dmap ∧ a.hkey = hkey
      · -- The receiver has what is deleted.
        obtain ⟨e', he', hle'⟩ := hsafe hkey mem_cons_self e (by rw [← hd.1, ← hd.2]; exact he)
        exact .inr ⟨e', by rw [hd.1, hd.2]; exact he', hle.trans hle'⟩
      refine .inl ⟨e, ?_, hle⟩
      dsimp only
      rw [slot_deleteStep, if_neg hd]
      exact he
    · exact .inr hr
  · exact hsafe hkey' (mem_cons_of_mem _ hmem) e (hsub _ _ _ he)

/-- A step outside the window loses no acknowledged put. -/
theorem step_safe (h : s.Safe cfg) {ev : MigrateEvent} (hp : OutsideWindow cfg s ev)
    (hs : s.step cfg ev = some s') : s'.Safe cfg := by
  unfold step at hs
  cases ev with dsimp only at hs
  | put rd dmap key value o =>
    obtain ⟨hwin, hl, hold⟩ := hp
    have hkept := (adds_commitPut cfg.env s.source rd dmap key value o).kept h.kept
    rcases hc : s.source.commitPut cfg.env rd dmap key value o with ⟨f | o', n⟩ <;>
      rw [hc] at hs hkept <;> obtain rfl := some.inj hs
    all_goals
      obtain ⟨heff, hack⟩ := commitPut_effect hl (fun old ho => (hold old ho).1)
        (fun old ho => (hold old ho).2) hc
    · exact h.put hkept heff none (fun hw => absurd hw hwin) (by simp)
    obtain ⟨ts, hts, hr⟩ := hack o' rfl
    refine h.put hkept heff _ (fun hw => absurd hw hwin) fun ts' hts' => ?_
    rw [hts, mem_some_iff] at hts'
    exact hts' ▸ hr
  | putPeer clk dmap key value o =>
    obtain ⟨hl, hwin⟩ := hp
    have hkept := (adds_dmPutPeer cfg.env s.source clk dmap key value o).kept h.kept
    rcases hc : s.source.dmPutPeer cfg.env clk dmap key value o with ⟨reply, n⟩
    rw [hc] at hs hkept
    obtain ⟨heff, hack, hstale⟩ := dmPutPeer_effect hl hc
    dsimp only at hs
    split_ifs at hs with hok <;> obtain rfl := some.inj hs
    · obtain ⟨ts, hts, hr⟩ := hack hok
      refine h.put hkept heff _ (fun hw => hstale (hwin hw)) fun ts' hts' => ?_
      rw [hts, mem_some_iff] at hts'
      exact hts' ▸ hr
    · exact h.put hkept heff none (fun hw => hstale (hwin hw)) (by simp)
  | exportScan nowMicros =>
    split at hs <;> cases hs
    exact exportStep_safe h hp
  | send delivery =>
    split at hs <;> cases hs
    rename_i hst
    exact sendStep_safe h hst delivery
  | clearScan =>
    split at hs <;> cases hs
    rename_i hst
    exact scanStep_safe h hst
  | clearDelete =>
    split at hs <;> cases hs
    · exact ⟨h.kept, h.acked, trivial⟩
    · rename_i hst
      exact deleteStep_safe h hst
  | again =>
    split at hs <;> cases hs
    exact ⟨h.kept, h.acked, trivial⟩

end Steps

/-- A sender and a receiver before a migration, with whatever they hold. -/
def start (source receiver : Node) : Handover := ⟨source, receiver, .idle, []⟩

/-- In a run with no put in the window, every put the sender has acknowledged is on one of the two
nodes with at least its stamp, once the migration has succeeded and at any time before. -/
theorem acked_present (cfg : HandoverConfig) (source receiver : Node)
    (hk : source.Kept cfg.env) (evs : List MigrateEvent) (s : Handover)
    (hg : Guarded (step cfg) (OutsideWindow cfg) (start source receiver) evs)
    (hx : exec (step cfg) (start source receiver) evs = some s) :
    ∀ a ∈ s.acked, s.Present a := by
  have hstart : Safe cfg (start source receiver) := ⟨hk, by simp [start], trivial⟩
  exact (Guarded.invariant (fun _ _ _ h hp hs => step_safe h hp hs) hstart hg hx).acked

/-- The partition's only DMap goes from the holder to node `b`. -/
def handoverCfg : HandoverConfig := ⟨sumEnv, 1, ⟨[100], 0, "b"⟩, none⟩

/-- A put after the export is not in what is sent, and the clear deletes it. -/
theorem put_lost_in_window : ∃ s, exec (step handoverCfg) (start holder .empty)
      [.exportScan 0, .put ⟨fun _ => 0, 9⟩ [100] [107] [2] {}, .send .replied, .clearScan,
        .clearDelete, .clearDelete] = some s ∧
      s.stage = .done (.ok ()) ∧ ∃ a ∈ s.acked, ¬ s.Present a := by
  refine ⟨_, rfl, rfl, ⟨[100], 107, 9⟩, mem_singleton_self _, ?_⟩
  rintro (⟨e, he, hle⟩ | ⟨e, he, hle⟩)
  · cases he
  · cases he
    exact absurd hle (by decide)

/-- The same put after the migration stays on the sender. -/
theorem put_kept_after_migration : ∃ s, exec (step handoverCfg) (start holder .empty)
      [.exportScan 0, .send .replied, .clearScan, .clearDelete, .clearDelete,
        .put ⟨fun _ => 0, 9⟩ [100] [107] [2] {}] = some s ∧
      s.stage = .done (.ok ()) ∧ s.acked = [⟨[100], 107, 9⟩] ∧ ∀ a ∈ s.acked, s.Present a := by
  refine ⟨_, rfl, rfl, rfl, acked_present handoverCfg holder .empty holder_kept
    [.exportScan 0, .send .replied, .clearScan, .clearDelete, .clearDelete,
        .put ⟨fun _ => 0, 9⟩ [100] [107] [2] {}] _ ?_ rfl⟩
  refine .cons ?_ rfl (.cons trivial rfl (.cons trivial rfl (.cons trivial rfl
    (.cons trivial rfl (.cons ⟨fun h => h.2, ?_, ?_⟩ rfl trivial)))))
  · intro hkey e he _
    rw [(holder_slot he).2]
    rfl
  · exact noLru_setDMap (noLru_setDMap (fun _ => nofun) nofun) nofun
  · intro old hold
    cases hold

section Sequential

theorem exec_clearDelete (cfg : HandoverConfig) : ∀ (victims : List UInt64) (s : Handover),
    s.stage = .clearing victims → ∃ source,
      exec (step cfg) s (List.replicate (victims.length + 1) .clearDelete) =
        some { s with source, stage := .done (.ok ()) } ∧
      ∀ dmap hkey, source.slot dmap hkey =
        if dmap = cfg.plan.dmap ∧ hkey ∈ victims then none else s.source.slot dmap hkey
  | [], s, hst => by
    refine ⟨s.source, ?_, by simp⟩
    simp [exec, step, hst]
  | hk :: victims, s, hst => by
    obtain ⟨source, hrun, hslot⟩ := exec_clearDelete cfg victims
      { s with source := s.deleteStep cfg hk, stage := .clearing victims } rfl
    refine ⟨source, ?_, fun dmap hkey => ?_⟩
    · rw [length_cons, replicate_succ, exec]
      simp only [step, hst]
      exact hrun
    · rw [hslot, slot_deleteStep]
      by_cases hd : dmap = cfg.plan.dmap <;> by_cases hk' : hkey = hk <;> simp [hd, hk']

theorem exec_clear (cfg : HandoverConfig) (s : Handover) (hst : s.stage = .sent) :
    ∃ evs s', (∀ ev ∈ evs, ev = .clearScan ∨ ev = .clearDelete) ∧
      exec (step cfg) s evs = some s' ∧ s'.stage = .done (.ok ()) ∧ s'.acked = s.acked ∧
      s'.receiver = s.receiver ∧ ∀ dmap hkey, s'.source.slot dmap hkey =
        (s.source.clearPartition cfg.env cfg.partitionCount cfg.plan.dmap
          cfg.plan.partitionId).2.slot dmap hkey := by
  have hscan : s.step cfg .clearScan = some { s with stage := s.scanStep cfg } := by
    simp [step, hst]
  unfold scanStep at hscan
  unfold clearPartition
  rcases hl : s.source.dmaps.lookup cfg.plan.dmap with _ | d <;> rw [hl] at hscan
  · exact ⟨[.clearScan], _, by simp, exec_cons hscan, rfl, rfl, rfl, fun _ _ => rfl⟩
  dsimp only at hscan ⊢
  obtain ⟨source, hrun, hslot⟩ := exec_clearDelete cfg _ { s with stage := .clearing _ } rfl
  refine ⟨.clearScan :: List.replicate _ .clearDelete, _, ?_, (exec_cons hscan).trans hrun, rfl,
    rfl, rfl, fun dmap hkey => ?_⟩
  · exact forall_mem_cons.2 ⟨.inl rfl, fun ev h => .inr (eq_of_mem_replicate h)⟩
  dsimp only at hslot ⊢
  rw [hslot, slot_setDMap]
  by_cases hd : dmap = cfg.plan.dmap
  · rw [if_pos hd, Fragment.lookup_deleteAll, hd, slot, hl]
    simp
  · simp [hd]

/-- Run alone, the steps do what `migrate_one` does. -/
theorem exec_migrateOne (cfg : HandoverConfig) (s : Handover) (hst : s.stage = .idle) (c : Cluster)
    (hc : c cfg.plan.peer = s.receiver) (delivery : Delivery) (nowMicros : UInt64)
    {result : Except MigrationError Unit} {n : Node} {c' : Cluster}
    (h : migrateOne cfg.env cfg.partitionCount
      (forwarderTransport cfg.env (fun _ => cfg.routing) delivery) s.source c cfg.plan nowMicros =
        (result, n, c')) :
    ∃ evs s', (∀ ev ∈ evs, ev = .exportScan nowMicros ∨ ev = .send delivery ∨ ev = .clearScan ∨
        ev = .clearDelete) ∧
      exec (step cfg) s evs = some s' ∧ s'.stage = .done result ∧ s'.acked = s.acked ∧
      s'.receiver = c' cfg.plan.peer ∧
      ∀ dmap hkey, s'.source.slot dmap hkey = n.slot dmap hkey := by
  have hexp : s.step cfg (.exportScan nowMicros) =
      some { s with stage := s.exportStep cfg nowMicros } := by
    simp [step, hst]
  unfold migrateOne at h
  unfold exportStep at hexp
  split at h <;> rename_i hpay <;> rw [hpay] at hexp
  · cases h
    exact ⟨[.exportScan nowMicros], _, by simp, exec_cons hexp, rfl, rfl, hc.symm, fun _ _ => rfl⟩
  rename_i payload
  dsimp only at h hexp
  split_ifs at h hexp with hlen
  · cases h
    exact ⟨[.exportScan nowMicros], _, by simp, exec_cons hexp, rfl, rfl, hc.symm, fun _ _ => rfl⟩
  have hsend : step cfg { s with stage := .exported payload } (.send delivery) =
      some (sendStep cfg { s with stage := .exported payload } delivery payload) := rfl
  unfold sendStep at hsend
  simp only [forwarderTransport, hc] at h
  rcases hrecv : s.receiver.receiveFragment cfg.env cfg.routing cfg.plan.partitionId .primary
    cfg.plan.dmap payload with ⟨reply, r⟩
  rw [hrecv] at h hsend
  have hsent : ∀ {s₁} evs, step cfg { s with stage := .exported payload } (.send delivery) =
      some s₁ → exec (step cfg) s (.exportScan nowMicros :: .send delivery :: evs) =
        exec (step cfg) s₁ evs :=
    fun evs hs => (exec_cons hexp).trans (exec_cons hs)
  rcases delivery with _ | ⟨_ | _, e⟩
  · dsimp only at h hsend
    split at h <;> rename_i t hreply <;> obtain ⟨hr, rfl⟩ := Prod.mk.inj hreply <;>
      rw [hr] at hsend <;> cases h
    · exact ⟨_, _, by simp, hsent [] hsend, rfl, rfl, by simp, fun _ _ => rfl⟩
    obtain ⟨evs, s', hevs, hrun, hstage, hacked, hrecv', hslot⟩ :=
      exec_clear cfg { s with receiver := r, stage := .sent } rfl
    refine ⟨.exportScan nowMicros :: .send .replied :: evs, s', ?_, (hsent evs hsend).trans hrun,
      hstage, hacked, by simp [hrecv'], hslot⟩
    simp only [mem_cons, forall_eq_or_imp, true_or, or_true, true_and]
    exact fun ev hev => .inr (.inr (hevs ev hev))
  · cases h
    exact ⟨_, _, by simp, hsent [] hsend, rfl, rfl, hc.symm, fun _ _ => rfl⟩
  · cases h
    exact ⟨_, _, by simp, hsent [] hsend, rfl, rfl, by simp, fun _ _ => rfl⟩

theorem exec_migrateOne_holder : ∃ evs s',
    exec (step handoverCfg) (start holder .empty) evs = some s' ∧
      s'.stage = .done (.ok ()) ∧ s'.source.slot [100] 107 = none := by
  obtain ⟨evs, s', -, hrun, hdone, -, -, hslot⟩ := exec_migrateOne handoverCfg (start holder .empty)
    rfl (fun _ => .empty) rfl .replied 0 rfl
  exact ⟨evs, s', hrun, hdone, hslot [100] 107⟩

end Sequential

end Handover

end Kamino
