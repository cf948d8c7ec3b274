import Kamino.Proofs.RamBlock
import Mathlib.Data.Set.Card
import Mathlib.Data.List.Nodup

/-!
# The engine as a map

`EngineOp.onMap` is what a call does to the map the engine stands for.
-/

namespace Kamino

open Overlay Function Runs List RamBlock

/-- A call on the map from hash keys to entries. A put that the record format refuses does
nothing, and neither does a `put_lww` against an entry at least as new. -/
def EngineOp.onMap (m : UInt64 → Option Entry) : EngineOp → UInt64 → Option Entry
  | .put h e => if e.Encodable then update m h (some e) else m
  | .putLww h e =>
    if (m h).any (fun existing => existing.timestampNanos ≥ e.timestampNanos) then m
    else if e.Encodable then update m h (some e) else m
  | .delete h => update m h none
  | .compact => m

def mapAfter (ops : List EngineOp) : UInt64 → Option Entry :=
  ops.foldl EngineOp.onMap fun _ => none

namespace RamBlock

def lwwWrites (rb : RamBlock) (h : UInt64) (e : Entry) : Bool :=
  match rb.get h with
  | .ok existing => !existing.any fun existing => existing.timestampNanos ≥ e.timestampNanos
  | .error _ => false

def KeepsMap (rb : RamBlock) : EngineOp → Prop
  | .put h e => rb.offsetFits e.encodedLen ∧ (¬ e.Encodable → rb.liveState h ≠ some .readOnly)
  | .putLww h e => rb.lwwWrites h e → rb.offsetFits e.encodedLen ∧
      (¬ e.Encodable → rb.liveState h ≠ some .readOnly)
  | .delete h => rb.holders h ≤ 1
  | .compact => True

def KeepsSingle (rb : RamBlock) : EngineOp → Prop
  | .put h e => rb.offsetFits e.encodedLen ∧
      (rb.headHolds h → rb.headFits e.encodedLen ∨ ¬ e.Encodable)
  | .putLww h e => rb.lwwWrites h e → rb.offsetFits e.encodedLen ∧
      (rb.headHolds h → rb.headFits e.encodedLen ∨ ¬ e.Encodable)
  | .delete _ => True
  | .compact => True

instance (rb : RamBlock) : ∀ op, Decidable (rb.KeepsMap op)
  | .put _ _ => inferInstanceAs (Decidable (_ ∧ _))
  | .putLww _ _ => inferInstanceAs (Decidable (_ → _))
  | .delete _ => inferInstanceAs (Decidable (_ ≤ _))
  | .compact => .isTrue trivial

instance (rb : RamBlock) : ∀ op, Decidable (rb.KeepsSingle op)
  | .put _ _ => inferInstanceAs (Decidable (_ ∧ _))
  | .putLww _ _ => inferInstanceAs (Decidable (_ → _))
  | .delete _ => .isTrue trivial
  | .compact => .isTrue trivial

section Run

variable {rb : RamBlock} {h : UInt64} {e : Entry}

theorem putLww_snd (rb : RamBlock) (h : UInt64) (e : Entry) :
    (rb.putLww h e).2 = if rb.lwwWrites h e then (rb.put h e).2 else rb := by
  unfold putLww lwwWrites
  rcases rb.get h with err | existing
  · rfl
  simp only []
  by_cases hany : existing.any (fun old => old.timestampNanos ≥ e.timestampNanos) = true
  · simp [hany]
  · rw [if_neg hany, if_pos (by simpa using hany)]
    rcases rb.put h e with ⟨_ | _, rb'⟩ <;> rfl

theorem lwwWrites_eq (w : rb.WF) : rb.lwwWrites h e =
    !(Overlay.read rb.layers h).any fun old => old.timestampNanos ≥ e.timestampNanos := by
  unfold lwwWrites
  rw [w.get_eq]

/-- The engine's layers read as the map. -/
def Reads (rb : RamBlock) (m : UInt64 → Option Entry) : Prop :=
  rb.WF ∧ Overlay.read rb.layers = m

variable {m : UInt64 → Option Entry}

theorem reads_put (hr : rb.Reads m)
    (hk : rb.offsetFits e.encodedLen ∧ (¬ e.Encodable → rb.liveState h ≠ some .readOnly)) :
    (rb.put h e).2.Reads (if e.Encodable then update m h (some e) else m) := by
  obtain ⟨w, rfl⟩ := hr
  refine ⟨w.put (fun _ => hk.1) h, ?_⟩
  split_ifs with he
  · exact read_put w he hk.1 h
  · exact read_put_refused w he (hk.2 he)

theorem reads_apply (op : EngineOp) (hr : rb.Reads m)
    (hk : rb.KeepsMap op) : (rb.apply op).Reads (op.onMap m) := by
  rcases op with ⟨h, e⟩ | ⟨h, e⟩ | h | _
  · exact reads_put hr hk
  · have hw := lwwWrites_eq (h := h) (e := e) hr.1
    rw [hr.2] at hw
    simp only [apply, EngineOp.onMap, putLww_snd]
    by_cases hany : (m h).any (fun old => old.timestampNanos ≥ e.timestampNanos) = true
    · rw [hany] at hw
      rw [if_pos hany, hw]
      exact hr
    rw [if_neg hany]
    rw [Bool.not_eq_true] at hany
    rw [hany, Bool.not_false] at hw
    rw [if_pos hw]
    exact reads_put hr (hk hw)
  · obtain ⟨w, rfl⟩ := hr
    obtain ⟨w', hl⟩ := w.delete h
    refine ⟨w', ?_⟩
    change Overlay.read (rb.delete h).2.layers = update _ h none
    rw [hl]
    have hone : copies rb.layers h ≤ 1 := w.holders h ▸ hk
    funext k
    by_cases hkh : k = h
    · rw [hkh, update_self, read_eraseNewest_eq_none.2 hone]
    · rw [update_of_ne hkh, read_eraseNewest_ne hkh]
  · obtain ⟨w, rfl⟩ := hr
    exact ⟨w.compact.1, congrArg Overlay.read w.compact.2⟩

theorem reads_new (c : ℕ) (r : ℚ) : (new c r).Reads fun _ => none := by
  refine ⟨.new c r, funext fun h => read_eq_none.2 ?_⟩
  rw [← (WF.new c r).holders]
  rfl

/-- An engine whose calls all keep the map reads as the map. -/
theorem get_run (c : ℕ) (r : ℚ) (ops : List EngineOp)
    (hg : Guarded (fun rb op => some (rb.apply op)) KeepsMap (new c r) ops)
    (h : UInt64) : ((new c r).run ops).get h = .ok (mapAfter ops h) := by
  have hr : ((new c r).run ops).Reads (mapAfter ops) :=
    Guarded.foldl_rel (R := Reads) (fun _ _ op hr hk => reads_apply op hr hk) (reads_new c r) hg
  rw [hr.1.get_eq, hr.2]

theorem get_run_sealed :
    ((new 30 (1 / 2)).run [.put 1 ⟨[1], 0, 1, 1, []⟩, .put 2 ⟨[2], 0, 1, 1, []⟩,
      .putLww 1 ⟨[1], 0, 2, 2, [7]⟩, .compact, .delete 2]).get 1
      = .ok (some ⟨[1], 0, 2, 2, [7]⟩) :=
  get_run 30 (1 / 2) _ (by decide +kernel) 1

/-- A key overwritten while the head is full keeps its old copy, and a delete brings it back. -/
theorem get_run_resurrects :
    ((new 30 (1 / 2)).run [.put 1 ⟨[1], 0, 1, 1, []⟩, .put 1 ⟨[1], 0, 2, 2, []⟩,
      .delete 1]).get 1 = .ok (some ⟨[1], 0, 1, 1, []⟩) ∧
    mapAfter [.put 1 ⟨[1], 0, 1, 1, []⟩, .put 1 ⟨[1], 0, 2, 2, []⟩, .delete 1] 1 = none := by
  decide +kernel

end Run

/-! ## One copy of each key -/

section Single

variable {rb : RamBlock} {h : UInt64} {e : Entry}

def Single (rb : RamBlock) : Prop := rb.WF ∧ ∀ h, copies rb.layers h ≤ 1

theorem single_put (hr : rb.Single) (hk : rb.offsetFits e.encodedLen ∧
    (rb.headHolds h → rb.headFits e.encodedLen ∨ ¬ e.Encodable)) : (rb.put h e).2.Single := by
  obtain ⟨w, hone⟩ := hr
  refine ⟨w.put (fun _ => hk.1) h, fun k => ?_⟩
  by_cases he : e.Encodable
  · exact copies_put w he hk.1 hone (fun hh => (hk.2 hh).resolve_right (not_not_intro he)) k
  · exact (copies_put_refused w he h k).trans (hone k)

theorem single_apply (op : EngineOp) (hr : rb.Single) (hk : rb.KeepsSingle op) :
    (rb.apply op).Single := by
  rcases op with ⟨h, e⟩ | ⟨h, e⟩ | h | _
  · exact single_put hr hk
  · simp only [apply, putLww_snd]
    split_ifs with hw
    · exact single_put hr (hk hw)
    · exact hr
  · obtain ⟨w, hone⟩ := hr
    obtain ⟨w', hl⟩ := w.delete h
    refine ⟨w', fun k => ?_⟩
    change copies (rb.delete h).2.layers k ≤ 1
    rw [hl]
    by_cases hkh : k = h
    · rw [hkh, copies_eraseNewest]
      exact (Nat.sub_le _ _).trans (hone h)
    · rw [copies_eraseNewest_ne hkh]
      exact hone k
  · obtain ⟨w, hone⟩ := hr
    exact ⟨w.compact.1, fun k => by rw [apply, w.compact.2]; exact hone k⟩

theorem single_new (c : ℕ) (r : ℚ) : (new c r).Single := by
  refine ⟨.new c r, fun h => ?_⟩
  rw [← (WF.new c r).holders]
  exact Nat.zero_le _

def records (rb : RamBlock) : List (UInt64 × Entry) := rb.tables.flatMap Table.records

theorem scanTables_eq {σ : Type} (callback : σ → UInt64 → Entry → Bool × σ) :
    ∀ (ts : List Table) (s : σ), (∀ t ∈ ts, t.WF) →
      scanTables callback ts s = (.ok (), (Table.visit callback (ts.flatMap Table.records) s).2)
  | [], s, _ => rfl
  | t :: ts, s, hw => by
    rw [scanTables, (hw t (by simp)).scan, flatMap_cons, Table.visit_append]
    rcases Table.visit callback t.records s with ⟨_ | _, s'⟩
    · rfl
    · exact scanTables_eq callback ts s' fun t' ht' => hw t' (by simp [ht'])

theorem mem_records (w : rb.WF) : (h, e) ∈ rb.records ↔ ∃ f ∈ rb.layers, f h = some e := by
  simp only [records, layers, mem_flatMap, mem_map, exists_exists_and_eq_and]
  constructor
  · rintro ⟨t, ht, hmem⟩
    exact ⟨t, ht, (w.tables t ht).mem_records.1 hmem⟩
  · rintro ⟨t, ht, hv⟩
    exact ⟨t, ht, (w.tables t ht).mem_records.2 hv⟩

theorem records_nodup_of_copies : ∀ ts : List Table, (∀ t ∈ ts, t.WF) →
    (∀ h, copies (ts.map Table.view) h ≤ 1) → ((ts.flatMap Table.records).map Prod.fst).Nodup
  | [], _, _ => nodup_nil
  | t :: ts, hw, hone => by
    have wts : ∀ t' ∈ ts, t'.WF := fun t' ht' => hw t' (by simp [ht'])
    have hc : ∀ h, copies (ts.map Table.view) h + (if (t.view h).isSome then 1 else 0) ≤ 1 :=
      fun h => by rw [← copies_cons]; exact hone h
    rw [flatMap_cons, map_append, nodup_append]
    refine ⟨t.records_nodup, records_nodup_of_copies ts wts fun h => by have := hc h; omega, ?_⟩
    rintro h hh h' hh' rfl
    obtain ⟨⟨h, e⟩, hmem, rfl⟩ := mem_map.1 hh
    obtain ⟨⟨h', e'⟩, hmem', hkk⟩ := mem_map.1 hh'
    simp only [] at hkk
    subst hkk
    obtain ⟨t', ht', hmem'⟩ := mem_flatMap.1 hmem'
    have hv := (hw t (by simp)).mem_records.1 hmem
    have hv' := (wts t' ht').mem_records.1 hmem'
    have hpos : 0 < copies (ts.map Table.view) h' := by
      refine countP_pos_iff.2 ⟨t'.view, mem_map_of_mem ht', ?_⟩
      rw [hv']
      rfl
    have := hc h'
    rw [hv] at this
    simp only [Option.isSome_some, if_true] at this
    omega

theorem Single.records_nodup (hr : rb.Single) : (rb.records.map Prod.fst).Nodup :=
  records_nodup_of_copies rb.tables hr.1.tables hr.2

theorem Single.mem_records (hr : rb.Single) : (h, e) ∈ rb.records ↔ rb.get h = .ok (some e) := by
  rw [RamBlock.mem_records hr.1, hr.1.get_eq, Except.ok.injEq, read_eq_some (hr.2 h)]

theorem WF.len_eq (w : rb.WF) : rb.len = rb.records.length := by
  unfold len records
  rw [w.liveTables, length_flatMap]
  congr 1
  exact map_congr_left fun t ht => (w.tables t ht).len_eq

theorem WF.inuse_eq (w : rb.WF) : rb.inuse = (rb.records.map fun v => v.2.encodedLen).sum := by
  unfold inuse records
  rw [w.liveTables, map_flatMap, flatMap_def, sum_flatten, map_map]
  congr 1
  exact map_congr_left fun t ht => (w.tables t ht).inuse_eq

theorem Single.ncard_live (hr : rb.Single) : {h | 0 < rb.holders h}.ncard = rb.len := by
  have hset : {h | 0 < rb.holders h} = ↑(rb.records.map Prod.fst).toFinset := by
    ext h
    rw [Set.mem_ofPred_eq, hr.1.holders, Finset.mem_coe, mem_toFinset, mem_map,
      Nat.pos_iff_ne_zero, ne_eq, ← read_eq_none, ← ne_eq, Option.ne_none_iff_exists']
    constructor
    · rintro ⟨e, he⟩
      exact ⟨(h, e), hr.mem_records.2 (by rw [hr.1.get_eq, he]), rfl⟩
    rintro ⟨⟨h, e⟩, hmem, rfl⟩
    have := hr.mem_records.1 hmem
    rw [hr.1.get_eq, Except.ok.injEq] at this
    exact ⟨e, this⟩
  rw [hset, Set.ncard_coe_finset, toFinset_card_of_nodup hr.records_nodup, length_map, hr.1.len_eq]

/-- An engine whose puts never leave an old copy in a head they seal has each key in one table,
and its `scan`, `len` and `inuse` count each live key once. -/
theorem run_single (c : ℕ) (r : ℚ) (ops : List EngineOp)
    (hg : Guarded (fun rb op => some (rb.apply op)) KeepsSingle (new c r) ops) :
    (∀ h, ((new c r).run ops).holders h ≤ 1) ∧
    ((new c r).run ops).len = {h | 0 < ((new c r).run ops).holders h}.ncard ∧
    ∃ vs : List (UInt64 × Entry), (vs.map Prod.fst).Nodup ∧
      (∀ h e, (h, e) ∈ vs ↔ ((new c r).run ops).get h = .ok (some e)) ∧
      ((new c r).run ops).inuse = (vs.map fun v => v.2.encodedLen).sum ∧
      ∀ (σ : Type) (callback : σ → UInt64 → Entry → Bool × σ),
        (∀ s h e, (callback s h e).1 = true) → ∀ s,
        ((new c r).run ops).scan callback s
          = (.ok (), vs.foldl (fun s v => (callback s v.1 v.2).2) s) := by
  have hr : ((new c r).run ops).Single :=
    Guarded.foldl_invariant (fun _ op hr hk => single_apply op hr hk) (single_new c r) hg
  refine ⟨fun h => ?_, hr.ncard_live.symm, _, hr.records_nodup, fun _ _ => hr.mem_records,
    hr.1.inuse_eq, fun σ callback hgo s => ?_⟩
  · rw [hr.1.holders]
    exact hr.2 h
  · unfold scan
    rw [hr.1.liveTables, scanTables_eq callback _ s hr.1.tables, Table.visit_foldl hgo]
    rfl

theorem run_single_sealed :
    let rb := (new 30 (1 / 2)).run [.put 1 ⟨[1], 0, 1, 1, []⟩, .put 2 ⟨[2], 0, 1, 1, []⟩,
      .putLww 1 ⟨[1], 0, 2, 2, []⟩, .compact, .delete 2]
    rb.len = {h | 0 < rb.holders h}.ncard :=
  (run_single 30 (1 / 2) _ (by decide +kernel)).2.1

/-- Two puts of one key into a head with room for one leave it in two tables. -/
theorem run_two_copies :
    let rb := (new 30 (1 / 2)).run [.put 1 ⟨[1], 0, 1, 1, []⟩, .put 1 ⟨[1], 0, 2, 2, []⟩]
    rb.holders 1 = 2 ∧ rb.len = 2 ∧ (rb.scan (fun ks h _ => (true, ks ++ [h])) []).2 = [1, 1] := by
  decide +kernel

end Single

end RamBlock

end Kamino
