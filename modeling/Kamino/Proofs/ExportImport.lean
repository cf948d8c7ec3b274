import Kamino.Proofs.Imports

/-!
# Exporting an engine and importing it

A payload carries the entries and not the keys they were stored under: import hashes them again, and
keeps of the copies of a key the first with the greatest timestamp.
-/

namespace Kamino

open Overlay Function Runs LittleEndian List

theorem mergeAll_mapEngine (es : List (UInt64 × Entry)) (x : UInt64) :
    mapEngine.mergeAll (fun _ => none) es x =
      ((es.filter fun p => p.1 = x).map Prod.snd).argmax Entry.timestampNanos := by
  induction es using reverseRecOn with
  | nil => rfl
  | append_singleton es p ih =>
    have hrun : mapEngine.mergeAll (fun _ => none) (es ++ [p]) =
        (mapEngine.putLww (mapEngine.mergeAll (fun _ => none) es) p.1 p.2).2 := by
      simp [StorageEngine.mergeAll]
    rw [hrun, filter_append, map_append]
    generalize mapEngine.mergeAll (fun _ => none) es = m at ih
    simp only [StorageEngine.putLww, mapEngine]
    by_cases hx : p.1 = x
    · subst hx
      rw [filter_cons_of_pos (by simp), filter_nil, map_singleton, argmax_concat, ← ih]
      rcases hold : m p.1 with _ | old
      · simp
      · by_cases hle : p.2.timestampNanos ≤ old.timestampNanos
        · simp [hle, hold]
        · simp [hle]
    · rw [filter_cons_of_neg (by simpa using hx), filter_nil, map_nil, append_nil, ← ih]
      split_ifs
      · rfl
      · exact update_of_ne (Ne.symm hx) _ _

namespace RamBlock

variable {rb : RamBlock} {h : UInt64} {e : Entry}

theorem mem_of_read {κ ν : Type} {k : κ} {v : ν} : ∀ {L : List (κ → Option ν)},
    read L k = some v → ∃ f ∈ L, f k = some v
  | f :: L, h => by
    rcases Option.or_eq_some_iff.1 h with h | ⟨-, h⟩
    · obtain ⟨g, hg, hv⟩ := mem_of_read h
      exact ⟨g, mem_cons_of_mem _ hg, hv⟩
    · exact ⟨f, mem_cons_self, h⟩

theorem encodable_of_mem_records (w : rb.WF) (hmem : (h, e) ∈ rb.records) : e.Encodable := by
  obtain ⟨t, ht, hmem⟩ := mem_flatMap.1 hmem
  obtain ⟨o, -, hd⟩ := (w.tables t ht).view_some ((w.tables t ht).mem_records.1 hmem)
  exact (Table.decodeAt_spec hd).2

theorem visit_exportEntry : ∀ (rs : List (UInt64 × Entry)) (buf : Bytes),
    (∀ p ∈ rs, p.2.Encodable) → Table.visit exportEntry rs (buf, none) =
      (true, buf ++ (rs.map Prod.snd).flatMap Entry.record, none)
  | [], _, _ => by simp [Table.visit]
  | r :: rs, buf, hrs => by
    have hr : exportEntry (buf, none) r.1 r.2 = (true, buf ++ r.2.record, none) := by
      simp only [exportEntry, Entry.encodeInto_ok (hrs r (by simp))]
    simp only [Table.visit, hr]
    rw [visit_exportEntry rs _ fun p hp => hrs p (by simp [hp])]
    simp

theorem WF.exportData_eq (w : rb.WF) (hlen : rb.len ≤ 4294967295) :
    rb.exportData = .ok (entriesV1 :: toLe 4 rb.len ++
      (rb.records.map Prod.snd).flatMap Entry.record) := by
  unfold exportData
  simp only
  rw [if_neg (Nat.not_lt.2 hlen), RamBlock.scan, w.liveTables, scanTables_eq _ _ _ w.tables,
    visit_exportEntry (rb.tables.flatMap Table.records) _ fun p hp => encodable_of_mem_records w hp]
  rfl

theorem importedEntries_records : ∀ {es : List Entry}, (∀ e ∈ es, e.Encodable) →
    importedEntries es.length (es.flatMap Entry.record) = es
  | [], _ => rfl
  | e :: es, h => by
    rw [length_cons, flatMap_cons, importedEntries, Entry.decode_record (h e (by simp))]
    simp only
    rw [← e.length_record, drop_left, importedEntries_records fun x hx => h x (by simp [hx])]

theorem importHeader_payload {n : ℕ} (hn : n ≤ 4294967295) (rest : Bytes) :
    importHeader (entriesV1 :: toLe 4 n ++ rest) = .ok n ∧
      (entriesV1 :: toLe 4 n ++ rest).drop 5 = rest := by
  have hlen : (toLe 4 n).length = 4 := length_toLe 4 n
  constructor
  · simp only [importHeader, cons_append]
    rw [if_neg (not_not.2 rfl), if_neg (by simp), drop_one, tail_cons, take_left' hlen,
      ofLe_toLe_of_lt (by omega)]
  · rw [cons_append, drop_succ_cons, drop_left' hlen]

/-- An export of the engine, imported into an empty one, reads the same. -/
def RoundTrips (rb empty : RamBlock) : Prop :=
  ∃ payload rb', rb.exportData = .ok payload ∧ empty.importData payload = (.ok (), rb') ∧
    ∀ x, rb'.get x = rb.get x

theorem importData_exportData {c : ℕ} {r : ℚ} (w : rb.WF) (hlen : rb.len ≤ 4294967295)
    (hstart : ∀ payload, rb.exportData = .ok payload →
      (new c r).CallStartsInU32 (.importData payload)) :
    ∃ payload rb', rb.exportData = .ok payload ∧ (new c r).importData payload = (.ok (), rb') ∧
      ∀ x, rb'.get x = .ok (mapEngine.mergeAll (fun _ => none)
        (rb.records.map fun p => (hashKey p.2.key, p.2)) x) := by
  have hs := hstart _ (w.exportData_eq hlen)
  obtain ⟨hheader, hdrop⟩ := importHeader_payload hlen
    ((rb.records.map Prod.snd).flatMap Entry.record)
  have hentries : importedEntries rb.len ((rb.records.map Prod.snd).flatMap Entry.record) =
      rb.records.map Prod.snd := by
    rw [w.len_eq, ← length_map Prod.snd, importedEntries_records]
    simpa using fun e x hx => encodable_of_mem_records w hx
  simp only [CallStartsInU32, EngineCall.ops, importOps, hheader, hdrop] at hs
  obtain ⟨⟨w', hread⟩, hok⟩ := Reads.importEntries rb.len ⟨WF.new c r, rfl⟩ hs
  rw [hentries, map_map] at hread
  refine ⟨_, _, w.exportData_eq hlen, ?_, fun x => by rw [w'.get_eq, hread]; rfl⟩
  simp only [importData, hheader, hdrop]
  exact Prod.ext (hok (by rw [hentries, length_map, w.len_eq])) rfl

/-- A round trip keeps every read just when the count fits its header, import's own hash is the
node's on the stored keys, and the copy of a key that is read is, of its copies from the oldest, the
first with the greatest timestamp. -/
theorem roundTrips_iff {c c' : ℕ} {r r' : ℚ} {cs : List EngineCall} {hash : Bytes → UInt64}
    (hg : Guarded (fun rb c => some (rb.call c)) CallStartsInU32 (new c r) cs)
    (hkeys : ∀ p ∈ ((new c r).calls cs).records, p.1 = hash p.2.key)
    (hinj : ∀ p ∈ ((new c r).calls cs).records, ∀ q ∈ ((new c r).calls cs).records,
      hash p.2.key = hash q.2.key → p.2.key = q.2.key)
    (hstart : ∀ payload, ((new c r).calls cs).exportData = .ok payload →
      (new c' r').CallStartsInU32 (.importData payload)) :
    RoundTrips ((new c r).calls cs) (new c' r') ↔ ((new c r).calls cs).len ≤ 4294967295 ∧
      (∀ p ∈ ((new c r).calls cs).records, hashKey p.2.key = hash p.2.key) ∧
      ∀ x, ((new c r).calls cs).get x = .ok (((((new c r).calls cs).records.filter
        fun p => p.1 = x).map Prod.snd).argmax Entry.timestampNanos) := by
  have w := wf_calls hg
  generalize (new c r).calls cs = rb at *
  have hrehash (hhash : ∀ p ∈ rb.records, hashKey p.2.key = hash p.2.key) :
      rb.records.map (fun p => (hashKey p.2.key, p.2)) = rb.records := by
    refine (map_congr_left fun p hp => ?_).trans (map_id _)
    rw [hhash p hp, ← hkeys p hp, id]
  constructor
  · rintro ⟨payload, rb', hexport, heq, hget⟩
    have hlen : rb.len ≤ 4294967295 := by
      by_contra hgt
      rw [exportData, if_pos (by omega)] at hexport
      cases hexport
    obtain ⟨payload₁, rb₁, hexport₁, heq₁, hget₁⟩ := importData_exportData w hlen hstart
    obtain rfl : payload₁ = payload := Except.ok.inj (hexport₁.symm.trans hexport)
    obtain rfl : rb₁ = rb' := (Prod.mk.inj (heq₁.symm.trans heq)).2
    have hhash : ∀ p ∈ rb.records, hashKey p.2.key = hash p.2.key := by
      rintro ⟨x, e⟩ hp
      obtain ⟨f, hf, hfx⟩ := (mem_records w).1 hp
      rcases hread : read rb.layers x with _ | e'
      · have hcopies := countP_eq_zero.1 (read_eq_none.1 hread) f hf
        rw [hfx] at hcopies
        cases hcopies rfl
      have hp' := (mem_records w).2 (mem_of_read hread)
      have hkey : e.key = e'.key := hinj _ hp _ hp' ((hkeys _ hp).symm.trans (hkeys _ hp'))
      have hnew := (hget₁ x).symm.trans (hget x)
      rw [w.get_eq, hread, Except.ok.injEq] at hnew
      rcases (isMap_mapEngine.holds_mergeAll _ _ x).1 e' hnew with hnone | ⟨⟨hmem, -⟩, -⟩
      · cases hnone
      obtain ⟨q, -, hq⟩ := mem_map.1 hmem
      obtain ⟨hx, rfl⟩ := Prod.mk.inj hq
      rw [hkey, hx, ← hkey]
      exact hkeys _ hp
    refine ⟨hlen, hhash, fun x => ?_⟩
    rw [← hget, hget₁, hrehash hhash, mergeAll_mapEngine]
  · rintro ⟨hlen, hhash, hget⟩
    obtain ⟨payload, rb', hexport, heq, hget'⟩ := importData_exportData w hlen hstart
    refine ⟨payload, rb', hexport, heq, fun x => ?_⟩
    rw [hget', hget, hrehash hhash, mergeAll_mapEngine]

theorem roundTrips_not :
    ¬ RoundTrips ((new 1024 0).calls [.op (.put 107 ⟨[107], 0, 1, 1, [7]⟩)]) (new 1024 0) := by
  have hrecords : ((new 1024 0).calls [.op (.put 107 ⟨[107], 0, 1, 1, [7]⟩)]).records =
      [(107, ⟨[107], 0, 1, 1, [7]⟩)] := by decide +kernel
  intro h
  have hiff := (@roundTrips_iff _ _ _ _ _ (fun key => UInt64.ofNat (ofLe key)) (by decide +kernel)
    (by rw [hrecords]; decide) (by rw [hrecords]; decide) fun payload hp => by
      rw [show payload = _ from (Except.ok.inj hp).symm]
      decide +kernel).1 h
  have := hiff.2.1 _ (by rw [hrecords]; exact mem_cons_self)
  revert this
  decide +kernel

/-- A node whose hasher reads a key as a number loses what it exports: import files the key under
another hash. -/
theorem roundTrip_loses :
    ((new 1024 0).put 107 ⟨[107], 0, 1, 1, [7]⟩).2.get 107 = .ok (some ⟨[107], 0, 1, 1, [7]⟩) ∧
    ∃ payload, ((new 1024 0).put 107 ⟨[107], 0, 1, 1, [7]⟩).2.exportData = .ok payload ∧
      ((new 1024 0).importData payload).1 = .ok () ∧
      ((new 1024 0).importData payload).2.get 107 = .ok none :=
  ⟨rfl, _, rfl, rfl, rfl⟩

end RamBlock

end Kamino
