import Kamino.Proofs.Merge
import Kamino.Proofs.WriteHead

/-!
# Importing into an engine

An import merges each entry it decodes, until it meets one that it cannot. On the map that the
engine stands for, that is the merge of the storage trait.
-/

namespace Kamino

open Function Runs StorageEngine

theorem StorageEngine.IsMap.mergeAll_eq_iff {σ : Type} {engine : StorageEngine σ}
    {holds : σ → UInt64 → Option Entry} {Storable : Entry → Prop}
    (h : engine.IsMap holds Storable) (s : σ) (es : List (UInt64 × Entry)) :
    (∀ hkey, holds (engine.mergeAll s es) hkey = holds s hkey) ↔
      ∀ p ∈ es, Storable p.2 → ∃ x ∈ holds s p.1, p.2.timestampNanos ≤ x.timestampNanos := by
  constructor
  · intro heq p hp hs
    rw [← heq]
    exact (h.holds_mergeAll s es p.1).2 p.2 (.inr ⟨hp, hs⟩)
  intro hold hkey
  obtain ⟨hfrom, hbelow⟩ := h.holds_mergeAll s es hkey
  rcases hm : holds (engine.mergeAll s es) hkey with _ | e
  · refine (Option.eq_none_iff_forall_ne_some.2 fun e he => ?_).symm
    obtain ⟨e', he', -⟩ := hbelow e (.inl he)
    simp [hm] at he'
  rcases hfrom e hm with he | ⟨⟨hmem, hs⟩, hnew⟩
  · exact he.symm
  · obtain ⟨x, hx, hle⟩ := hold _ hmem hs
    exact absurd hle (not_le.2 (hnew x hx))

/-- The map that an engine stands for, as an engine. -/
def mapEngine : StorageEngine (UInt64 → Option Entry) where
  get m h := .ok (m h)
  put m h e := (.ok (), update m h (some e))

theorem isMap_mapEngine : mapEngine.IsMap (fun m => m) fun _ => True :=
  ⟨fun _ _ => rfl, fun _ _ _ _ => ⟨_, rfl, rfl⟩, fun _ _ _ h => absurd trivial h⟩

namespace RamBlock

variable {rb : RamBlock} {m : UInt64 → Option Entry} {h : UInt64} {e : Entry}

theorem Reads.putLww (hr : rb.Reads m) (he : e.Encodable) (hu : rb.StartsInU32 (.putLww h e)) :
    ∃ b rb', rb.putLww h e = (.ok b, rb') ∧ rb'.Reads (mapEngine.putLww m h e).2 := by
  have hreads := reads_apply (.putLww h e) hr fun hw => ⟨hu hw he, absurd he⟩
  have hmap : (mapEngine.putLww m h e).2 = EngineOp.onMap m (.putLww h e) := by
    simp only [StorageEngine.putLww, mapEngine, EngineOp.onMap, if_pos he]
    split_ifs <;> rfl
  rw [RamBlock.apply, hr.1.putLww_eq] at hreads
  rw [hmap, hr.1.putLww_eq]
  split_ifs at hreads ⊢ with hw
  · rw [put_fst hr.1 (hu hw), Entry.encodeInto_ok he]
    exact ⟨true, _, rfl, hreads⟩
  · exact ⟨false, rb, rfl, hreads⟩

theorem Reads.importEntries (count : ℕ) : ∀ {buf : Bytes} {rb : RamBlock}
    {m : UInt64 → Option Entry}, rb.Reads m →
    Guarded (fun rb op => some (rb.apply op)) StartsInU32 rb
      ((importedEntries count buf).map fun e => .putLww (hashKey e.key) e) →
    (RamBlock.importEntries count buf rb).2.Reads
        (mapEngine.mergeAll m ((importedEntries count buf).map fun e => (hashKey e.key, e))) ∧
      ((importedEntries count buf).length = count →
        (RamBlock.importEntries count buf rb).1 = .ok ()) := by
  induction count with
  | zero => exact fun hr _ => ⟨hr, fun _ => rfl⟩
  | succ count ih =>
    intro buf rb m hr hg
    rcases hd : Entry.decode buf with err | ⟨e, used⟩ <;>
      simp only [RamBlock.importEntries, importedEntries, hd] at hg ⊢
    · exact ⟨hr, fun h => absurd h (by simp)⟩
    obtain ⟨b, rb', hput, hr'⟩ := hr.putLww (Entry.decode_ok hd).2.1 hg.1
    have hg' := hg.2 _ rfl
    simp only [RamBlock.apply, hput, List.length_cons, Nat.succ_inj] at hg' ⊢
    exact ih hr' hg'

/-- The entries that an import decodes. -/
def imported (data : Bytes) : List Entry :=
  match importHeader data with
  | .error _ => []
  | .ok count => importedEntries count (data.drop 5)

/-- An import, also one that ends in an error, merges the entries it decodes. It changes no read
exactly where the engine holds nothing older than any of them. -/
theorem import_same_reads_iff (c : ℕ) (r : ℚ) (cs : List EngineCall) (data : Bytes)
    (hg : Guarded (fun rb c => some (rb.call c)) CallStartsInU32 (new c r) cs)
    (hstart : ((new c r).calls cs).CallStartsInU32 (.importData data)) :
    let rb := (new c r).calls cs
    (∃ m, (∀ x, rb.get x = .ok (m x)) ∧ ∀ x, (rb.importData data).2.get x
        = .ok (mapEngine.mergeAll m ((imported data).map fun e => (hashKey e.key, e)) x)) ∧
    ((∀ x, (rb.importData data).2.get x = rb.get x) ↔
      ∀ e ∈ imported data, ∃ kept, rb.get (hashKey e.key) = .ok (some kept)
        ∧ e.timestampNanos ≤ kept.timestampNanos) := by
  have w := wf_calls hg
  generalize (new c r).calls cs = rb at *
  unfold importData imported
  rcases hh : importHeader data with err | count
  · exact ⟨⟨_, w.get_eq, w.get_eq⟩, by simp⟩
  simp only [CallStartsInU32, EngineCall.ops, importOps, hh] at hstart
  obtain ⟨⟨w', hread⟩, -⟩ := Reads.importEntries count ⟨w, rfl⟩ hstart
  dsimp only
  refine ⟨⟨_, w.get_eq, fun x => by rw [w'.get_eq, hread]⟩, ?_⟩
  simp [w.get_eq, w'.get_eq, hread, Except.ok.injEq, isMap_mapEngine.mergeAll_eq_iff,
    Option.mem_def]

/-- Of two announced entries the first is there, and the engine holds a newer one. -/
theorem import_same_reads_held :
    let rb := (new 99 0).calls [.op (.put (hashKey [107]) ⟨[107], 0, 5, 5, [1]⟩)]
    let data := [1, 2, 0, 0, 0] ++ (Entry.mk [107] 0 1 1 [7]).record
    imported data = [⟨[107], 0, 1, 1, [7]⟩] ∧ ∀ x, (rb.importData data).2.get x = rb.get x := by
  have hentries : imported ([1, 2, 0, 0, 0] ++ (Entry.mk [107] 0 1 1 [7]).record)
      = [⟨[107], 0, 1, 1, [7]⟩] := by decide +kernel
  refine ⟨hentries, (import_same_reads_iff 99 0 _ _ (by decide +kernel) (by decide +kernel)).2.2 ?_⟩
  rw [hentries, List.forall_mem_singleton]
  exact ⟨⟨[107], 0, 5, 5, [1]⟩, by decide +kernel⟩

/-- Of two announced entries the first is there: the import fails and has stored it. -/
theorem rejected_import_stores :
    let done := (new 1024 0).importData ([1, 2, 0, 0, 0] ++ (Entry.mk [107] 0 1 1 [7]).record)
    done.1 = .error (.truncated 1) ∧ (new 1024 0).get (hashKey [107]) = .ok none
      ∧ done.2.get (hashKey [107]) = .ok (some ⟨[107], 0, 1, 1, [7]⟩) := by
  decide +kernel

end RamBlock

end Kamino
