import Kamino.Proofs.Engine
import Mathlib.Algebra.Order.Field.Rat
import Mathlib.Data.Nat.Cast.Order.Field

/-!
# Compaction over whole histories

A compaction rewrites the sealed tables whose garbage ratio is above the threshold, and nothing that
reads the engine can tell (`Compacted`).
-/

namespace Kamino

open Overlay Function Runs Table List

namespace RamBlock

/-- What a compaction from `rb` to `rb'` that reports `reclaimed` bytes keeps and does. -/
structure Compacted (rb rb' : RamBlock) (reclaimed : ℕ) : Prop where
  get : ∀ h, rb'.get h = rb.get h
  len : rb'.len = rb.len
  inuse : rb'.inuse = rb.inuse
  scan : ∀ {σ : Type} (callback : σ → UInt64 → Entry → Bool × σ) (s : σ),
    rb'.scan callback s = rb.scan callback s
  head : rb'.tables.getLast? = rb.tables.getLast?
  kept : ∀ (i : ℕ) (t : Table), rb.tables[i]? = some t →
    t.state = .readWrite ∨ t.garbageRatio ≤ rb.maxGarbageRatio → rb'.tables[i]? = some t
  clean : ∀ t ∈ rb'.tables, t.state = .readOnly → t.garbageRatio ≤ rb.maxGarbageRatio
  reclaimed : reclaimed = ((rb.tables.filter fun t =>
    t.state = .readOnly ∧ rb.maxGarbageRatio < t.garbageRatio).map (·.garbageBytes)).sum

section Compact

variable {rb : RamBlock}

theorem records_compact (w : rb.WF) : rb.compact.2.records = rb.records := by
  rw [w.compact_eq, records, records, flatMap_map]
  exact flatMap_congr fun t ht => (rewritten_spec _ (w.tables t ht)).2.2

theorem rewritten_ratio {ratio : ℚ} {t : Table} (w : t.WF) (hratio : 0 ≤ ratio)
    (hs : (rewritten ratio t).state = .readOnly) : (rewritten ratio t).garbageRatio ≤ ratio := by
  rcases h : due ratio t
  · rw [rewritten_not_due h] at hs ⊢
    rw [due, decide_eq_false_iff_not, not_and, not_lt] at h
    exact h hs
  · obtain ⟨new, -, heq, -, -, hgarbage, -⟩ := rewritten_due w h
    rw [heq, garbageRatio, sealed_garbageBytes, hgarbage, Nat.cast_zero, zero_div, ite_self]
    exact hratio

theorem WF.compacted (w : rb.WF) (hratio : 0 ≤ rb.maxGarbageRatio) :
    ∃ n rb', rb.compact = (.ok n, rb') ∧ Compacted rb rb' n := by
  obtain ⟨w', hlayers⟩ := w.compact
  have hrecords := records_compact w
  refine ⟨_, _, w.compact_eq, ?_⟩
  have hsnd := congrArg Prod.snd w.compact_eq
  simp only [] at hsnd
  rw [← hsnd]
  refine ⟨fun h => ?_, ?_, ?_, fun callback s => ?_, ?_, fun i t hi ht => ?_, fun t ht hs => ?_,
    rfl⟩
  · rw [w'.get_eq, w.get_eq, hlayers]
  · rw [w'.len_eq, w.len_eq, hrecords]
  · rw [w'.inuse_eq, w.inuse_eq, hrecords]
  · unfold scan
    rw [w'.liveTables, w.liveTables, scanTables_eq callback _ s w'.tables,
      scanTables_eq callback _ s w.tables]
    exact congrArg (fun rs => (_, (visit callback rs s).2)) hrecords
  · obtain ⟨old, head, ht, hs, -⟩ := w.split
    have hdue : due rb.maxGarbageRatio head = false := by simp [due, hs]
    rw [hsnd, ht, map_append, map_singleton, getLast?_concat, getLast?_concat,
      rewritten_not_due hdue]
  · have hdue : due rb.maxGarbageRatio t = false := by
      rcases ht with hs | hr
      · simp [due, hs]
      · simp [due, hr]
    rw [hsnd, getElem?_map, hi, Option.map_some, rewritten_not_due hdue]
  · rw [hsnd] at ht
    obtain ⟨t₀, ht₀, rfl⟩ := mem_map.1 ht
    exact rewritten_ratio (w.tables t₀ ht₀) hratio hs

end Compact

section Run

variable {rb : RamBlock}

/-- A call that writes a record starts it at an offset that fits the offset index. -/
def StartsInU32 (rb : RamBlock) : EngineOp → Prop
  | .put _ e => e.Encodable → rb.offsetFits e.encodedLen
  | .putLww h e => rb.lwwWrites h e → e.Encodable → rb.offsetFits e.encodedLen
  | .delete _ => True
  | .compact => True

instance (rb : RamBlock) : ∀ op, Decidable (rb.StartsInU32 op)
  | .put _ _ => inferInstanceAs (Decidable (_ → _))
  | .putLww _ _ => inferInstanceAs (Decidable (_ → _))
  | .delete _ => .isTrue trivial
  | .compact => .isTrue trivial

theorem wf_apply (op : EngineOp) (w : rb.WF) (hk : rb.StartsInU32 op) : (rb.apply op).WF := by
  rcases op with ⟨h, e⟩ | ⟨h, e⟩ | h | _
  · exact w.put hk h
  · simp only [apply, putLww_snd]
    split_ifs with hw
    · exact w.put (hk hw) h
    · exact w
  · exact (w.delete h).1
  · exact w.compact.1

theorem writeHead_ratio (rb : RamBlock) (h : UInt64) (e : Entry) :
    (rb.writeHead h e).2.maxGarbageRatio = rb.maxGarbageRatio := by
  have hroom : (rb.ensureWritableFor e.encodedLen).maxGarbageRatio = rb.maxGarbageRatio := by
    unfold ensureWritableFor
    split
    · split
      · split_ifs <;> rfl
      · rfl
    · rfl
  unfold writeHead
  simp only []
  split
  · exact hroom
  · rcases append _ h e with ⟨_ | _ | _, head⟩ <;> exact hroom

theorem deleteAt_ratio (rb : RamBlock) (i : ℕ) (h : UInt64) :
    (rb.deleteAt i h).2.maxGarbageRatio = rb.maxGarbageRatio := by
  unfold deleteAt
  split <;> rfl

theorem put_ratio (rb : RamBlock) (h : UInt64) (e : Entry) :
    (rb.put h e).2.maxGarbageRatio = rb.maxGarbageRatio := by
  unfold put
  split
  · exact writeHead_ratio rb h e
  rename_i i _
  split_ifs
  · have hdelete := deleteAt_ratio rb i h
    rcases hd : rb.deleteAt i h with ⟨_ | _, rb'⟩ <;> rw [hd] at hdelete
    · exact hdelete
    · exact (writeHead_ratio rb' h e).trans hdelete
  · exact writeHead_ratio rb h e

theorem apply_ratio (rb : RamBlock) (op : EngineOp) :
    (rb.apply op).maxGarbageRatio = rb.maxGarbageRatio := by
  rcases op with ⟨h, e⟩ | ⟨h, e⟩ | h | _
  · exact put_ratio rb h e
  · simp only [apply, putLww_snd]
    split_ifs
    · exact put_ratio rb h e
    · rfl
  · unfold apply delete
    simp only []
    split
    · rfl
    · exact deleteAt_ratio rb _ h
  · unfold apply compact
    simp only []
    split <;> rfl

/-- After any history whose records start at offsets that fit `u32`, a compaction succeeds, cannot
be seen by a reader, and leaves no sealed table above the threshold. -/
theorem compact_run (c : ℕ) (r : ℚ) (hr : 0 ≤ r) (ops : List EngineOp)
    (hg : Guarded (fun rb op => some (rb.apply op)) StartsInU32 (RamBlock.new c r) ops) :
    ∃ n rb', ((RamBlock.new c r).run ops).compact = (.ok n, rb') ∧
      Compacted ((RamBlock.new c r).run ops) rb' n := by
  have hstep (rb : RamBlock) (op : EngineOp) (h : rb.WF ∧ rb.maxGarbageRatio = r)
      (hk : rb.StartsInU32 op) : (rb.apply op).WF ∧ (rb.apply op).maxGarbageRatio = r :=
    ⟨wf_apply op h.1 hk, (apply_ratio rb op).trans h.2⟩
  obtain ⟨w, hratio⟩ := Guarded.foldl_invariant hstep ⟨.new c r, rfl⟩ hg
  exact w.compacted (hratio.symm ▸ hr)

theorem compact_run_sealed :
    let rb := (RamBlock.new 60 0).run [.put 1 ⟨[1], 0, 1, 1, []⟩, .put 2 ⟨[2], 0, 1, 1, []⟩,
      .put 3 ⟨[3], 0, 1, 1, []⟩, .put 1 ⟨[1], 0, 2, 2, []⟩]
    ∃ n rb', rb.compact = (.ok n, rb') ∧ Compacted rb rb' n :=
  compact_run 60 0 le_rfl _ (by decide +kernel)

end Run

/-! ## Past the offset index -/

section Past

variable {t : Table} {h : UInt64} {e b : Entry}

theorem append_past {o : ℕ} (hs : t.state = .readWrite)
    (hroom : t.offset + e.encodedLen ≤ t.capacity) (he : e.Encodable)
    (hpast : 4294967295 < t.offset) (hl : t.hkeys.lookup h = some o) (ho : o ≤ 4294967295)
    (hd : t.decodeAt o = .ok b) :
    ∃ err t', t.append h e = (.error err, t') ∧ t'.state = .readWrite ∧
      t'.capacity = t.capacity ∧ t'.offset = t.offset + e.encodedLen ∧
      t'.garbageBytes = t.garbageBytes + b.encodedLen ∧ t'.hkeys.lookup h = some t.offset := by
  have hstart : offsetToU32 t.offset = .error
      (.panicked "table offsets must fit in u32 (≤ 4 GiB tables)") := if_neg (by omega)
  simp only [append]
  rw [if_neg (by omega), Entry.encodeInto_ok he]
  simp only [hl]
  rw [demote_ok ho (decodeAt_extend rfl hd)]
  simp only [promote, hstart]
  exact ⟨_, _, rfl, hs, rfl, rfl, rfl, AList.lookup_insert _⟩

theorem offToHkey_past : ∀ (l : List (Sigma fun _ : UInt64 => ℕ)) (m : HMap ℕ UInt64),
    (∃ p ∈ l, 4294967295 < p.2) → ∃ err, offToHkey l m = .error err
  | [], _, ⟨p, hp, _⟩ => absurd hp not_mem_nil
  | ⟨h, o⟩ :: l, m, ⟨p, hp, hpast⟩ => by
    rw [offToHkey, offsetToU32]
    by_cases ho : o ≤ 4294967295
    · rw [if_pos ho]
      rcases mem_cons.1 hp with rfl | hp
      · exact absurd ho (Nat.not_le.2 hpast)
      · exact offToHkey_past l _ ⟨p, hp, hpast⟩
    · rw [if_neg ho]
      exact ⟨_, rfl⟩

theorem compactTable_past {o : ℕ} (c : ℕ) (hl : t.hkeys.lookup h = some o)
    (hpast : 4294967295 < o) : ∃ err, compactTable t c = .error err := by
  obtain ⟨err, herr⟩ := offToHkey_past t.hkeys.entries ∅ ⟨⟨h, o⟩, HMap.mem_entries_iff.2 hl, hpast⟩
  refine ⟨err, ?_⟩
  unfold compactTable Table.scan
  simp [herr]

theorem put_single {rb : RamBlock} (ht : rb.tables = [t]) (hs : t.state = .readWrite) :
    rb.put h e = rb.writeHead h e := by
  unfold put
  split
  · rfl
  rename_i i hi
  have hi' : i = 0 := by
    have := rposition_lt hi
    rw [ht, length_singleton] at this
    omega
  subst hi'
  rw [if_neg (by simp [ht, hs])]

theorem writeHead_fits {rb : RamBlock} (ht : rb.tables = [t]) (hs : t.state = .readWrite)
    (hroom : t.offset + e.encodedLen ≤ t.capacity) :
    (rb.writeHead h e).2 = { rb with tables := [(t.append h e).2] } := by
  have heq := @ensureWritableFor_eq _ [] _ ht hs e.encodedLen
  rw [if_pos hroom] at heq
  exact @writeHead_snd _ [] _ _ _ _ heq ht

theorem writeHead_full (rb : RamBlock) (ht : rb.tables = [t]) (hs : t.state = .readWrite)
    (hroom : ¬ t.offset + e.encodedLen ≤ t.capacity) : ∃ fresh,
    (rb.writeHead h e).2 = { rb with tables := [t.sealed, fresh] } := by
  have heq := @ensureWritableFor_eq _ [] _ ht hs e.encodedLen
  rw [if_neg hroom] at heq
  have hsnd := @writeHead_snd _ [t.sealed] _ h _ _ heq rfl
  exact ⟨_, hsnd⟩

theorem run_past {c : ℕ} {r : ℚ} (hb : b.Encodable) (he : e.Encodable)
    (hpast : 4294967295 < b.encodedLen) (hroom : b.encodedLen + e.encodedLen ≤ c)
    (hfull : c < b.encodedLen + e.encodedLen + b.encodedLen) :
    ∃ t fresh, (new c r).run [.put h b, .put h e, .put h b] =
        { new c r with tables := [t, fresh] } ∧
      t.state = .readOnly ∧ t.offset = b.encodedLen + e.encodedLen ∧
      t.garbageBytes = b.encodedLen ∧ t.hkeys.lookup h = some b.encodedLen := by
  have hacc : (withCapacity c).Accepts b :=
    ⟨by simp only [withCapacity]; omega, Nat.zero_le _, hb⟩
  have hnone : (withCapacity c).hkeys.lookup h = none := rfl
  have hfirst : ((new c r).put h b).2
      = { new c r with tables := [(withCapacity c).extended h b] } := by
    rw [put_single rfl rfl, writeHead_fits rfl rfl hacc.room, append_new hacc hnone]
  have hoffset : ((withCapacity c).extended h b).offset = b.encodedLen := Nat.zero_add _
  obtain ⟨err, t, happ, hs, hcap, hoff, hgarbage, hlook⟩ :=
    append_past (t := (withCapacity c).extended h b) (e := e) rfl
      (by rw [hoffset]; exact hroom) he (by rw [hoffset]; exact hpast) (AList.lookup_insert _)
      (Nat.zero_le _) (decodeAt_record (m := []) rfl hb)
  rw [hoffset] at hoff hlook
  have hsecond : (((new c r).put h b).2.put h e).2 = { new c r with tables := [t] } := by
    rw [hfirst, put_single rfl rfl, writeHead_fits rfl rfl (by rw [hoffset]; exact hroom), happ]
  obtain ⟨fresh, hthird⟩ := writeHead_full (h := h) (e := b)
    { new c r with tables := [t] } rfl hs (by rw [hcap, hoff]; exact Nat.not_le.2 hfull)
  refine ⟨t.sealed, fresh, ?_, ?_, ?_, ?_, ?_⟩
  · change ((((new c r).put h b).2.put h e).2.put h b).2 = _
    rw [hsecond, put_single rfl hs, hthird]
  all_goals rw [sealed, if_pos hs]
  · exact hoff
  · exact hgarbage.trans (Nat.zero_add _)
  · exact hlook

theorem compact_past (rb : RamBlock) {fresh : Table} {o : ℕ} (ht : rb.tables = [t, fresh])
    (hs : t.state = .readOnly) (hratio : rb.maxGarbageRatio < t.garbageRatio)
    (hl : t.hkeys.lookup h = some o) (hpast : 4294967295 < o) :
    ∃ err, rb.compact = (.error err, rb) := by
  obtain ⟨err, herr⟩ := compactTable_past t.capacity hl hpast
  refine ⟨err, ?_⟩
  have hdue : ¬ (t.state ≠ .readOnly ∨ t.garbageRatio ≤ rb.maxGarbageRatio) := by
    rw [not_or, not_not, not_le]
    exact ⟨hs, hratio⟩
  rw [compact, ht, replacements, if_neg hdue]
  simp [herr]

def zeros (n : ℕ) : Entry := ⟨[1], 0, 1, 1, List.replicate n 0⟩

theorem zeros_encodedLen (n : ℕ) : (zeros n).encodedLen = 30 + n := by
  rw [Entry.encodedLen, zeros, length_replicate]
  rfl

theorem zeros_encodable {n : ℕ} (hn : n ≤ 4294967295) : (zeros n).Encodable := by
  refine ⟨show 1 ≤ 255 by decide, ?_⟩
  rw [zeros, length_replicate]
  exact hn

/-- In a table of 8 GiB that was written past 4 GiB a compaction panics, and the sealed table keeps
its garbage. -/
theorem compact_past_u32 :
    let rb := (RamBlock.new 8589934592 0).run
      [.put 1 (zeros 4294967295), .put 1 (zeros 0), .put 1 (zeros 4294967295)]
    ∃ err, rb.compact = (.error err, rb) ∧
      ∃ t ∈ rb.tables, t.state = .readOnly ∧ 0 < t.garbageRatio := by
  dsimp only
  have hbig : (zeros 4294967295).Encodable := zeros_encodable (Nat.le_refl _)
  have hsmall : (zeros 0).Encodable := zeros_encodable (Nat.zero_le _)
  have hlen := zeros_encodedLen 4294967295
  have hlen' := zeros_encodedLen 0
  generalize zeros 4294967295 = b at hbig hlen ⊢
  generalize zeros 0 = e at hsmall hlen' ⊢
  obtain ⟨t, fresh, hrun, hs, hoff, hgarbage, hl⟩ := run_past (c := 8589934592) (r := 0) (h := 1)
    hbig hsmall (by omega) (by omega) (by omega)
  have hratio : 0 < t.garbageRatio := by
    rw [Table.garbageRatio, if_neg (by omega)]
    exact div_pos (Nat.cast_pos.2 (by omega)) (Nat.cast_pos.2 (by omega))
  rw [hrun]
  obtain ⟨err, herr⟩ := compact_past
    { RamBlock.new 8589934592 0 with tables := [t, fresh] } rfl hs hratio hl (by omega)
  exact ⟨err, herr, t, List.mem_cons_self, hs, hratio⟩

end Past

end RamBlock

end Kamino
