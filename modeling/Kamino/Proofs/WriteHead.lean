import Kamino.Export
import Kamino.Proofs.Compaction

/-!
# The write head, and puts that fail

An engine's tables are sealed but for the last one, whatever it is asked to do, imports included,
and a put finds or makes a head with room for its record.
-/

namespace Kamino

open Overlay Runs List RamBlock

namespace RamBlock

/-! ## Calls -/

def importedEntries : ℕ → Bytes → List Entry
  | 0, _ => []
  | count + 1, buf =>
    match Entry.decode buf with
    | .error _ => []
    | .ok (entry, used) => entry :: importedEntries count (buf.drop used)

def importOps (data : Bytes) : List EngineOp :=
  match importHeader data with
  | .error _ => []
  | .ok count => (importedEntries count (data.drop 5)).map fun e => .putLww (hashKey e.key) e

theorem importEntries_eq_run (count : ℕ) (buf : Bytes) (rb : RamBlock) :
    ∃ ops, ops <+: (importedEntries count buf).map (fun e => .putLww (hashKey e.key) e) ∧
      (importEntries count buf rb).2 = rb.run ops := by
  induction count generalizing buf rb with
  | zero => exact ⟨[], nil_prefix, rfl⟩
  | succ count ih =>
    rcases hd : Entry.decode buf with err | ⟨entry, used⟩ <;>
      simp only [importEntries, importedEntries, hd]
    · exact ⟨[], nil_prefix, rfl⟩
    rw [map_cons]
    split <;> rename_i rb' hput
    · exact ⟨[_], prefix_cons_inj _ |>.2 nil_prefix, (congrArg Prod.snd hput).symm⟩
    obtain ⟨ops, hops, heq⟩ := ih (buf.drop used) rb'
    refine ⟨.putLww (hashKey entry.key) entry :: ops, prefix_cons_inj _ |>.2 hops, ?_⟩
    obtain rfl : (rb.putLww (hashKey entry.key) entry).2 = rb' := congrArg Prod.snd hput
    exact heq

end RamBlock

/-- The engine's own calls that a call makes, if it goes on to its end. -/
def EngineCall.ops : EngineCall → List EngineOp
  | .op o => [o]
  | .importData data => importOps data

namespace RamBlock

variable {rb : RamBlock} {h : UInt64} {e : Entry}

/-- A call of the engine is a run of some first of its operations. -/
theorem call_eq_run (rb : RamBlock) (c : EngineCall) :
    ∃ ops, ops <+: c.ops ∧ rb.call c = rb.run ops := by
  cases c with
  | op o => exact ⟨[o], prefix_rfl, rfl⟩
  | importData data =>
    rcases hh : importHeader data with err | count <;>
      simp only [call, importData, EngineCall.ops, importOps, hh]
    · exact ⟨[], nil_prefix, rfl⟩
    · exact importEntries_eq_run _ _ rb

/-- Every record the call writes starts at an offset that fits the offset index. -/
def CallStartsInU32 (rb : RamBlock) (c : EngineCall) : Prop :=
  Guarded (fun rb op => some (rb.apply op)) StartsInU32 rb c.ops

instance (rb : RamBlock) (c : EngineCall) : Decidable (rb.CallStartsInU32 c) :=
  inferInstanceAs (Decidable (Guarded _ _ _ _))

theorem wf_call (c : EngineCall) (w : rb.WF) (hk : rb.CallStartsInU32 c) : (rb.call c).WF := by
  obtain ⟨ops, ⟨rest, hops⟩, heq⟩ := rb.call_eq_run c
  rw [CallStartsInU32, ← hops] at hk
  rw [heq]
  exact Guarded.foldl_invariant (fun _ op => wf_apply op) w hk.of_append

/-- Every run keeps the engine well formed. -/
theorem wf_calls {c : ℕ} {r : ℚ} {cs : List EngineCall}
    (hg : Guarded (fun rb c => some (rb.call c)) CallStartsInU32 (new c r) cs) :
    ((new c r).calls cs).WF :=
  Guarded.foldl_invariant (fun _ c => wf_call c) (.new c r) hg

/-! ## Appends -/

/-- `compact_table`'s callback, with what its appends return written down. -/
def appendLogged (s : Table × List (Except StorageError Bool)) (h : UInt64) (e : Entry) :
    Bool × (Table × List (Except StorageError Bool)) :=
  (true, ((s.1.append h e).2, s.2 ++ [(s.1.append h e).1]))

theorem compact_appends {t : Table} (w : t.WF) : ∀ x ∈ (t.scan appendLogged
    (Table.withCapacity (max t.capacity t.inuse), [])).2.2, x = .ok true := by
  have hlog : ∀ (rs : List (UInt64 × Entry)) (dst : Table) (log : List (Except StorageError Bool)),
      (rs.foldl (fun s r => (appendLogged s r.1 r.2).2) (dst, log)).2 = log ++ dst.appends rs := by
    intro rs
    induction rs with
    | nil => simp [Table.appends]
    | cons r rs ih => exact fun dst log => (ih _ _).trans (by simp [Table.appends])
  obtain ⟨t', -, -, -, -, -, hall⟩ := w.compactTable t.capacity
  rw [w.scan, Table.visit_foldl fun _ _ _ => rfl, hlog, nil_append]
  exact hall

/-- The last table is the writable one and the others are sealed, and every append succeeds: a
put's of an entry that the record format takes, and those of a compaction. -/
theorem write_head (c : ℕ) (r : ℚ) (cs : List EngineCall)
    (hg : Guarded (fun rb c => some (rb.call c)) CallStartsInU32 (new c r) cs) :
    (∃ n, ((new c r).calls cs).tables.map (·.state) = List.replicate n .readOnly ++ [.readWrite]) ∧
    (∀ h e, e.key.length ≤ 255 → e.value.length ≤ 4294967295 →
      ((new c r).calls cs).offsetFits e.encodedLen → (((new c r).calls cs).put h e).1 = .ok ()) ∧
    ∀ t ∈ ((new c r).calls cs).tables, ∀ x ∈ (t.scan appendLogged
      (Table.withCapacity (max t.capacity t.inuse), [])).2.2, x = .ok true := by
  have w := wf_calls hg
  refine ⟨w.states, fun h e hk hv hu => ?_, fun t ht => compact_appends (w.tables t ht)⟩
  rw [put_fst w (fun _ => hu), Entry.encodeInto_ok ⟨hk, hv⟩]
  rfl

theorem write_head_grown :
    ∃ n, ((new 30 0).calls [.op (.put 1 ⟨[1], 0, 1, 1, [7, 7]⟩), .importData [],
      .op (.put 1 ⟨[1], 0, 2, 2, []⟩), .op .compact]).tables.map (·.state) =
      List.replicate n .readOnly ++ [.readWrite] :=
  (write_head 30 0 _ (by decide +kernel)).1

/-- A value of 4 GiB does not fit its length field. -/
theorem write_head_oversized : ((new 30 0).put 1 (zeros 4294967296)).1 ≠ .ok () := by
  have hlen : (zeros 4294967296).value.length = 4294967296 := length_replicate
  have he : ¬ (zeros 4294967296).Encodable := fun he => absurd he.2 (by rw [hlen]; decide)
  obtain ⟨err, herr⟩ := Entry.encodeInto_error he []
  rw [put_fst (.new 30 0) (fun h => absurd h he), herr]
  exact fun h => by cases h

/-! ## Puts that fail -/

theorem WF.putLww_eq (w : rb.WF) : rb.putLww h e = if rb.lwwWrites h e then
    ((rb.put h e).1.map fun _ => true, (rb.put h e).2) else (.ok false, rb) := by
  rw [lwwWrites_eq w, putLww, w.get_eq]
  by_cases hany : (read rb.layers h).any (fun old => old.timestampNanos ≥ e.timestampNanos) = true
  · simp [hany]
  · simp only [hany]
    rcases rb.put h e with ⟨_ | _, rb'⟩ <;> simp [Except.map]

def SameReads (rb rb' : RamBlock) : Prop :=
  (∀ k, rb'.get k = rb.get k) ∧ rb'.len = rb.len ∧ rb'.inuse = rb.inuse

theorem failed_put (w : rb.WF) (he : ¬ e.Encodable) (h : UInt64) :
    SameReads rb (rb.put h e).2 ↔ rb.liveState h ≠ some .readOnly := by
  have w' : (rb.put h e).2.WF := w.put (fun h => absurd h he) h
  rcases put_eq_writeHead w h e with ⟨hro, hput⟩ | ⟨hro, rb', hput, wr, -, -, hlen⟩ <;>
    rw [writeHead_refused (by assumption) he] at hput
  · have hrecords : (rb.put h e).2.records = rb.records :=
      hput ▸ (ensureWritableFor_spec w e.encodedLen).2.2
    refine iff_of_true ⟨fun k => ?_, ?_, ?_⟩ hro
    · rw [w'.get_eq, w.get_eq, read_put_refused w he hro]
    · rw [w'.len_eq, w.len_eq, hrecords]
    · rw [w'.inuse_eq, w.inuse_eq, hrecords]
  have hrecords : (rb.put h e).2.records = rb'.records :=
    hput ▸ (ensureWritableFor_spec wr e.encodedLen).2.2
  refine iff_of_false (fun hsame => ?_) (not_not.2 hro)
  have := hsame.2.1
  rw [w'.len_eq, hrecords, ← wr.len_eq] at this
  omega

/-- Of the engine's calls, a put that returns an error changes nothing exactly where the newest
live copy of its key is not in a sealed table. -/
theorem failed_put_iff (c : ℕ) (r : ℚ) (cs : List EngineCall)
    (hg : Guarded (fun rb c => some (rb.call c)) CallStartsInU32 (new c r) cs)
    (h : UInt64) (e : Entry) (err : StorageError) :
    (((new c r).calls cs).StartsInU32 (.put h e) → (((new c r).calls cs).put h e).1 = .error err →
        (SameReads ((new c r).calls cs) (((new c r).calls cs).put h e).2
          ↔ ((new c r).calls cs).liveState h ≠ some .readOnly)) ∧
    (((new c r).calls cs).StartsInU32 (.putLww h e) →
      (((new c r).calls cs).putLww h e).1 = .error err →
        (SameReads ((new c r).calls cs) (((new c r).calls cs).putLww h e).2
          ↔ ((new c r).calls cs).liveState h ≠ some .readOnly)) := by
  have w := wf_calls hg
  generalize (new c r).calls cs = rb at w
  have hrefused (hu : e.Encodable → rb.offsetFits e.encodedLen)
      (herr : (rb.put h e).1 = .error err) : ¬ e.Encodable := by
    intro he
    rw [put_fst w hu, Entry.encodeInto_ok he] at herr
    cases herr
  refine ⟨fun hu herr => failed_put w (hrefused hu herr) h, fun hu herr => ?_⟩
  rw [w.putLww_eq] at herr ⊢
  split_ifs at herr ⊢ with hwrites
  refine failed_put w (hrefused (hu hwrites) ?_) h
  rcases hput : (rb.put h e).1 with err' | ⟨⟩ <;> simp_all [Except.map]

theorem failed_put_in_head :
    let rb := (new 99 0).calls [.op (.put 1 ⟨[1], 0, 1, 1, []⟩),
      .op (.put 2 ⟨[2], 0, 1, 1, []⟩)]
    rb.get 1 = .ok (some ⟨[1], 0, 1, 1, []⟩) ∧
      SameReads rb (rb.put 1 ⟨List.replicate 256 1, 0, 2, 2, []⟩).2 :=
  ⟨by decide +kernel, ((failed_put_iff 99 0 _ (by decide +kernel) 1 _ (.keyTooLarge 256 255)).1
    (by decide +kernel) (by decide +kernel)).2 (by decide +kernel)⟩

/-- The entry of key 1 is in a sealed table when a put under its hash is refused, and is gone. -/
theorem failed_put_drops :
    let rb := (new 30 0).calls [.op (.put 1 ⟨[1], 0, 1, 1, []⟩), .op (.put 2 ⟨[2], 0, 1, 1, []⟩)]
    rb.get 1 = .ok (some ⟨[1], 0, 1, 1, []⟩) ∧
      (rb.put 1 ⟨List.replicate 256 1, 0, 2, 2, []⟩).1 = .error (.keyTooLarge 256 255) ∧
      (rb.put 1 ⟨List.replicate 256 1, 0, 2, 2, []⟩).2.get 1 = .ok none := by
  decide +kernel

end RamBlock

end Kamino
