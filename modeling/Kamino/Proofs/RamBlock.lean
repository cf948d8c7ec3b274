import Kamino.Proofs.TableScan
import Kamino.RamBlock

/-!
# The engine as layers of maps

The tables' views are layers, newest last (`RamBlock.layers`), and each call is described by what it
does to them.
-/

namespace Kamino

open Overlay Function Table List

namespace RamBlock

/-- Every table is well formed, and all are sealed but the last. -/
structure WF (rb : RamBlock) : Prop where
  tables : ∀ t ∈ rb.tables, t.WF
  states : ∃ n, rb.tables.map (·.state) = replicate n .readOnly ++ [.readWrite]

def layers (rb : RamBlock) : List (UInt64 → Option Entry) := rb.tables.map Table.view

def holders (rb : RamBlock) (h : UInt64) : ℕ :=
  rb.liveTables.countP fun t => (t.hkeys.lookup h).isSome

/-- The state of the newest table with a live entry for `h`. -/
def liveState (rb : RamBlock) (h : UInt64) : Option TableState :=
  (rb.findLive h).bind fun i => rb.tables[i]?.map (·.state)

def headHolds (rb : RamBlock) (h : UInt64) : Bool :=
  rb.tables.getLast?.any fun t => (t.hkeys.lookup h).isSome

def headFits (rb : RamBlock) (need : ℕ) : Bool :=
  rb.tables.getLast?.any fun t => t.offset + need ≤ t.capacity

/-- A write into the head starts at an offset that fits the offset index. -/
def offsetFits (rb : RamBlock) (need : ℕ) : Bool :=
  !rb.headFits need || rb.tables.getLast?.any fun t => t.offset ≤ 4294967295

variable {t : Table}

section Shape

variable {rb : RamBlock} {h k : UInt64} {e : Entry}

theorem WF.split (w : rb.WF) : ∃ old head, rb.tables = old ++ [head] ∧
    head.state = .readWrite ∧ ∀ t ∈ old, t.state = .readOnly := by
  obtain ⟨n, hn⟩ := w.states
  obtain ⟨old, last, htabs, hold, hlast⟩ := map_eq_append_iff.1 hn
  obtain ⟨head, rfl, hhead⟩ := map_eq_singleton_iff.1 hlast
  refine ⟨old, head, htabs, hhead, fun t ht => ?_⟩
  have : t.state ∈ replicate n TableState.readOnly := hold ▸ mem_map_of_mem ht
  exact eq_of_mem_replicate this

theorem WF.of_split {old : List Table} {head : Table} (ht : rb.tables = old ++ [head])
    (hw : ∀ t ∈ old, t.WF ∧ t.state = .readOnly) (hh : head.WF ∧ head.state = .readWrite) :
    rb.WF := by
  refine ⟨fun t hmem => ?_, old.length, ?_⟩
  · rw [ht, mem_append, mem_singleton] at hmem
    rcases hmem with hmem | rfl
    · exact (hw t hmem).1
    · exact hh.1
  rw [ht, map_append, map_singleton, hh.2]
  congr 1
  rw [eq_replicate_iff]
  refine ⟨length_map _, fun s hs => ?_⟩
  obtain ⟨t, ht', rfl⟩ := mem_map.1 hs
  exact (hw t ht').2

theorem WF.new (c : ℕ) (r : ℚ) : (RamBlock.new c r).WF :=
  .of_split (show (RamBlock.new c r).tables = [] ++ [withCapacity c] from rfl) (by simp)
    ⟨.withCapacity c, rfl⟩

theorem WF.not_recycled (w : rb.WF) (ht : t ∈ rb.tables) : t.state ≠ .recycled := by
  obtain ⟨old, head, htabs, hh, hold⟩ := w.split
  rw [htabs, mem_append, mem_singleton] at ht
  rcases ht with ht | rfl
  · rw [hold t ht]
    decide
  · rw [hh]
    decide

theorem WF.liveTables (w : rb.WF) : rb.liveTables = rb.tables := by
  unfold RamBlock.liveTables
  rw [filter_eq_self]
  exact fun t ht => decide_eq_true (w.not_recycled ht)

theorem WF.holders (w : rb.WF) (h : UInt64) : rb.holders h = copies rb.layers h := by
  unfold RamBlock.holders copies layers
  rw [w.liveTables, countP_map]
  refine countP_congr fun t ht => ?_
  rw [Function.comp_apply, (w.tables t ht).view_isSome]

theorem WF.findLive (w : rb.WF) (h : UInt64) :
    rb.findLive h = rposition (fun t => (t.view h).isSome) rb.tables := by
  refine rposition_congr fun t ht => ?_
  rw [(w.tables t ht).view_isSome]
  simp [w.not_recycled ht]

theorem getFrom_append (h : UInt64) : ∀ ts ts' : List Table, getFrom h (ts ++ ts') =
    match getFrom h ts with
    | .ok none => getFrom h ts'
    | r => r
  | [], ts' => rfl
  | t :: ts, ts' => by
    rw [cons_append, getFrom, getFrom, getFrom_append h ts ts']
    rcases t.get h with e | _ | e <;> rfl

theorem getFrom_reverse (h : UInt64) : ∀ ts : List Table, (∀ t ∈ ts, t.WF) →
    getFrom h ts.reverse = .ok (read (ts.map view) h)
  | [], _ => rfl
  | t :: ts, hw => by
    have ht := (hw t (by simp)).get_eq h
    have ih := getFrom_reverse h ts fun t' ht' => hw t' (by simp [ht'])
    rw [reverse_cons, getFrom_append, ih, map_cons, Overlay.read]
    rcases read (ts.map view) h with _ | e
    · simp only [getFrom, ht, Option.none_or]
      rcases t.view h <;> rfl
    · rfl

theorem WF.get_eq (w : rb.WF) (h : UInt64) : rb.get h = .ok (read rb.layers h) := by
  unfold RamBlock.get
  rw [w.liveTables]
  exact getFrom_reverse h rb.tables w.tables

end Shape

/-! ## Deletes -/

section Delete

variable {rb : RamBlock} {h k : UInt64} {e : Entry}

theorem newest_delete (h : UInt64) : ∀ {ts : List Table} {i : ℕ}, (∀ t ∈ ts, t.WF) →
    rposition (fun t => (t.view h).isSome) ts = some i →
    ∃ t, ts[i]? = some t ∧ t ∈ ts ∧ (t.view h).isSome ∧
      (ts.set i (t.delete h).2).map view = eraseNewest h (ts.map view)
  | t :: ts, i, hw, hi => by
    have hz : rposition (fun t => (t.view h).isSome) ts = none ↔ copies (ts.map view) h = 0 := by
      rw [rposition_eq_none, copies, countP_map, countP_eq_zero]
      simp
    simp only [rposition] at hi
    rw [map_cons, eraseNewest]
    split at hi
    · rename_i j hj
      cases hi
      obtain ⟨t', hget, hmem, hsome, hset⟩ :=
        newest_delete h (fun t' ht' => hw t' (by simp [ht'])) hj
      refine ⟨t', hget, by simp [hmem], hsome, ?_⟩
      rw [if_neg (fun hc => by rw [hz.2 hc] at hj; cases hj), set_cons_succ, map_cons, hset]
    · rename_i hnone
      split_ifs at hi with hp
      cases hi
      refine ⟨t, rfl, by simp, hp, ?_⟩
      rw [if_pos (hz.1 hnone), set_cons_zero, map_cons, (hw t (by simp)).view_delete h]

def frame (t : Table) : TableState × ℕ × ℕ := (t.state, t.capacity, t.offset)

theorem head_congr {rb' : RamBlock} (hf : rb'.tables.map frame = rb.tables.map frame) (need : ℕ) :
    rb'.headFits need = rb.headFits need ∧ rb'.offsetFits need = rb.offsetFits need := by
  have hlast : rb'.tables.getLast?.map frame = rb.tables.getLast?.map frame := by
    rw [← getLast?_map, ← getLast?_map, hf]
  have hany : ∀ p : TableState × ℕ × ℕ → Bool,
      rb'.tables.getLast?.any (p ∘ frame) = rb.tables.getLast?.any (p ∘ frame) := by
    intro p
    have := congrArg (Option.any p) hlast
    rwa [Option.any_map, Option.any_map] at this
  have hfits : rb'.headFits need = rb.headFits need :=
    hany fun f => f.2.2 + need ≤ f.2.1
  refine ⟨hfits, ?_⟩
  unfold offsetFits
  rw [hfits]
  exact congrArg _ (hany fun f => f.2.2 ≤ 4294967295)

theorem deleteAt_newest (w : rb.WF) {i : ℕ} (hi : rb.findLive h = some i) :
    ∃ rb', rb.deleteAt i h = (.ok true, rb') ∧ rb'.WF ∧ rb'.layers = eraseNewest h rb.layers ∧
      rb'.tables.map frame = rb.tables.map frame ∧ rb'.len + 1 = rb.len := by
  rw [w.findLive] at hi
  obtain ⟨t, hget, hmem, hsome, hset⟩ := newest_delete h w.tables hi
  have wt := w.tables t hmem
  have hdel : t.delete h = (.ok true, (t.delete h).2) :=
    Prod.ext (by rw [wt.delete_fst, hsome]) rfl
  have hframe : (rb.tables.set i (t.delete h).2).map frame = rb.tables.map frame := by
    obtain ⟨hlt, hti⟩ := List.getElem?_eq_some_iff.1 hget
    obtain ⟨hs, hc, ho, -, -⟩ := wt.delete_frame h
    have hself := set_getElem_self (show i < (rb.tables.map frame).length by simpa)
    rw [getElem_map, hti] at hself
    rw [map_set, ← hself, set_set]
    simp [frame, hs, hc, ho]
  have w' : WF { rb with tables := rb.tables.set i (t.delete h).2 } := by
    obtain ⟨n, hn⟩ := w.states
    have hst := congrArg (map Prod.fst) hframe
    simp only [map_map] at hst
    refine ⟨fun t' ht' => ?_, n, hst.trans hn⟩
    rcases mem_or_eq_of_mem_set ht' with ht' | rfl
    · exact w.tables t' ht'
    · exact wt.delete h
  refine ⟨_, ?_, w', hset, hframe, ?_⟩
  · unfold deleteAt
    rw [hget]
    simp only []
    rw [hdel]
  have hlen := wt.len_delete hsome
  obtain ⟨hlt, rfl⟩ := List.getElem?_eq_some_iff.1 hget
  obtain ⟨l₁, l₂, heq, -, hset⟩ := exists_of_set hlt
  have heq' := congrArg (fun ts => (ts.map Table.len).sum) heq
  rw [len, len, w'.liveTables, w.liveTables, hset]
  simp only [map_append, map_cons, sum_append, sum_cons] at heq' ⊢
  omega

theorem findLive_eq_none (w : rb.WF) : rb.findLive h = none ↔ copies rb.layers h = 0 := by
  rw [w.findLive, rposition_eq_none, copies, layers, countP_map, countP_eq_zero]
  simp

/-- A delete drops the newest copy alone. -/
theorem WF.delete (w : rb.WF) (h : UInt64) : (rb.delete h).2.WF ∧
    (rb.delete h).2.layers = eraseNewest h rb.layers := by
  unfold RamBlock.delete
  rcases hi : rb.findLive h with _ | i
  · exact ⟨w, (eraseNewest_of_absent ((findLive_eq_none w).1 hi)).symm⟩
  · obtain ⟨rb', hd, w', hl, -, -⟩ := deleteAt_newest w hi
    simp only [hd]
    exact ⟨w', hl⟩

end Delete

/-! ## Writes -/

section Write

variable {rb : RamBlock} {old : List Table} {head : Table} {h k : UInt64} {e : Entry}

theorem sealed_records (t : Table) : t.sealed.records = t.records := by
  unfold sealed
  split_ifs <;> rfl

theorem ensureWritableFor_eq (ht : rb.tables = old ++ [head]) (hs : head.state = .readWrite)
    (need : ℕ) : rb.ensureWritableFor need = if head.offset + need ≤ head.capacity then rb
      else { rb with tables :=
        old ++ [head.sealed] ++ [withCapacity (max need rb.tableCapacity)] } := by
  have hpos : rposition (·.state = .readWrite) rb.tables = some old.length := by
    rw [ht, rposition_concat]
    simp [hs]
  have hget : rb.tables[old.length]? = some head := by simp [ht]
  simp only [ensureWritableFor, hpos, hget]
  simp [ht]

theorem writeHead_snd {rb' : RamBlock} (heq : rb.ensureWritableFor e.encodedLen = rb')
    (ht : rb'.tables = old ++ [head]) :
    (rb.writeHead h e).2 = { rb' with tables := old ++ [(head.append h e).2] } := by
  simp only [writeHead, heq, ht, getLast?_concat, dropLast_concat]
  rcases head.append h e with ⟨_ | _ | _, head'⟩ <;> rfl

variable (w : rb.WF)
include w

theorem ensureWritableFor_split (need : ℕ) : ∃ old head,
    (rb.ensureWritableFor need).tables = old ++ [head] ∧
    (∀ t ∈ old, t.WF ∧ t.state = .readOnly) ∧ head.WF ∧ head.state = .readWrite ∧
    head.offset + need ≤ head.capacity ∧ (rb.offsetFits need → head.offset ≤ 4294967295) ∧
    (rb.headFits need = true → rb.tables = old ++ [head]) ∧
    (rb.headFits need = false → old.map view = rb.layers ∧ (head.view = fun _ => none) ∧
      (old ++ [head]).flatMap records = rb.tables.flatMap records) := by
  obtain ⟨old, head, ht, hs, hro⟩ := w.split
  have wold : ∀ t ∈ old, t.WF ∧ t.state = .readOnly :=
    fun t hmem => ⟨w.tables t (by simp [ht, hmem]), hro t hmem⟩
  have whead : head.WF := w.tables head (by simp [ht])
  rw [ensureWritableFor_eq ht hs]
  split_ifs with hroom
  · refine ⟨old, head, ht, wold, whead, hs, hroom, fun hu => ?_, fun _ => ht, ?_⟩
    · simpa [offsetFits, headFits, hroom, ht] using hu
    · simp [headFits, ht, hroom]
  refine ⟨old ++ [head.sealed], withCapacity (max need rb.tableCapacity), rfl, ?_,
    .withCapacity _, rfl, ?_, fun _ => Nat.zero_le _, ?_, fun _ => ⟨?_, ?_, ?_⟩⟩
  · intro t hmem
    rw [mem_append, mem_singleton] at hmem
    rcases hmem with hmem | rfl
    · exact wold t hmem
    · exact ⟨whead.sealed, by simp [sealed, hs]⟩
  · simp [withCapacity]
  · simp [headFits, ht, hroom]
  · rw [layers, ht, map_append, map_append]
    simp only [map_singleton, sealed, hs, if_true]
    rfl
  · funext k
    exact view_none (by simp [withCapacity])
  · have hnew : (withCapacity (max need rb.tableCapacity)).records = [] := rfl
    simp [ht, sealed_records, hnew]

theorem writeHead_ok (he : e.Encodable) (hu : rb.offsetFits e.encodedLen)
    (h : UInt64) : ∃ L f, rb.writeHead h e = (.ok (), (rb.writeHead h e).2) ∧
    (rb.writeHead h e).2.WF ∧ (rb.writeHead h e).2.layers = L ++ [update f h (some e)] ∧
    (rb.headFits e.encodedLen = true → rb.layers = L ++ [f]) ∧
    (rb.headFits e.encodedLen = false → rb.layers = L ∧ f = fun _ => none) := by
  obtain ⟨old, head, ht, wold, whead, hs, hroom, hstart, hfit, hseal⟩ :=
    ensureWritableFor_split w e.encodedLen
  have hacc : head.Accepts e := ⟨hroom, hstart hu, he⟩
  obtain ⟨w', hview, hs', -, -⟩ := whead.append hacc h
  have happ : head.append h e = (.ok true, (head.append h e).2) :=
    Prod.ext (whead.append_fst hacc h) rfl
  have hwrite : rb.writeHead h e = (.ok (), { rb.ensureWritableFor e.encodedLen with
      tables := old ++ [(head.append h e).2] }) := by
    unfold writeHead
    simp only [ht, getLast?_append, getLast?_singleton, Option.some_or]
    rw [happ]
    simp
  refine ⟨old.map view, head.view, ?_⟩
  rw [hwrite]
  refine ⟨rfl, .of_split rfl wold ⟨w', hs'.trans hs⟩, ?_, fun hf => ?_, fun hf => ?_⟩
  · simp [layers, hview]
  · simp [layers, hfit hf]
  · exact ⟨(hseal hf).1.symm, (hseal hf).2.1⟩

theorem ensureWritableFor_spec (need : ℕ) : (rb.ensureWritableFor need).WF ∧
    ((rb.ensureWritableFor need).layers = rb.layers ∨
      (rb.ensureWritableFor need).layers = rb.layers ++ [fun _ => none]) ∧
    (rb.ensureWritableFor need).tables.flatMap records = rb.tables.flatMap records := by
  obtain ⟨old, head, ht, wold, whead, hs, -, -, hfit, hseal⟩ := ensureWritableFor_split w need
  refine ⟨.of_split ht wold ⟨whead, hs⟩, ?_⟩
  rcases hf : rb.headFits need
  · refine ⟨.inr ?_, (hseal hf).2.2 ▸ ht ▸ rfl⟩
    rw [layers, ht, map_append, (hseal hf).1, map_singleton, (hseal hf).2.1]
  · rw [layers, ht, layers, hfit hf]
    exact ⟨.inl rfl, rfl⟩

theorem writeHead_refused (he : ¬ e.Encodable) (h : UInt64) : rb.writeHead h e =
    ((e.encodeInto []).map fun _ => (), rb.ensureWritableFor e.encodedLen) := by
  obtain ⟨old, head, ht, -, -, -, hroom, -⟩ := ensureWritableFor_split w e.encodedLen
  obtain ⟨err, herr⟩ := Entry.encodeInto_error he head.memory
  rw [← e.encodeInto_unit head.memory, herr]
  simp only [writeHead, ht, getLast?_concat, dropLast_concat, append_refused hroom herr]
  rw [← ht]
  rfl

theorem writeHead_fst (hu : e.Encodable → rb.offsetFits e.encodedLen) (h : UInt64) :
    (rb.writeHead h e).1 = (e.encodeInto []).map fun _ => () := by
  by_cases he : e.Encodable
  · obtain ⟨L, f, hok, -⟩ := writeHead_ok w he (hu he) h
    rw [hok, Entry.encodeInto_ok he]
    rfl
  · rw [writeHead_refused w he]

theorem read_writeHead (he : e.Encodable) (hu : rb.offsetFits e.encodedLen) :
    Overlay.read (rb.writeHead h e).2.layers = update (Overlay.read rb.layers) h (some e) := by
  obtain ⟨L, f, -, -, hl, hfit, hseal⟩ := writeHead_ok w he hu h
  funext k
  rw [hl, read_concat]
  by_cases hk : k = h
  · subst hk
    rw [update_self, update_self, Option.some_or]
  rw [update_of_ne hk, update_of_ne hk]
  rcases hf : rb.headFits e.encodedLen
  · obtain ⟨rfl, rfl⟩ := hseal hf
    rfl
  · rw [hfit hf, read_concat]

theorem copies_writeHead_ne (he : e.Encodable) (hu : rb.offsetFits e.encodedLen)
    (hk : k ≠ h) : copies (rb.writeHead h e).2.layers k = copies rb.layers k := by
  obtain ⟨L, f, -, -, hl, hfit, hseal⟩ := writeHead_ok w he hu h
  rw [hl, copies_append, copies_cons, update_of_ne hk, ← copies_cons]
  rcases hf : rb.headFits e.encodedLen
  · obtain ⟨rfl, rfl⟩ := hseal hf
    rfl
  · rw [hfit hf, copies_append]

theorem headHolds_eq {L : List (UInt64 → Option Entry)} {f : UInt64 → Option Entry}
    (hl : rb.layers = L ++ [f]) : rb.headHolds h = (f h).isSome := by
  obtain ⟨old, head, ht, -, -⟩ := w.split
  rw [layers, ht, map_append, map_singleton] at hl
  obtain ⟨-, hf⟩ := append_inj' hl rfl
  cases hf
  rw [(w.tables head (by simp [ht])).view_isSome]
  simp [headHolds, ht]

theorem copies_writeHead (he : e.Encodable) (hu : rb.offsetFits e.encodedLen) :
    copies (rb.writeHead h e).2.layers h =
      copies rb.layers h + if rb.headHolds h && rb.headFits e.encodedLen then 0 else 1 := by
  obtain ⟨L, f, -, -, hl, hfit, hseal⟩ := writeHead_ok w he hu h
  rw [hl, copies_append, copies_cons, update_self]
  rcases hf : rb.headFits e.encodedLen
  · obtain ⟨rfl, rfl⟩ := hseal hf
    simp [copies]
  · rw [hfit hf, copies_append, copies_cons, headHolds_eq w (hfit hf)]
    rcases f h <;> simp [copies]

end Write

/-! ## Puts -/

section Put

variable {rb : RamBlock} {h k : UInt64} {e : Entry} (w : rb.WF)
include w

theorem liveState_of_not_headHolds (hh : rb.headHolds h = false) :
    rb.liveState h = some .readOnly ∨ copies rb.layers h = 0 := by
  obtain ⟨old, head, ht, -, hro⟩ := w.split
  rw [headHolds_eq w (L := old.map view) (f := head.view) (by simp [layers, ht])] at hh
  rcases hi : rb.findLive h with _ | i
  · exact .inr ((findLive_eq_none w).1 hi)
  refine .inl ?_
  have hold := hi
  rw [w.findLive, ht, rposition_concat, if_neg (by simp [hh])] at hold
  have hlt := rposition_lt hold
  unfold liveState
  rw [hi, Option.bind_some, ht, getElem?_append_left hlt, getElem?_eq_getElem hlt,
    Option.map_some, hro _ (getElem_mem hlt)]

theorem put_eq_writeHead (h : UInt64) (e : Entry) :
    (rb.liveState h ≠ some .readOnly ∧ rb.put h e = rb.writeHead h e) ∨
    (rb.liveState h = some .readOnly ∧ ∃ rb' : RamBlock, rb.put h e = rb'.writeHead h e ∧
      rb'.WF ∧ rb'.layers = eraseNewest h rb.layers ∧
      rb'.tables.map frame = rb.tables.map frame ∧ rb'.len + 1 = rb.len) := by
  rcases hi : rb.findLive h with _ | i
  · refine .inl ⟨by simp [liveState, hi], ?_⟩
    unfold put
    rw [hi]
  have hst : rb.liveState h = rb.tables[i]?.map (·.state) := by
    unfold liveState
    rw [hi, Option.bind_some]
  by_cases hro : rb.liveState h = some .readOnly
  · obtain ⟨rb', hd, w', hl, hf⟩ := deleteAt_newest w hi
    refine .inr ⟨hro, rb', ?_, w', hl, hf⟩
    unfold put
    simp [hi, ← hst, if_pos hro, hd]
  · refine .inl ⟨hro, ?_⟩
    unfold put
    simp [hi, ← hst, if_neg hro]

theorem WF.put (hu : e.Encodable → rb.offsetFits e.encodedLen) (h : UInt64) :
    (rb.put h e).2.WF := by
  have hwrite : ∀ rb' : RamBlock, rb'.WF → (e.Encodable → rb'.offsetFits e.encodedLen) →
      (rb'.writeHead h e).2.WF := by
    intro rb' w' hu'
    by_cases he : e.Encodable
    · obtain ⟨L, f, -, hw, -⟩ := writeHead_ok w' he (hu' he) h
      exact hw
    · rw [writeHead_refused w' he]
      exact (ensureWritableFor_spec w' _).1
  rcases put_eq_writeHead w h e with ⟨-, hput⟩ | ⟨-, rb', hput, w', -, hf, -⟩
  · rw [hput]
    exact hwrite rb w hu
  · rw [hput]
    exact hwrite rb' w' fun he => (head_congr hf _).2.trans (hu he)

theorem put_fst (hu : e.Encodable → rb.offsetFits e.encodedLen) (h : UInt64) :
    (rb.put h e).1 = (e.encodeInto []).map fun _ => () := by
  rcases put_eq_writeHead w h e with ⟨-, hput⟩ | ⟨-, rb', hput, w', -, hf, -⟩
  · rw [hput, writeHead_fst w hu]
  · rw [hput, writeHead_fst w' fun he => (head_congr hf _).2.trans (hu he)]

/-- A put that is accepted makes its key read as the new entry. -/
theorem read_put (he : e.Encodable) (hu : rb.offsetFits e.encodedLen) (h : UInt64) :
    Overlay.read (rb.put h e).2.layers = update (Overlay.read rb.layers) h (some e) := by
  rcases put_eq_writeHead w h e with ⟨-, hput⟩ | ⟨-, rb', hput, w', hl, hf, -⟩
  · rw [hput, read_writeHead w he hu]
  rw [hput, read_writeHead w' he ((head_congr hf _).2.trans hu), hl]
  funext k
  by_cases hk : k = h
  · rw [hk, update_self, update_self]
  · rw [update_of_ne hk, update_of_ne hk, read_eraseNewest_ne hk]

theorem put_refused_layers (he : ¬ e.Encodable) (h : UInt64) :
    ∃ L, (L = rb.layers ∨ rb.liveState h = some .readOnly ∧ L = eraseNewest h rb.layers) ∧
      ((rb.put h e).2.layers = L ∨ (rb.put h e).2.layers = L ++ [fun _ => none]) := by
  rcases put_eq_writeHead w h e with ⟨-, hput⟩ | ⟨hro, rb', hput, w', hl, -⟩
  · rw [hput, writeHead_refused w he]
    exact ⟨rb.layers, .inl rfl, (ensureWritableFor_spec w _).2.1⟩
  · rw [hput, writeHead_refused w' he]
    exact ⟨rb'.layers, .inr ⟨hro, hl⟩, (ensureWritableFor_spec w' _).2.1⟩

theorem read_put_refused (he : ¬ e.Encodable) (hro : rb.liveState h ≠ some .readOnly) :
    Overlay.read (rb.put h e).2.layers = Overlay.read rb.layers := by
  obtain ⟨L, hL, hl⟩ := put_refused_layers w he h
  obtain rfl : L = rb.layers := hL.resolve_right fun hc => hro hc.1
  funext k
  rcases hl with hl | hl
  · rw [hl]
  · rw [hl, read_concat, Option.none_or]

theorem copies_put_refused (he : ¬ e.Encodable) (h k : UInt64) :
    copies (rb.put h e).2.layers k ≤ copies rb.layers k := by
  obtain ⟨L, hL, hl⟩ := put_refused_layers w he h
  have hcop : copies (rb.put h e).2.layers k = copies L k := by
    rcases hl with hl | hl
    · rw [hl]
    · rw [hl, copies_append]
      rfl
  rw [hcop]
  rcases hL with rfl | ⟨-, rfl⟩
  · exact le_rfl
  by_cases hk : k = h
  · rw [hk, copies_eraseNewest]
    exact Nat.sub_le _ _
  · rw [copies_eraseNewest_ne hk]

theorem copies_put (he : e.Encodable) (hu : rb.offsetFits e.encodedLen)
    (hone : ∀ k, copies rb.layers k ≤ 1) (hfit : rb.headHolds h → rb.headFits e.encodedLen)
    (k : UInt64) : copies (rb.put h e).2.layers k ≤ 1 := by
  rcases put_eq_writeHead w h e with ⟨hro, hput⟩ | ⟨-, rb', hput, w', hl, hf, -⟩
  · rw [hput]
    by_cases hk : k = h
    · subst hk
      rw [copies_writeHead w he hu]
      rcases hh : rb.headHolds k
      · have := (liveState_of_not_headHolds w hh).resolve_left hro
        simp [this]
      · simpa [hfit hh] using hone k
    · rw [copies_writeHead_ne w he hu hk]
      exact hone k
  · have hu' := (head_congr hf e.encodedLen).2.trans hu
    rw [hput]
    by_cases hk : k = h
    · subst hk
      rw [copies_writeHead w' he hu', hl, copies_eraseNewest]
      have := hone k
      split_ifs <;> omega
    · rw [copies_writeHead_ne w' he hu' hk, hl, copies_eraseNewest_ne hk]
      exact hone k

end Put

/-! ## Compaction -/

section Compact

variable {rb : RamBlock}

def due (ratio : ℚ) (t : Table) : Bool := t.state = .readOnly ∧ ratio < t.garbageRatio

def rewritten (ratio : ℚ) (t : Table) : Table :=
  if due ratio t then ((compactTable t t.capacity).toOption.getD t).sealed else t

theorem rewritten_not_due {ratio : ℚ} (h : due ratio t = false) : rewritten ratio t = t := by
  rw [rewritten, h]
  rfl

theorem rewritten_due {ratio : ℚ} (w : t.WF) (h : due ratio t = true) :
    ∃ new, compactTable t t.capacity = .ok new ∧ rewritten ratio t = new.sealed ∧
      new.sealed.state = .readOnly ∧ new.WF ∧ new.garbageBytes = 0 ∧ new.records = t.records := by
  obtain ⟨new, hnew, w', hs, hgarbage, hrecords, -⟩ := w.compactTable t.capacity
  refine ⟨new, hnew, ?_, ?_, w', hgarbage, hrecords⟩
  · rw [rewritten, if_pos h, hnew]
    rfl
  · rw [sealed, if_pos hs]

theorem sealed_garbageBytes (t : Table) : t.sealed.garbageBytes = t.garbageBytes := by
  unfold sealed
  split_ifs <;> rfl

theorem rewritten_spec (ratio : ℚ) (w : t.WF) : (rewritten ratio t).WF ∧
    (rewritten ratio t).state = t.state ∧ (rewritten ratio t).records = t.records := by
  rcases h : due ratio t
  · rw [rewritten_not_due h]
    exact ⟨w, rfl, rfl⟩
  · obtain ⟨new, -, heq, hs, w', -, hrecords⟩ := rewritten_due w h
    rw [heq, hs, sealed_records, hrecords]
    exact ⟨w'.sealed, (of_decide_eq_true h).1.symm, rfl⟩

theorem replacements_ok (ratio : ℚ) : ∀ (ts pre : List Table), (∀ t ∈ ts, t.WF) →
    ∃ rs, replacements ratio pre.length ts
        = .ok (((ts.filter (due ratio)).map (·.garbageBytes)).sum, rs) ∧
      install rs (pre ++ ts) = pre ++ ts.map (rewritten ratio)
  | [], pre, _ => ⟨[], rfl, rfl⟩
  | t :: ts, pre, hw => by
    have wt := hw t mem_cons_self
    obtain ⟨rs, hrest, hinstall⟩ := replacements_ok ratio ts (pre ++ [rewritten ratio t])
      fun t' ht' => hw t' (.tail t ht')
    rw [length_append, length_singleton] at hrest
    rw [append_assoc, append_assoc, singleton_append, singleton_append] at hinstall
    rcases h : due ratio t
    · have hskip : t.state ≠ .readOnly ∨ t.garbageRatio ≤ ratio := by
        rw [due, decide_eq_false_iff_not, not_and_or, not_lt] at h
        exact h
      rw [rewritten_not_due h] at hinstall
      refine ⟨rs, ?_, ?_⟩
      · rw [replacements, if_pos hskip, hrest, filter_cons_of_neg (by simp [h])]
      · rw [hinstall, map_cons, rewritten_not_due h]
    have hgo : ¬ (t.state ≠ .readOnly ∨ t.garbageRatio ≤ ratio) := by
      rw [not_or, not_not, not_le]
      exact of_decide_eq_true h
    obtain ⟨new, hnew, heq, -, w', hgarbage, hrecords⟩ := rewritten_due wt h
    have hinuse : new.inuse = t.inuse := by rw [w'.inuse_eq, hrecords, wt.inuse_eq]
    refine ⟨(pre.length, new) :: rs, ?_, ?_⟩
    · rw [replacements, if_neg hgo]
      simp only [hnew, hrest, hinuse]
      rw [filter_cons_of_pos h, map_cons, sum_cons, Nat.add_sub_cancel_left]
    · rw [install, set_append_right _ _ (Nat.le_refl _), Nat.sub_self, set_cons_zero,
        ← heq, hinstall, map_cons]

theorem WF.compact_eq (w : rb.WF) : rb.compact
    = (.ok ((rb.tables.filter (due rb.maxGarbageRatio)).map (·.garbageBytes)).sum,
      { rb with tables := rb.tables.map (rewritten rb.maxGarbageRatio) }) := by
  obtain ⟨rs, hr, hinstall⟩ := replacements_ok rb.maxGarbageRatio rb.tables [] w.tables
  rw [length_nil] at hr
  rw [nil_append, nil_append] at hinstall
  simp [RamBlock.compact, hr, hinstall]

/-- Compaction leaves every layer as it was. -/
theorem WF.compact (w : rb.WF) : rb.compact.2.WF ∧ rb.compact.2.layers = rb.layers := by
  rw [w.compact_eq]
  refine ⟨⟨?_, ?_⟩, ?_⟩
  · intro t' ht'
    obtain ⟨t, ht, rfl⟩ := mem_map.1 ht'
    exact (rewritten_spec _ (w.tables t ht)).1
  · obtain ⟨n, hn⟩ := w.states
    refine ⟨n, hn ▸ ?_⟩
    rw [map_map]
    exact map_congr_left fun t ht => (rewritten_spec _ (w.tables t ht)).2.1
  unfold layers
  rw [map_map]
  refine map_congr_left fun t ht => ?_
  obtain ⟨w', -, hrecords⟩ := rewritten_spec rb.maxGarbageRatio (w.tables t ht)
  exact (w.tables t ht).view_congr w' hrecords

end Compact

end RamBlock

end Kamino
