import Kamino.EngineDMap
import Kamino.Proofs.Engine
import Kamino.Proofs.KeyOps

/-!
# What one key's calls see of the others'

A `Cell` is all there is to a key by itself: its entry, if it has one.
-/

namespace Kamino

open Overlay Function Prog Runs List Option RamBlock

/-! ### What the engine answers -/

namespace Entry

theorem Same.encodable {e e' : Entry} (h : e.Same e') : e.Encodable ↔ e'.Encodable := by
  simp [Encodable, h.key, h.value]

theorem Same.encodeInto {e e' : Entry} (h : e.Same e') :
    (e.encodeInto []).map (fun _ => ()) = (e'.encodeInto []).map fun _ => () := by
  unfold Entry.encodeInto
  rw [h.key, h.value]
  split_ifs <;> rfl

end Entry

namespace RamBlock

variable {rb : RamBlock} {h : UInt64} {e : Entry}

theorem delete_fst (w : rb.WF) (h : UInt64) : (rb.delete h).1 = .ok (read rb.layers h).isSome := by
  unfold delete
  rcases hi : rb.findLive h with _ | i
  · rw [read_eq_none.2 ((findLive_eq_none w).1 hi)]
    rfl
  obtain ⟨rb', hd, -⟩ := deleteAt_newest w hi
  have hsome : (read rb.layers h).isSome = true := by
    rw [isSome_iff_ne_none]
    intro hnone
    rw [(findLive_eq_none w).2 (read_eq_none.1 hnone)] at hi
    cases hi
  rw [hsome]
  simp [hd]

theorem read_put_ne (w : rb.WF) (hu : rb.offsetFits e.encodedLen) {k : UInt64} (hk : k ≠ h) :
    read (rb.put h e).2.layers k = read rb.layers k := by
  by_cases he : e.Encodable
  · rw [read_put w he hu, update_of_ne hk]
  obtain ⟨L, hL, hl⟩ := put_refused_layers w he h
  have hput : read (rb.put h e).2.layers k = read L k := by
    rcases hl with hl | hl
    · rw [hl]
    · rw [hl, read_concat, none_or]
  rcases hL with rfl | ⟨-, rfl⟩
  · exact hput
  · rw [hput, read_eraseNewest_ne hk]

end RamBlock

/-! ### A key by itself -/

/-- The requests of one key, answered out of its entry. Stamps are all zero. -/
def Cell.handle : Prog.Handler FragmentReq FragmentReq.Answer (Option Entry)
  | .get _, c => (.ok c, c)
  | .put _ e, c => ((e.encodeInto []).map fun _ => (), if e.Encodable then some e else c)
  | .delete _, c => (.ok c.isSome, none)
  | .nextStamp _, c => (0, c)
  | .observeStamp _, c => ((), c)

def Cell.call (env : Env) (ttl : Option ℕ) (cell : Option Entry) (c : KeyCall) :
    Except ClientError KeyAnswer × Option Entry :=
  KeyTask.exec handle cell (c.op.task env ttl c.key c.clk)

def Cell.answers (env : Env) (ttl : Option ℕ) : Option Entry → List KeyCall →
    List (Except ClientError KeyAnswer)
  | _, [] => []
  | cell, c :: cs => (call env ttl cell c).1 :: answers env ttl (call env ttl cell c).2 cs

namespace EngineDMap

/-- The request keeps the entry of hash `h` where it is: a put starts its record at an offset that
fits, and for `h` itself a put that the record format refuses does not meet a copy in a sealed
table, and a delete does not meet two copies. -/
def KeepsKey (h : UInt64) (d : EngineDMap) : FragmentReq → Prop
  | .put hkey e => d.engine.offsetFits e.encodedLen ∧
      (hkey = h → ¬ e.Encodable → d.engine.liveState h ≠ some .readOnly)
  | .delete hkey => hkey = h → d.engine.holders h ≤ 1
  | _ => True

/-- Every request the call makes keeps the entry of hash `h`. -/
def CallKeeps (env : Env) (ttl : Option ℕ) (h : UInt64) (d : EngineDMap) (c : KeyCall) : Prop :=
  (c.op.task env ttl c.key c.clk).run.Along handle (KeepsKey h) d

/-- The engine has the cell's entry under the hash, stamps apart. -/
structure Holds (h : UInt64) (d : EngineDMap) (cell : Option Entry) : Prop where
  wf : d.engine.WF
  same : Option.Rel Entry.Same (read d.engine.layers h) cell

variable {h : UInt64} {d : EngineDMap} {cell : Option Entry}

theorem Holds.new (h : UInt64) (c : ℕ) (r : ℚ) : Holds h (EngineDMap.new c r) none := by
  obtain ⟨w, hr⟩ := reads_new c r
  refine ⟨w, ?_⟩
  change Option.Rel Entry.Same (Overlay.read (RamBlock.new c r).layers h) none
  rw [hr]
  exact .none

theorem Holds.request {i j : FragmentReq} (hd : Holds h d cell) (hk : KeepsKey h d i)
    (hij : FragmentReq.Same h i j) :
    FragmentReq.AnswerSame i j (handle i d).1 (Cell.handle j cell).1 ∧
      Holds h (handle i d).2 (Cell.handle j cell).2 := by
  obtain ⟨w, hsame⟩ := hd
  cases hij with
  | get =>
    refine ⟨?_, w, hsame⟩
    change ExceptRel _ (d.engine.get h) (.ok cell)
    rw [w.get_eq]
    exact .ok hsame
  | @put e e' he =>
    obtain ⟨hu, hro⟩ := hk
    refine ⟨(put_fst w (fun _ => hu) h).trans he.encodeInto, w.put (fun _ => hu) h, ?_⟩
    change Option.Rel Entry.Same (read (d.engine.put h e).2.layers h)
      (if e'.Encodable then some e' else cell)
    by_cases henc : e.Encodable
    · rw [read_put w henc hu, update_self, if_pos (he.encodable.1 henc)]
      exact .some he
    · rw [read_put_refused w henc (hro rfl henc), if_neg fun h => henc (he.encodable.2 h)]
      exact hsame
  | delete =>
    obtain ⟨w', hl⟩ := w.delete h
    refine ⟨?_, w', ?_⟩
    · change (d.engine.delete h).1 = .ok cell.isSome
      rw [delete_fst w]
      generalize Overlay.read d.engine.layers h = found at hsame
      cases hsame <;> rfl
    · change Option.Rel Entry.Same (read (d.engine.delete h).2.layers h) none
      rw [hl, read_eraseNewest_eq_none.2 (w.holders h ▸ hk rfl)]
      exact .none
  | nextStamp now => exact ⟨trivial, w, hsame⟩
  | observeStamp ts => exact ⟨trivial, w, hsame⟩

theorem Holds.frame {i : FragmentReq} {h' : UInt64} (hne : h' ≠ h) (hd : Holds h d cell)
    (hk : KeepsKey h d i) (hi : ∃ j, FragmentReq.Same h' i j) : Holds h (handle i d).2 cell := by
  obtain ⟨w, hsame⟩ := hd
  obtain ⟨j, hij⟩ := hi
  cases hij with
  | get => exact ⟨w, hsame⟩
  | @put e e' he =>
    refine ⟨w.put (fun _ => hk.1) h', ?_⟩
    rw [show read (handle (.put h' e) d).2.engine.layers h = read d.engine.layers h from
      read_put_ne w hk.1 (Ne.symm hne)]
    exact hsame
  | delete =>
    obtain ⟨w', hl⟩ := w.delete h'
    refine ⟨w', ?_⟩
    rw [show (handle (.delete h') d).2.engine.layers = eraseNewest h' d.engine.layers from hl,
      read_eraseNewest_ne (Ne.symm hne)]
    exact hsame
  | nextStamp now => exact ⟨w, hsame⟩
  | observeStamp ts => exact ⟨w, hsame⟩

variable {env : Env} {ttl : Option ℕ} {c : KeyCall}

theorem Holds.call_eq (hd : Holds (env.hash64 c.key) d cell)
    (hk : CallKeeps env ttl (env.hash64 c.key) d c) :
    ExceptRel KeyAnswer.Same (d.call env ttl c).1 (Cell.call env ttl cell c).1 ∧
      Holds (env.hash64 c.key) (d.call env ttl c).2 (Cell.call env ttl cell c).2 :=
  Rel.run (fun _ _ _ _ hd hk hij => hd.request hk hij)
    (KeyTask.same_task env ttl c.key c.clk c.op) hd hk

theorem only_at_hash (env : Env) (ttl : Option ℕ) (c : KeyCall) :
    (c.op.task env ttl c.key c.clk).run.Only
      fun i => ∃ j, FragmentReq.Same (env.hash64 c.key) i j := by
  refine (KeyTask.same_task env ttl c.key c.clk c.op).only (fun i j hij => ⟨j, hij⟩)
    fun i j r hij => ?_
  cases hij with
  | get =>
    refine ⟨r, ?_⟩
    rcases r with e | _ | e
    · exact .error e
    · exact .ok .none
    · exact .ok (.some (.refl e))
  | put => exact ⟨r, rfl⟩
  | delete => exact ⟨r, rfl⟩
  | nextStamp => exact ⟨r, trivial⟩
  | observeStamp => exact ⟨r, trivial⟩

theorem Holds.call_ne (hne : env.hash64 c.key ≠ h) (hd : Holds h d cell)
    (hk : CallKeeps env ttl h d c) : Holds h (d.call env ttl c).2 cell := by
  have hreq : ∀ (d : EngineDMap) i, Holds h d cell → KeepsKey h d i →
      (∃ j, FragmentReq.Same (env.hash64 c.key) i j) → Holds h (handle i d).2 cell :=
    fun _ _ hd hk hi => hd.frame hne hk hi
  exact Only.invariant hreq (only_at_hash env ttl c) hd hk

theorem answers_of_holds {k : Bytes} {calls : List KeyCall}
    (hhash : ∀ c ∈ calls, env.hash64 c.key = env.hash64 k → c.key = k)
    (hd : Holds (env.hash64 k) d cell)
    (hg : Guarded (fun d c => some (call env ttl d c).2) (CallKeeps env ttl (env.hash64 k)) d
      calls) :
    List.Forall₂ (ExceptRel KeyAnswer.Same)
      (((d.answers env ttl calls).filter fun r => r.1.key = k).map Prod.snd)
      (Cell.answers env ttl cell (calls.filter fun c => c.key = k)) := by
  induction calls generalizing d cell with
  | nil => exact .nil
  | cons c calls ih =>
    have htail : ∀ c' ∈ calls, env.hash64 c'.key = env.hash64 k → c'.key = k :=
      fun c' hc' => hhash c' (mem_cons_of_mem c hc')
    by_cases hck : c.key = k
    · subst hck
      obtain ⟨hans, hd'⟩ := hd.call_eq hg.1
      rw [answers, filter_cons_of_pos (by simp), filter_cons_of_pos (by simp)]
      exact .cons hans (ih htail hd' (hg.2 _ rfl))
    have hne : env.hash64 c.key ≠ env.hash64 k := fun h =>
      hck (hhash c mem_cons_self h)
    rw [answers, filter_cons_of_neg (by simpa using hck), filter_cons_of_neg (by simpa using hck)]
    exact ih htail (hd.call_ne hne hg.1) (hg.2 _ rfl)

/-- In every run of calls in which no other key has the key's hash and every request keeps the
hash's entry, the calls on the key answer as they do on the key's cell by itself. -/
theorem answers_on_key (env : Env) (ttl : Option ℕ) (capacity : ℕ) (ratio : ℚ) (k : Bytes)
    (calls : List KeyCall)
    (hhash : ∀ c ∈ calls, env.hash64 c.key = env.hash64 k → c.key = k)
    (hg : Guarded (fun d c => some (call env ttl d c).2) (CallKeeps env ttl (env.hash64 k))
      (new capacity ratio) calls) :
    List.Forall₂ (ExceptRel KeyAnswer.Same)
      ((((new capacity ratio).answers env ttl calls).filter fun r => r.1.key = k).map Prod.snd)
      (Cell.answers env ttl none (calls.filter fun c => c.key = k)) :=
  answers_of_holds hhash (Holds.new _ capacity ratio) hg

def hashedBy (hash : Bytes → UInt64) : Env where
  hash64 := hash
  chooseMultiple := fun _ keys n => keys.take n
  debugStr := fun s => s
  debugBytes := fun _ => ""

def firstByte (key : Bytes) : UInt64 := (key.headD 0).toUInt64

def atZero (key : Bytes) (op : KeyOp) : KeyCall := ⟨key, op, fun _ => 0⟩

instance KeepsKey.decidable (h : UInt64) (d : EngineDMap) : ∀ i, Decidable (KeepsKey h d i)
  | .put _ _ => inferInstanceAs (Decidable (_ ∧ _))
  | .delete _ => inferInstanceAs (Decidable (_ → _))
  | .get _ | .nextStamp _ | .observeStamp _ => .isTrue trivial

instance CallKeeps.decidable (env : Env) (ttl : Option ℕ) (h : UInt64) (d : EngineDMap)
    (c : KeyCall) : Decidable (CallKeeps env ttl h d c) :=
  inferInstanceAs (Decidable (Along _ _ _ _))

theorem answers_on_key_overwritten : List.Forall₂ (ExceptRel KeyAnswer.Same)
      ((((new 200 (1 / 2)).answers (hashedBy firstByte) none [atZero [1] (.put [51] {}),
        atZero [2] (.put [] {}), atZero [1] (.incr 5), atZero [1] .get, atZero [1] .delete,
        atZero [1] .get]).filter fun r => r.1.key = [1]).map Prod.snd)
      (Cell.answers (hashedBy firstByte) none none [atZero [1] (.put [51] {}), atZero [1] (.incr 5),
        atZero [1] .get, atZero [1] .delete, atZero [1] .get]) :=
  answers_on_key _ none 200 (1 / 2) [1] _ (by decide) (by decide +kernel)

/-- A put on another key that fills the head makes a later overwrite leave its old copy behind,
which the delete then brings back. And where two keys have one hash, a get on one answers with the
other's value and a delete on one takes the other's entry away. -/
theorem answers_depend_on_others :
    (((new 62 (1 / 2)).answers (hashedBy firstByte) none [atZero [1] (.put [] {}),
        atZero [2] (.put [] {}), atZero [1] (.put [] {}), atZero [1] .delete,
        atZero [1] .get]).map Prod.snd).getLast? = some (.ok (.got ⟨[], 1, none⟩)) ∧
      (((new 62 (1 / 2)).answers (hashedBy firstByte) none [atZero [1] (.put [] {}),
        atZero [1] (.put [] {}), atZero [1] .delete, atZero [1] .get]).map Prod.snd).getLast? =
        some (.error .keyNotFound) ∧
      ((new 62 (1 / 2)).answers (hashedBy fun _ => 0) none [atZero [1] (.put [7] {}),
        atZero [2] .get, atZero [2] .delete, atZero [1] .get]).map Prod.snd =
        [.ok .done, .ok (.got ⟨[7], 1, none⟩), .ok (.deleted true), .error .keyNotFound] := by
  decide +kernel

end EngineDMap

end Kamino
