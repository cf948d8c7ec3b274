import Kamino.Proofs.Handover
import Kamino.Proofs.Writes
import Kamino.RamBlock

/-!
# Merging entries by their timestamps

The default `put_lww` of the storage trait, over any engine that stores like a map, and the import
of a fragment, which is that merge over the entries of a payload.
-/

namespace Kamino

open Function List Option Fragment

/-- What the default `put_lww` calls. -/
structure StorageEngine (σ : Type) where
  get : σ → UInt64 → Except StorageError (Option Entry)
  put : σ → UInt64 → Entry → Outcome σ Unit

namespace StorageEngine

variable {σ : Type}

def putLww (engine : StorageEngine σ) (s : σ) (hkey : UInt64) (entry : Entry) : Outcome σ Bool :=
  match engine.get s hkey with
  | .error e => (.error e, s)
  | .ok existing =>
    if existing.any (fun existing => existing.timestampNanos ≥ entry.timestampNanos) then
      (.ok false, s)
    else match engine.put s hkey entry with
      | (.error e, s) => (.error e, s)
      | (.ok (), s) => (.ok true, s)

def mergeAll (engine : StorageEngine σ) (s : σ) (es : List (UInt64 × Entry)) : σ :=
  es.foldl (fun s p => (engine.putLww s p.1 p.2).2) s

/-- The engine is a map from hash keys to entries, and takes the entries that are storable. -/
structure IsMap (engine : StorageEngine σ) (holds : σ → UInt64 → Option Entry)
    (Storable : Entry → Prop) : Prop where
  get : ∀ s hkey, engine.get s hkey = .ok (holds s hkey)
  put : ∀ s hkey e, Storable e →
    ∃ s', engine.put s hkey e = (.ok (), s') ∧ holds s' = update (holds s) hkey (some e)
  refuse : ∀ s hkey e, ¬ Storable e →
    ∃ err s', engine.put s hkey e = (.error err, s') ∧ holds s' = holds s

/-- The newest of the old entry and the entries of `new`; on a tie the old one. -/
def Newest (old : Option Entry) (new : Set Entry) (e : Entry) : Prop :=
  (∀ x ∈ new, x.timestampNanos ≤ e.timestampNanos) ∧
    (old = some e ∨ e ∈ new ∧ ∀ x ∈ old, x.timestampNanos < e.timestampNanos)

variable {engine : StorageEngine σ} {holds : σ → UInt64 → Option Entry} {Storable : Entry → Prop}

namespace IsMap

variable (h : engine.IsMap holds Storable)
include h

theorem putLww_cases (s : σ) (hkey : UInt64) (e : Entry) :
    (∃ x ∈ holds s hkey, e.timestampNanos ≤ x.timestampNanos) ∧
        engine.putLww s hkey e = (.ok false, s) ∨
      (∀ x ∈ holds s hkey, x.timestampNanos < e.timestampNanos) ∧
        (Storable e ∧ (∃ s', engine.putLww s hkey e = (.ok true, s') ∧
            holds s' = update (holds s) hkey (some e)) ∨
          ¬ Storable e ∧ ∃ err s', engine.putLww s hkey e = (.error err, s') ∧
            holds s' = holds s) := by
  unfold putLww
  rw [h.get]
  dsimp only
  split_ifs with hany
  · simp only [Option.any_eq_true, decide_eq_true_eq] at hany
    exact .inl ⟨hany, rfl⟩
  simp only [Option.any_eq_true, decide_eq_true_eq, not_exists, not_and, not_le] at hany
  refine .inr ⟨hany, ?_⟩
  by_cases hs : Storable e
  · obtain ⟨s', hput, hs'⟩ := h.put s hkey e hs
    exact .inl ⟨hs, s', by rw [hput], hs'⟩
  · obtain ⟨err, s', hput, hs'⟩ := h.refuse s hkey e hs
    exact .inr ⟨hs, err, s', by rw [hput], hs'⟩

theorem holds_putLww (s : σ) (hkey : UInt64) (e : Entry) :
    holds (engine.putLww s hkey e).2 = holds s ∧
        (Storable e → ∃ x ∈ holds s hkey, e.timestampNanos ≤ x.timestampNanos) ∨
      Storable e ∧ (∀ x ∈ holds s hkey, x.timestampNanos < e.timestampNanos) ∧
        holds (engine.putLww s hkey e).2 = update (holds s) hkey (some e) := by
  rcases h.putLww_cases s hkey e with
    ⟨hold, heq⟩ | ⟨hnew, ⟨hs, s', heq, hs'⟩ | ⟨hs, err, s', heq, hs'⟩⟩
  · exact .inl ⟨by rw [heq], fun _ => hold⟩
  · exact .inr ⟨hs, hnew, by rw [heq, hs']⟩
  · exact .inl ⟨by rw [heq, hs'], fun hs' => absurd hs' hs⟩

theorem holds_mergeAll (s : σ) (es : List (UInt64 × Entry)) (hkey : UInt64) :
    (∀ e ∈ holds (engine.mergeAll s es) hkey, e ∈ holds s hkey ∨
        ((hkey, e) ∈ es ∧ Storable e) ∧ ∀ x ∈ holds s hkey, x.timestampNanos < e.timestampNanos) ∧
      ∀ x, x ∈ holds s hkey ∨ (hkey, x) ∈ es ∧ Storable x →
        ∃ e ∈ holds (engine.mergeAll s es) hkey, x.timestampNanos ≤ e.timestampNanos := by
  induction es using List.reverseRecOn with
  | nil => exact ⟨fun _ he => .inl he, fun x hx => ⟨x, by simpa [mergeAll] using hx, le_rfl⟩⟩
  | append_singleton es p ih =>
    have hrun : engine.mergeAll s (es ++ [p]) =
        (engine.putLww (engine.mergeAll s es) p.1 p.2).2 := by simp [mergeAll]
    obtain ⟨k, x⟩ := p
    obtain ⟨hfrom, hbelow⟩ := ih
    by_cases hk : hkey = k
    · subst hk
      simp only [hrun, mem_append, mem_singleton, Prod.mk.injEq, true_and]
      rcases h.holds_putLww (engine.mergeAll s es) hkey x with ⟨heq, hle⟩ | ⟨hs, hlt, heq⟩
      · rw [heq]
        refine ⟨fun e he => (hfrom e he).imp_right fun hn => ⟨⟨.inl hn.1.1, hn.1.2⟩, hn.2⟩, ?_⟩
        rintro y (hy | ⟨hy | rfl, hs⟩)
        · exact hbelow y (.inl hy)
        · exact hbelow y (.inr ⟨hy, hs⟩)
        · exact hle hs
      rw [heq, update_self]
      have hlast : ∀ y, y ∈ holds s hkey ∨ (hkey, y) ∈ es ∧ Storable y →
          y.timestampNanos < x.timestampNanos := by
        intro y hy
        obtain ⟨e, he, hle⟩ := hbelow y hy
        exact lt_of_le_of_lt hle (hlt e he)
      refine ⟨?_, fun y hy => ⟨x, rfl, ?_⟩⟩
      · rintro e ⟨⟩
        exact .inr ⟨⟨.inr rfl, hs⟩, fun y hy => hlast y (.inl hy)⟩
      rcases hy with hy | ⟨hy | rfl, hy'⟩
      · exact (hlast y (.inl hy)).le
      · exact (hlast y (.inr ⟨hy, hy'⟩)).le
      · exact le_rfl
    · have hframe : holds (engine.mergeAll s (es ++ [(k, x)])) hkey
          = holds (engine.mergeAll s es) hkey := by
        rw [hrun]
        rcases h.holds_putLww (engine.mergeAll s es) k x with ⟨heq, -⟩ | ⟨-, -, heq⟩
        · rw [heq]
        · rw [heq, update_of_ne hk]
      simp only [hframe, mem_append, mem_singleton, Prod.mk.injEq, hk, false_and, or_false]
      exact ⟨hfrom, hbelow⟩

theorem mergeAll_eq_some_iff (s : σ) {es : List (UInt64 × Entry)} {hkey : UInt64} {e : Entry}
    (hts : ∀ a b, (hkey, a) ∈ es → (hkey, b) ∈ es → a.timestampNanos = b.timestampNanos → a = b) :
    holds (engine.mergeAll s es) hkey = some e ↔
      Newest (holds s hkey) {x | (hkey, x) ∈ es ∧ Storable x} e := by
  obtain ⟨hfrom, hbelow⟩ := h.holds_mergeAll s es hkey
  constructor
  · intro he
    refine ⟨fun x hx => ?_, hfrom e he⟩
    obtain ⟨y, hy, hle⟩ := hbelow x (.inr hx)
    exact Option.some.inj (he.symm.trans hy) ▸ hle
  rintro ⟨hmax, hin⟩
  obtain ⟨y, hy, hle⟩ := hbelow e (hin.imp id And.left)
  rcases hin with hold | ⟨hnew, hlt⟩ <;> rcases hfrom y hy with hold' | ⟨hnew', hlt'⟩
  · exact hy.trans (hold'.symm.trans hold)
  · exact absurd (hmax y hnew') (not_le.2 (hlt' e hold))
  · exact absurd hle (not_le.2 (hlt y hold'))
  · rw [hts e y hnew.1 hnew'.1 (le_antisymm hle (hmax y hnew'))]
    exact hy

end IsMap

end StorageEngine

def Fragment.engine : StorageEngine Fragment where
  get f hkey := .ok (f.lookup hkey)
  put f hkey entry := match f.put hkey entry with
    | .error e => (.error e, f)
    | .ok f => (.ok (), f)

theorem Fragment.isMap_engine : engine.IsMap (fun f hkey => f.lookup hkey) Entry.Encodable where
  get _ _ := rfl
  put f hkey e he := by
    refine ⟨f.insert hkey e, by simp only [engine, put_of_fits he], funext fun hkey' => ?_⟩
    by_cases hk : hkey' = hkey
    · subst hk
      simp
    · rw [AList.lookup_insert_ne hk, update_of_ne hk]
  refuse f hkey e he := by
    obtain ⟨err, herr⟩ := Entry.encodeInto_error he []
    exact ⟨err, f, by simp [engine, put, herr], rfl⟩

theorem RamBlock.putLww_eq_engine (rb : RamBlock) (hkey : UInt64) (entry : Entry) :
    rb.putLww hkey entry = StorageEngine.putLww ⟨RamBlock.get, RamBlock.put⟩ rb hkey entry := by
  unfold RamBlock.putLww StorageEngine.putLww
  dsimp only
  rcases rb.get hkey with err | existing
  · rfl
  dsimp only
  split_ifs
  · rfl
  · rcases rb.put hkey entry with ⟨err | ⟨⟩, rb'⟩
    · rfl
    · rfl

theorem Fragment.putLww_eq_engine (f : Fragment) (hkey : UInt64) (entry : Entry) :
    engine.putLww f hkey entry = ((f.putLww hkey entry).map Prod.fst,
      ((f.putLww hkey entry).map Prod.snd).toOption.getD f) := by
  unfold putLww StorageEngine.putLww
  rcases hl : f.lookup hkey with _ | old
  · rcases hp : f.put hkey entry with err | f'
    · simp [engine, hl, hp, Except.map, Except.toOption]
    · simp [engine, hl, hp, Except.map, Except.toOption]
  by_cases hle : entry.timestampNanos ≤ old.timestampNanos
  · simp [engine, hl, hle, Except.map, Except.toOption]
  · rcases hp : f.put hkey entry with err | f'
    · simp [engine, hl, hp, hle, Except.map, Except.toOption]
    · simp [engine, hl, hp, hle, Except.map, Except.toOption]

/-- Merging leaves under every hash key the newest of what was there and what came, in whatever
order and however often it came, and says of each entry whether it changed anything. -/
theorem putLww_joins {σ : Type} {engine : StorageEngine σ} {holds : σ → UInt64 → Option Entry}
    {Storable : Entry → Prop} (h : engine.IsMap holds Storable)
    (s : σ) (es : List (UInt64 × Entry)) (hts : ∀ hkey a b, (hkey, a) ∈ es → (hkey, b) ∈ es →
      a.timestampNanos = b.timestampNanos → a = b) :
    (∀ hkey e, holds (engine.mergeAll s es) hkey = some e ↔
        StorageEngine.Newest (holds s hkey) {x | (hkey, x) ∈ es ∧ Storable x} e) ∧
      (∀ es', (∀ p, p ∈ es' ↔ p ∈ es) →
        holds (engine.mergeAll s es') = holds (engine.mergeAll s es)) ∧
      ∀ s' hkey e, Storable e → ∃ b, (engine.putLww s' hkey e).1 = .ok b ∧
        (b = true ↔ holds (engine.putLww s' hkey e).2 hkey ≠ holds s' hkey) := by
  refine ⟨fun hkey e => h.mergeAll_eq_some_iff s (hts hkey), fun es' hes => ?_,
    fun s' hkey e hs => ?_⟩
  · refine funext fun hkey => Option.ext fun e => ?_
    rw [h.mergeAll_eq_some_iff s (hts hkey), h.mergeAll_eq_some_iff s]
    · simp [hes]
    · simpa only [hes] using hts hkey
  rcases h.putLww_cases s' hkey e with ⟨-, heq⟩ | ⟨hnew, ⟨-, s₁, heq, hs₁⟩ | ⟨hns, -⟩⟩
  · exact ⟨false, by rw [heq], by simp [heq]⟩
  · refine ⟨true, by rw [heq], ?_⟩
    simp only [heq, hs₁, update_self, true_iff]
    exact fun hold => lt_irrefl _ (hnew e hold.symm)
  · exact absurd hs hns

theorem putLww_joins_swapped : (fun hkey => (engine.mergeAll ∅
      [(1, ⟨[], 0, 2, 0, []⟩), (1, ⟨[], 0, 1, 0, []⟩)]).lookup hkey) =
    fun hkey => (engine.mergeAll ∅ [(1, ⟨[], 0, 1, 0, []⟩), (1, ⟨[], 0, 2, 0, []⟩)]).lookup hkey :=
  (putLww_joins isMap_engine ∅ _ (by simp +contextual [or_imp, forall_and])).2.1 _
    (by simp [or_comm])

namespace DMap

variable {env : Env}

/-- How many entries are newer than what `old` had under their hash and than the entries of the same
hash before them. -/
def wins (env : Env) (old : UInt64 → Option Entry) : List Entry → List Entry → ℕ
  | _, [] => 0
  | earlier, entry :: entries =>
    (if (∀ x ∈ old (env.hash64 entry.key), x.timestampNanos < entry.timestampNanos) ∧
        ∀ x ∈ earlier, env.hash64 x.key = env.hash64 entry.key →
          x.timestampNanos < entry.timestampNanos
      then 1 else 0) + wins env old (entry :: earlier) entries

theorem importEntries_wins (old : UInt64 → Option Entry) : ∀ (es earlier : List Entry) (d : DMap)
    (applied : ℕ), (∀ e ∈ es, e.Encodable) →
    (∀ hkey t, (∀ x ∈ d.fragment.lookup hkey, x.timestampNanos < t) ↔
      (∀ x ∈ old hkey, x.timestampNanos < t) ∧
        ∀ x ∈ earlier, env.hash64 x.key = hkey → x.timestampNanos < t) →
    (d.importEntries env es applied).1 = .ok (applied + wins env old earlier es)
  | [], _, _, _, _, _ => rfl
  | entry :: es, earlier, d, applied, h, hd => by
    have hes : ∀ e ∈ es, e.Encodable := fun e he => h e (mem_cons_of_mem _ he)
    unfold importEntries wins
    by_cases hwon : ∀ x ∈ d.fragment.lookup (env.hash64 entry.key),
        x.timestampNanos < entry.timestampNanos
    · rw [putLww_older entry (h entry mem_cons_self) hwon, if_pos ((hd _ _).1 hwon),
        ← Nat.add_assoc]
      refine importEntries_wins old es (entry :: earlier) _ _ hes fun hkey t => ?_
      obtain ⟨hold, hearlier⟩ := (hd _ _).1 hwon
      rw [forall_mem_cons]
      by_cases hk : env.hash64 entry.key = hkey
      · subst hk
        simp only [AList.lookup_insert, mem_some_iff, forall_eq', true_imp_iff]
        exact ⟨fun ht => ⟨fun x hx => (hold x hx).trans ht, ht,
          fun x hx hkey => (hearlier x hx hkey).trans ht⟩, fun h => h.2.1⟩
      · rw [AList.lookup_insert_ne (Ne.symm hk), hd]
        simp [hk, true_and]
    · rw [putLww_not_older entry hwon, if_neg (mt (hd _ _).2 hwon), Nat.zero_add]
      refine importEntries_wins old es (entry :: earlier) _ _ hes fun hkey t => ?_
      rw [forall_mem_cons]
      push Not at hwon
      obtain ⟨x, hx, hle⟩ := hwon
      refine ⟨fun ht => ?_, fun h => (hd hkey t).2 ⟨h.1, h.2.2⟩⟩
      obtain ⟨hold, hearlier⟩ := (hd hkey t).1 ht
      exact ⟨hold, fun hk => lt_of_le_of_lt hle (ht x (hk ▸ hx)), hearlier⟩

theorem importEntries_covered : ∀ {es : List Entry} {d : DMap} (applied : ℕ),
    (∀ e ∈ es, Covers (some e) (d.fragment.lookup (env.hash64 e.key))) →
    d.importEntries env es applied = (.ok applied, d)
  | [], _, _, _ => rfl
  | entry :: es, d, applied, h => by
    obtain ⟨x, hx, hle⟩ := covers_some.1 (h entry mem_cons_self)
    unfold importEntries
    rw [putLww_not_older entry fun hlt => not_le.2 (hlt x hx) hle]
    exact importEntries_covered applied fun e he => h e (mem_cons_of_mem _ he)

end DMap

theorem Node.importPartition_eq {n : Node} {dmap payload : Bytes} {part : UInt32}
    {es : List Entry} (env : Env) (h : decodeFragmentPayload payload = .ok (part, es)) :
    n.importPartition env dmap part payload = (((n.dmapAt dmap).importEntries env es 0).1,
      n.setDMap dmap ((n.dmapAt dmap).importEntries env es 0).2) := by
  unfold importPartition
  rw [h]
  dsimp only
  rw [if_neg (by simp), getOrCreate_eq]
  dsimp only
  rw [setDMap_opened]

/-- A rejected import changes nothing; one that is taken merges, and a second time changes nothing.
-/
theorem import_merges (env : Env) (n : Node) (dmap payload : Bytes) (part : UInt32) :
    ((∀ es, decodeFragmentPayload payload ≠ .ok (part, es)) →
      ∃ err, n.importPartition env dmap part payload = (.error err, n)) ∧
    ∀ es, decodeFragmentPayload payload = .ok (part, es) →
      ∃ n', n.importPartition env dmap part payload
          = (.ok (DMap.wins env (n.slot dmap) [] es), n') ∧
        (∀ dmap' hkey, Covers (n.slot dmap' hkey) (n'.slot dmap' hkey)) ∧
        (∀ dmap' key, (∀ e ∈ es, env.hash64 e.key = env.hash64 key → e.key = key) →
          (dmap' = dmap → ∀ e ∈ es, e.key ≠ key) →
          n'.slot dmap' (env.hash64 key) = n.slot dmap' (env.hash64 key)) ∧
        ∃ n'', n'.importPartition env dmap part payload = (.ok 0, n'') ∧ n''.slot = n'.slot := by
  refine ⟨Node.importPartition_error env n dmap, fun es hes => ?_⟩
  obtain ⟨m, n', hrun, himp⟩ := Node.importPartition_ok env n dmap hes
  have hm := congrArg Prod.fst ((Node.importPartition_eq env hes).symm.trans hrun)
  rw [DMap.importEntries_wins (n.slot dmap) es [] (n.dmapAt dmap) 0
    (decodeFragmentPayload_ok hes).2 (by simp [Node.slot_eq]), Nat.zero_add] at hm
  refine ⟨n', by rw [hrun, hm], himp.kept, fun dmap' key hinj hkey => ?_, ?_⟩
  · rcases hn' : n'.slot dmap' (env.hash64 key) with _ | e
    · exact (eq_none_iff_forall_ne_some.2 fun e he => by
        obtain ⟨e', he', -⟩ := himp.kept dmap' _ e he
        simp [hn'] at he').symm
    · rcases himp.origin dmap' _ e hn' with hold | ⟨rfl, he, hhash⟩
      · exact hold.symm
      · exact absurd (hinj e he hhash) (hkey rfl e he)
  rw [Node.importPartition_eq env hes, DMap.importEntries_covered 0]
  · refine ⟨_, rfl, funext₂ fun dmap' hkey => ?_⟩
    rw [Node.slot_setDMap]
    split_ifs with hd
    · rw [hd, Node.slot_eq]
    · rfl
  · intro e he
    rw [← Node.slot_eq]
    exact himp.brought e he

end Kamino
