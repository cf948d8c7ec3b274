import Kamino.Proofs.Table
import Mathlib.Data.List.Perm.Lattice

/-!
# Scanning and compacting a table
-/

namespace Kamino

open List

namespace Table

def recordAt (t : Table) (o : ℕ) : Option (UInt64 × Entry) :=
  (t.hkeys.entries.find? fun p => p.2 = o).bind fun p =>
    (t.decodeAt o).toOption.map fun e => (p.1, e)

def records (t : Table) : List (UInt64 × Entry) := t.offsetIndex.toList.filterMap t.recordAt

section Visit

variable {σ : Type} (callback : σ → UInt64 → Entry → Bool × σ)

def visit : List (UInt64 × Entry) → σ → Bool × σ
  | [], s => (true, s)
  | r :: rs, s =>
    match callback s r.1 r.2 with
    | (true, s) => visit rs s
    | (false, s) => (false, s)

theorem visit_append (rs rs' : List (UInt64 × Entry)) (s : σ) :
    visit callback (rs ++ rs') s = match visit callback rs s with
      | (true, s) => visit callback rs' s
      | (false, s) => (false, s) := by
  induction rs generalizing s with
  | nil => rfl
  | cons r rs ih =>
    simp only [cons_append, visit]
    split
    · exact ih _
    · rfl

theorem visit_foldl {callback : σ → UInt64 → Entry → Bool × σ}
    (hgo : ∀ s h e, (callback s h e).1 = true) (rs : List (UInt64 × Entry)) (s : σ) :
    visit callback rs s = (true, rs.foldl (fun s r => (callback s r.1 r.2).2) s) := by
  induction rs generalizing s with
  | nil => rfl
  | cons r rs ih =>
    have hcb : callback s r.1 r.2 = (true, (callback s r.1 r.2).2) :=
      Prod.ext (hgo s r.1 r.2) rfl
    rw [visit, hcb]
    exact ih _

end Visit

theorem offToHkey_ok : ∀ (l : List (Sigma fun _ : UInt64 => ℕ)) (m : HMap ℕ UInt64),
    (∀ p ∈ l, p.2 ≤ 4294967295) → (∀ p ∈ l, ∀ q ∈ l, p.2 = q.2 → p.1 = q.1) →
    (∀ p ∈ l, ∀ h, m.lookup p.2 = some h → p.1 = h) →
    ∃ inv, offToHkey l m = .ok inv ∧
      ∀ o h, inv.lookup o = some h ↔ (⟨h, o⟩ : Sigma fun _ => ℕ) ∈ l ∨ m.lookup o = some h
  | [], m, _, _, _ => ⟨m, rfl, by simp⟩
  | ⟨k, i⟩ :: l, m, hle, hinj, hm => by
    have hi : i ≤ 4294967295 := hle ⟨k, i⟩ (by simp)
    obtain ⟨inv, hinv, hlook⟩ := offToHkey_ok l (m.insert i k) (fun p hp => hle p (by simp [hp]))
      (fun p hp q hq => hinj p (by simp [hp]) q (by simp [hq])) (by
        intro p hp h hl
        by_cases hpi : p.2 = i
        · rw [hpi, AList.lookup_insert, Option.some.injEq] at hl
          rw [← hl]
          exact hinj p (by simp [hp]) ⟨k, i⟩ (by simp) hpi
        · rw [AList.lookup_insert_ne hpi] at hl
          exact hm p (by simp [hp]) h hl)
    refine ⟨inv, ?_, fun o h => ?_⟩
    · simp only [offToHkey, offsetToU32, if_pos hi, hinv]
    rw [hlook]
    by_cases ho : o = i
    · subst ho
      rw [AList.lookup_insert]
      have := hm ⟨k, o⟩ (by simp) h
      simp only [mem_cons, Sigma.mk.injEq, heq_eq_eq, and_true, Option.some.injEq]
      constructor
      · rintro (h' | h')
        · exact .inl (.inr h')
        · exact .inl (.inl h'.symm)
      rintro ((h' | h') | h')
      · exact .inr h'.symm
      · exact .inl h'
      · exact .inr (this h')
    · rw [AList.lookup_insert_ne ho]
      simp [ho]

theorem records_nodup (t : Table) : (t.records.map Prod.fst).Nodup := by
  unfold records
  rw [map_filterMap]
  refine List.Nodup.filterMap ?_ t.offsetIndex.nodup
  intro o o' h ho ho'
  rw [Option.mem_def, Option.map_eq_some_iff] at ho ho'
  obtain ⟨r, hr, rfl⟩ := ho
  obtain ⟨r', hr', hk⟩ := ho'
  have hkey : ∀ {o : ℕ} {r : UInt64 × Entry}, t.recordAt o = some r →
      t.hkeys.lookup r.1 = some o := by
    intro o r hr
    unfold recordAt at hr
    rw [Option.bind_eq_some_iff] at hr
    obtain ⟨p, hp, he⟩ := hr
    rw [Option.map_eq_some_iff] at he
    obtain ⟨e, -, rfl⟩ := he
    have hpo := find?_some hp
    simp only [decide_eq_true_eq] at hpo
    have := HMap.mem_entries_iff.1 (mem_of_find?_eq_some hp)
    rwa [hpo] at this
  have h₁ := hkey hr
  rw [← hk, hkey hr', Option.some.injEq] at h₁
  exact h₁.symm

variable {h : UInt64}

namespace WF

variable {t : Table} (w : t.WF)
include w

theorem offToHkey : ∃ inv, offToHkey t.hkeys.entries ∅ = .ok inv ∧
    ∀ o h, inv.lookup o = some h ↔ t.hkeys.lookup h = some o := by
  obtain ⟨inv, hinv, hlook⟩ := offToHkey_ok t.hkeys.entries ∅
    (fun p hp => (w.decodes p.1 p.2 (HMap.mem_entries_iff.1 hp)).1)
    (fun p hp q hq hpq => w.inj p.1 q.1 p.2 (HMap.mem_entries_iff.1 hp)
      (hpq ▸ HMap.mem_entries_iff.1 hq)) (by simp)
  refine ⟨inv, hinv, fun o h => ?_⟩
  rw [hlook, HMap.mem_entries_iff]
  simp

theorem recordAt_eq {o : ℕ} {e : Entry}
    (hl : t.hkeys.lookup h = some o) (hd : t.decodeAt o = .ok e) :
    t.recordAt o = some (h, e) := by
  rcases hf : t.hkeys.entries.find? (fun p => p.2 = o) with _ | p
  · rw [find?_eq_none] at hf
    have := hf _ (HMap.mem_entries_iff.2 hl)
    simp at this
  have hp := find?_some hf
  simp only [decide_eq_true_eq] at hp
  have hmem := HMap.mem_entries_iff.1 (mem_of_find?_eq_some hf)
  rw [hp] at hmem
  rw [recordAt, hf, hd, w.inj _ _ _ hl hmem]
  rfl

theorem recordAt_index {o : ℕ} (ho : o ∈ t.offsetIndex) :
    ∃ h e, t.hkeys.lookup h = some o ∧ t.decodeAt o = .ok e ∧ t.recordAt o = some (h, e) := by
  obtain ⟨h, hl⟩ := (w.index o).1 ho
  obtain ⟨-, e, hd⟩ := w.decodes h o hl
  exact ⟨h, e, hl, hd, w.recordAt_eq hl hd⟩

/-- A scan hands the callback the live records in offset order. -/
theorem scan {σ : Type} (callback : σ → UInt64 → Entry → Bool × σ) (s : σ) : t.scan callback s =
      (.ok (visit callback t.records s).1, (visit callback t.records s).2) := by
  obtain ⟨inv, hinv, hlook⟩ := w.offToHkey
  have hgo : ∀ (os : List ℕ) (s : σ), (∀ o ∈ os, o ∈ t.offsetIndex) →
      t.scanOffsets callback inv os s = (.ok (visit callback (os.filterMap t.recordAt) s).1,
          (visit callback (os.filterMap t.recordAt) s).2) := by
    intro os
    induction os with
    | nil => exact fun s _ => rfl
    | cons o os ih =>
      intro s hos
      obtain ⟨h, e, hl, hd, hr⟩ := w.recordAt_index (hos o (by simp))
      rw [scanOffsets, (hlook o h).2 hl, filterMap_cons_some hr, visit]
      simp only [hd]
      rcases callback s h e with ⟨_ | _, s'⟩
      · rfl
      · exact ih s' fun o' ho' => hos o' (by simp [ho'])
  unfold Table.scan
  rw [hinv]
  exact hgo _ s fun o ho => ho

theorem mem_records {e : Entry} : (h, e) ∈ t.records ↔ t.view h = some e := by
  unfold records
  rw [mem_filterMap]
  constructor
  · rintro ⟨o, ho, hr⟩
    obtain ⟨h', e', hl, hd, hr'⟩ := w.recordAt_index ho
    rw [hr, Option.some.injEq, Prod.mk.injEq] at hr'
    obtain ⟨rfl, rfl⟩ := hr'
    exact view_of_lookup hl hd
  · intro hv
    obtain ⟨o, hl, hd⟩ := w.view_some hv
    exact ⟨o, (w.index o).2 ⟨h, hl⟩, w.recordAt_eq hl hd⟩

theorem records_map {β : Type} {f : UInt64 × Entry → β} {g : ℕ → β}
    (hfg : ∀ o h e, t.decodeAt o = .ok e → f (h, e) = g o) :
    t.records.map f = t.offsetIndex.toList.map g := by
  unfold records
  have hgo : ∀ os : List ℕ, (∀ o ∈ os, o ∈ t.offsetIndex) →
      (os.filterMap t.recordAt).map f = os.map g := by
    intro os
    induction os with
    | nil => exact fun _ => rfl
    | cons o os ih =>
      intro hos
      obtain ⟨h, e, -, hd, hr⟩ := w.recordAt_index (hos o (by simp))
      rw [filterMap_cons_some hr, map_cons, map_cons, hfg o h e hd,
        ih fun o' ho' => hos o' (by simp [ho'])]
  exact hgo _ fun o ho => ho

theorem offsets_perm : t.offsetIndex.toList.Perm (t.hkeys.entries.map fun p => p.2) := by
  rw [perm_ext_iff_of_nodup t.offsetIndex.nodup]
  · intro o
    rw [← SortedSet.mem_def, w.index, mem_map]
    constructor
    · rintro ⟨h, hl⟩
      exact ⟨⟨h, o⟩, HMap.mem_entries_iff.2 hl, rfl⟩
    · rintro ⟨p, hp, rfl⟩
      exact ⟨p.1, HMap.mem_entries_iff.1 hp⟩
  · refine List.Nodup.map_on ?_ (t.hkeys.nodupKeys.nodup)
    intro p hp q hq hpq
    have h₁ := HMap.mem_entries_iff.1 hp
    have h₂ := HMap.mem_entries_iff.1 hq
    rw [← hpq] at h₂
    exact Sigma.ext (w.inj _ _ _ h₁ h₂) (heq_of_eq hpq)

theorem len_eq : t.len = t.records.length := by
  have := congrArg length (w.records_map (f := fun _ => ()) (g := fun _ => ()) fun _ _ _ _ => rfl)
  rw [length_map, length_map, w.offsets_perm.length_eq, length_map] at this
  exact this.symm

theorem sum_sizeAt : (t.offsetIndex.toList.map t.sizeAt).sum = t.liveBytes := by
  rw [(w.offsets_perm.map _).sum_eq, map_map, w.live]
  rfl

theorem inuse_eq : t.inuse = (t.records.map fun r => r.2.encodedLen).sum := by
  rw [w.records_map (g := t.sizeAt) fun o h e hd => (sizeAt_eq hd).symm, w.sum_sizeAt]
  rfl

end WF

/-! ## Compaction -/

def copyTo (s : Table × Option StorageError) (h : UInt64) (e : Entry) :
    Bool × (Table × Option StorageError) :=
  match s.1.append h e with
  | (.error err, dst) => (false, (dst, some err))
  | (.ok _, dst) => (true, (dst, s.2))

def appends (t : Table) : List (UInt64 × Entry) → List (Except StorageError Bool)
  | [] => []
  | r :: rs => (t.append r.1 r.2).1 :: (t.append r.1 r.2).2.appends rs

theorem WF.records_extended {t : Table} {e : Entry} (w : t.WF) (a : t.Accepts e)
    (hl : t.hkeys.lookup h = none) : (t.extended h e).records = t.records ++ [(h, e)] := by
  have w' := w.extended a hl
  have htop : ∀ o ∈ t.offsetIndex, o < t.offset := by
    intro o ho
    obtain ⟨h', hl'⟩ := (w.index o).1 ho
    exact w.lt_offset hl'
  have hnew : (t.extended h e).recordAt t.offset = some (h, e) := by
    refine w'.recordAt_eq (AList.lookup_insert _) ?_
    rw [w.offset_eq]
    exact decodeAt_record rfl a.enc
  have hold : ∀ o ∈ t.offsetIndex.toList, (t.extended h e).recordAt o = t.recordAt o := by
    intro o ho
    obtain ⟨h', e', hl', hd, hr⟩ := w.recordAt_index ho
    have hne : h' ≠ h := by
      rintro rfl
      rw [hl] at hl'
      cases hl'
    rw [hr]
    exact w'.recordAt_eq ((AList.lookup_insert_ne hne).trans hl') (decodeAt_extend rfl hd)
  have hindex : (t.extended h e).offsetIndex.toList = t.offsetIndex.toList ++ [t.offset] :=
    SortedSet.toList_insert htop
  unfold records
  rw [hindex, filterMap_append, filterMap_congr hold, filterMap_cons_some hnew, filterMap_nil]

theorem copyTo_visit {src : Table} (w : src.WF) : ∀ (os : List ℕ) (dst : Table), dst.WF →
    dst.state = .readWrite → dst.offset + (os.map src.sizeAt).sum ≤ dst.capacity →
    os.Pairwise (· < ·) → (∀ o ∈ os, o ∈ src.offsetIndex) → (∀ o ∈ os, dst.offset ≤ o) →
    (∀ o ∈ os, ∀ h, src.hkeys.lookup h = some o → dst.hkeys.lookup h = none) →
    ∃ dst', visit copyTo (os.filterMap src.recordAt) (dst, none) = (true, (dst', none)) ∧
      dst'.WF ∧ dst'.state = .readWrite ∧ dst'.garbageBytes = dst.garbageBytes ∧
      dst'.records = dst.records ++ os.filterMap src.recordAt ∧
      ∀ x ∈ dst.appends (os.filterMap src.recordAt), x = .ok true
  | [], dst, wd, hs, _, _, _, _, _ => ⟨dst, rfl, wd, hs, rfl, by simp, by simp [appends]⟩
  | o :: os, dst, wd, hs, hroom, hsorted, hin, hbelow, hfresh => by
    obtain ⟨h, e, hl, hd, hr⟩ := w.recordAt_index (hin o (by simp))
    rw [pairwise_cons] at hsorted
    rw [map_cons, sum_cons, sizeAt_eq hd] at hroom
    have hacc : dst.Accepts e :=
      ⟨by omega, (hbelow o (by simp)).trans (w.decodes h o hl).1, (decodeAt_spec hd).2⟩
    have hnone := hfresh o (by simp) h hl
    have hnext : ∀ o' ∈ os, (dst.extended h e).offset ≤ o' := by
      intro o' ho'
      obtain ⟨h', hl'⟩ := (w.index o').1 (hin o' (by simp [ho']))
      have := w.apart h h' o o' hl hl' (hsorted.1 o' ho')
      rw [sizeAt_eq hd] at this
      exact (Nat.add_le_add_right (hbelow o (by simp)) _).trans this
    have hrest : ∀ o' ∈ os, ∀ h', src.hkeys.lookup h' = some o' →
        (dst.extended h e).hkeys.lookup h' = none := by
      intro o' ho' h' hl'
      have hne : h' ≠ h := by
        rintro rfl
        rw [hl, Option.some.injEq] at hl'
        exact absurd hl' (hsorted.1 o' ho').ne
      exact (AList.lookup_insert_ne hne).trans (hfresh o' (by simp [ho']) h' hl')
    obtain ⟨dst', hgo, wdst, hst, hgarbage, hrecords, hall⟩ := copyTo_visit w os (dst.extended h e)
      (wd.extended hacc hnone) hs (by simp only [extended]; omega) hsorted.2
      (fun o' ho' => hin o' (by simp [ho'])) hnext hrest
    have hcb : copyTo (dst, none) h e = (true, (dst.extended h e, none)) := by
      rw [copyTo, append_new hacc hnone]
    refine ⟨dst', ?_, wdst, hst, hgarbage, ?_, ?_⟩
    · rw [filterMap_cons_some hr, visit, hcb]
      exact hgo
    · rw [hrecords, wd.records_extended hacc hnone, filterMap_cons_some hr, append_assoc]
      rfl
    · rw [filterMap_cons_some hr, appends, append_new hacc hnone]
      exact forall_mem_cons.2 ⟨rfl, hall⟩

theorem WF.compactTable {t : Table} (w : t.WF) (c : ℕ) :
    ∃ t', Kamino.compactTable t c = .ok t' ∧ t'.WF ∧ t'.state = .readWrite ∧
      t'.garbageBytes = 0 ∧ t'.records = t.records ∧
      ∀ x ∈ (Table.withCapacity (max c t.inuse)).appends t.records, x = .ok true := by
  obtain ⟨t', hgo, w', hs, hgarbage, hrecords, hall⟩ := copyTo_visit w t.offsetIndex.toList
    (Table.withCapacity (max c t.inuse)) (.withCapacity _) rfl
    (by rw [w.sum_sizeAt]; simp [Table.withCapacity, inuse]) t.offsetIndex.sorted
    (fun o ho => ho) (fun o _ => Nat.zero_le o) (fun o _ h _ => by simp [Table.withCapacity])
  refine ⟨t', ?_, w', hs, hgarbage, hrecords, hall⟩
  have hscan := w.scan copyTo (Table.withCapacity (max c t.inuse), none)
  rw [records, hgo] at hscan
  unfold Kamino.compactTable
  dsimp only
  split <;> rename_i h <;> cases hscan.symm.trans h
  rfl

theorem WF.view_congr {t t' : Table} (w : t.WF) (w' : t'.WF) (h : t'.records = t.records) :
    t'.view = t.view := by
  funext k
  refine Option.ext fun e => ?_
  rw [← w'.mem_records, ← w.mem_records, h]

end Table

end Kamino
