import Kamino.Lib.Runs
import Kamino.Table
import Kamino.Proofs.Entry
import Mathlib.Tactic.Tauto

/-!
# What a table keeps

`Table.WF` is the table's invariant: the write offset is the length of the memory and is the live
bytes plus the garbage, every indexed offset decodes and is below `2 ^ 32`, no two keys share an
offset, and the offset index is the set of indexed offsets.
-/

namespace Kamino

open Function List Option AList HMap

namespace Table

def view (t : Table) (h : UInt64) : Option Entry :=
  (t.hkeys.lookup h).bind fun o => (t.decodeAt o).toOption

def sizeAt (t : Table) (o : ℕ) : ℕ :=
  match t.decodeAt o with
  | .ok e => e.encodedLen
  | .error _ => 0

structure WF (t : Table) : Prop where
  offset_eq : t.offset = t.memory.length
  decodes : ∀ h o, t.hkeys.lookup h = some o → o ≤ 4294967295 ∧ ∃ e, t.decodeAt o = .ok e
  inj : ∀ h h' o, t.hkeys.lookup h = some o → t.hkeys.lookup h' = some o → h = h'
  apart : ∀ h h' o o', t.hkeys.lookup h = some o → t.hkeys.lookup h' = some o' → o < o' →
    o + t.sizeAt o ≤ o'
  index : ∀ o, o ∈ t.offsetIndex ↔ ∃ h, t.hkeys.lookup h = some o
  live : t.liveBytes = total (fun _ o => t.sizeAt o) t.hkeys
  bytes : t.offset = t.liveBytes + t.garbageBytes

section Decode

variable {t t' : Table} {o : ℕ} {e : Entry}

theorem decodeAt_spec (h : t.decodeAt o = .ok e) :
    o + e.encodedLen ≤ t.memory.length ∧ e.Encodable := by
  unfold decodeAt at h
  split_ifs at h with ho
  split at h
  · rename_i e' n hd
    simp only [Except.ok.injEq] at h
    subst h
    obtain ⟨hn, hle, henc⟩ := Entry.decode_spec hd
    rw [length_drop] at hle
    exact ⟨by omega, henc⟩
  · simp at h

theorem decodeAt_extend {x : Bytes} (hm : t'.memory = t.memory ++ x)
    (h : t.decodeAt o = .ok e) : t'.decodeAt o = .ok e := by
  have hlt := (decodeAt_spec h).1
  unfold decodeAt at h ⊢
  split_ifs at h with ho
  rw [hm, if_neg (by rw [length_append]; omega), drop_append_of_le_length (by omega)]
  split at h
  · rename_i e' n hd
    rw [Entry.decode_append hd]
    exact h
  · simp at h

theorem decodeAt_record {m : Bytes} (hm : t'.memory = m ++ e.record) (he : e.Encodable) :
    t'.decodeAt m.length = .ok e := by
  have hd := Entry.decode_record he []
  unfold decodeAt
  rw [hm, if_neg (by rw [length_append]; omega), drop_left]
  rw [append_nil] at hd
  rw [hd]

theorem decodeAt_congr (hm : t'.memory = t.memory) : t'.decodeAt o = t.decodeAt o := by
  unfold decodeAt
  rw [hm]

theorem sizeAt_eq (h : t.decodeAt o = .ok e) : t.sizeAt o = e.encodedLen := by
  unfold sizeAt
  rw [h]

end Decode

variable {h : UInt64} {o : ℕ} {t : Table}

theorem view_of_lookup {e : Entry}
    (hl : t.hkeys.lookup h = some o) (hd : t.decodeAt o = .ok e) : t.view h = some e := by
  simp [view, hl, hd, Except.toOption]

theorem view_none (hl : t.hkeys.lookup h = none) : t.view h = none := by
  simp [view, hl]

theorem demote_ok {e : Entry} (ho : o ≤ 4294967295) (hd : t.decodeAt o = .ok e) :
    t.demote o = (.ok (), { t with
      offsetIndex := t.offsetIndex.remove o
      garbageBytes := t.garbageBytes + e.encodedLen
      liveBytes := t.liveBytes - e.encodedLen }) := by
  unfold demote offsetToU32
  rw [if_pos ho]
  simp only []
  rw [decodeAt_congr (t := t) (by rfl), hd]

theorem promote_ok {start need : ℕ} (hs : start ≤ 4294967295) :
    t.promote start need = (.ok true, { t with
      offsetIndex := t.offsetIndex.insert start
      liveBytes := t.liveBytes + need }) := by
  unfold promote offsetToU32
  rw [if_pos hs]

namespace WF

variable {t : Table}

theorem withCapacity (c : ℕ) : (Table.withCapacity c).WF where
  offset_eq := rfl
  decodes := by simp [Table.withCapacity]
  inj := by simp [Table.withCapacity]
  apart := by simp [Table.withCapacity]
  index := by simp [Table.withCapacity]
  live := rfl
  bytes := rfl

variable (w : t.WF)
include w

theorem of_eq {t' : Table} (hm : t'.memory = t.memory) (hk : t'.hkeys = t.hkeys)
    (hi : t'.offsetIndex = t.offsetIndex) (ho : t'.offset = t.offset)
    (hg : t'.garbageBytes = t.garbageBytes) (hl : t'.liveBytes = t.liveBytes) : t'.WF := by
  have hd : ∀ o, t'.decodeAt o = t.decodeAt o := fun o => decodeAt_congr hm
  have hs : ∀ o, t'.sizeAt o = t.sizeAt o := fun o => by unfold sizeAt; rw [hd]
  refine ⟨by rw [ho, hm, w.offset_eq], ?_, ?_, ?_, ?_, ?_, by rw [ho, hg, hl, w.bytes]⟩
  · simpa only [hk, hd] using w.decodes
  · simpa only [hk] using w.inj
  · simpa only [hk, hs] using w.apart
  · simpa only [hk, hi] using w.index
  · rw [hl, hk, w.live]
    exact total_congr fun _ o _ => (hs o).symm

theorem sealed : t.sealed.WF := by
  unfold Table.sealed
  split_ifs
  · exact w.of_eq rfl rfl rfl rfl rfl rfl
  · exact w

theorem get_eq (h : UInt64) : t.get h = .ok (t.view h) := by
  unfold get
  rcases hl : t.hkeys.lookup h with _ | o
  · simp only []
    rw [view_none hl]
  · obtain ⟨-, e, he⟩ := w.decodes h o hl
    simp only [he, view_of_lookup hl he]

theorem view_isSome (h : UInt64) : (t.view h).isSome = (t.hkeys.lookup h).isSome := by
  rcases hl : t.hkeys.lookup h with _ | o
  · rw [view_none hl]
    rfl
  · obtain ⟨-, e, he⟩ := w.decodes h o hl
    rw [view_of_lookup hl he]
    rfl

theorem view_some {e : Entry} (hv : t.view h = some e) :
    ∃ o, t.hkeys.lookup h = some o ∧ t.decodeAt o = .ok e := by
  rcases hl : t.hkeys.lookup h with _ | o
  · rw [view_none hl] at hv
    cases hv
  · obtain ⟨-, e', he⟩ := w.decodes h o hl
    rw [view_of_lookup hl he, Option.some.injEq] at hv
    exact ⟨o, rfl, hv ▸ he⟩

theorem lt_offset (hl : t.hkeys.lookup h = some o) : o < t.offset := by
  obtain ⟨-, e, he⟩ := w.decodes h o hl
  have := (decodeAt_spec he).1
  have := e.encodedLen_pos
  rw [w.offset_eq]
  omega

end WF

/-! ## Deleting -/

section Delete

variable {t : Table} {h : UInt64}

def dropped (t : Table) (h : UInt64) (o : ℕ) (prev : Entry) : Table :=
  { t with
    hkeys := t.hkeys.erase h
    offsetIndex := t.offsetIndex.remove o
    garbageBytes := t.garbageBytes + prev.encodedLen
    liveBytes := t.liveBytes - prev.encodedLen }

theorem delete_none (hl : t.hkeys.lookup h = none) : t.delete h = (.ok false, t) := by
  unfold delete
  rw [hl]

theorem delete_some {prev : Entry} (hl : t.hkeys.lookup h = some o) (ho : o ≤ 4294967295)
    (hd : t.decodeAt o = .ok prev) : t.delete h = (.ok true, t.dropped h o prev) := by
  unfold delete
  rw [hl]
  simp only []
  rw [demote_ok (e := prev) ho (by rw [decodeAt_congr (t := t) (by rfl), hd])]
  rfl

variable (w : t.WF)
include w

theorem WF.dropped {prev : Entry} (hl : t.hkeys.lookup h = some o)
    (hd : t.decodeAt o = .ok prev) : (t.dropped h o prev).WF := by
  have hdec : ∀ o', (t.dropped h o prev).decodeAt o' = t.decodeAt o' :=
    fun o' => decodeAt_congr rfl
  have hsz : ∀ o', (t.dropped h o prev).sizeAt o' = t.sizeAt o' :=
    fun o' => by unfold sizeAt; rw [hdec]
  have hlook : ∀ h' o', (t.hkeys.erase h).lookup h' = some o' →
      h' ≠ h ∧ t.hkeys.lookup h' = some o' := by
    intro h' o' hl'
    by_cases hh : h' = h
    · subst hh
      rw [lookup_erase] at hl'
      cases hl'
    · rw [lookup_erase_ne hh] at hl'
      exact ⟨hh, hl'⟩
  have hsum := total_erase (f := fun _ o => t.sizeAt o) hl
  have hsize := sizeAt_eq hd
  refine ⟨w.offset_eq, ?_, ?_, ?_, ?_, ?_, ?_⟩
  · intro h' o' hl'
    rw [hdec]
    exact w.decodes h' o' (hlook h' o' hl').2
  · intro h₁ h₂ o' hl₁ hl₂
    exact w.inj h₁ h₂ o' (hlook _ _ hl₁).2 (hlook _ _ hl₂).2
  · intro h₁ h₂ o₁ o₂ hl₁ hl₂ hlt
    rw [hsz]
    exact w.apart h₁ h₂ o₁ o₂ (hlook _ _ hl₁).2 (hlook _ _ hl₂).2 hlt
  · intro o'
    simp only [Table.dropped, SortedSet.mem_remove]
    constructor
    · rintro ⟨hne, hmem⟩
      obtain ⟨h', hl'⟩ := (w.index o').1 hmem
      refine ⟨h', ?_⟩
      rw [lookup_erase_ne, hl']
      rintro rfl
      rw [hl, Option.some.injEq] at hl'
      exact hne hl'.symm
    · rintro ⟨h', hl'⟩
      obtain ⟨hne, hl'⟩ := hlook _ _ hl'
      refine ⟨?_, (w.index o').2 ⟨h', hl'⟩⟩
      rintro rfl
      exact hne (w.inj _ _ _ hl' hl)
  · have : total (fun _ o' => (t.dropped h o prev).sizeAt o') (t.hkeys.erase h)
        = total (fun _ o => t.sizeAt o) (t.hkeys.erase h) :=
      total_congr fun _ o' _ => hsz o'
    simp only [Table.dropped] at this ⊢
    rw [this]
    have := w.live
    omega
  · have := w.live
    have := w.bytes
    simp only [Table.dropped]
    omega

theorem WF.delete_fst (h : UInt64) : (t.delete h).1 = .ok (t.view h).isSome := by
  rw [w.view_isSome]
  rcases hl : t.hkeys.lookup h with _ | o
  · rw [delete_none hl]
    rfl
  · obtain ⟨ho, e, he⟩ := w.decodes h o hl
    rw [delete_some hl ho he]
    rfl

theorem WF.delete (h : UInt64) : (t.delete h).2.WF := by
  rcases hl : t.hkeys.lookup h with _ | o
  · rw [delete_none hl]
    exact w
  · obtain ⟨ho, e, he⟩ := w.decodes h o hl
    rw [delete_some hl ho he]
    exact w.dropped hl he

theorem WF.view_delete (h : UInt64) : (t.delete h).2.view = update t.view h none := by
  rcases hl : t.hkeys.lookup h with _ | o
  · rw [delete_none hl, ← view_none hl, update_eq_self]
  obtain ⟨ho, e, he⟩ := w.decodes h o hl
  rw [delete_some hl ho he]
  funext h'
  by_cases hh : h' = h
  · subst hh
    rw [update_self, view_none]
    exact lookup_erase _ _
  rw [update_of_ne hh]
  unfold view
  simp only [Table.dropped, lookup_erase_ne hh]
  rfl

theorem WF.delete_frame (h : UInt64) : (t.delete h).2.state = t.state ∧
    (t.delete h).2.capacity = t.capacity ∧ (t.delete h).2.offset = t.offset ∧
    (t.delete h).2.memory = t.memory ∧ (t.delete h).2.hkeys = t.hkeys.erase h := by
  rcases hl : t.hkeys.lookup h with _ | o
  · rw [delete_none hl, erase_of_none hl]
    exact ⟨rfl, rfl, rfl, rfl, rfl⟩
  · obtain ⟨ho, e, he⟩ := w.decodes h o hl
    rw [delete_some hl ho he]
    exact ⟨rfl, rfl, rfl, rfl, rfl⟩

theorem WF.len_delete (hs : (t.view h).isSome) : (t.delete h).2.len + 1 = t.len := by
  obtain ⟨-, -, -, -, hk⟩ := w.delete_frame h
  rw [w.view_isSome] at hs
  obtain ⟨o, ho⟩ := isSome_iff_exists.1 hs
  rw [len, hk]
  exact length_erase ho

end Delete

/-! ## Appending -/

section Append

variable {t : Table} {h : UInt64} {e : Entry}

/-- A table with room for `e`, whose write offset still fits the offset index. -/
structure Accepts (t : Table) (e : Entry) : Prop where
  room : t.offset + e.encodedLen ≤ t.capacity
  start : t.offset ≤ 4294967295
  enc : e.Encodable

/-- The table an append leaves where the key was not there. -/
def extended (t : Table) (h : UInt64) (e : Entry) : Table :=
  { t with
    memory := t.memory ++ e.record
    offset := t.offset + e.encodedLen
    hkeys := t.hkeys.insert h t.offset
    offsetIndex := t.offsetIndex.insert t.offset
    liveBytes := t.liveBytes + e.encodedLen }

theorem append_refused {err : StorageError} (hroom : t.offset + e.encodedLen ≤ t.capacity)
    (herr : e.encodeInto t.memory = .error err) : t.append h e = (.error err, t) := by
  simp only [append, herr]
  rw [if_neg (by omega)]

theorem append_new (a : t.Accepts e) (hl : t.hkeys.lookup h = none) :
    t.append h e = (.ok true, t.extended h e) := by
  have := a.room
  simp only [append]
  rw [if_neg (by omega), Entry.encodeInto_ok a.enc]
  simp only [hl]
  rw [promote_ok a.start]
  rfl

theorem append_over (w : t.WF) (a : t.Accepts e) : t.append h e = (t.delete h).2.append h e := by
  rcases hl : t.hkeys.lookup h with _ | o
  · rw [delete_none hl]
  obtain ⟨ho, prev, hd⟩ := w.decodes h o hl
  have hsum := total_erase (f := fun _ o => t.sizeAt o) hl
  have hsize := sizeAt_eq hd
  have hlive := w.live
  have a' : (t.dropped h o prev).Accepts e := ⟨a.room, a.start, a.enc⟩
  have := a.room
  rw [delete_some hl ho hd, append_new a' (lookup_erase _ _)]
  simp only [append]
  rw [if_neg (by omega), Entry.encodeInto_ok a.enc]
  simp only [hl]
  rw [demote_ok (e := prev) ho (decodeAt_extend rfl hd)]
  simp only []
  rw [promote_ok a.start]
  have hins : (t.hkeys.erase h).insert h t.offset = t.hkeys.insert h t.offset := by
    apply AList.ext
    rw [entries_insert, entries_insert]
    congr 1
    refine kerase_of_notMem_keys ?_
    exact notMem_keys_kerase h t.hkeys.nodupKeys
  simp only [extended, dropped, hins]

theorem WF.extended (w : t.WF) (a : t.Accepts e) (hl : t.hkeys.lookup h = none) :
    (t.extended h e).WF := by
  have hnew : (t.extended h e).decodeAt t.offset = .ok e := by
    rw [w.offset_eq]
    exact decodeAt_record rfl a.enc
  have hold : ∀ {o e'}, t.decodeAt o = .ok e' → (t.extended h e).decodeAt o = .ok e' :=
    fun hd => decodeAt_extend rfl hd
  have hlook : ∀ h' o, (t.hkeys.insert h t.offset).lookup h' = some o →
      (h' = h ∧ o = t.offset) ∨ (h' ≠ h ∧ t.hkeys.lookup h' = some o) := by
    intro h' o hl'
    by_cases hh : h' = h
    · subst hh
      rw [lookup_insert, Option.some.injEq] at hl'
      exact .inl ⟨rfl, hl'.symm⟩
    · rw [lookup_insert_ne hh] at hl'
      exact .inr ⟨hh, hl'⟩
  refine ⟨?_, ?_, ?_, ?_, ?_, ?_, ?_⟩
  · simp [Table.extended, w.offset_eq]
  · intro h' o hl'
    rcases hlook h' o hl' with ⟨-, rfl⟩ | ⟨-, hl'⟩
    · exact ⟨a.start, e, hnew⟩
    · obtain ⟨ho, e', he'⟩ := w.decodes h' o hl'
      exact ⟨ho, e', hold he'⟩
  · intro h₁ h₂ o hl₁ hl₂
    rcases hlook _ _ hl₁ with ⟨rfl, rfl⟩ | ⟨-, ho₁⟩ <;>
      rcases hlook _ _ hl₂ with ⟨rfl, ho⟩ | ⟨-, ho₂⟩
    · rfl
    · exact absurd (w.lt_offset ho₂) (lt_irrefl _)
    · subst ho
      exact absurd (w.lt_offset ho₁) (lt_irrefl _)
    · exact w.inj _ _ _ ho₁ ho₂
  · intro h₁ h₂ o₁ o₂ hl₁ hl₂ hlt
    rcases hlook _ _ hl₁ with ⟨-, rfl⟩ | ⟨-, hk₁⟩
    · rcases hlook _ _ hl₂ with ⟨-, ho⟩ | ⟨-, hk₂⟩
      · omega
      · have := w.lt_offset hk₂
        omega
    obtain ⟨-, e', he'⟩ := w.decodes _ _ hk₁
    rw [sizeAt_eq (hold he')]
    rcases hlook _ _ hl₂ with ⟨-, rfl⟩ | ⟨-, hk₂⟩
    · rw [w.offset_eq]
      exact (decodeAt_spec he').1
    · rw [← sizeAt_eq he']
      exact w.apart _ _ _ _ hk₁ hk₂ hlt
  · intro o
    simp only [Table.extended, SortedSet.mem_insert]
    constructor
    · rintro (rfl | hmem)
      · exact ⟨h, lookup_insert _⟩
      obtain ⟨h', hl'⟩ := (w.index o).1 hmem
      refine ⟨h', ?_⟩
      rw [lookup_insert_ne, hl']
      rintro rfl
      rw [hl] at hl'
      cases hl'
    · rintro ⟨h', hl'⟩
      rcases hlook _ _ hl' with ⟨-, rfl⟩ | ⟨-, hl'⟩
      · exact .inl rfl
      · exact .inr ((w.index o).2 ⟨h', hl'⟩)
  · have hrest : total (fun _ o => (t.extended h e).sizeAt o) t.hkeys
        = total (fun _ o => t.sizeAt o) t.hkeys := by
      refine total_congr fun h' o hl' => ?_
      obtain ⟨-, e', he'⟩ := w.decodes h' o hl'
      rw [sizeAt_eq he', sizeAt_eq (hold he')]
    have htot : total (fun _ o => (t.extended h e).sizeAt o) (t.hkeys.insert h t.offset)
        = e.encodedLen + total (fun _ o => t.sizeAt o) t.hkeys := by
      rw [total_insert, erase_of_none hl, sizeAt_eq hnew, hrest]
    change t.liveBytes + e.encodedLen = total _ (t.hkeys.insert h t.offset)
    rw [htot, w.live, Nat.add_comm]
  · have := w.bytes
    simp only [Table.extended]
    omega

theorem WF.view_extended (w : t.WF) (a : t.Accepts e) :
    (t.extended h e).view = update t.view h (some e) := by
  funext h'
  by_cases hh : h' = h
  · subst hh
    rw [update_self, view_of_lookup (lookup_insert _)]
    rw [w.offset_eq]
    exact decodeAt_record rfl a.enc
  rw [update_of_ne hh]
  have hl' : (t.extended h e).hkeys.lookup h' = t.hkeys.lookup h' :=
    lookup_insert_ne hh
  rcases hl : t.hkeys.lookup h' with _ | o
  · rw [view_none hl, view_none (hl'.trans hl)]
  · obtain ⟨-, e', he'⟩ := w.decodes h' o hl
    rw [view_of_lookup hl he', view_of_lookup (hl'.trans hl) (decodeAt_extend rfl he')]

theorem WF.append_fst (w : t.WF) (a : t.Accepts e) (h : UInt64) : (t.append h e).1 = .ok true := by
  obtain ⟨-, hc, ho, -, hk⟩ := w.delete_frame h
  have a' : (t.delete h).2.Accepts e := ⟨by rw [hc, ho]; exact a.room, ho ▸ a.start, a.enc⟩
  rw [append_over w a, append_new a' (by rw [hk]; exact lookup_erase _ _)]

theorem WF.append (w : t.WF) (a : t.Accepts e) (h : UInt64) : (t.append h e).2.WF ∧
    (t.append h e).2.view = update t.view h (some e) ∧
    (t.append h e).2.state = t.state ∧ (t.append h e).2.capacity = t.capacity ∧
    (t.append h e).2.offset = t.offset + e.encodedLen := by
  obtain ⟨hs, hc, ho, -, hk⟩ := w.delete_frame h
  have a' : (t.delete h).2.Accepts e := ⟨by rw [hc, ho]; exact a.room, ho ▸ a.start, a.enc⟩
  have hl : (t.delete h).2.hkeys.lookup h = none := by
    rw [hk]
    exact lookup_erase _ _
  rw [append_over w a, append_new a' hl]
  refine ⟨(w.delete h).extended a' hl, ?_, hs, hc, ?_⟩
  · rw [(w.delete h).view_extended a', w.view_delete, update_idem]
  · simp only [Table.extended, ho]

end Append

/-! ## Runs of calls -/

inductive Call where
  | append (hkey : UInt64) (entry : Entry)
  | delete (hkey : UInt64)
  | sealed

/-- A table, and the entry each key was last appended with. -/
structure Written where
  table : Table
  entries : UInt64 → Option Entry

/-- A call that returns. -/
def Written.step (s : Written) : Call → Option Written
  | .append h e =>
    match s.table.append h e with
    | (.error (.panicked _), _) => none
    | (.ok true, t) => some ⟨t, Function.update s.entries h (some e)⟩
    | (_, t) => some ⟨t, s.entries⟩
  | .delete h =>
    match s.table.delete h with
    | (.error _, _) => none
    | (.ok _, t) => some ⟨t, Function.update s.entries h none⟩
  | .sealed => some ⟨s.table.sealed, s.entries⟩

section Calls

variable {t : Table} {e : Entry}

theorem WF.append_cases (w : t.WF) (h : UInt64) (e : Entry) :
    t.Accepts e ∨ t.append h e = (.ok false, t) ∨ (∃ err, t.append h e = (.error err, t))
      ∨ ∃ text, (t.append h e).1 = .error (.panicked text) := by
  by_cases hroom : t.offset + e.encodedLen ≤ t.capacity
  · by_cases henc : e.Encodable
    · by_cases hstart : t.offset ≤ 4294967295
      · exact .inl ⟨hroom, hstart, henc⟩
      -- The record is written and its offset is then too large for the index.
      · refine .inr (.inr (.inr ⟨"table offsets must fit in u32 (≤ 4 GiB tables)", ?_⟩))
        simp only [Table.append]
        rw [if_neg (by omega), Entry.encodeInto_ok henc]
        dsimp only
        rcases hl : t.hkeys.lookup h with _ | o
        · simp [promote, offsetToU32, hstart]
        obtain ⟨ho, prev, hd⟩ := w.decodes h o hl
        dsimp only
        rw [demote_ok (e := prev) ho (decodeAt_extend rfl hd)]
        simp [promote, offsetToU32, hstart]
    · obtain ⟨err, herr⟩ := Entry.encodeInto_error henc t.memory
      exact .inr (.inr (.inl ⟨err, append_refused hroom herr⟩))
  · exact .inr (.inl (if_pos (by omega)))

theorem WF.append_false (w : t.WF) {t' : Table}
    (hno : t.append h e = (.ok false, t')) : t' = t := by
  rcases w.append_cases h e with a | hroom | ⟨err, herr⟩ | ⟨text, hpanic⟩
  · have hyes := w.append_fst a h
    rw [hno] at hyes
    cases hyes
  · exact (Prod.mk.inj (hno.symm.trans hroom)).2
  · cases hno.symm.trans herr
  · rw [hno] at hpanic
    cases hpanic

theorem view_sealed (t : Table) : t.sealed.view = t.view := by
  unfold Table.sealed
  split_ifs <;> rfl

/-- One call keeps the invariant and the entries written. -/
theorem Written.step_keeps {s s' : Written} {c : Call} (hs : s.table.WF ∧ s.table.view = s.entries)
    (h : s.step c = some s') : s'.table.WF ∧ s'.table.view = s'.entries := by
  obtain ⟨w, hview⟩ := hs
  cases c with
  | append hk e =>
    rw [Written.step] at h
    rcases w.append_cases hk e with a | hroom | ⟨err, herr⟩ | ⟨text, hpanic⟩
    · obtain ⟨hwf, hv, -⟩ := w.append a hk
      have hok := w.append_fst a hk
      generalize s.table.append hk e = result at *
      obtain ⟨_, t'⟩ := result
      obtain rfl := hok
      cases h
      exact ⟨hwf, hv.trans (by rw [hview])⟩
    · rw [hroom] at h
      cases h
      exact ⟨w, hview⟩
    · rw [herr] at h
      cases err <;> cases h <;> exact ⟨w, hview⟩
    · generalize s.table.append hk e = result at *
      obtain ⟨_, t'⟩ := result
      obtain rfl := hpanic
      cases h
  | delete hk =>
    have hwf := w.delete hk
    have hv := w.view_delete hk
    have hok := w.delete_fst hk
    rw [Written.step] at h
    generalize s.table.delete hk = result at *
    obtain ⟨_, t'⟩ := result
    obtain rfl := hok
    cases h
    exact ⟨hwf, hv.trans (by rw [hview])⟩
  | sealed =>
    cases h
    exact ⟨w.sealed, (view_sealed _).trans hview⟩

/-- The four structures of a table agree after any calls, and each indexed record is the one that
was appended. -/
theorem calls_keep_table (capacity : ℕ) (calls : List Call) {s : Written}
    (h : Runs.exec Written.step ⟨withCapacity capacity, fun _ => none⟩ calls = some s) :
    s.table.WF ∧ s.table.view = s.entries
      ∧ ∀ hkey e t', s.table.append hkey e = (.ok false, t') → t' = s.table := by
  have hstart : (withCapacity capacity).WF ∧ (withCapacity capacity).view = fun _ => none :=
    ⟨.withCapacity capacity, rfl⟩
  have hstep : ∀ (s : Written) c s', s.table.WF ∧ s.table.view = s.entries → True →
      s.step c = some s' → s'.table.WF ∧ s'.table.view = s'.entries :=
    fun s c s' hs _ => Written.step_keeps hs
  obtain ⟨w, hview⟩ := Runs.exec_invariant hstep hstart (fun _ _ => trivial) h
  exact ⟨w, hview, fun hkey e t' => w.append_false⟩

theorem calls_keep_sealed_table :
    let calls := [.append 7 ⟨[1], 0, 2, 0, []⟩, .sealed, .append 7 ⟨[1], 0, 3, 0, []⟩]
    ∃ s, Runs.exec Written.step ⟨withCapacity 64, fun _ => none⟩ calls = some s ∧ s.table.WF ∧
      s.table.view 7 = some ⟨[1], 0, 3, 0, []⟩ := by
  intro calls
  obtain ⟨s, hs⟩ := isSome_iff_exists.1 (by decide : (Runs.exec Written.step
    ⟨withCapacity 64, fun _ => none⟩ calls).isSome)
  obtain ⟨w, hview, -⟩ := calls_keep_table 64 calls hs
  refine ⟨s, hs, w, ?_⟩
  rw [hview]
  cases hs
  rfl

end Calls

end Table

end Kamino
