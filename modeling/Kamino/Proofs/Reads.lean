import Kamino.Proofs.Migration
import Kamino.Reads

/-!
# What a `DM.GET` returns when nobody has the key

A call is silent while neither its own node nor a peer has returned a copy. Replies that miss keep
it so through all its stages: it ends with a null, and it repairs nothing.
-/

namespace Kamino

open Function Option List

section Fetch

namespace Node

variable {env : Env} {n n' : Node} {dmap key : Bytes} {now : UInt64}

theorem fetch_spec {result : Except Frame (Option Entry)}
    (h : n.fetch env dmap key now = (result, n')) :
    n.Adds env (fun _ _ => False) n' ∧
      ∀ entry, result = .ok (some entry) → n.slot dmap (env.hash64 key) = some entry := by
  unfold fetch at h
  split at h <;> rename_i hopen
  · obtain ⟨rfl, rfl⟩ := Prod.mk.inj h
    exact ⟨adds_of_openKey_error hopen _, nofun⟩
  obtain ⟨-, -, rfl, rfl⟩ := openKey_ok hopen
  have hfetch := DMap.adds_fetchLive env (n.dmapAt dmap) (env.hash64 key) now
  rcases hf : (n.dmapAt dmap).fetchLive (env.hash64 key) now with ⟨entry, d⟩
  rw [hf] at h hfetch
  obtain ⟨rfl, rfl⟩ := Prod.mk.inj h
  rw [setDMap_opened]
  refine ⟨(adds_setDMap hfetch).mono fun _ _ hw => hw.2, fun entry' he => ?_⟩
  rw [slot_eq]
  exact DMap.lookup_of_fetchLive_some (hf.trans (by rw [Except.ok.inj he]))

theorem fetch_of_utf8 (hd : utf8Error dmap 0 = none) (hk : utf8Error key 0 = none) :
    ∃ entry n', n.fetch env dmap key now = (.ok entry, n') := by
  rw [fetch, openKey_of_utf8 hd hk]
  exact ⟨_, _, rfl⟩

theorem adds_touch (n : Node) {entry : Entry} (hentry : env.hash64 entry.key = env.hash64 key)
    (dmap : Bytes) (now : UInt64) :
    n.Adds env (fun dmap' hkey => dmap' = dmap ∧ hkey = env.hash64 key)
      (n.touch env dmap key entry now) := by
  unfold touch
  split
  · exact .refl _
  · rename_i d hl
    have hd : n.dmapAt dmap = d := by rw [dmapAt, hl, getD_some]
    exact adds_setDMap (hd ▸ DMap.adds_touchLastAccess d hentry now)

end Node

end Fetch

section Silence

theorem pickHighestTs_eq_none {replies : List Read} (h : ∀ r ∈ replies, r = none) :
    pickHighestTs replies = none := by
  have hnil : replies.filterMap id = [] := filterMap_eq_nil_iff.2 h
  rw [pickHighestTs, hnil]
  rfl

namespace Asked

variable {α : Type*} {asked : Asked α}

theorem mem_answer {i : ℕ} {x : α} {p : SocketAddr × Option α} (h : p ∈ asked.answer i x) :
    p ∈ asked ∨ p.2 = some x := by
  obtain ⟨j, hj⟩ := mem_iff_getElem?.1 h
  rw [answer, getElem?_modify] at hj
  obtain ⟨q, hq, rfl⟩ := map_eq_some_iff.1 hj
  split_ifs
  · exact .inr rfl
  · exact .inl (mem_of_getElem? hq)

theorem mem_of_answers : ∀ {asked : Asked α} {heard : List (SocketAddr × α)},
    asked.answers = some heard → ∀ p ∈ heard, (p.1, some p.2) ∈ asked
  | [], heard, h => by
    obtain rfl := some.inj h
    simp
  | (addr, none) :: asked, heard, h => by cases h
  | (addr, some x) :: asked, heard, h => by
    obtain ⟨rest, hrest, rfl⟩ := map_eq_some_iff.1 h
    rintro p hp
    rcases mem_cons.1 hp with rfl | hp
    · exact mem_cons_self
    · exact mem_cons_of_mem _ (mem_of_answers hrest p hp)

def pending (asked : Asked α) : List SocketAddr :=
  (asked.filter fun p => p.2.isNone).map Prod.fst

theorem pending_start (addrs : List SocketAddr) : (start addrs : Asked α).pending = addrs := by
  simp [pending, start, List.filter_map, comp_def]

theorem mem_pending_answer {i : ℕ} {x : α} {a addr : SocketAddr}
    (hi : asked[i]? = some (addr, none)) (ha : a ∈ asked.pending) :
    a = addr ∨ a ∈ (asked.answer i x).pending := by
  obtain ⟨p, hp, rfl⟩ := mem_map.1 ha
  obtain ⟨hp, hnone⟩ := mem_filter.1 hp
  obtain ⟨j, hj⟩ := mem_iff_getElem?.1 hp
  by_cases hij : i = j
  · subst hij
    rw [hi, some.injEq] at hj
    exact .inl (by rw [← hj])
  refine .inr (mem_map.2 ⟨p, mem_filter.2 ⟨?_, hnone⟩, rfl⟩)
  refine mem_iff_getElem?.2 ⟨j, ?_⟩
  rw [answer, getElem?_modify, hj]
  simp [hij]

theorem length_pending_answer (x : α) : ∀ (asked : Asked α) {i : ℕ} {addr : SocketAddr},
    asked[i]? = some (addr, none) → (asked.answer i x).pending.length < asked.pending.length
  | [], _, _, h => by simp at h
  | p :: asked, 0, addr, h => by
    obtain rfl : p = (addr, none) := by simpa using h
    simp [pending, answer]
  | p :: asked, i + 1, addr, h => by
    have hi : asked[i]? = some (addr, none) := by simpa using h
    have ih := length_pending_answer x asked hi
    simp only [pending, answer, length_map, modify_succ_cons, filter_cons] at ih ⊢
    split_ifs <;> simpa using ih

theorem exists_pending (h : asked.pending ≠ []) :
    ∃ (i : ℕ) (addr : SocketAddr), asked[i]? = some (addr, none) := by
  obtain ⟨a, ha⟩ := exists_mem_of_ne_nil _ h
  obtain ⟨⟨addr, x⟩, hp, rfl⟩ := mem_map.1 ha
  obtain ⟨hp, hnone⟩ := mem_filter.1 hp
  obtain rfl := isNone_iff_eq_none.1 hnone
  obtain ⟨i, hi⟩ := mem_iff_getElem?.1 hp
  exact ⟨i, addr, hi⟩

theorem pending_eq_nil : ∀ (asked : Asked α), asked.pending = [] ↔ asked.answers.isSome
  | [] => by simp [pending, answers]
  | (addr, none) :: asked => by simp [pending, answers]
  | (addr, some x) :: asked => by
    have ih := pending_eq_nil asked
    simpa [pending, answers] using ih

def full (replies : List (SocketAddr × α)) : Asked α := replies.map fun p => (p.1, some p.2)

theorem answers_full : ∀ replies : List (SocketAddr × α), (full replies).answers = some replies
  | [] => rfl
  | (addr, x) :: replies => by
    change (full replies).answers.map (fun xs => (addr, x) :: xs) = _
    rw [answers_full replies]
    rfl

theorem answer_full (replies : List (SocketAddr × α)) (addr : SocketAddr)
    (addrs : List SocketAddr) (x : α) :
    (full replies ++ start (addr :: addrs)).answer replies.length x =
      full (replies ++ [(addr, x)]) ++ start addrs := by
  induction replies with
  | nil => rfl
  | cons p replies ih =>
    change (p.1, some p.2) :: (full replies ++ start (addr :: addrs)).answer replies.length x = _
    rw [ih]
    rfl

def Quiet (asked : Asked Read) : Prop := ∀ p ∈ asked, ∀ r ∈ p.2, r = none

theorem quiet_start (addrs : List SocketAddr) : (start addrs : Asked Read).Quiet := by
  intro p hp
  obtain ⟨addr, -, rfl⟩ := mem_map.1 hp
  simp

theorem Quiet.answer {asked : Asked Read} (h : asked.Quiet) (i : ℕ) :
    (asked.answer i none).Quiet := by
  intro p hp r hr
  rcases mem_answer hp with hp | hp
  · exact h p hp r hr
  · rw [hp, mem_some_iff] at hr
    exact hr.symm

theorem Quiet.heard {asked : Asked Read} {heard : List (SocketAddr × Read)} (h : asked.Quiet)
    (ha : asked.answers = some heard) : ∀ p ∈ heard, p.2 = none :=
  fun p hp => h _ (mem_of_answers ha p hp) p.2 rfl

end Asked

namespace GetStage

variable {env : Env} {settings : ReadSettings} {dmap key : Bytes} {r : Routing}

/-- Neither the node itself nor a peer has returned a copy. -/
def Silent : GetStage → Prop
  | .prior asked => asked.Quiet
  | .backups found _ asked => found = none ∧ asked.Quiet
  | .previous found replies asked => found = none ∧ (∀ p ∈ replies, p.2 = none) ∧ asked.Quiet
  | .done reply => reply = .bulk none

theorem silent_fan : (fan env settings dmap key r none).Silent := by
  unfold fan
  split
  · rfl
  generalize (if settings.readRepair then r.previousOwnersForKey env dmap key else []) = owners
  dsimp only
  split_ifs
  · rfl
  · exact ⟨rfl, Asked.quiet_start _⟩

theorem silent_afterLocal (routing : Option Routing) :
    (afterLocal env settings dmap key routing none).Silent := by
  unfold afterLocal
  split
  · rfl
  dsimp only
  split_ifs
  · exact Asked.quiet_start _
  · exact silent_fan

theorem Silent.answer {stage : GetStage} (h : stage.Silent) (i : ℕ) :
    (stage.answer i none).Silent := by
  cases stage with
  | prior asked => exact Asked.Quiet.answer h i
  | backups found owners asked => exact ⟨h.1, h.2.answer i⟩
  | previous found replies asked => exact ⟨h.1, h.2.1, h.2.2.answer i⟩
  | done reply => exact h

theorem conclude_of_silent {backups prior : List (SocketAddr × Read)}
    (hb : ∀ p ∈ backups, p.2 = none) (hp : ∀ p ∈ prior, p.2 = none) :
    conclude settings none backups prior = (.done (.bulk none), none) := by
  have hpick : pickHighestTs (backups.map Prod.snd ++ prior.map Prod.snd ++ [none]) = none := by
    refine pickHighestTs_eq_none ?_
    simp only [mem_append, List.mem_map, mem_singleton]
    rintro r ((⟨p, hp', rfl⟩ | ⟨p, hp', rfl⟩) | rfl)
    · exact hb p hp'
    · exact hp p hp'
    · rfl
  simp only [conclude, fanOutReply, hpick]

variable {stage stage' : GetStage}

/-- A `DM.GET` that has heard of no copy goes on without one and repairs nothing. -/
theorem Silent.next {fix : Option Repair} (h : stage.Silent)
    (hn : stage.next env settings dmap key r = some (stage', fix)) :
    stage'.Silent ∧ fix = none := by
  cases stage with
  | prior asked =>
    obtain ⟨heard, ha, hn⟩ := map_eq_some_iff.1 hn
    have hpick : pickHighestTs (heard.map Prod.snd) = none := by
      refine pickHighestTs_eq_none fun r hr => ?_
      obtain ⟨p, hp, rfl⟩ := mem_map.1 hr
      exact Asked.Quiet.heard h ha p hp
    rw [hpick] at hn
    obtain ⟨rfl, rfl⟩ := Prod.mk.inj hn
    exact ⟨silent_fan, rfl⟩
  | backups found owners asked =>
    obtain ⟨rfl, hq⟩ := h
    obtain ⟨heard, ha, hn⟩ := map_eq_some_iff.1 hn
    have hheard := hq.heard ha
    split_ifs at hn
    · rw [conclude_of_silent hheard (by simp)] at hn
      obtain ⟨rfl, rfl⟩ := Prod.mk.inj hn
      exact ⟨rfl, rfl⟩
    · obtain ⟨rfl, rfl⟩ := Prod.mk.inj hn
      exact ⟨⟨rfl, hheard, Asked.quiet_start _⟩, rfl⟩
  | previous found replies asked =>
    obtain ⟨rfl, hr, hq⟩ := h
    obtain ⟨heard, ha, hn⟩ := map_eq_some_iff.1 hn
    rw [conclude_of_silent hr (hq.heard ha)] at hn
    obtain ⟨rfl, rfl⟩ := Prod.mk.inj hn
    exact ⟨rfl, rfl⟩
  | done reply => cases hn

def rounds : GetStage → ℕ
  | .prior _ => 3
  | .backups .. => 2
  | .previous .. => 1
  | .done _ => 0

@[simp] theorem rounds_answer (stage : GetStage) (i : ℕ) (x : Read) :
    (stage.answer i x).rounds = stage.rounds := by
  cases stage <;> rfl

@[simp] theorem asked_answer (stage : GetStage) (i : ℕ) (x : Read) :
    (stage.answer i x).asked = stage.asked.answer i x := by
  cases stage <;> simp [answer, asked, Asked.answer]

theorem rounds_fan (found : Read) : (fan env settings dmap key r found).rounds ≤ 2 := by
  unfold fan
  split
  · exact Nat.zero_le _
  dsimp only
  generalize (if settings.readRepair then r.previousOwnersForKey env dmap key else []) = owners
  split_ifs
  · exact Nat.zero_le _
  · exact le_refl _

theorem rounds_conclude (found : Read) (backups prior : List (SocketAddr × Read)) :
    (conclude settings found backups prior).1.rounds = 0 := by
  rfl

/-- Once all it asked have answered, a `DM.GET` gets to its next stage. -/
theorem exists_next (env : Env) (settings : ReadSettings) (dmap key : Bytes) (r : Routing)
    {stage : GetStage} (h : stage.asked.answers.isSome) (hr : 0 < stage.rounds) :
    ∃ p, stage.next env settings dmap key r = some p ∧ p.1.rounds < stage.rounds := by
  obtain ⟨heard, ha⟩ := isSome_iff_exists.1 h
  cases stage with
  | prior asked =>
    refine ⟨_, map_eq_some_iff.2 ⟨heard, ha, rfl⟩, ?_⟩
    split
    · exact Nat.zero_lt_succ _
    · exact Nat.lt_succ_of_le (rounds_fan _)
  | backups found owners asked =>
    refine ⟨_, map_eq_some_iff.2 ⟨heard, ha, rfl⟩, ?_⟩
    split_ifs
    · rw [rounds_conclude]
      exact Nat.zero_lt_succ _
    · exact Nat.lt_succ_self _
  | previous found replies asked =>
    refine ⟨_, map_eq_some_iff.2 ⟨heard, ha, rfl⟩, ?_⟩
    rw [rounds_conclude]
    exact Nat.zero_lt_succ _
  | done reply => exact absurd hr (lt_irrefl _)

theorem repair_of_next {fix : Repair}
    (hn : stage.next env settings dmap key r = some (stage', some fix)) :
    settings.readRepair = true := by
  have hconclude : ∀ {found backups prior},
      conclude settings found backups prior = (stage', some fix) → settings.readRepair = true := by
    intro found backups prior h
    have hfix := (Prod.mk.inj h).2
    by_contra hoff
    simp only [hoff, if_false] at hfix
    split at hfix <;> cases hfix
  cases stage with
  | prior asked =>
    obtain ⟨heard, ha, hn⟩ := map_eq_some_iff.1 hn
    split at hn <;> cases hn
  | backups found owners asked =>
    obtain ⟨heard, ha, hn⟩ := map_eq_some_iff.1 hn
    split_ifs at hn
    · exact hconclude hn
    · cases hn
  | previous found replies asked =>
    obtain ⟨heard, ha, hn⟩ := map_eq_some_iff.1 hn
    exact hconclude hn
  | done reply => cases hn

end GetStage

end Silence

end Kamino
