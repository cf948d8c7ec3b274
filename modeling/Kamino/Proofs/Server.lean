import Kamino.Server
import Kamino.Proofs.DMap

/-!
# What the handlers do to one node

Every handler opens a DMap, works on it and puts it back.
-/

namespace Kamino

open List Option

theorem keyStr_eq_ok {key : Bytes} : keyStr key = .ok () ↔ utf8Error key 0 = none := by
  unfold keyStr
  split <;> simp_all

theorem mapClientError_cases (e : ClientError) :
    mapClientError e = .bulk none ∨ ∃ text, mapClientError e = .error text := by
  rcases e with _ | _ | _ | _ | _ | _ | _ | e | _ | _
  case storage => cases e <;> exact .inr ⟨_, rfl⟩
  all_goals first | exact .inl rfl | exact .inr ⟨_, rfl⟩

theorem mapClientError_ne_ok (e : ClientError) : mapClientError e ≠ .ok := by
  rcases mapClientError_cases e with h | ⟨text, h⟩ <;> simp [h, Frame.ok]

/-- A put that every node takes alike: its texts are UTF-8, its options are consistent and stamped,
and its lengths fit. -/
structure Deliverable (dmap key value : Bytes) (o : PutOptions) (ts : Int64) : Prop where
  dmapUtf8 : utf8Error dmap 0 = none
  keyUtf8 : utf8Error key 0 = none
  valid : o.validate = .ok ()
  stamped : o.timestamp = some ts
  fits : Fits key value

namespace Node

variable {env : Env} {n n' : Node} {dmap key value : Bytes} {o o' : PutOptions}

section Registry

def reg (n : Node) (dmap : Bytes) (hkey : UInt64) : Option (Int64 × Bytes) :=
  (n.slot dmap hkey).map Entry.stamped

def dmapAt (n : Node) (name : Bytes) : DMap := (n.dmaps.lookup name).getD (.new {})

def opened (n : Node) (name : Bytes) : Node := (n.getOrCreate name {}).2

theorem getOrCreate_eq (n : Node) (name : Bytes) :
    n.getOrCreate name {} = (n.dmapAt name, n.opened name) := by
  unfold opened getOrCreate dmapAt
  rcases n.dmaps.lookup name with _ | d <;> rfl

theorem opened_cases (n : Node) (name : Bytes) : n.opened name = n ∨
      n.dmaps.lookup name = none ∧ n.opened name = n.setDMap name (.new {}) := by
  unfold opened getOrCreate
  rcases hl : n.dmaps.lookup name with _ | d
  · exact .inr ⟨rfl, rfl⟩
  · exact .inl rfl

@[simp] theorem opened_lastTs (n : Node) (name : Bytes) : (n.opened name).lastTs = n.lastTs := by
  rcases n.opened_cases name with h | ⟨-, h⟩ <;> rw [h]
  rfl

@[simp] theorem setDMap_opened (n : Node) (name : Bytes) (d : DMap) :
    (n.opened name).setDMap name d = n.setDMap name d := by
  rcases n.opened_cases name with h | ⟨-, h⟩ <;> rw [h]
  simp [setDMap]

theorem dmapAt_setDMap_self (n : Node) (name : Bytes) (d : DMap) :
    (n.setDMap name d).dmapAt name = d := by
  simp [dmapAt, setDMap]

theorem dmapAt_setDMap_ne {name name' : Bytes} (h : name' ≠ name) (d : DMap) :
    (n.setDMap name d).dmapAt name' = n.dmapAt name' := by
  rw [dmapAt, setDMap, AList.lookup_insert_ne h, dmapAt]

@[simp] theorem dmapAt_opened (n : Node) (name name' : Bytes) :
    (n.opened name).dmapAt name' = n.dmapAt name' := by
  rcases n.opened_cases name with h | ⟨hl, h⟩ <;> rw [h]
  by_cases hn : name' = name
  · rw [hn, dmapAt_setDMap_self, dmapAt, hl, getD_none]
  · exact dmapAt_setDMap_ne hn _

theorem slot_eq (n : Node) (dmap : Bytes) (hkey : UInt64) :
    n.slot dmap hkey = (n.dmapAt dmap).fragment.lookup hkey := by
  unfold slot dmapAt
  rcases n.dmaps.lookup dmap with _ | d <;> simp [DMap.new]

/-- The options of a DMap, the default ones if a handler is still to create it. -/
def options (n : Node) (name : Bytes) : DMapOptions := (n.dmapAt name).options

/-- No DMap of the node evicts. -/
def NoLru (n : Node) : Prop := ∀ name, (n.options name).evictionPolicy ≠ some .lru

/-- Only one slot of the two nodes differs, and no DMap's options do. -/
structure SameBut (n n' : Node) (dmap : Bytes) (hkey : UInt64) : Prop where
  options : ∀ name, n'.options name = n.options name
  slots : ∀ dmap' hkey', (dmap', hkey') ≠ (dmap, hkey) → n'.slot dmap' hkey' = n.slot dmap' hkey'

variable {hkey : UInt64} {d : DMap}

theorem SameBut.noLru (h : n.SameBut n' dmap hkey) (hl : n.NoLru) : n'.NoLru :=
  fun name => h.options name ▸ hl name

theorem options_setDMap (h : d.options = n.options dmap) (name : Bytes) :
    (n.setDMap dmap d).options name = n.options name := by
  by_cases hn : name = dmap
  · rw [hn, options, dmapAt_setDMap_self, h]
  · rw [options, dmapAt_setDMap_ne hn, options]

theorem noLru_setDMap (hl : n.NoLru)
    (h : d.options.evictionPolicy ≠ some .lru) : (n.setDMap dmap d).NoLru := by
  intro name
  by_cases hn : name = dmap
  · rwa [hn, options, dmapAt_setDMap_self]
  · rw [options, dmapAt_setDMap_ne hn]
    exact hl name

theorem sameBut_setDMap (ho : d.options = n.options dmap)
    (hs : ∀ hkey' ≠ hkey, d.fragment.lookup hkey' = n.slot dmap hkey') :
    n.SameBut (n.setDMap dmap d) dmap hkey := by
  refine ⟨options_setDMap ho, fun dmap' hkey' hne => ?_⟩
  by_cases hd : dmap' = dmap
  · rw [hd, slot_eq, dmapAt_setDMap_self]
    exact hs _ fun h => hne (by rw [hd, h])
  · rw [slot_eq, dmapAt_setDMap_ne hd, slot_eq]

theorem sameBut_opened (n : Node) (name dmap : Bytes) (hkey : UInt64) :
    n.SameBut (n.opened name) dmap hkey :=
  ⟨fun _ => by rw [options, dmapAt_opened, options], fun _ _ _ => by
    rw [slot_eq, dmapAt_opened, slot_eq]⟩

theorem SameBut.reg {dmap' : Bytes} {hkey' : UInt64} (h : n.SameBut n' dmap hkey)
    (hne : (dmap', hkey') ≠ (dmap, hkey)) : n'.reg dmap' hkey' = n.reg dmap' hkey' := by
  rw [Node.reg, h.slots _ _ hne, Node.reg]

theorem SameBut.lastTs (h : n.SameBut n' dmap hkey) (ts : Int64) :
    n.SameBut { n' with lastTs := ts } dmap hkey :=
  ⟨h.options, h.slots⟩

end Registry

section Opening

variable {d : DMap} {f : Frame}

theorem openKey_of_utf8 (hd : utf8Error dmap 0 = none) (hk : utf8Error key 0 = none) :
    n.openKey dmap key = (.ok (n.dmapAt dmap), n.opened dmap) := by
  simp [openKey, dmapHandle, hd, keyStr_eq_ok.2 hk, getOrCreate_eq]

theorem openKey_ok (h : n.openKey dmap key = (.ok d, n')) :
    utf8Error dmap 0 = none ∧ utf8Error key 0 = none ∧ d = n.dmapAt dmap ∧ n' = n.opened dmap := by
  have hd : utf8Error dmap 0 = none := by
    rcases hd : utf8Error dmap 0 with _ | e
    · rfl
    · simp [openKey, dmapHandle, hd] at h
  have hk : utf8Error key 0 = none := by
    rcases hk : utf8Error key 0 with _ | e
    · rfl
    · simp [openKey, dmapHandle, hd, keyStr, hk] at h
  rw [openKey_of_utf8 hd hk] at h
  cases h
  exact ⟨hd, hk, rfl, rfl⟩

theorem openKey_error (h : n.openKey dmap key = (.error f, n')) :
    (n' = n ∨ n' = n.opened dmap) ∧ ∃ e, f = .error e := by
  rcases hd : utf8Error dmap 0 with _ | e
  · rcases hk : utf8Error key 0 with _ | e
    · rw [openKey_of_utf8 hd hk] at h
      cases h
    · simp only [openKey, dmapHandle, hd, keyStr, hk] at h
      cases h
      exact ⟨.inr rfl, _, rfl⟩
  · simp only [openKey, dmapHandle, hd] at h
    cases h
    exact ⟨.inl rfl, _, rfl⟩

end Opening

variable {f : Frame}

section Puts

variable {rd : Readings} {ts : Int64}

/-- A replicated put is merged into its slot and changes no other. -/
theorem dmPutPeer_spec (env : Env) (hm : Deliverable dmap key value o ts) (hl : n.NoLru)
    (clk : ℕ → UInt64) :
    ∃ n', n.dmPutPeer env clk dmap key value o = (.ok, n') ∧ n.SameBut n' dmap (env.hash64 key) ∧
      n'.reg dmap (env.hash64 key) = Lww.merge (n.reg dmap (env.hash64 key)) ts value := by
  obtain ⟨applied, d', hput, hopt, hslot, hother⟩ :=
    DMap.putLww_of_fits env (n.dmapAt dmap) clk hm.valid hm.stamped hm.fits (hl dmap)
  simp only [← slot_eq] at hslot hother
  refine ⟨n.setDMap dmap d', ?_, sameBut_setDMap hopt hother, ?_⟩
  · unfold dmPutPeer
    rw [openKey_of_utf8 hm.dmapUtf8 hm.keyUtf8]
    dsimp only
    rw [hput]
    dsimp only
    rw [setDMap_opened]
  · rw [reg, slot_eq, dmapAt_setDMap_self, hslot, reg]

theorem stamp_snd (n : Node) (o : PutOptions) (wall : ℕ) :
    (n.stamp o wall).2 = { n with lastTs := max n.lastTs (n.stamp o wall).1 } := by
  unfold stamp
  split
  · dsimp only
    rw [max_eq_right (le_nextLwwTimestamp _ _)]
  · rfl

theorem stamp_opened (n : Node) (name : Bytes) (o : PutOptions) (wall : ℕ) :
    ((n.opened name).stamp o wall).1 = (n.stamp o wall).1 := by
  unfold stamp
  rw [opened_lastTs]
  split <;> rfl

def stampedOptions (n : Node) (o : PutOptions) (wall : ℕ) : PutOptions :=
  { o with timestamp := some (n.stamp o wall).1 }

/-- A client's put that is accepted writes its slot with its stamp and changes no other. -/
theorem commitPut_ok (h : n.commitPut env rd dmap key value o = (.ok o', n')) (hl : n.NoLru) :
    o' = n.stampedOptions o rd.wall ∧ Deliverable dmap key value o' (n.stamp o rd.wall).1 ∧
      n.SameBut n' dmap (env.hash64 key) ∧ n'.lastTs = max n.lastTs (n.stamp o rd.wall).1 ∧
      ∃ e, n'.slot dmap (env.hash64 key) = some e ∧ e.stamped = ((n.stamp o rd.wall).1, value) ∧
        o'.resolveTtlNanos (rd.clk 1) (n.options dmap).ttl = .ok e.ttlNanos := by
  unfold commitPut at h
  split at h
  · cases h
  rename_i d n₁ hopen
  obtain ⟨hd, hk, rfl, rfl⟩ := openKey_ok hopen
  dsimp only at h
  rw [stamp_snd, stamp_opened, opened_lastTs] at h
  split at h
  all_goals cases h
  rename_i d' hput
  obtain ⟨hv, hfit, hopt, e, hst, httl, hlook⟩ := DMap.put_ok hput rfl (hl dmap)
  have hsame : n.SameBut ((n.opened dmap).setDMap dmap d') dmap (env.hash64 key) := by
    rw [setDMap_opened]
    exact sameBut_setDMap hopt fun hkey hne => by rw [hlook, if_neg hne, slot_eq]
  refine ⟨rfl, ⟨hd, hk, hv, rfl, hfit⟩, hsame.lastTs _, rfl, e, ?_, hst, httl⟩
  rw [slot_eq, dmapAt_setDMap_self, hlook, if_pos rfl]

theorem commitPut_error_ne_ok
    (h : n.commitPut env rd dmap key value o = (.error f, n')) : f ≠ .ok := by
  unfold commitPut at h
  split at h
  · rename_i hopen
    cases h
    obtain ⟨e, rfl⟩ := (openKey_error hopen).2
    simp [Frame.ok]
  dsimp only at h
  split at h <;> cases h
  · simp [Frame.ok]
  · simp [Frame.ok]
  · exact mapClientError_ne_ok _

theorem commitPut_options (env : Env) (n : Node) (rd : Readings) (dmap key value : Bytes)
    (o : PutOptions) (name : Bytes) :
    (n.commitPut env rd dmap key value o).2.options name = n.options name := by
  have hset : ∀ {o' r d'} ts, (n.dmapAt dmap).put env key value o' rd.clk = (r, d') →
      ({ n.opened dmap with lastTs := ts }.setDMap dmap d').options name = n.options name := by
    intro o' r d' ts hput
    have hopt := DMap.put_options env (n.dmapAt dmap) key value o' rd.clk
    rw [hput] at hopt
    have h := options_setDMap hopt name
    rwa [← setDMap_opened] at h
  unfold commitPut
  split
  · rename_i hopen
    rcases (openKey_error hopen).1 with rfl | rfl
    · rfl
    · exact (sameBut_opened n dmap dmap 0).options name
  rename_i d n₁ hopen
  obtain ⟨-, -, rfl, rfl⟩ := openKey_ok hopen
  dsimp only
  rw [stamp_snd]
  split
  all_goals exact hset _ ‹_›

/-- A client's put that is refused leaves the slots as they were, if its own has not expired. -/
theorem commitPut_error (h : n.commitPut env rd dmap key value o = (.error f, n'))
    (hq : ∀ e ∈ n.slot dmap (env.hash64 key), e.isExpired (microsToNanosI64 (rd.clk 3)) = false) :
    n.SameBut n' dmap (env.hash64 key) ∧
      n'.slot dmap (env.hash64 key) = n.slot dmap (env.hash64 key) ∧ n.lastTs ≤ n'.lastTs := by
  have hkept : ∀ {e d'}, (n.dmapAt dmap).put env key value (n.stampedOptions o rd.wall) rd.clk =
      (.error e, d') → n.SameBut ((n.opened dmap).setDMap dmap d') dmap (env.hash64 key) ∧
        ((n.opened dmap).setDMap dmap d').slot dmap (env.hash64 key) =
          n.slot dmap (env.hash64 key) := by
    intro e d' hput
    obtain ⟨hopt, hfrag⟩ := DMap.put_error hput (by rw [← slot_eq]; exact hq)
    rw [setDMap_opened]
    refine ⟨sameBut_setDMap hopt fun hkey _ => by rw [hfrag, slot_eq], ?_⟩
    rw [slot_eq, dmapAt_setDMap_self, hfrag, ← slot_eq]
  unfold commitPut at h
  split at h
  · rename_i hopen
    cases h
    rcases (openKey_error hopen).1 with rfl | rfl
    · exact ⟨⟨fun _ => rfl, fun _ _ _ => rfl⟩, rfl, le_refl _⟩
    · exact ⟨sameBut_opened _ _ _ _, by rw [slot_eq, dmapAt_opened, slot_eq], by simp⟩
  rename_i d n₁ hopen
  obtain ⟨hd, hk, rfl, rfl⟩ := openKey_ok hopen
  dsimp only at h
  rw [stamp_snd, stamp_opened, opened_lastTs] at h
  split at h
  all_goals cases h
  all_goals
    rename_i hput
    obtain ⟨hsame, hslot⟩ := hkept hput
    exact ⟨hsame.lastTs _, hslot, le_max_left _ _⟩

end Puts

section Deletes

variable {keys : List Bytes}

/-- The keys a `DM.DEL` gets to: those before the first that is not UTF-8. -/
def readable (keys : List Bytes) : List Bytes :=
  keys.takeWhile fun k => utf8Error k 0 = none

theorem readable_of_utf8 (hk : ∀ k ∈ keys, utf8Error k 0 = none) : readable keys = keys :=
  takeWhile_eq_self_iff.2 (by simpa using hk)

theorem forM_keyStr_ok : forM keys keyStr = .ok () ↔ ∀ k ∈ keys, utf8Error k 0 = none := by
  induction keys with
  | nil => exact iff_of_true rfl (by simp)
  | cons key keys ih =>
    rw [forM_cons, forall_mem_cons, ← ih, ← keyStr_eq_ok]
    rcases keyStr key with f | ⟨⟩
    · exact iff_of_false (fun h => by cases h) fun h => by cases h.1
    · exact (and_iff_right rfl).symm

theorem forM_keyStr_error (h : forM keys keyStr = .error f) : ∃ k ∈ keys, keyStr k = .error f := by
  induction keys with
  | nil => cases h
  | cons key keys ih =>
    rw [forM_cons] at h
    rcases hk : keyStr key with f' | _ <;> rw [hk] at h
    · cases h
      exact ⟨key, mem_cons_self, hk⟩
    · obtain ⟨k, hmem, hk⟩ := ih h
      exact ⟨k, mem_cons_of_mem _ hmem, hk⟩

def without (env : Env) (keys : List Bytes) (f : Fragment) : Fragment :=
  (keys.map env.hash64).foldl (fun f hkey => f.erase hkey) f

def removed (env : Env) (keys : List Bytes) (f : Fragment) : ℤ :=
  f.len - (without env keys f).len

/-- The keys are deleted one by one up to the first that is not UTF-8. -/
theorem deleteKeys_eq (env : Env) (keys : List Bytes) (d : DMap) (deleted : ℤ) :
    deleteKeys env d keys deleted =
      ((forM keys keyStr).map fun _ => deleted + removed env (readable keys) d.fragment,
        { d with fragment := without env (readable keys) d.fragment }) := by
  induction keys generalizing d deleted with
  | nil => simp [deleteKeys, readable, removed, without, Except.map, pure, Except.pure]
  | cons key keys ih =>
    rw [deleteKeys, forM_cons]
    rcases hk : utf8Error key 0 with _ | e
    · have hread : readable (key :: keys) = key :: readable keys := by simp [readable, hk]
      rw [keyStr_eq_ok.2 hk, hread]
      rcases hl : d.fragment.lookup (env.hash64 key) with _ | old
      · have hdel : d.delete env key = (false, d) := by
          simp [DMap.delete, Fragment.delete, hl, HMap.erase_of_none hl]
        simp only [hdel, ih, removed, without, map_cons, foldl_cons, HMap.erase_of_none hl]
        rfl
      have hdel : d.delete env key =
          (true, { d with fragment := d.fragment.erase (env.hash64 key) }) := by
        simp [DMap.delete, Fragment.delete, hl]
      have hlen : Fragment.len (d.fragment.erase (env.hash64 key)) + 1 = d.fragment.len :=
        HMap.length_erase hl
      simp only [hdel, ih, removed, without, map_cons, foldl_cons, ← hlen]
      refine Prod.ext (congrArg (fun g => Except.map g (forM keys keyStr)) ?_) rfl
      funext u
      push_cast
      ring
    · have hread : readable (key :: keys) = [] := by simp [readable, hk]
      rw [hread, keyStr, hk]
      rfl

theorem deleteKeys_error {d d' : DMap} {deleted : ℤ}
    (h : deleteKeys env d keys deleted = (.error f, d')) : ∃ k ∈ keys, keyStr k = .error f := by
  rw [deleteKeys_eq] at h
  rcases hf : forM keys keyStr with f' | _ <;> rw [hf] at h <;> cases h
  exact forM_keyStr_error hf

def clear (env : Env) (n : Node) (dmap : Bytes) (keys : List Bytes) : Node :=
  n.setDMap dmap { n.dmapAt dmap with fragment := without env keys (n.dmapAt dmap).fragment }

theorem options_clear (n : Node) (keys : List Bytes) (name : Bytes) :
    (n.clear env dmap keys).options name = n.options name :=
  options_setDMap (by rfl) name

/-- A delete empties the slots of its keys and no other. -/
theorem slot_clear (env : Env) (n : Node) (dmap : Bytes) (keys : List Bytes)
    (dmap' : Bytes) (hkey : UInt64) : (n.clear env dmap keys).slot dmap' hkey =
      if dmap' = dmap ∧ hkey ∈ keys.map env.hash64 then none else n.slot dmap' hkey := by
  unfold clear
  by_cases hn : dmap' = dmap
  · rw [hn, slot_eq, dmapAt_setDMap_self, slot_eq, without, HMap.lookup_foldl_erase]
    simp
  · rw [slot_eq, dmapAt_setDMap_ne hn, slot_eq, if_neg fun h => hn h.1]

theorem dmDelLocalCount_eq (env : Env) (n : Node) (hd : utf8Error dmap 0 = none)
    (keys : List Bytes) : n.dmDelLocalCount env dmap keys =
      ((forM keys keyStr).map fun _ => removed env (readable keys) (n.dmapAt dmap).fragment,
        n.clear env dmap (readable keys)) := by
  simp [dmDelLocalCount, dmapHandle, hd, getOrCreate_eq, deleteKeys_eq, clear]

theorem dmDelLocalCount_options (env : Env) (n : Node) (dmap : Bytes)
    (keys : List Bytes) (name : Bytes) :
    (n.dmDelLocalCount env dmap keys).2.options name = n.options name := by
  rcases hd : utf8Error dmap 0 with _ | e
  · rw [dmDelLocalCount_eq env n hd]
    exact options_clear n _ name
  · rw [dmDelLocalCount, dmapHandle, hd]

theorem dmDelLocalCount_of_utf8 (env : Env) (n : Node) (hd : utf8Error dmap 0 = none)
    (hk : ∀ k ∈ keys, utf8Error k 0 = none) :
    ∃ m n', n.dmDelLocalCount env dmap keys = (.ok m, n') ∧
      (∀ name, n'.options name = n.options name) ∧
      (∀ k ∈ keys, n'.slot dmap (env.hash64 k) = none) ∧
      ∀ dmap' hkey, (dmap' = dmap → ∀ k ∈ keys, env.hash64 k ≠ hkey) →
        n'.slot dmap' hkey = n.slot dmap' hkey := by
  refine ⟨removed env keys (n.dmapAt dmap).fragment, n.clear env dmap keys, ?_,
    options_clear n keys, fun k hkm => ?_, fun dmap' hkey hne => ?_⟩
  · rw [dmDelLocalCount_eq env n hd, forM_keyStr_ok.2 hk, readable_of_utf8 hk]
    rfl
  · rw [slot_clear, if_pos ⟨rfl, mem_map_of_mem hkm⟩]
  rw [slot_clear, if_neg]
  rintro ⟨rfl, hmem⟩
  obtain ⟨k, hkm, heq⟩ := mem_map.1 hmem
  exact hne rfl k hkm heq

theorem utf8_of_dmDelLocalCount {m : ℤ} (h : n.dmDelLocalCount env dmap keys = (.ok m, n')) :
    utf8Error dmap 0 = none ∧ ∀ k ∈ keys, utf8Error k 0 = none := by
  rcases hd : utf8Error dmap 0 with _ | e
  · refine ⟨rfl, ?_⟩
    rw [dmDelLocalCount_eq env n hd] at h
    rcases hf : forM keys keyStr with f | _ <;> rw [hf] at h
    · cases h
    · exact forM_keyStr_ok.1 hf
  · rw [dmDelLocalCount, dmapHandle, hd] at h
    cases h

end Deletes

end Node

/-- An environment whose hash adds the bytes up, for runs on fixed inputs. -/
def sumEnv : Env where
  hash64 bytes := bytes.foldl (fun h b => h + b.toUInt64) 0
  chooseMultiple _ keys samples := keys.take samples
  debugStr s := s
  debugBytes _ := ""

/-- The routing of a node where the one partition has its primary, member 2, at `b`. -/
def sampleRouting (localId : UInt64) (backups : List Member) (writeQuorum : ℕ) : Routing where
  localId := localId
  snapshot := some ⟨fun _ => [⟨2, "b"⟩], fun _ => backups⟩
  partitionCount := 1
  multiKeyStrict := false
  replicaCount := 2
  writeQuorum := writeQuorum
  mode := .sync
  liveCount := 3
  memberCountQuorum := 1

end Kamino
