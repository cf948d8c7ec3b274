import Kamino.Proofs.Quorum
import Kamino.Writes

/-!
# Which writes reach the backups

A replica shares an entry's value, its timestamp and whether it expires (`Entry.replicated`).
-/

namespace Kamino

open Function PutOptions List Option Entry Node

/-- What primary and backup have to agree on: the value, the timestamp and whether there is an
expiry. Each node reckons the time of the expiry by its own clock. -/
def Entry.replicated (e : Entry) : Bytes × Int64 × Bool :=
  (e.value, e.timestampNanos, e.ttlNanos ≠ noTtl)

def PutOptions.expires (o : PutOptions) (nowMicros : UInt64) (defaultTtl : Option ℕ) : Bool :=
  match o.resolveTtlNanos nowMicros defaultTtl with
  | .ok ttlNanos => ttlNanos ≠ noTtl
  | .error _ => false

theorem PutOptions.expires_eq {o : PutOptions} {now : UInt64} {ttl : Option ℕ} {t : Int64}
    (h : o.resolveTtlNanos now ttl = .ok t) : o.expires now ttl = decide (t ≠ noTtl) := by
  rw [expires, h]

namespace Node

def replica (n : Node) (dmap : Bytes) (hkey : UInt64) : Option (Bytes × Int64 × Bool) :=
  (n.slot dmap hkey).map replicated

def stampAt (n : Node) (dmap : Bytes) (hkey : UInt64) : Option Int64 :=
  (n.slot dmap hkey).map timestampNanos

/-- The stamp that the DMap's own counter gives a write. -/
def nextStamp (n : Node) (dmap : Bytes) (nowMicros : UInt64) : Int64 :=
  nextLwwTimestamp (n.dmapAt dmap).monotonicTs (microsToNanosI64 nowMicros)

/-- Everything the node stores for a hash is older than `ts`. -/
def Older (n : Node) (dmap : Bytes) (hkey : UInt64) (ts : Int64) : Prop :=
  ∀ e ∈ n.slot dmap hkey, e.timestampNanos < ts

end Node

/-- What it takes for the backup `b` to have what the primary `n` stores after the write. A put is
newer than what the backup has, and both give it an expiry or none, or it repeats what the backup
has. Counters and `GETPUT` are stamped anew and never sent. -/
def KeyWrite.Reaches (env : Env) (n b : Node) (rd : Readings) (clk : ℕ → UInt64)
    (dmap key : Bytes) : KeyWrite → Prop
  | .put value o =>
    b.Older dmap (env.hash64 key) (n.stamp o rd.wall).1 ∧
        o.expires (clk 1) (b.options dmap).ttl = o.expires (rd.clk 1) (n.options dmap).ttl ∨
      ∃ e ∈ b.slot dmap (env.hash64 key), e.timestampNanos = (n.stamp o rd.wall).1 ∧
        e.value = value ∧ decide (e.ttlNanos ≠ noTtl) = o.expires (rd.clk 1) (n.options dmap).ttl
  | .incr _ | .decr _ | .getPut _ => False
  | .expire seconds => ∀ e ∈ b.slot dmap (env.hash64 key), e.ttlNanos ≠ noTtl ↔ seconds ≠ 0
  | .pexpire milliseconds =>
    ∀ e ∈ b.slot dmap (env.hash64 key), e.ttlNanos ≠ noTtl ↔ milliseconds ≠ 0

variable {duration : ℕ}

/-! ## What the primary stores -/

namespace DMap

variable {env : Env} {d d' : DMap} {key value : Bytes} {clk : ℕ → UInt64}

section Plain

variable (hl : d.options.evictionPolicy ≠ some .lru)
include hl

theorem put_plain_ok (h : d.put env key value {} clk = (.ok (), d')) :
    (d'.fragment.lookup (env.hash64 key)).map replicated
      = some (value, nextLwwTimestamp d.monotonicTs (microsToNanosI64 (clk 2)),
        expires {} (clk 1) d.options.ttl) := by
  obtain ⟨-, -, e, m, he, -, hlook⟩ := put_entry h hl
  rw [hlook, if_pos rfl, map_some]
  unfold putEntry at he
  split at he
  · cases he
  rename_i ttlNanos httl
  cases he
  rw [replicated, expires_eq httl]

theorem put_fetched_ok {now : UInt64}
    (h : (d.fetchLive (env.hash64 key) now).2.put env key value {} clk = (.ok (), d')) :
    (d'.fragment.lookup (env.hash64 key)).map replicated
      = some (value, nextLwwTimestamp d.monotonicTs (microsToNanosI64 (clk 2)),
        expires {} (clk 1) d.options.ttl) := by
  have hslot := put_plain_ok (by rw [fetchLive_options]; exact hl) h
  rwa [fetchLive_options, fetchLive_monotonicTs] at hslot

/-- A read-modify-write that succeeds stamps the entry from the DMap's counter. -/
theorem readModifyWrite_stamp {α : Type} {v : α} {guard : Bool}
    {change : Option Entry → Except ClientError (Bytes × α)}
    (h : d.readModifyWrite env guard key clk change = (.ok v, d')) :
    (d'.fragment.lookup (env.hash64 key)).map timestampNanos
      = some (nextLwwTimestamp d.monotonicTs (microsToNanosI64 (clk 2))) := by
  unfold readModifyWrite at h
  split at h
  · cases h
  dsimp only at h
  split at h
  · cases h
  split at h
  · cases h
  rename_i hput
  cases h
  have hslot := congrArg (Option.map fun r : Bytes × Int64 × Bool => r.2.1) (put_fetched_ok hl hput)
  rwa [Option.map_map] at hslot

end Plain

variable {e : ClientError} {guard : Bool}

theorem put_plain_error (h : d.put env key value {} clk = (.error e, d')) :
    (∃ err, e = .storage err) ∧ ¬ Fits key value := by
  have hv : validate {} = .ok () := rfl
  obtain ⟨t, ht⟩ := resolveTtlNanos_ok hv (clk 1)
    (d.fetchLive (env.hash64 key) (clk 3)).2.options.ttl
  unfold put putEntry at h
  simp only [hv, ht, Bool.false_and, Bool.false_eq_true, if_false] at h
  split at h <;> cases h
  rename_i err hf
  refine ⟨⟨_, rfl⟩, fun hfits => ?_⟩
  rw [Fragment.put_of_fits hfits] at hf
  cases hf

theorem getPut_error (h : d.getPut env guard key value clk = (.error e, d')) :
    e = .timeout ∨ ∃ err, e = .storage err := by
  unfold getPut readModifyWrite exchanged at h
  split at h
  · cases h
    exact .inl rfl
  dsimp only at h
  split at h <;> cases h
  rename_i hput
  exact .inr (put_plain_error hput).1

theorem expire_ok (h : d.expire env guard key duration clk = (.ok (), d')) :
    ∃ e, d.fragment.lookup (env.hash64 key) = some e ∧
      (d'.fragment.lookup (env.hash64 key)).map replicated
        = some (e.value, e.timestampNanos, decide (duration ≠ 0)) := by
  unfold expire at h
  split at h
  · cases h
  split at h
  · cases h
  rename_i e d₁ hfetch
  dsimp only at h
  split at h
  · cases h
  rename_i f hf
  cases h
  obtain ⟨-, rfl⟩ := Fragment.put_ok hf
  refine ⟨e, lookup_of_fetchLive_some hfetch, ?_⟩
  rw [AList.lookup_insert, map_some, replicated]
  have hexpires : satAdd (microsToNanosI64 (clk 1)) (i64OrMax duration) ≠ noTtl ∨ duration = 0 := by
    rcases eq_or_ne duration 0 with h0 | h0
    · exact .inr h0
    · exact .inl (satAdd_ne_noTtl (microsToNanosI64_nonneg _) (i64OrMax_pos h0))
  split_ifs with h0
  · simp [h0, noTtl]
  · simp [h0, hexpires.resolve_right h0]

theorem expire_error (h : d.expire env guard key duration clk = (.error e, d')) :
    e = .timeout ∨ e = .keyNotFound ∨ ∃ err, e = .storage err := by
  unfold expire at h
  split at h
  · cases h
    exact .inl rfl
  split at h
  · cases h
    exact .inr (.inl rfl)
  dsimp only at h
  split at h <;> cases h
  exact .inr (.inr ⟨_, rfl⟩)

end DMap

variable {reply : Frame} {delta : Int64}

namespace Node

variable {env : Env} {n n' : Node} {dmap key value : Bytes} {o : PutOptions} {ts : Int64}
  {clk : ℕ → UInt64}

theorem replica_setDMap (n : Node) (dmap : Bytes) (d : DMap) (hkey : UInt64) :
    (n.setDMap dmap d).replica dmap hkey = (d.fragment.lookup hkey).map replicated := by
  rw [replica, slot_eq, dmapAt_setDMap_self]

theorem stampAt_setDMap (n : Node) (dmap : Bytes) (d : DMap) (hkey : UInt64) :
    (n.setDMap dmap d).stampAt dmap hkey = (d.fragment.lookup hkey).map timestampNanos := by
  rw [stampAt, slot_eq, dmapAt_setDMap_self]

theorem onDMap_eq {call : DMap → Frame × DMap}
    (h : (n.onDMap dmap key call).1 = reply) (hreply : ∀ text, reply ≠ .error text) :
    n.onDMap dmap key call =
      ((call (n.dmapAt dmap)).1, n.setDMap dmap (call (n.dmapAt dmap)).2) := by
  unfold onDMap at h ⊢
  split at h
  · rename_i hopen
    obtain ⟨text, htext⟩ := (openKey_error hopen).2
    exact absurd (h.symm.trans htext) (hreply text)
  rename_i hopen
  obtain ⟨-, -, rfl, rfl⟩ := openKey_ok hopen
  rcases call (n.dmapAt dmap) with ⟨reply, d⟩
  exact congrArg (Prod.mk reply) (setDMap_opened n dmap d)

theorem mapClientError_ne_integer (e : ClientError) (v : ℤ) : mapClientError e ≠ .integer v := by
  rcases mapClientError_cases e with h | ⟨text, h⟩ <;> simp [h]

variable {guard : Bool}

theorem dmIncr_stamp {v : ℤ} (hl : n.NoLru)
    (h : (n.dmIncr env guard dmap key delta clk).1 = .integer v) :
    (n.dmIncr env guard dmap key delta clk).2.stampAt dmap (env.hash64 key)
      = some (n.nextStamp dmap (clk 2)) := by
  unfold dmIncr at h ⊢
  have heq := onDMap_eq h (by simp)
  rw [heq] at h ⊢
  rcases hcall : (n.dmapAt dmap).incr env guard key delta clk with ⟨e | v', d⟩
  · rw [hcall] at h
    exact absurd h (mapClientError_ne_integer e v)
  · rw [stampAt_setDMap]
    exact DMap.readModifyWrite_stamp (hl dmap) hcall

theorem dmGetPut_stamp {b : Option Bytes} (hl : n.NoLru)
    (h : (n.dmGetPut env guard dmap key value clk).1 = .bulk b) :
    (n.dmGetPut env guard dmap key value clk).2.stampAt dmap (env.hash64 key)
      = some (n.nextStamp dmap (clk 2)) := by
  unfold dmGetPut at h ⊢
  have heq := onDMap_eq h (by simp)
  rw [heq] at h ⊢
  rcases hcall : (n.dmapAt dmap).getPut env guard key value clk with ⟨e | prev, d⟩
  · rw [hcall] at h
    obtain rfl | ⟨err, rfl⟩ := DMap.getPut_error hcall
    · cases h
    · cases err <;> cases h
  · rw [stampAt_setDMap]
    exact DMap.readModifyWrite_stamp (hl dmap) hcall

theorem dmExpire_written (h : (n.dmExpire env guard dmap key duration clk).1 = .integer 1) :
    ∃ e, n.slot dmap (env.hash64 key) = some e ∧
      (n.dmExpire env guard dmap key duration clk).2.replica dmap (env.hash64 key)
        = some (e.value, e.timestampNanos, decide (duration ≠ 0)) := by
  unfold dmExpire at h ⊢
  have heq := onDMap_eq h (by simp)
  rw [heq] at h ⊢
  rcases hcall : (n.dmapAt dmap).expire env guard key duration clk with ⟨e | u, d⟩
  · rw [hcall] at h
    obtain rfl | rfl | ⟨err, rfl⟩ := DMap.expire_error hcall
    · cases h
    · cases h
    · exact absurd h (mapClientError_ne_integer (.storage err) 1)
  · rw [replica_setDMap, slot_eq]
    exact DMap.expire_ok hcall

/-! ## What a backup stores -/

end Node

theorem DMap.putLww_stored {env : Env} {d : DMap} {clk : ℕ → UInt64} {key value : Bytes}
    {o : PutOptions} {ts ttl : Int64} (hv : o.validate = .ok ()) (hts : o.timestamp = some ts)
    (hfit : Fits key value) (hl : d.options.evictionPolicy ≠ some .lru)
    (httl : o.resolveTtlNanos (clk 1) d.options.ttl = .ok ttl) :
    ∃ applied d', d.putLww env key value o clk = (.ok applied, d') ∧
      ((∀ e ∈ d.fragment.lookup (env.hash64 key), e.timestampNanos < ts) →
        d'.fragment.lookup (env.hash64 key)
          = some ⟨key, ttl, ts, microsToNanosI64 (clk 0), value⟩) ∧
      ((¬ ∀ e ∈ d.fragment.lookup (env.hash64 key), e.timestampNanos < ts) →
        d'.fragment = d.fragment) := by
  unfold putLww
  simp only [hv, hts, httl]
  by_cases hold : ∀ e ∈ d.fragment.lookup (env.hash64 key), e.timestampNanos < ts
  · rw [Fragment.putLww_older ⟨key, ttl, ts, microsToNanosI64 (clk 0), value⟩ hfit hold]
    exact ⟨true, _, congrArg (Prod.mk (Except.ok true)) (evictIfNeeded_of_not_lru hl),
      fun _ => AList.lookup_insert _, fun h => absurd hold h⟩
  · rw [Fragment.putLww_not_older ⟨key, ttl, ts, microsToNanosI64 (clk 0), value⟩ hold]
    exact ⟨false, _, rfl, fun h => absurd h hold, fun _ => rfl⟩

namespace Node

variable {env : Env} {n : Node} {dmap key value : Bytes} {o : PutOptions} {ts ttl : Int64}

theorem dmPutPeer_stored {clk : ℕ → UInt64} (env : Env) (hm : Deliverable dmap key value o ts)
    (hl : n.NoLru) (httl : o.resolveTtlNanos (clk 1) (n.options dmap).ttl = .ok ttl) :
    (n.Older dmap (env.hash64 key) ts →
      (n.dmPutPeer env clk dmap key value o).2.slot dmap (env.hash64 key)
        = some ⟨key, ttl, ts, microsToNanosI64 (clk 0), value⟩) ∧
    (¬ n.Older dmap (env.hash64 key) ts →
      (n.dmPutPeer env clk dmap key value o).2.slot dmap (env.hash64 key)
        = n.slot dmap (env.hash64 key)) := by
  obtain ⟨applied, d, hput, hnew, hkept⟩ :=
    @DMap.putLww_stored env _ clk _ _ _ _ _ hm.valid hm.stamped hm.fits (hl dmap) httl
  have hpeer : n.dmPutPeer env clk dmap key value o = (.ok, n.setDMap dmap d) := by
    unfold dmPutPeer
    rw [openKey_of_utf8 hm.dmapUtf8 hm.keyUtf8]
    dsimp only
    rw [hput]
    dsimp only
    rw [setDMap_opened]
  rw [hpeer, Older, slot_eq, slot_eq, dmapAt_setDMap_self]
  exact ⟨hnew, fun h => by rw [hkept h]⟩

theorem dmPutPeer_replica (env : Env) (hm : Deliverable dmap key value o ts) (hl : n.NoLru)
    (clk : ℕ → UInt64) :
    (n.Older dmap (env.hash64 key) ts →
      (n.dmPutPeer env clk dmap key value o).2.replica dmap (env.hash64 key)
        = some (value, ts, o.expires (clk 1) (n.options dmap).ttl)) ∧
    (¬ n.Older dmap (env.hash64 key) ts →
      (n.dmPutPeer env clk dmap key value o).2.replica dmap (env.hash64 key)
        = n.replica dmap (env.hash64 key)) := by
  obtain ⟨ttl, httl⟩ := resolveTtlNanos_ok hm.valid (clk 1) (n.options dmap).ttl
  obtain ⟨hnew, hkept⟩ := dmPutPeer_stored env hm hl httl
  refine ⟨fun h => ?_, fun h => by rw [replica, hkept h, replica]⟩
  rw [replica, hnew h, map_some, replicated, expires_eq httl]

end Node

section FanOut

variable {env : Env} {c : Cluster}

theorem fanOut_replied (env : Env) (cmd : Command) : ∀ (as : List SocketAddr) (links : ℕ → Link)
    (c : Cluster), as.Nodup → (∀ i, (links i).delivery = .replied) →
    (∀ i a, as[i]? = some a →
      (fanOut env cmd c as links).2 a = ((c a).peerDispatch env (links i).clk cmd).2) ∧
    ∀ a ∉ as, (fanOut env cmd c as links).2 a = c a
  | [], _, _, _, _ => ⟨by simp, fun _ _ => rfl⟩
  | addr :: as, links, c, hnodup, hlinks => by
    obtain ⟨hnot, hnodup⟩ := nodup_cons.1 hnodup
    have hsent : (forwardCommand env c (links 0) addr cmd).2
        = update c addr ((c addr).peerDispatch env (links 0).clk cmd).2 := by
      unfold forwardCommand
      rw [hlinks 0]
    obtain ⟨hin, hout⟩ := fanOut_replied env cmd as (fun i => links (i + 1))
      (forwardCommand env c (links 0) addr cmd).2 hnodup fun i => hlinks (i + 1)
    rw [hsent] at hin hout
    constructor
    · intro i a hi
      cases i with
      | zero =>
        obtain rfl : addr = a := by simpa using hi
        have hkept := hout addr hnot
        rw [update_self] at hkept
        rw [← hkept, ← hsent]
        rfl
      | succ i =>
        rw [getElem?_cons_succ] at hi
        have hne : a ≠ addr := fun h => hnot (h ▸ mem_of_getElem? hi)
        have hkept := hin i a hi
        rw [update_of_ne hne] at hkept
        rw [← hkept, ← hsent]
        rfl
    · intro a ha
      rw [mem_cons, not_or] at ha
      have hkept := hout a ha.2
      rw [update_of_ne ha.1] at hkept
      rw [← hkept, ← hsent]
      rfl

end FanOut

section Writes

variable {env : Env} {srv : Server} {r : Routing} {c : Cluster} {rd : Readings} {guard : Bool}
  {links : ℕ → Link} {dmap key value : Bytes} {o : PutOptions} {backups : List SocketAddr}

theorem scaled_ne_zero (x : UInt64) (k : ℕ) : x.toNat * 10 ^ k ≠ 0 ↔ x ≠ 0 := by
  rw [ne_eq, ne_eq, ← UInt64.toNat_inj]
  simp

theorem succeeds_counter (h : (KeyWrite.incr delta).succeeds reply = true ∨
      (KeyWrite.decr delta).succeeds reply = true) : ∃ v, reply = .integer v := by
  cases reply with
  | integer v => exact ⟨v, rfl⟩
  | _ => rcases h with h | h <;> cases h

theorem succeeds_getPut (h : (KeyWrite.getPut value).succeeds reply = true) :
    ∃ prev, reply = .bulk prev := by
  cases reply with
  | bulk prev => exact ⟨prev, rfl⟩
  | _ => cases h

theorem onSelf_agree_iff (hself : srv.self ∉ backups) (hkey : UInt64) (reply : Frame × Node) :
    (∀ b ∈ backups, ((onSelf srv c reply).2 b).replica dmap hkey
        = ((onSelf srv c reply).2 srv.self).replica dmap hkey) ↔
      ∀ (i : ℕ) (b : SocketAddr), backups[i]? = some b →
        (c b).replica dmap hkey = reply.2.replica dmap hkey := by
  have hb {b : SocketAddr} (h : b ∈ backups) : (onSelf srv c reply).2 b = c b := by
    have hne : b ≠ srv.self := fun heq => hself (heq ▸ h)
    exact update_of_ne hne _ _
  have hs : (onSelf srv c reply).2 srv.self = reply.2 := update_self _ _ _
  rw [hs]
  constructor
  · intro h i b hi
    have hmem := mem_of_getElem? hi
    rw [← hb hmem]
    exact h b hmem
  intro h b hmem
  obtain ⟨i, hi⟩ := mem_iff_getElem?.1 hmem
  rw [hb hmem]
  exact h i b hi

theorem not_agree_of_stamp {n n' b : Node} {hkey : UInt64} {ts : Int64}
    (hagree : b.replica dmap hkey = n.replica dmap hkey) (hold : n.Older dmap hkey ts)
    (hstamp : n'.stampAt dmap hkey = some ts) : b.replica dmap hkey ≠ n'.replica dmap hkey := by
  intro h
  obtain ⟨e', he', rfl⟩ := map_eq_some_iff.1 hstamp
  have h : n.replica dmap hkey = some e'.replicated := by
    rw [← hagree, h, replica, he', map_some]
  obtain ⟨e, he, hsame⟩ := map_eq_some_iff.1 h
  have hts : e.timestampNanos = e'.timestampNanos := congrArg (·.2.1) hsame
  exact (hold e he).ne hts

theorem expire_agree_iff {n n' b : Node} {hkey : UInt64} {e : Entry}
    (hagree : b.replica dmap hkey = n.replica dmap hkey) (hslot : n.slot dmap hkey = some e)
    (hwritten : n'.replica dmap hkey = some (e.value, e.timestampNanos, decide (duration ≠ 0))) :
    b.replica dmap hkey = n'.replica dmap hkey ↔
      ∀ e' ∈ b.slot dmap hkey, e'.ttlNanos ≠ noTtl ↔ duration ≠ 0 := by
  rw [hwritten]
  unfold replica at hagree ⊢
  rw [hslot] at hagree
  obtain ⟨e', he', hsame⟩ := map_eq_some_iff.1 hagree
  simp only [replicated, Prod.mk.injEq] at hsame
  rw [he']
  simp [replicated, hsame.1, hsame.2.1, not_iff_not]

theorem put_agree_iff (hr : srv.routing = some r) (hmode : r.mode = .sync)
    (hlinks : ∀ i, (links i).delivery = .replied) (hlru : ∀ a, (c a).NoLru)
    (hnodup : (srv.self :: r.backupAddrsForKey env dmap key).Nodup)
    (hok : (dmPut env srv c rd links false dmap key value o).1 = .ok) :
    (∀ b ∈ r.backupAddrsForKey env dmap key,
        ((dmPut env srv c rd links false dmap key value o).2 b).replica dmap (env.hash64 key)
          = ((dmPut env srv c rd links false dmap key value o).2 srv.self).replica dmap
            (env.hash64 key)) ↔
      ∀ (i : ℕ) (b : SocketAddr), (r.backupAddrsForKey env dmap key)[i]? = some b →
        KeyWrite.Reaches env (c srv.self) (c b) rd (links i).clk dmap key (.put value o) := by
  obtain ⟨hself, hdistinct⟩ := nodup_cons.1 hnodup
  rcases hc : (c srv.self).commitPut env rd dmap key value o with ⟨f | o', n⟩
  · exact absurd hok (dmPut_refused hc)
  obtain ⟨rfl, hm, -, -, e, hslot, hst, httl⟩ := commitPut_ok hc (hlru srv.self)
  have hprimary : n.replica dmap (env.hash64 key) = some (value, ((c srv.self).stamp o rd.wall).1,
      o.expires (rd.clk 1) ((c srv.self).options dmap).ttl) := by
    obtain ⟨hts, hvalue⟩ := Prod.mk.inj hst
    have hexpires : o.expires (rd.clk 1) ((c srv.self).options dmap).ttl
        = decide (e.ttlNanos ≠ noTtl) := expires_eq httl
    rw [replica, hslot, map_some, replicated, hexpires, hts, hvalue]
  rw [dmPut_cluster hr hmode hc]
  obtain ⟨hin, hout⟩ := fanOut_replied env (.dmPut dmap key value ((c srv.self).stampedOptions o
    rd.wall)) (r.backupAddrsForKey env dmap key) links (update c srv.self n) hdistinct hlinks
  rw [hout srv.self hself, update_self, hprimary]
  have hbackup (i : ℕ) (b : SocketAddr) (hi : (r.backupAddrsForKey env dmap key)[i]? = some b) :
      ((fanOut env (.dmPut dmap key value ((c srv.self).stampedOptions o rd.wall))
        (update c srv.self n) (r.backupAddrsForKey env dmap key) links).2 b).replica dmap
          (env.hash64 key) = some (value, ((c srv.self).stamp o rd.wall).1,
            o.expires (rd.clk 1) ((c srv.self).options dmap).ttl) ↔
      KeyWrite.Reaches env (c srv.self) (c b) rd (links i).clk dmap key (.put value o) := by
    have hne : b ≠ srv.self := fun h => hself (h ▸ mem_of_getElem? hi)
    obtain ⟨hnew, hkept⟩ := dmPutPeer_replica env hm (hlru b) (links i).clk
    rw [hin i b hi, update_of_ne hne, peerDispatch]
    unfold KeyWrite.Reaches
    dsimp only
    by_cases hold : (c b).Older dmap (env.hash64 key) ((c srv.self).stamp o rd.wall).1
    · rw [hnew hold, or_iff_left (by rintro ⟨e, he, hts, -⟩; exact (hold e he).ne hts)]
      simp only [hold, true_and, Option.some.injEq, Prod.mk.injEq]
      exact Iff.rfl
    rw [hkept hold, or_iff_right (by rintro ⟨h, -⟩; exact hold h), replica, map_eq_some_iff]
    refine exists_congr fun e => and_congr_right fun _ => ?_
    simp only [replicated, Prod.mk.injEq]
    exact and_left_comm
  constructor
  · intro h i b hi
    exact (hbackup i b hi).1 (h b (mem_of_getElem? hi))
  · intro h b hmem
    obtain ⟨i, hi⟩ := mem_iff_getElem?.1 hmem
    exact (hbackup i b hi).2 (h i b hi)

/-- In sync mode, with every backup answering: after a successful write of a key on which primary
and backups agreed they agree again exactly if the write reaches each backup. The DMap's counter is
not below the stamp that is stored, which is below the greatest. -/
theorem writes_replicate_iff (env : Env) (srv : Server) (r : Routing) (c : Cluster) (rd : Readings)
    (guard : Bool) (links : ℕ → Link) (dmap key : Bytes) (w : KeyWrite)
    (hr : srv.routing = some r) (hmode : r.mode = .sync)
    (hlinks : ∀ i, (links i).delivery = .replied) (hlru : ∀ a, (c a).NoLru)
    (hnodup : (srv.self :: r.backupAddrsForKey env dmap key).Nodup)
    (hagree : ∀ b ∈ r.backupAddrsForKey env dmap key,
      (c b).replica dmap (env.hash64 key) = (c srv.self).replica dmap (env.hash64 key))
    (hstamps : ∀ e ∈ (c srv.self).slot dmap (env.hash64 key),
      e.timestampNanos ≤ ((c srv.self).dmapAt dmap).monotonicTs ∧ e.timestampNanos < Int64.maxValue)
    (hok : w.succeeds (dispatchWrite env srv c rd guard links dmap key w).1 = true) :
    (∀ b ∈ r.backupAddrsForKey env dmap key,
        ((dispatchWrite env srv c rd guard links dmap key w).2 b).replica dmap (env.hash64 key)
          = ((dispatchWrite env srv c rd guard links dmap key w).2 srv.self).replica dmap
            (env.hash64 key)) ↔
      ∀ (i : ℕ) (b : SocketAddr), (r.backupAddrsForKey env dmap key)[i]? = some b →
        w.Reaches env (c srv.self) (c b) rd (links i).clk dmap key := by
  have hself := (nodup_cons.1 hnodup).1
  have hl := hlru srv.self
  have hold : (c srv.self).Older dmap (env.hash64 key) ((c srv.self).nextStamp dmap (rd.clk 2)) :=
    fun e he => lt_nextLwwTimestamp (hstamps e he).1 (hstamps e he).2 _
  have hnever {n : Node} (hstamp : n.stampAt dmap (env.hash64 key)
      = some ((c srv.self).nextStamp dmap (rd.clk 2))) :
      (∀ (i : ℕ) (b : SocketAddr), (r.backupAddrsForKey env dmap key)[i]? = some b →
        (c b).replica dmap (env.hash64 key) = n.replica dmap (env.hash64 key)) ↔
      ∀ (i : ℕ) (b : SocketAddr), (r.backupAddrsForKey env dmap key)[i]? = some b → False :=
    forall_congr' fun _ => forall_congr' fun b => forall_congr' fun hi => iff_false_intro
      (not_agree_of_stamp (hagree b (mem_of_getElem? hi)) hold hstamp)
  cases w with
  | put value o => exact put_agree_iff hr hmode hlinks hlru hnodup (of_decide_eq_true hok)
  | incr delta =>
    obtain ⟨v, hv⟩ := succeeds_counter (.inl hok)
    unfold dispatchWrite
    rw [onSelf_agree_iff hself]
    exact hnever (dmIncr_stamp hl hv)
  | decr delta =>
    obtain ⟨v, hv⟩ := succeeds_counter (.inr hok)
    unfold dispatchWrite
    rw [onSelf_agree_iff hself]
    exact hnever (dmIncr_stamp hl hv)
  | getPut value =>
    obtain ⟨prev, hprev⟩ := succeeds_getPut hok
    unfold dispatchWrite
    rw [onSelf_agree_iff hself]
    exact hnever (dmGetPut_stamp hl hprev)
  | expire seconds | pexpire milliseconds =>
    obtain ⟨e, hslot, hwritten⟩ := dmExpire_written (of_decide_eq_true hok)
    unfold dispatchWrite
    rw [onSelf_agree_iff hself]
    refine forall_congr' fun i => forall_congr' fun b => forall_congr' fun hi => ?_
    rw [expire_agree_iff (hagree b (mem_of_getElem? hi)) hslot hwritten]
    simp only [KeyWrite.Reaches, scaled_ne_zero]

def pairServer : Server := ⟨"b", some (sampleRouting 2 [⟨3, "c"⟩] 2)⟩

/-- A node that stores the number 5. -/
def keyNode : Node :=
  empty.setDMap [100] { DMap.new {} with fragment := AList.insert 107 ⟨[107], 0, 0, 0, [53]⟩ ∅ }

/-- What the two store for the key after a write. -/
def pairWrite (w : KeyWrite) : Frame × Cluster :=
  dispatchWrite sumEnv pairServer (fun _ => keyNode) ⟨fun _ => 0, 0⟩ true
    (fun _ => ⟨.replied, fun _ => 0⟩) [100] [107] w

theorem writes_replicate_put : ((pairWrite (.put [1] {})).2 "c").replica [100] (sumEnv.hash64 [107])
      = ((pairWrite (.put [1] {})).2 "b").replica [100] (sumEnv.hash64 [107]) := by
  have hslot {e : Entry} (he : e ∈ keyNode.slot [100] 107) : e.timestampNanos = 0 := by
    cases he
    rfl
  refine (writes_replicate_iff sumEnv pairServer _ (fun _ => keyNode) ⟨fun _ => 0, 0⟩ true
    (fun _ => ⟨.replied, fun _ => 0⟩) [100] [107] (.put [1] {}) rfl rfl (fun _ => rfl) ?_
    (by decide) (fun _ _ => rfl) (fun e he => ?_) rfl).2 (fun i b hb => ?_) "c" (by decide)
  · exact fun _ => noLru_setDMap (fun _ h => by cases h) (fun h => by cases h)
  · rw [hslot he]
    decide
  · exact .inl ⟨fun e he => hslot he ▸ by decide, rfl⟩

/-- A counter that is raised on the primary is not on the backup. -/
theorem incr_not_replicated : (pairWrite (.incr 1)).1 = .integer 6 ∧
      ((pairWrite (.incr 1)).2 "b").replica [100] (sumEnv.hash64 [107]) = some ([54], 1, false) ∧
      ((pairWrite (.incr 1)).2 "c").replica [100] (sumEnv.hash64 [107]) = some ([53], 0, false) :=
  ⟨rfl, rfl, rfl⟩

end Writes

end Kamino
