import Kamino.Proofs.Server

/-!
# Where a `DM.DEL` deletes

Every part of a `DM.DEL` clears slots on some nodes and leaves all others: the local bucket on the
node itself, the replication of a local key on its backups, a forward on the node it goes to.
-/

namespace Kamino

open Function List Option Node

variable {a : SocketAddr} {keys : List Bytes}

section Clears

/-- From `c` to `c'` the slots of `dmap` that `D` names are emptied and no other changes. -/
def Clears (dmap : Bytes) (D : SocketAddr → UInt64 → Prop) (c c' : Cluster) : Prop :=
  ∀ a hkey, (D a hkey → (c' a).slot dmap hkey = none) ∧
    (¬D a hkey → (c' a).slot dmap hkey = (c a).slot dmap hkey)

variable {dmap : Bytes} {D D' : SocketAddr → UInt64 → Prop} {c c' c'' : Cluster}

theorem Clears.refl (c : Cluster) : Clears dmap (fun _ _ => False) c c :=
  fun _ _ => ⟨False.elim, fun _ => rfl⟩

theorem Clears.trans (h : Clears dmap D c c') (h' : Clears dmap D' c' c'') :
    Clears dmap (fun a hkey => D a hkey ∨ D' a hkey) c c'' := by
  intro a hkey
  constructor
  · intro hd
    by_cases hd' : D' a hkey
    · exact (h' a hkey).1 hd'
    · rw [(h' a hkey).2 hd']
      exact (h a hkey).1 (hd.resolve_right hd')
  · intro hd
    rw [(h' a hkey).2 fun h => hd (.inr h), (h a hkey).2 fun h => hd (.inl h)]

theorem Clears.congr (h : Clears dmap D c c') (hD : ∀ a hkey, D' a hkey ↔ D a hkey) :
    Clears dmap D' c c' := by
  intro a hkey
  rw [hD]
  exact h a hkey

theorem Clears.none_iff (h : Clears dmap D c c') (a : SocketAddr) (hkey : UInt64) :
    (c' a).slot dmap hkey = none ↔ (c a).slot dmap hkey = none ∨ D a hkey := by
  by_cases hd : D a hkey
  · simp [(h a hkey).1 hd, hd]
  · simp [(h a hkey).2 hd, hd]

theorem clears_update {n : Node} {env : Env} (hgone : ∀ k ∈ keys, n.slot dmap (env.hash64 k) = none)
    (hkept : ∀ dmap' hkey, (dmap' = dmap → ∀ k ∈ keys, env.hash64 k ≠ hkey) →
      n.slot dmap' hkey = (c a).slot dmap' hkey) :
    Clears dmap (fun a' hkey => a' = a ∧ ∃ k ∈ keys, env.hash64 k = hkey) c (update c a n) := by
  intro a' hkey
  constructor
  · rintro ⟨rfl, k, hk, rfl⟩
    rw [update_self]
    exact hgone k hk
  intro hd
  by_cases ha : a' = a
  · subst ha
    rw [update_self]
    exact hkept dmap hkey fun _ k hk h => hd ⟨rfl, k, hk, h⟩
  · rw [update_of_ne ha]

end Clears

variable {links : ℕ → ℕ → Link} {key : Bytes}

section Peers

variable {env : Env} {c c' : Cluster} {link : Link} {addr : SocketAddr} {dmap : Bytes}
  {keys : List Bytes}

theorem keyStr_error {f : Frame} (h : keyStr key = .error f) : ∃ e, f = .error ("ERR " ++ e) := by
  unfold keyStr at h
  split at h <;> cases h
  exact ⟨"invalid key utf-8: " ++ _, by rw [← String.append_assoc]; rfl⟩

theorem dmDelLocalCount_error {n n' : Node} {f : Frame}
    (h : n.dmDelLocalCount env dmap keys = (.error f, n')) : ∃ e, f = .error ("ERR " ++ e) := by
  rcases hd : utf8Error dmap 0 with _ | e
  · rw [dmDelLocalCount_eq env n hd] at h
    rcases hf : forM keys keyStr with f' | _ <;> rw [hf] at h <;> cases h
    obtain ⟨k, -, hk⟩ := forM_keyStr_error hf
    exact keyStr_error hk
  · rw [dmDelLocalCount, dmapHandle, hd] at h
    cases h
    exact ⟨"invalid dmap name: " ++ e, by rw [← String.append_assoc]; rfl⟩

theorem forwardCommand_del (hd : utf8Error dmap 0 = none) (hk : ∀ k ∈ keys, utf8Error k 0 = none)
    (hl : link.delivery = .replied) :
    ∃ n c', forwardCommand env c link addr (.dmDel dmap keys) = (.ok (.integer n), c') ∧
      Clears dmap (fun a hkey => a = addr ∧ ∃ k ∈ keys, env.hash64 k = hkey) c c' := by
  rcases eq_or_ne keys [] with rfl | hne
  · refine ⟨0, c, by simp [forwardCommand, peerDispatch, hl], ?_⟩
    exact (Clears.refl c).congr (by simp)
  obtain ⟨n, node, hrun, -, hgone, hkept⟩ :=
    dmDelLocalCount_of_utf8 env (c addr) hd hk
  refine ⟨n, update c addr node, ?_, clears_update hgone hkept⟩
  simp [forwardCommand, peerDispatch, hne, dmDelLocal, hrun, hl]

theorem forwardDmDel_ok {n : ℤ} (hl : link.delivery = .replied)
    (h : forwardDmDel env c link addr dmap keys = (.ok n, c')) :
    Clears dmap (fun a hkey => a = addr ∧ ∃ k ∈ keys, env.hash64 k = hkey) c c' := by
  rcases eq_or_ne keys [] with rfl | hne
  · simp only [forwardDmDel, forwardCommand, peerDispatch, hl, if_true, update_eq_self] at h
    cases h
    exact (Clears.refl c).congr (by simp)
  rcases hcount : (c addr).dmDelLocalCount env dmap keys with ⟨f | m, node⟩
  · obtain ⟨e, rfl⟩ := dmDelLocalCount_error hcount
    simp [forwardDmDel, forwardCommand, peerDispatch, hne, dmDelLocal, hcount, hl] at h
  obtain ⟨hd, hk⟩ := utf8_of_dmDelLocalCount hcount
  obtain ⟨n', c₁, hsent, hclears⟩ := forwardCommand_del (c := c) hd hk hl
  rw [forwardDmDel, hsent] at h
  cases h
  exact hclears

theorem forwardBuckets_ok : ∀ {remote : List (SocketAddr × List Bytes)} {c : Cluster}
    {links : ℕ → Link}, (∀ i, (links i).delivery = .replied) →
    (∀ result ∈ (forwardBuckets env dmap c remote links).1, ∃ n, result = .ok n) →
    Clears dmap (fun a hkey => ∃ keys, (a, keys) ∈ remote ∧ ∃ k ∈ keys, env.hash64 k = hkey) c
      (forwardBuckets env dmap c remote links).2
  | [], c, _, _, _ => (Clears.refl c).congr (by simp)
  | (addr, keys) :: remote, c, links, hl, hok => by
    unfold forwardBuckets at hok ⊢
    rcases hsent : forwardDmDel env c (links 0) addr dmap keys with ⟨result, c₁⟩
    rw [hsent] at hok
    obtain ⟨⟨n, rfl⟩, hrest⟩ := forall_mem_cons.1 hok
    refine ((forwardDmDel_ok (hl 0) hsent).trans
      (forwardBuckets_ok (fun i => hl (i + 1)) hrest)).congr fun a hkey => ?_
    simp only [mem_cons, Prod.mk.injEq]
    constructor
    · rintro ⟨keys', ⟨rfl, rfl⟩ | hmem, hk⟩
      · exact .inl ⟨rfl, hk⟩
      · exact .inr ⟨keys', hmem, hk⟩
    · rintro (⟨rfl, hk⟩ | ⟨keys', hmem, hk⟩)
      · exact ⟨keys, .inl ⟨rfl, rfl⟩, hk⟩
      · exact ⟨keys', .inr hmem, hk⟩

theorem fanOut_del (hd : utf8Error dmap 0 = none)
    (hk : utf8Error key 0 = none) : ∀ (addrs : List SocketAddr) (c : Cluster) (links : ℕ → Link),
    (∀ i, (links i).delivery = .replied) →
    Clears dmap (fun a hkey => a ∈ addrs ∧ env.hash64 key = hkey) c
      (fanOut env (.dmDel dmap [key]) c addrs links).2
  | [], c, _, _ => (Clears.refl c).congr (by simp)
  | addr :: addrs, c, links, hl => by
    obtain ⟨n, c₁, hsent, hclears⟩ :=
      forwardCommand_del (c := c) hd (show ∀ k ∈ [key], _ by simpa using hk) (hl 0)
    unfold fanOut
    rw [hsent]
    refine (hclears.trans (fanOut_del hd hk addrs c₁ _ fun i => hl (i + 1))).congr fun a hkey => ?_
    simp [mem_cons, not_mem_nil, or_false, exists_eq_left, or_and_right]

theorem replicateDeletes_ok {r : Routing} (hd : utf8Error dmap 0 = none) :
    ∀ {keys : List Bytes} {c c' : Cluster} {links : ℕ → ℕ → Link},
    (∀ k ∈ keys, utf8Error k 0 = none) → (∀ i j, (links i j).delivery = .replied) →
    replicateDeletes env r dmap c keys links = (.ok (), c') →
    Clears dmap (fun a hkey => ∃ k ∈ keys, a ∈ r.backupAddrsForKey env dmap k ∧
      env.hash64 k = hkey) c c'
  | [], c, c', _, _, _, h => by
    cases h
    exact (Clears.refl c).congr (by simp)
  | key :: keys, c, c', links, hk, hl, h => by
    obtain ⟨hkey, hkeys⟩ := forall_mem_cons.1 hk
    have hrest : ∀ {c₁},
        replicateDeletes env r dmap c₁ keys (fun i => links (i + 1)) = (.ok (), c') →
        Clears dmap (fun a hkey => ∃ k ∈ keys, a ∈ r.backupAddrsForKey env dmap k ∧
          env.hash64 k = hkey) c₁ c' :=
      replicateDeletes_ok hd hkeys fun i j => hl (i + 1) j
    unfold replicateDeletes at h
    dsimp only at h
    split_ifs at h with hnil hquorum
    · refine (hrest h).congr fun a hkey => ?_
      simp [hnil]
    · cases h
    unfold replicateDelete at h
    rw [if_neg hnil] at h
    refine ((fanOut_del hd hkey _ c (links 0) (hl 0)).trans (hrest h)).congr fun a hkey => ?_
    simp

theorem replicateLocalDeletes_ok {r : Routing} (hd : utf8Error dmap 0 = none)
    (hk : ∀ k ∈ keys, utf8Error k 0 = none) (hl : ∀ i j, (links i j).delivery = .replied)
    (h : replicateLocalDeletes env r dmap c keys links = (.ok (), c')) :
    Clears dmap (fun a hkey => ∃ k ∈ keys, (1 < r.replicaCount ∧
      a ∈ r.backupAddrsForKey env dmap k) ∧ env.hash64 k = hkey) c c' := by
  unfold replicateLocalDeletes at h
  split_ifs at h with hrep
  · cases h
    exact (Clears.refl c).congr fun a hkey => by simp [hrep]
  · refine (replicateDeletes_ok hd hk hl h).congr fun a hkey => ?_
    simp [not_le.1 hrep]

end Peers

section Receiver

variable {env : Env} {srv : Server} {r : Routing} {dmap : Bytes}

theorem bucketKeys_lookup (keys : List Bytes) (owner : Option SocketAddr) :
    (bucketKeys env r dmap keys).lookup owner =
      if ∃ k ∈ keys, r.routeKey env dmap k = owner then
        some (keys.filter fun key => r.routeKey env dmap key = owner) else none := by
  induction keys using List.reverseRecOn with
  | nil => simp [bucketKeys]
  | append_singleton keys k ih =>
    have hstep : bucketKeys env r dmap (keys ++ [k]) =
        (bucketKeys env r dmap keys).insert (r.routeKey env dmap k)
          (((bucketKeys env r dmap keys).lookup (r.routeKey env dmap k)).getD [] ++ [k]) := by
      simp [bucketKeys]
    rw [hstep, filter_append]
    by_cases ho : owner = r.routeKey env dmap k
    · subst ho
      have hin : ∃ k' ∈ keys ++ [k], r.routeKey env dmap k' = r.routeKey env dmap k :=
        ⟨k, by simp, rfl⟩
      rw [AList.lookup_insert, ih, if_pos hin]
      split_ifs with h
      · simp
      · simpa using h
    · rw [AList.lookup_insert_ne ho, ih]
      simp [Ne.symm ho, or_and_right, exists_or]

theorem mem_bucketKeys (keys : List Bytes) (owner : Option SocketAddr) (key : Bytes) :
    (∃ ks, (bucketKeys env r dmap keys).lookup owner = some ks ∧ key ∈ ks) ↔
      key ∈ keys ∧ r.routeKey env dmap key = owner := by
  rw [bucketKeys_lookup]
  split_ifs with h
  · simp
  · simpa using fun hk ho => h ⟨key, hk, ho⟩

variable {keys : List Bytes} {c c' : Cluster} {n : ℤ}

theorem mem_localKeys : key ∈ ((bucketKeys env r dmap keys).lookup none).getD [] ↔
      key ∈ keys ∧ r.routeKey env dmap key = none := by
  rw [← mem_bucketKeys]
  rcases (bucketKeys env r dmap keys).lookup none with _ | ks <;> simp

theorem mem_remote {buckets : HMap (Option SocketAddr) (List Bytes)}
    {ks : List Bytes} :
    (a, ks) ∈ (buckets.erase none).entries.filterMap (fun b => b.1.map fun addr => (addr, b.2)) ↔
      buckets.lookup (some a) = some ks := by
  rw [mem_filterMap, ← AList.lookup_erase_ne (show some a ≠ none by simp), ← HMap.mem_entries_iff]
  constructor
  · rintro ⟨⟨owner, ks'⟩, hmem, hmap⟩
    rcases owner with _ | addr <;> cases hmap
    exact hmem
  · exact fun h => ⟨_, h, rfl⟩

theorem routeKey_of_backup
    (h : a ∈ r.backupAddrsForKey env dmap key) : r.routeKey env dmap key = none := by
  unfold Routing.backupAddrsForKey at h
  unfold Routing.routeKey
  rcases hp : r.primaryOf env dmap key with _ | primary
  · rfl
  rw [hp] at h
  by_cases hid : primary.id = r.localId
  · exact if_pos hid
  · simp [hid] at h

variable {ks : Option (List Bytes)}

theorem delBucket_error {f : Frame} (h : delBucket env srv r c links dmap ks = (.error f, c'))
    (n : ℤ) : f ≠ .integer n := by
  unfold delBucket at h
  split at h
  · cases h
  split at h
  · rename_i hcount
    cases h
    obtain ⟨e, rfl⟩ := dmDelLocalCount_error hcount
    simp
  · split at h <;> cases h
    simp

theorem delBucket_ok (hl : ∀ i j, (links i j).delivery = .replied)
    (h : delBucket env srv r c links dmap ks = (.ok n, c')) :
    Clears dmap (fun a hkey => ∃ k ∈ ks.getD [], (a = srv.self ∨
      1 < r.replicaCount ∧ a ∈ r.backupAddrsForKey env dmap k) ∧ env.hash64 k = hkey) c c' := by
  unfold delBucket at h
  split at h
  · cases h
    exact (Clears.refl c).congr (by simp)
  rename_i keys
  split at h
  · cases h
  rename_i deleted node hcount
  split at h <;> cases h
  rename_i hrep
  obtain ⟨hd, hk⟩ := utf8_of_dmDelLocalCount hcount
  obtain ⟨m, node', hrun, -, hgone, hkept⟩ :=
    dmDelLocalCount_of_utf8 env (c srv.self) hd hk
  rw [hcount] at hrun
  cases hrun
  refine ((clears_update hgone hkept).trans (replicateLocalDeletes_ok hd hk hl hrep)).congr
    fun a hkey => ?_
  simp only [getD_some]
  constructor
  · rintro ⟨k, hkm, ha | ha, hh⟩
    · exact .inl ⟨ha, k, hkm, hh⟩
    · exact .inr ⟨k, hkm, ha, hh⟩
  · rintro (⟨ha, k, hkm, hh⟩ | ⟨k, hkm, ha, hh⟩)
    · exact ⟨k, hkm, .inl ha, hh⟩
    · exact ⟨k, hkm, .inr ha, hh⟩

theorem crossed_iff {owners : List (Option SocketAddr)} (hn : owners.Nodup) :
    (decide (owners.length > 1) || (owners.length == 1 && owners.head?.any Option.isSome)) = true ↔
      ∃ o ∈ owners, o.isSome := by
  match owners with
  | [] => simp
  | [o] => simp
  | none :: none :: _ => simp at hn
  | some _ :: _ :: _ => simp
  | none :: some _ :: _ => simp

theorem bucketKeys_crossed : (decide ((bucketKeys env r dmap keys).entries.length > 1) ||
    ((bucketKeys env r dmap keys).entries.length == 1 &&
      (bucketKeys env r dmap keys).keys.head?.any Option.isSome)) = true ↔
      ∃ k ∈ keys, (r.routeKey env dmap k).isSome := by
  have hkeys (o : Option SocketAddr) : o ∈ (bucketKeys env r dmap keys).keys ↔
      ∃ k ∈ keys, r.routeKey env dmap k = o := by
    rw [← AList.mem_keys, ← AList.lookup_isSome, bucketKeys_lookup]
    split_ifs with h <;> simpa using h
  have hlen : (bucketKeys env r dmap keys).entries.length =
      (bucketKeys env r dmap keys).keys.length := by
    simp [AList.keys, List.keys]
  rw [hlen, crossed_iff (bucketKeys env r dmap keys).keys_nodup]
  constructor
  · rintro ⟨o, ho, hsome⟩
    obtain ⟨k, hk, rfl⟩ := (hkeys o).1 ho
    exact ⟨k, hk, hsome⟩
  · rintro ⟨k, hk, hsome⟩
    exact ⟨_, (hkeys _).2 ⟨k, hk, rfl⟩, hsome⟩

/-- What `dm_del` replies once its own bucket is done, if there is no other. -/
def bucketReply : Except Frame ℤ → Frame
  | .error f => f
  | .ok deleted => .integer deleted

theorem dmDel_local (hr : srv.routing = some r) (hne : keys ≠ [])
    (hlocal : ∀ k ∈ keys, r.routeKey env dmap k = none) (c : Cluster) (links : DelLinks) :
    dmDel env srv c links false dmap keys =
      (delBucket env srv r c links.replicate dmap (some keys)).map bucketReply id := by
  have hcrossed := @bucketKeys_crossed env r dmap keys
  have hlookup : (bucketKeys env r dmap keys).lookup none = some keys := by
    obtain ⟨k, hk⟩ := exists_mem_of_ne_nil keys hne
    rw [bucketKeys_lookup, if_pos ⟨k, hk, hlocal k hk⟩]
    simpa using hlocal
  have hremote : ((bucketKeys env r dmap keys).erase none).entries.filterMap
      (fun b => b.1.map fun addr => (addr, b.2)) = [] := by
    refine eq_nil_iff_forall_not_mem.2 fun ⟨a, ks⟩ hmem => ?_
    rw [mem_remote, bucketKeys_lookup] at hmem
    split_ifs at hmem with h
    obtain ⟨k, hk, hroute⟩ := h
    rw [hlocal k hk] at hroute
    cases hroute
  unfold dmDel
  rw [if_neg hne, hr]
  dsimp only
  rw [if_neg, hlookup, hremote]
  · rcases delBucket env srv r c links.replicate dmap (some keys) with ⟨f | deleted, c'⟩ <;> rfl
  rw [Bool.and_eq_true, hcrossed]
  rintro ⟨⟨k, hk, hsome⟩, -⟩
  rw [hlocal k hk] at hsome
  cases hsome

theorem ok_of_sumResults {results : List (Except ClusterError ℤ)} {deleted : ℤ}
    (h : sumResults deleted results = (n, none)) : ∀ result ∈ results, ∃ m, result = .ok m := by
  unfold sumResults at h
  have hnone := congrArg Prod.snd h
  clear h
  generalize ((deleted, none) : ℤ × Option String) = acc at hnone
  suffices hgen : acc.2 = none ∧ ∀ result ∈ results, ∃ m, result = .ok m by exact hgen.2
  induction results generalizing acc with
  | nil => exact ⟨hnone, by simp⟩
  | cons result results ih =>
    obtain ⟨hacc, hrest⟩ := ih _ hnone
    cases result with
    | ok m => exact ⟨hacc, forall_mem_cons.2 ⟨⟨m, rfl⟩, hrest⟩⟩
    | error e => simp at hacc

/-- The node that a key's primary is, from the receiver's routing: itself unless it routes the key
elsewhere. -/
def Server.owner (env : Env) (srv : Server) (r : Routing) (dmap key : Bytes) : SocketAddr :=
  (r.routeKey env dmap key).getD srv.self

/-- The receiver of a `DM.DEL` has the key deleted at an address: the key's primary is there, or it
replicates the key to it. -/
def Server.DeletesAt (env : Env) (srv : Server) (r : Routing) (dmap key : Bytes)
    (a : SocketAddr) : Prop :=
  srv.owner env r dmap key = a ∨ 1 < r.replicaCount ∧ a ∈ r.backupAddrsForKey env dmap key

theorem dmDel_clears {links : DelLinks}
    (hr : srv.routing = some r) (hrep : ∀ i j, (links.replicate i j).delivery = .replied)
    (hfwd : ∀ i, (links.forward i).delivery = .replied)
    (h : dmDel env srv c links false dmap keys = (.integer n, c')) :
    Clears dmap (fun a hkey => ∃ k ∈ keys, srv.DeletesAt env r dmap k a ∧ env.hash64 k = hkey)
      c c' := by
  unfold dmDel at h
  split_ifs at h with hnil
  · cases h
    exact (Clears.refl c).congr (by simp [hnil])
  rw [hr] at h
  dsimp only at h
  split_ifs at h
  · cases h
  split at h
  · rename_i f c₁ hlocal
    cases h
    exact absurd rfl (delBucket_error hlocal n)
  rename_i deleted c₁ hlocal
  split at h
  · cases h
  rename_i hsum
  cases h
  refine ((delBucket_ok hrep hlocal).trans
    (forwardBuckets_ok hfwd (ok_of_sumResults hsum))).congr fun a hkey => ?_
  simp only [mem_remote, mem_localKeys]
  constructor
  · rintro ⟨k, hk, hat, hh⟩
    rcases ho : r.routeKey env dmap k with _ | addr
    · refine .inl ⟨k, ⟨hk, ho⟩, hat.imp_left fun h => ?_, hh⟩
      rw [← h, Server.owner, ho, getD_none]
    right
    have ha : addr = a := by
      rcases hat with h | ⟨-, h⟩
      · rwa [Server.owner, ho, getD_some] at h
      · rw [routeKey_of_backup h] at ho
        cases ho
    subst ha
    obtain ⟨ks, hks, hmem⟩ := (mem_bucketKeys keys (some addr) k).2 ⟨hk, ho⟩
    exact ⟨ks, hks, k, hmem, hh⟩
  · rintro (⟨k, ⟨hk, ho⟩, ha, hh⟩ | ⟨ks, hks, k, hmem, hh⟩)
    · refine ⟨k, hk, ha.imp_left fun h => ?_, hh⟩
      rw [Server.owner, ho, getD_none, h]
    · obtain ⟨hk, ho⟩ := (mem_bucketKeys keys (some a) k).1 ⟨ks, hks, hmem⟩
      exact ⟨k, hk, .inl (by rw [Server.owner, ho, getD_some]), hh⟩

/-- With every peer answering, a client's `DM.DEL` answered with a count has deleted each key on its
primary, and on a backup the table lists if and only if the backup did not store the key or the
receiver itself had a key of that hash deleted there. -/
theorem del_reaches (env : Env) (srv : Server) (r : Routing) (hr : srv.routing = some r)
    (st : ConnState) (hst : st.internode = false) (c c' : Cluster) (req : Request)
    (hrep : ∀ i j, (req.delLinks.replicate i j).delivery = .replied)
    (hfwd : ∀ i, (req.delLinks.forward i).delivery = .replied) (dmap : Bytes)
    (keys : List Bytes) (n : ℤ)
    (h : dispatch env srv st c req (.dmDel dmap keys) = (.integer n, c')) :
    (∀ key ∈ keys, (c' (srv.owner env r dmap key)).slot dmap (env.hash64 key) = none ∧
        ∀ m ∈ r.backupsOf env dmap key, (c' m.addr).slot dmap (env.hash64 key) = none) ↔
      ∀ key ∈ keys, ∀ m ∈ r.backupsOf env dmap key, (c m.addr).slot dmap (env.hash64 key) = none ∨
          ∃ k ∈ keys, srv.DeletesAt env r dmap k m.addr ∧ env.hash64 k = env.hash64 key := by
  have hdel : dmDel env srv c req.delLinks false dmap keys = (.integer n, c') := by
    simp only [dispatch, hst, Bool.false_eq_true, if_false, checkRouting] at h
    split_ifs at h
    · cases h
    · cases h
    · cases h
    · exact h
  have hclears := dmDel_clears hr hrep hfwd hdel
  constructor
  · exact fun hgone key hkey m hm => (hclears.none_iff _ _).1 ((hgone key hkey).2 m hm)
  · intro hcond key hkey
    refine ⟨?_, fun m hm => (hclears.none_iff _ _).2 (hcond key hkey m hm)⟩
    exact (hclears.none_iff _ _).2 (.inr ⟨key, hkey, .inl rfl, rfl⟩)

end Receiver

section Sample

def sampleCluster : Cluster := fun _ =>
  empty.setDMap [100] ⟨{}, (∅ : Fragment).insert 107 ⟨[107], 0, 1, 0, [1]⟩, 0⟩

def sampleRequest : Request :=
  ⟨⟨fun _ => 0, 0⟩, fun _ => ⟨.replied, fun _ => 0⟩,
    ⟨fun _ _ => ⟨.replied, fun _ => 0⟩, fun _ => ⟨.replied, fun _ => 0⟩⟩⟩

/-- The client asks the primary. -/
theorem del_reaches_primary :
    ((dispatch sumEnv ⟨"b", some (sampleRouting 2 [⟨3, "c"⟩] 1)⟩ ⟨true, false, false⟩ sampleCluster
      sampleRequest (.dmDel [100] [[107]])).2 "c").slot [100] (sumEnv.hash64 [107]) = none := by
  have hall := (del_reaches sumEnv ⟨"b", some (sampleRouting 2 [⟨3, "c"⟩] 1)⟩ _ rfl
    ⟨true, false, false⟩ rfl sampleCluster _ sampleRequest (fun _ _ => rfl) (fun _ => rfl) [100]
    [[107]] 1 rfl).2 fun key hkey m hm =>
      .inr ⟨key, hkey, .inr ⟨by decide, mem_map_of_mem hm⟩, rfl⟩
  exact (hall [107] (by simp)).2 ⟨3, "c"⟩ (show _ ∈ [_] by simp)

/-- The client asks another node, which has the primary delete the key. The backup keeps it. -/
theorem backup_keeps_forwarded :
    let (reply, cluster) := dispatch sumEnv ⟨"a", some (sampleRouting 1 [⟨3, "c"⟩] 1)⟩
      ⟨true, false, false⟩ sampleCluster sampleRequest (.dmDel [100] [[107]])
    reply = .integer 1 ∧ (cluster "b").slot [100] (sumEnv.hash64 [107]) = none ∧
      (cluster "c").slot [100] (sumEnv.hash64 [107]) = some ⟨[107], 0, 1, 0, [1]⟩ :=
  ⟨rfl, rfl, rfl⟩

end Sample

end Kamino
