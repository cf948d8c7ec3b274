import Kamino.Lib.Quorum
import Kamino.Proofs.Server

/-!
# What an acknowledged put leaves on the cluster

The nodes that hold a put once the primary answers are the primary itself and the backups its copies
reached.
-/

namespace Kamino

open Function Node List Option Finset

section Links

def picked (p : Link → Bool) : List SocketAddr → (ℕ → Link) → List SocketAddr
  | [], _ => []
  | a :: as, links =>
    if p (links 0) then a :: picked p as fun i => links (i + 1)
    else picked p as fun i => links (i + 1)

theorem picked_sublist (p : Link → Bool) : ∀ (as : List SocketAddr) (links : ℕ → Link),
    (picked p as links).Sublist as
  | [], _ => .slnil
  | a :: as, links => by
    unfold picked
    split_ifs
    · exact (picked_sublist p as _).cons_cons a
    · exact (picked_sublist p as _).cons a

theorem picked_subset {p q : Link → Bool} (h : ∀ l, p l → q l) :
    ∀ (as : List SocketAddr) (links : ℕ → Link), picked p as links ⊆ picked q as links
  | [], _ => fun _ hx => hx
  | a :: as, links => by
    have ih := picked_subset h as fun i => links (i + 1)
    unfold picked
    split_ifs with hp hq hq
    · exact cons_subset_cons a ih
    · exact absurd (h _ hp) hq
    · exact fun x hx => mem_cons_of_mem a (ih hx)
    · exact ih

def Link.replies (l : Link) : Bool := l.delivery = .replied

theorem Link.arrives_of_replies (l : Link) (h : l.replies) : l.arrives := by
  unfold replies at h
  rw [arrives, of_decide_eq_true h]

def acked : List SocketAddr → (ℕ → Link) → List SocketAddr := picked Link.replies

def arrived : List SocketAddr → (ℕ → Link) → List SocketAddr := picked Link.arrives

theorem length_acked_cons (a : SocketAddr) (as : List SocketAddr) (links : ℕ → Link) :
    (acked (a :: as) links).length =
      (acked as fun i => links (i + 1)).length + if (links 0).replies then 1 else 0 := by
  unfold acked
  rw [picked]
  split_ifs <;> rfl

theorem mem_arrived_cons {x a : SocketAddr} {as : List SocketAddr} {links : ℕ → Link} :
    x ∈ arrived (a :: as) links ↔
      ((links 0).arrives ∧ x = a) ∨ x ∈ arrived as fun i => links (i + 1) := by
  unfold arrived
  rw [picked]
  split_ifs with h <;> simp [h]

def Link.cons (l : Link) (links : ℕ → Link) : ℕ → Link
  | 0 => l
  | i + 1 => links i

theorem exists_links {l as : List SocketAddr} (h : l.Sublist as) :
    ∃ links, acked as links = l ∧ arrived as links = l := by
  induction h with
  | slnil => exact ⟨fun _ => ⟨.replied, fun _ => 0⟩, rfl, rfl⟩
  | cons a h ih =>
    obtain ⟨links, hacked, harrived⟩ := ih
    exact ⟨Link.cons ⟨.failed false (.timeout ""), fun _ => 0⟩ links, hacked, harrived⟩
  | cons_cons a h ih =>
    obtain ⟨links, hacked, harrived⟩ := ih
    exact ⟨Link.cons ⟨.replied, fun _ => 0⟩ links, congrArg (a :: ·) hacked,
      congrArg (a :: ·) harrived⟩

end Links

/-- The node stores an entry for the key at least as new as `ts`. -/
def Node.Holds (env : Env) (n : Node) (dmap key : Bytes) (ts : Int64) : Prop :=
  ∃ e ∈ n.slot dmap (env.hash64 key), ts ≤ e.timestampNanos

section FanOut

variable {env : Env} {c : Cluster} {dmap key value : Bytes} {o : PutOptions} {ts : Int64}

theorem holds_of_reg {n : Node} {x : Int64 × Bytes} (h : n.reg dmap (env.hash64 key) = some x)
    (hle : ts ≤ x.1) : n.Holds env dmap key ts := by
  obtain ⟨e, he, rfl⟩ := map_eq_some_iff.1 h
  exact ⟨e, he, hle⟩

theorem noLru_update (hl : ∀ a, (c a).NoLru) (addr : SocketAddr) {n : Node} (hn : n.NoLru)
    (a : SocketAddr) : (update c addr n a).NoLru := by
  by_cases ha : a = addr
  · rw [ha, update_self]
    exact hn
  · rw [update_of_ne ha]
    exact hl a

theorem forwardCommand_put (env : Env) (hm : Deliverable dmap key value o ts)
    (hl : ∀ a, (c a).NoLru) (link : Link) (addr : SocketAddr) :
    ∃ c', forwardCommand env c link addr (.dmPut dmap key value o) =
        ((match link.delivery with | .replied => .ok .ok | .failed _ e => .error e), c') ∧
      (∀ a, (c' a).NoLru) ∧ (link.arrives → (c' addr).Holds env dmap key ts) ∧
      ∀ a, ¬(link.arrives ∧ a = addr) → c' a = c a := by
  obtain ⟨n, hrun, hsame, hreg⟩ := dmPutPeer_spec env hm (hl addr) link.clk
  have hn : n.Holds env dmap key ts := by
    rcases hx : Lww.merge ((c addr).reg dmap (env.hash64 key)) ts value with _ | x
    · exact absurd hx (Lww.merge_ne_none _ _ _)
    · exact holds_of_reg (hreg.trans hx) (Lww.le_of_merge hx).1
  have hup := noLru_update hl addr (hsame.noLru (hl addr))
  have hself : (update c addr n addr).Holds env dmap key ts := by rwa [update_self]
  unfold forwardCommand Link.arrives
  simp only [peerDispatch, hrun]
  rcases link.delivery with _ | ⟨_ | _, e⟩
  on_goal 2 => exact ⟨c, rfl, hl, by simp, fun _ _ => rfl⟩
  all_goals exact ⟨_, rfl, hup, fun _ => hself, fun a ha => update_of_ne (by simpa using ha) _ _⟩

theorem acks_count (op : String) (out : ReplicationOutcome) (link : Link) : (out.count env op
        (match link.delivery with | .replied => .ok .ok | .failed _ e => .error e)).acks =
      out.acks + if link.replies then 1 else 0 := by
  unfold Link.replies
  rcases link.delivery with _ | ⟨_, e⟩ <;> rfl

theorem fanOut_put (env : Env) (hm : Deliverable dmap key value o ts) (op : String) :
    ∀ (as : List SocketAddr) (links : ℕ → Link) (c : Cluster), (∀ a, (c a).NoLru) →
    (∀ out : ReplicationOutcome, ((fanOut env (.dmPut dmap key value o) c as links).1.foldl
        (ReplicationOutcome.count env op) out).acks = out.acks + (acked as links).length) ∧
      (∀ a ∈ arrived as links,
        ((fanOut env (.dmPut dmap key value o) c as links).2 a).Holds env dmap key ts) ∧
      ∀ a ∉ arrived as links, (fanOut env (.dmPut dmap key value o) c as links).2 a = c a
  | [], _, _, _ => ⟨fun _ => rfl, by simp [arrived, picked], fun _ _ => rfl⟩
  | addr :: as, links, c, hl => by
    obtain ⟨c₁, hsent, hl₁, hhold, hkept⟩ := forwardCommand_put env hm hl (links 0) addr
    obtain ⟨hacks, hholds, hsame⟩ := fanOut_put env hm op as (fun i => links (i + 1)) c₁ hl₁
    unfold fanOut
    rw [hsent]
    refine ⟨fun out => ?_, fun a ha => ?_, fun a ha => ?_⟩
    · rw [foldl_cons, hacks, acks_count, length_acked_cons]
      omega
    · by_cases hin : a ∈ arrived as fun i => links (i + 1)
      · exact hholds a hin
      · obtain ⟨harr, rfl⟩ := (mem_arrived_cons.1 ha).resolve_right hin
        rw [hsame a hin]
        exact hhold harr
    · rw [mem_arrived_cons, not_or] at ha
      rw [hsame a ha.2, hkept a ha.1]

end FanOut

section Primary

variable {env : Env} {srv : Server} {r : Routing} {c : Cluster} {rd : Readings} {links : ℕ → Link}
  {dmap key value : Bytes} {o o' : PutOptions} {n : Node}

/-- A node can store the key: its texts are UTF-8 and it fits a record. -/
def Storable (dmap key : Bytes) : Prop :=
  utf8Error dmap 0 = none ∧ utf8Error key 0 = none ∧ key.length ≤ maxKeyLen

theorem commitPut_empty (env : Env) (rd : Readings) (h : Storable dmap key) :
    ∃ o n, empty.commitPut env rd dmap key [] {} = (.ok o, n) := by
  obtain ⟨hd, hk, hlen⟩ := h
  have hnew : empty.dmapAt dmap = DMap.new {} := rfl
  obtain ⟨d, hput⟩ := DMap.put_new env (show Fits key [] from ⟨hlen, Nat.zero_le _⟩)
    ((empty.opened dmap).stamp {} rd.wall).1 rd.clk
  unfold commitPut
  rw [openKey_of_utf8 hd hk, hnew]
  dsimp only
  rw [hput]
  exact ⟨_, _, rfl⟩

theorem dmPut_cluster (hr : srv.routing = some r) (hmode : r.mode = .sync)
    (h : (c srv.self).commitPut env rd dmap key value o = (.ok o', n)) :
    (dmPut env srv c rd links false dmap key value o).2 =
      (fanOut env (.dmPut dmap key value o') (update c srv.self n)
        (r.backupAddrsForKey env dmap key) links).2 := by
  unfold dmPut
  rw [if_neg Bool.false_ne_true, h, hr]
  dsimp only
  by_cases hnil : r.backupAddrsForKey env dmap key = []
  · rw [if_pos hnil, hnil]
    rfl
  · rw [if_neg hnil, hmode, replicatePut, if_neg hnil]
    dsimp only
    split_ifs <;> rfl

theorem dmPut_ok_iff (hr : srv.routing = some r) (hmode : r.mode = .sync)
    (h : (c srv.self).commitPut env rd dmap key value o = (.ok o', n)) :
    (dmPut env srv c rd links false dmap key value o).1 = .ok ↔
      r.backupAddrsForKey env dmap key = [] ∨ r.writeQuorum ≤ 1 +
        (aggregate env (fanOut env (.dmPut dmap key value o') (update c srv.self n)
          (r.backupAddrsForKey env dmap key) links).1 "DM.PUT").acks := by
  unfold dmPut
  rw [if_neg Bool.false_ne_true, h, hr]
  dsimp only
  by_cases hnil : r.backupAddrsForKey env dmap key = []
  · simp [hnil]
  rw [if_neg hnil, hmode, replicatePut, if_neg hnil]
  dsimp only
  split_ifs with htotal
  · simp only [Frame.ok, reduceCtorEq, hnil, false_or, false_iff, not_le]
    omega
  · simp only [hnil, false_or, true_iff]
    omega

theorem dmPut_refused {f : Frame}
    (h : (c srv.self).commitPut env rd dmap key value o = (.error f, n)) :
    (dmPut env srv c rd links false dmap key value o).1 ≠ .ok := by
  unfold dmPut
  rw [if_neg Bool.false_ne_true, h]
  exact commitPut_error_ne_ok h

theorem dmPut_committed (hr : srv.routing = some r) (hmode : r.mode = .sync)
    (h : (c srv.self).commitPut env rd dmap key value o = (.ok o', n)) (hl : ∀ a, (c a).NoLru)
    (links : ℕ → Link) :
    ((dmPut env srv c rd links false dmap key value o).1 = .ok ↔
        r.backupAddrsForKey env dmap key = [] ∨
          r.writeQuorum ≤ 1 + (acked (r.backupAddrsForKey env dmap key) links).length) ∧
      ∀ a, if a = srv.self ∨ a ∈ arrived (r.backupAddrsForKey env dmap key) links
        then ((dmPut env srv c rd links false dmap key value o).2 a).Holds env dmap key
          ((c srv.self).stamp o rd.wall).1
        else (dmPut env srv c rd links false dmap key value o).2 a = c a := by
  obtain ⟨-, hm, hsame, -, e, hslot, hst, -⟩ := commitPut_ok h (hl srv.self)
  have hself : n.Holds env dmap key ((c srv.self).stamp o rd.wall).1 :=
    ⟨e, hslot, (congrArg Prod.fst hst).ge⟩
  obtain ⟨hacks, hholds, hkept⟩ := fanOut_put env hm "DM.PUT"
    (r.backupAddrsForKey env dmap key) links (update c srv.self n)
    (noLru_update hl srv.self (hsame.noLru (hl srv.self)))
  rw [dmPut_ok_iff hr hmode h, dmPut_cluster hr hmode h, aggregate, hacks]
  refine ⟨by rw [Nat.zero_add], fun a => ?_⟩
  by_cases ha : a ∈ arrived (r.backupAddrsForKey env dmap key) links
  · rw [if_pos (.inr ha)]
    exact hholds a ha
  rw [hkept a ha]
  split_ifs with hs
  · rw [hs.resolve_right ha, update_self]
    exact hself
  · rw [update_of_ne fun h => hs (.inl h)]

/-- However the requests to the backups fare, on any nodes that do not evict, a client's put of the
key that the primary answers with `+OK` is held by `write_quorum` nodes. -/
def Server.Durable (env : Env) (srv : Server) (r : Routing) (dmap key : Bytes) : Prop :=
  ∀ (c : Cluster) (rd : Readings) (links : ℕ → Link) (value : Bytes) (o : PutOptions),
    (∀ a, (c a).NoLru) → (dmPut env srv c rd links false dmap key value o).1 = .ok →
    ∃ S : Finset SocketAddr, r.writeQuorum ≤ S.card ∧
      ∀ a ∈ S, ((dmPut env srv c rd links false dmap key value o).2 a).Holds env dmap key
        ((c srv.self).stamp o rd.wall).1

theorem not_holds_empty (env : Env) (dmap key : Bytes) (ts : Int64) :
    ¬empty.Holds env dmap key ts := by
  rintro ⟨e, he, -⟩
  simp [slot, empty] at he

theorem durable_iff_links (hr : srv.routing = some r) (hmode : r.mode = .sync) :
    srv.Durable env r dmap key ↔ (Storable dmap key → ∀ links,
      (r.backupAddrsForKey env dmap key = [] ∨
        r.writeQuorum ≤ 1 + (acked (r.backupAddrsForKey env dmap key) links).length) →
      r.writeQuorum ≤
        (insert srv.self (arrived (r.backupAddrsForKey env dmap key) links).toFinset).card) := by
  constructor
  · intro hdur hst links hok
    have hl : ∀ a : SocketAddr, ((fun _ => empty : Cluster) a).NoLru :=
      fun _ _ => by simp [options, dmapAt, empty, DMap.new]
    obtain ⟨o', n, hc⟩ := commitPut_empty env ⟨fun _ => 0, 0⟩ hst
    obtain ⟨hiff, hafter⟩ := dmPut_committed (c := fun _ => empty) hr hmode hc hl links
    obtain ⟨S, hcard, hS⟩ := hdur _ _ links _ _ hl (hiff.2 hok)
    refine le_trans hcard (card_le_card fun a ha => ?_)
    by_contra hnot
    have hrest := hafter a
    rw [if_neg (by simpa using hnot)] at hrest
    exact not_holds_empty _ _ _ _ (hrest ▸ hS a ha)
  · intro hlinks c rd links value o hl hok
    rcases hc : (c srv.self).commitPut env rd dmap key value o with ⟨f | o', n⟩
    · exact absurd hok (dmPut_refused hc)
    obtain ⟨-, hm, -⟩ := commitPut_ok hc (hl srv.self)
    obtain ⟨hiff, hafter⟩ := dmPut_committed hr hmode hc hl links
    refine ⟨_, hlinks ⟨hm.dmapUtf8, hm.keyUtf8, hm.fits.1⟩ links (hiff.1 hok), fun a ha => ?_⟩
    have hhold := hafter a
    rwa [if_pos (by simpa using ha)] at hhold

theorem links_iff {bs : List SocketAddr} {self : SocketAddr} {wq : ℕ} (hwq : 1 < wq) :
    (∀ links, wq ≤ 1 + (acked bs links).length →
        wq ≤ (insert self (arrived bs links).toFinset).card) ↔
      bs.length + 1 < wq ∨ self ∉ bs ∧ (wq = 2 ∨ bs.Nodup) := by
  have hiff := Quorum.forall_card_iff self bs (show 1 ≤ wq - 1 by omega)
  rw [show bs.length < wq - 1 ↔ bs.length + 1 < wq by omega,
    show wq - 1 = 1 ↔ wq = 2 by omega] at hiff
  rw [← hiff]
  constructor
  · intro h l hl hlen
    obtain ⟨links, hacked, harrived⟩ := exists_links hl
    have hcard := h links (by rw [hacked]; omega)
    rw [harrived] at hcard
    omega
  intro h links hlen
  have hcard := h (acked bs links) (picked_sublist _ _ _) (by omega)
  have hsub : (acked bs links).toFinset ⊆ (arrived bs links).toFinset := fun x hx => by
    rw [List.mem_toFinset] at hx ⊢
    exact picked_subset Link.arrives_of_replies bs links hx
  have hle := card_le_card (insert_subset_insert self hsub)
  omega

/-- A put answered with `+OK` is on `write_quorum` nodes, whatever the state and the failures, if
and only if no put of the key can succeed, or one node is enough, or there are backups and either
too few to ever answer `+OK`, or none of them is the primary itself or, past the first, twice in
the list. -/
theorem put_durable_iff (env : Env) (srv : Server) (r : Routing) (hr : srv.routing = some r)
    (hmode : r.mode = .sync) (dmap key : Bytes) :
    srv.Durable env r dmap key ↔ ¬Storable dmap key ∨ r.writeQuorum ≤ 1 ∨
      r.backupAddrsForKey env dmap key ≠ [] ∧
        ((r.backupAddrsForKey env dmap key).length + 1 < r.writeQuorum ∨
          srv.self ∉ r.backupAddrsForKey env dmap key ∧
            (r.writeQuorum = 2 ∨ (r.backupAddrsForKey env dmap key).Nodup)) := by
  rw [durable_iff_links hr hmode]
  generalize r.backupAddrsForKey env dmap key = bs
  by_cases hst : Storable dmap key
  · simp only [hst, forall_const, not_true_eq_false, false_or]
    by_cases hwq : r.writeQuorum ≤ 1
    · simp only [hwq, true_or, iff_true]
      exact fun links _ => le_trans hwq (card_pos.2 (insert_nonempty _ _))
    rw [not_le] at hwq
    rcases eq_or_ne bs [] with rfl | hne
    · refine iff_of_false (fun h => ?_) (by simp [hwq])
      have hcard := h (fun _ => ⟨.replied, fun _ => 0⟩) (.inl rfl)
      simp only [arrived, picked, toFinset_nil, insert_empty_eq, card_singleton] at hcard
      omega
    · simp only [hne, false_or, not_le.2 hwq, ne_eq, not_false_eq_true, true_and]
      exact links_iff hwq
  · simp [hst]

theorem put_durable_two : Server.Durable sumEnv ⟨"b", some (sampleRouting 2 [⟨3, "c"⟩] 2)⟩
      (sampleRouting 2 [⟨3, "c"⟩] 2) [100] [107] :=
  (put_durable_iff sumEnv ⟨"b", some (sampleRouting 2 [⟨3, "c"⟩] 2)⟩ _ rfl rfl [100] [107]).2
    (.inr (.inr ⟨by decide, .inr ⟨by decide, .inl rfl⟩⟩))

/-- The put of a primary with no backups listed, under a quorum of two. -/
def lonePut : Frame × Cluster :=
  dmPut sumEnv ⟨"b", some (sampleRouting 2 [] 2)⟩ (fun _ => .empty) ⟨fun _ => 0, 0⟩
    (fun _ => ⟨.replied, fun _ => 0⟩) false [100] [107] [1] {}

/-- It is acknowledged, with the primary's own copy the only one. -/
theorem lone_put_acknowledged : lonePut.1 = .ok ∧ ¬∃ S : Finset SocketAddr, 2 ≤ S.card ∧ ∀ a ∈ S,
      (lonePut.2 a).Holds sumEnv [100] [107] (Node.empty.stamp {} 0).1 := by
  refine ⟨rfl, ?_⟩
  rintro ⟨S, hcard, hS⟩
  have hsub : S ⊆ {"b"} := by
    intro a ha
    by_contra hne
    have hupd : lonePut.2 = update (fun _ => Node.empty) "b"
        (Node.empty.commitPut sumEnv ⟨fun _ => 0, 0⟩ [100] [107] [1] {}).2 := rfl
    have hempty : lonePut.2 a = Node.empty := by
      rw [hupd, update_of_ne (by simpa using hne)]
    exact not_holds_empty _ _ _ _ (hempty ▸ hS a ha)
  have hone := card_le_card hsub
  rw [card_singleton] at hone
  omega

end Primary

end Kamino
