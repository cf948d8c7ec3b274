import Kamino.MultiNode
import Kamino.Proofs.Replies

/-!
# What a scan over all partitions yields
-/

namespace Kamino

open Function List Resp CrossPartitionScan MultiNodeDMap RemoteClient

namespace CrossPartitionScan

variable {ε σ : Type} {scan : UInt32 → ScanOptions → σ → Except ε (List ScanItem) × σ}
  {items : UInt32 → List ScanItem} {Good : UInt32 → σ → Prop}

/-- Each partition's scan succeeds, in its turn. -/
def Serves (scan : UInt32 → ScanOptions → σ → Except ε (List ScanItem) × σ) (options : ScanOptions)
    (count : UInt32) (items : UInt32 → List ScanItem) (Good : UInt32 → σ → Prop) : Prop :=
  ∀ part st, part < count → Good part st →
    ∃ st', scan part options st = (.ok (items part), st') ∧ Good (part + 1) st'

def rest (items : UInt32 → List ScanItem) (s : CrossPartitionScan) : List ScanItem :=
  s.current.getD [] ++
    (List.range' s.nextPartition.toNat s.left).flatMap fun n => items (UInt32.ofNat n)

variable {s : CrossPartitionScan}

theorem rest_opened (h : ¬ s.partitionCount ≤ s.nextPartition) (hcur : s.current.getD [] = []) :
    rest items (s.opened (some (items s.nextPartition))) = rest items s := by
  have hleft : s.left = (s.opened (some (items s.nextPartition))).left + 1 := by
    have hlt : s.nextPartition.toNat < s.partitionCount.toNat :=
      UInt32.lt_iff_toNat_lt.1 (UInt32.not_le.1 h)
    simp only [left, opened, toNat_next h]
    omega
  rw [rest, rest, hcur, hleft, range'_succ, flatMap_cons, UInt32.ofNat_toNat]
  simp [opened, toNat_next h]

theorem drained {current : Option (List ScanItem)}
    (h : ∀ item items, current = some (item :: items) → False) : current.getD [] = [] := by
  rcases current with _ | _ | ⟨item, items⟩
  · rfl
  · rfl
  · exact (h item items rfl).elim

theorem next_rest {st : σ} (hserves : Serves scan s.options s.partitionCount items Good)
    (hgood : Good s.nextPartition st) :
    ∃ s' st', next scan s st = (.ok (rest items s).head?, s', st') ∧
      rest items s' = (rest items s).tail ∧ s'.options = s.options ∧
      s'.partitionCount = s.partitionCount ∧ Good s'.nextPartition st' := by
  fun_induction next scan s st with
  | case1 s st item items' hcur =>
    have hrest : rest items s = item :: rest items { s with current := some items' } := by
      rw [rest, hcur]
      rfl
    rw [hrest]
    exact ⟨_, _, rfl, rfl, rfl, rfl, hgood⟩
  | case2 s st hdone hcur =>
    have hleft : s.left = 0 := Nat.sub_eq_zero_of_le (UInt32.le_iff_toNat_le.1 hdone)
    have hrest (current : Option (List ScanItem)) (h : current.getD [] = []) :
        rest items { s with current } = [] := by
      rw [rest, h, nil_append]
      exact congrArg (fun n => (range' _ n).flatMap _) hleft
    rw [hrest s.current (drained hcur)]
    exact ⟨_, _, rfl, hrest none rfl, rfl, rfl, hgood⟩
  | case3 s st hdone e st₁ hscan =>
    obtain ⟨st', hok, -⟩ := hserves s.nextPartition st (UInt32.not_le.1 hdone) hgood
    rw [hscan] at hok
    cases hok
  | case4 s st hdone items' st₁ hscan hcur ih =>
    obtain ⟨st', hok, hgood'⟩ := hserves s.nextPartition st (UInt32.not_le.1 hdone) hgood
    rw [hscan] at hok
    cases hok
    have hnext := ih hserves hgood'
    rwa [rest_opened hdone (drained hcur)] at hnext

/-- A drained `CrossPartitionScan` yields what the scans of the partitions do, one after another. -/
theorem drain_rest {st : σ} (hserves : Serves scan s.options s.partitionCount items Good)
    (hgood : Good s.nextPartition st) : ∃ st', drain scan s st = (.ok (rest items s), st') := by
  induction hl : rest items s generalizing s st with
  | nil =>
    obtain ⟨s', st', hnext, -⟩ := next_rest hserves hgood
    rw [hl, head?_nil] at hnext
    refine ⟨st', ?_⟩
    unfold drain
    split <;> rename_i heq <;> rw [hnext] at heq <;> cases heq
    rfl
  | cons item l ih =>
    obtain ⟨s', st', hnext, htail, hoptions, hcount, hgood'⟩ := next_rest hserves hgood
    rw [hl, head?_cons] at hnext
    rw [hl, tail_cons] at htail
    obtain ⟨st'', hdrain⟩ := ih (hoptions ▸ hcount ▸ hserves) hgood' htail
    refine ⟨st'', ?_⟩
    unfold drain
    split <;> rename_i heq <;> rw [hnext] at heq <;> cases heq
    rw [hdrain]

end CrossPartitionScan

namespace DMap

def liveItems (d : DMap) (nowMicros : UInt64) : List ScanItem :=
  (((d.fragment.entries.map fun p => p.2).filter fun e =>
    !e.isExpired (microsToNanosI64 nowMicros)).filter fun e => (fromUtf8 e.key).isSome).map
      fun e => (e.key, e.value)

theorem scan_items (d : DMap) (regex : String → Except String (String → Bool))
    {count part : UInt32} (h : part < count) (nowMicros : UInt64) :
    d.scan regex count part none nowMicros
      = .ok (if part = 0 then d.liveItems nowMicros else []) := by
  unfold scan
  rw [if_neg (UInt32.not_le.2 h)]
  split_ifs <;> first | rfl | contradiction

variable {d : DMap} {now : UInt64}

theorem mem_liveItems {item : ScanItem} : item ∈ d.liveItems now ↔
    ∃ h e, d.fragment.lookup h = some e ∧ e.isExpired (microsToNanosI64 now) = false ∧
      (fromUtf8 e.key).isSome ∧ item = (e.key, e.value) := by
  unfold liveItems
  simp only [mem_map, mem_filter, Bool.not_eq_true']
  constructor
  · rintro ⟨e, ⟨⟨⟨p, hp, rfl⟩, hlive⟩, hutf8⟩, rfl⟩
    exact ⟨p.1, p.2, AList.mem_lookup_iff.2 hp, hlive, hutf8, rfl⟩
  · rintro ⟨h, e, hlook, hlive, hutf8, rfl⟩
    exact ⟨e, ⟨⟨⟨⟨h, e⟩, AList.mem_lookup_iff.1 hlook, rfl⟩, hlive⟩, hutf8⟩, rfl⟩

theorem nodup_liveItems (env : Env)
    (hashed : ∀ h e, d.fragment.lookup h = some e → env.hash64 e.key = h) :
    ((d.liveItems now).map Prod.fst).Nodup := by
  have hkeys : (d.fragment.entries.map fun p => env.hash64 p.2.key) =
      d.fragment.entries.map (·.1) :=
    map_congr_left fun p hp => hashed p.1 p.2 (AList.mem_lookup_iff.2 hp)
  have hkept : (((d.fragment.entries.map fun p => p.2).filter fun e =>
      !e.isExpired (microsToNanosI64 now)).filter fun e => (fromUtf8 e.key).isSome).Sublist
        (d.fragment.entries.map fun p => p.2) :=
    filter_sublist.trans filter_sublist
  have hsub := hkept.map fun e : Entry => env.hash64 e.key
  rw [map_map, Function.comp_def, hkeys] at hsub
  refine List.Nodup.of_map env.hash64 ?_
  rw [liveItems, map_map, map_map]
  exact hsub.nodup d.fragment.nodupKeys

end DMap

namespace RemoteDMap

def payload (items : List ScanItem) : List Resp.Frame :=
  items.flatMap fun item => [.bulk (some item.1), .bulk (some item.2)]

theorem collectPairs_payload : ∀ {items : List ScanItem},
    (∀ item ∈ items, (fromUtf8 item.1).isSome) → collectPairs (payload items) = items
  | [], _ => rfl
  | (k, v) :: items, h => by
    have hk := h (k, v) mem_cons_self
    have htail := collectPairs_payload fun item hi => h item (mem_cons_of_mem _ hi)
    have hcons : payload ((k, v) :: items) = .bulk (some k) :: .bulk (some v) :: payload items :=
      rfl
    rw [hcons, collectPairs, if_pos hk, htail]

/-- The reply to `DM.SCAN` with these items. -/
def reply (items : List ScanItem) : Resp.Frame :=
  .array (some [.bulk (some (asBytes "0")), .array (some (payload items))])

theorem length_payload (items : List ScanItem) : (payload items).length = 2 * items.length := by
  simp [payload, length_flatMap, Nat.mul_comm]

/-- Whether a bulk string is as long as the client's codec takes. -/
def Sized (items : List ScanItem) : Prop :=
  ∀ item ∈ items, item.1.length ≤ 512 * 1024 * 1024 ∧ item.2.length ≤ 512 * 1024 * 1024

theorem admissible_payload {items : List ScanItem} (h : Sized items) :
    admissibleItems {} 2 (payload items) = true := by
  induction items with
  | nil => rfl
  | cons item items ih =>
    have hitem := h item mem_cons_self
    have hrest := ih fun item hi => h item (mem_cons_of_mem _ hi)
    have hbulk {b : Bytes} (hb : b.length ≤ 512 * 1024 * 1024) :
        admissible {} 2 (.bulk (some b)) = true := by
      simp [admissible, maxDepth]
      omega
    change (admissible {} 2 (.bulk (some item.1)) && (admissible {} 2 (.bulk (some item.2)) &&
      admissibleItems {} 2 (payload items))) = true
    rw [hbulk hitem.1, hbulk hitem.2, hrest]
    rfl

theorem received_reply (f64 : F64Text) {items : List ScanItem} (hsized : Sized items)
    (hlen : items.length ≤ 2 ^ 19) :
    received f64 (reply items) = .ok (reply items) := by
  have hadm : admissible {} 0 (reply items) = true := by
    have hmax : (({} : RespCodec).maxArrayLen.toNat) = 2 ^ 20 := rfl
    simp only [reply, admissible, admissibleItems, admissibleLen, admissible_payload hsized,
      length_payload, hmax, maxDepth, Bool.and_eq_true, decide_eq_true_eq]
    have hzero : (asBytes "0").length = 1 := by decide +kernel
    simp [hzero]
    omega
  have haccepted : Accepted f64 .resp2 (reply items) := by
    simp only [reply, payload, accepted_array, forall_mem_cons, mem_flatMap, accepted_bulk]
    refine ⟨trivial, ?_, by simp⟩
    rintro f ⟨item, -, hf⟩
    simp only [mem_cons, not_mem_nil, or_false] at hf
    rcases hf with rfl | rfl <;> exact accepted_bulk _
  obtain ⟨bytes, henc, hdec⟩ := decode_encodeFrame f64 (fun h => h) _ hadm [] (haccepted [])
  have hdec := hdec []
  rw [append_nil] at hdec
  rw [received, henc, nil_append]
  simp only [hdec]

/-- The reply up to the header of its items. -/
def opening (count : ℕ) : Bytes :=
  ('*'.toUInt8 :: asBytes (toString 2) ++ crlf) ++
    ('$'.toUInt8 :: asBytes (toString (asBytes "0").length) ++ crlf) ++
    (asBytes "0" ++ crlf) ++ ('*'.toUInt8 :: asBytes (toString count) ++ crlf)

theorem opening_refused (f64 : F64Text) {count : ℕ} (h : 2 ^ 20 < count) :
    (parseFrame f64 {} 0).Refuses (opening count) := by
  have hzero : (parseFrame f64 {} 1).Parses _ (.bulk (some (asBytes "0"))) :=
    @parseFrame_parses _ _ _ (by decide) '$'.toUInt8 _ _
      (bulk_parses (by decide) (by decide) (bulkPayload_parses (asBytes "0")))
  have hitems : ((parseFrame f64 {} 1).times 2).Refuses _ :=
    hzero.bind_refuses (.bind (.bind (header_refuses (by decide) h)))
  have harray := @parseFrame_refuses f64 {} 0 (by decide) '*'.toUInt8 _
    (array_refuses (by decide) (by decide) hitems)
  simpa only [opening, append_assoc, cons_append] using harray

theorem received_error (f64 : F64Text) {items : List ScanItem} (hlen : 2 ^ 19 < items.length) :
    ∃ e, received f64 (reply items) = .error e := by
  have hencode : encodeFrame f64 .resp2 (reply items) [] =
      andThen (encodeItems f64 .resp2 (payload items)) (extend [])
        (opening (payload items).length) := by
    rw [reply, encodeFrame, versioned_of_resp2 rfl, encodeItems, encodeItems, encodeItems,
      encodeFrame, versioned_of_resp2 rfl, encodeFrame, versioned_of_resp2 rfl]
    rfl
  obtain ⟨t, ht⟩ := compositional_appends.andThen
    (compositional_appends.encodeItems (payload items)) (compositional_appends.extend [])
    (opening (payload items).length)
  have hcount : 2 ^ 20 < (payload items).length := by
    rw [length_payload]
    omega
  obtain ⟨e, he⟩ := opening_refused f64 hcount t
  rw [ht, ← hencode] at he
  rw [← hencode] at ht
  unfold received
  split
  · exact ⟨_, rfl⟩
  · rename_i bytes hbytes
    rw [hbytes] at he ht
    split
    · rename_i frame n hdec
      subst ht
      cases ((decode_known_ok f64 {} rfl).1 hdec).symm.trans he
    · exact ⟨_, rfl⟩
    · exact ⟨_, rfl⟩

/-- The client gets all the items, or an error if there are too many for one array. -/
theorem read_reply (f64 : F64Text) (debugFrame : Resp.Frame → String) {items : List ScanItem}
    (hutf8 : ∀ item ∈ items, (fromUtf8 item.1).isSome) (hsized : Sized items) :
    ∃ e, (received f64 (reply items)).bind (scanReply debugFrame) =
      if items.length ≤ 2 ^ 19 then .ok items else .error e := by
  by_cases hlen : items.length ≤ 2 ^ 19
  · refine ⟨.timeout, ?_⟩
    rw [received_reply f64 hsized hlen, if_pos hlen]
    exact congrArg Except.ok (collectPairs_payload hutf8)
  · obtain ⟨e, he⟩ := received_error f64 (Nat.not_le.1 hlen)
    exact ⟨e, by rw [he, if_neg hlen]; rfl⟩

end RemoteDMap

/-- The connections the client needs come about. -/
def ClientEnv.Connects (cenv : ClientEnv) (c : MultiNodeRemoteClient) : Prop :=
  ∀ a ∈ c.seeds, cenv.connect a = none

section Cluster

variable {P : Type} {cenv : ClientEnv} {s : ClientSide P} {count part : UInt32} {name : String}

/-- What the node that gets the scan of a partition yields. -/
def served (s : ClientSide P) (cenv : ClientEnv) (name : String) (part : UInt32) : List ScanItem :=
  if part = 0 then
    ((s.nodes s.client.seed).node.dmapAt (asBytes name)).liveItems ((cenv.readings 0).clk 0)
  else []

theorem handle_ok {connect : SocketAddr → Option RemoteError} {c : MultiNodeRemoteClient}
    {addr : SocketAddr} (h : connect addr = none) :
    ∃ c', c.handle connect addr = .ok c' ∧ c'.seeds = c.seeds := by
  unfold MultiNodeRemoteClient.handle
  split_ifs
  · exact ⟨c, rfl, rfl⟩
  · rw [h]
    exact ⟨_, rfl, rfl⟩

theorem dmScan_reply (w : Resp.World P) (name : String) (hpart : part < w.partitionCount) :
    ∃ w', w.dmScan part (asBytes name) {} = (RemoteDMap.reply (if part = 0 then
        (w.node.dmapAt (asBytes name)).liveItems (w.readings.clk 0) else []), w') ∧
      w'.partitionCount = w.partitionCount := by
  have hname : utf8Error (asBytes name) 0 = none := utf8Error_eq_none_iff.2 ⟨name, rfl⟩
  have hopen : w.node.dmapHandle (asBytes name)
      = .ok (w.node.dmapAt (asBytes name), w.node.opened (asBytes name)) := by
    rw [Node.dmapHandle, hname, Node.getOrCreate_eq]
  refine ⟨{ w with node := w.node.opened (asBytes name) }, ?_, rfl⟩
  unfold Resp.World.dmScan
  rw [hopen]
  simp only [Option.bind_none, DMap.scan_items _ _ hpart]
  rfl

theorem served_utf8 (s : ClientSide P) :
    ∀ item ∈ served s cenv name part, (fromUtf8 item.1).isSome := by
  intro item hitem
  unfold served at hitem
  split_ifs at hitem
  · obtain ⟨h, e, -, -, hutf8, rfl⟩ := DMap.mem_liveItems.1 hitem
    exact hutf8
  · exact absurd hitem not_mem_nil

theorem scan_served (hconnect : cenv.Connects s.client)
    (hcount : ∀ a, (s.nodes a).partitionCount = count) (hpart : part < count)
    (hsized : RemoteDMap.Sized (served s cenv name part)) :
    ∃ s' e, scan cenv name part {} s = (if (served s cenv name part).length ≤ 2 ^ 19 then
          .ok (served s cenv name part) else .error e, s') ∧
      s'.client.seeds = s.client.seeds ∧ ∀ a, (s'.nodes a).partitionCount = count := by
  have hconn : cenv.connect s.client.seed = none := hconnect _ (get_mem _ _)
  obtain ⟨c, hhandle, hseeds⟩ :=
    @handle_ok cenv.connect { s.client with next := s.client.next + 1 } s.client.seed hconn
  have hw : part < ({ s.nodes s.client.seed with readings := cenv.readings part } :
      Resp.World P).partitionCount := by
    rw [hcount]
    exact hpart
  obtain ⟨w, hreply, hw'⟩ := dmScan_reply _ name hw
  obtain ⟨e, hread⟩ := RemoteDMap.read_reply cenv.f64 cenv.debugFrame (served_utf8 s) hsized
  refine ⟨⟨c, update s.nodes s.client.seed w⟩, e, ?_, hseeds, fun a => ?_⟩
  · unfold scan
    simp only [MultiNodeRemoteClient.pickSeed, hhandle]
    have hitems : (if part = 0 then ((s.nodes s.client.seed).node.dmapAt
        (asBytes name)).liveItems ((cenv.readings part).clk 0) else [])
        = served s cenv name part := by
      unfold served
      split_ifs with h0
      · rw [h0]
      · rfl
    rw [hitems] at hreply
    have hoptions : RemoteDMap.scanCommandOptions {} = {} := rfl
    rw [hoptions, hreply, hread]
  · change (update s.nodes s.client.seed w a).partitionCount = count
    by_cases ha : a = s.client.seed
    · rw [ha, update_self, hw']
      exact hcount _
    · rw [update_of_ne ha]
      exact hcount a

theorem rest_new (options : ScanOptions) {items : UInt32 → List ScanItem}
    (hitems : ∀ part ≠ 0, items part = []) (hcount : count ≠ 0) :
    rest items ⟨count, options, 0, none⟩ = items 0 := by
  have hpos : 0 < count.toNat := Nat.pos_of_ne_zero fun h => hcount (UInt32.toNat_inj.1 h)
  obtain ⟨n, hn⟩ := Nat.exists_eq_add_of_lt hpos
  have hleft : (⟨count, options, 0, none⟩ : CrossPartitionScan).left = n + 1 := by
    simp only [left, UInt32.toNat_zero]
    omega
  have hothers : (range' 1 n).flatMap (fun k => items (UInt32.ofNat k)) = [] := by
    rw [flatMap_eq_nil_iff]
    intro k hk
    rw [mem_range'_1] at hk
    refine hitems _ fun h => ?_
    have hsize : k < UInt32.size := by
      have := count.toNat_lt
      simp only [UInt32.size]
      omega
    have hzero := congrArg UInt32.toNat h
    rw [UInt32.toNat_ofNat_of_lt' hsize, UInt32.toNat_zero] at hzero
    omega
  rw [rest, hleft, range'_succ, flatMap_cons]
  exact (congrArg (items 0 ++ ·) hothers).trans (append_nil _)

section Drain

variable (hconnect : cenv.Connects s.client) (hcount : ∀ a, (s.nodes a).partitionCount = count)
  (h0 : count ≠ 0) (hsized : RemoteDMap.Sized (served s cenv name 0))
include hconnect hcount h0 hsized

theorem drain_error (hlen : ¬ (served s cenv name 0).length ≤ 2 ^ 19) :
    ∃ e, (drain (scan cenv name) ⟨count, {}, 0, none⟩ s).1 = .error e := by
  have hpos : (0 : UInt32) < count := UInt32.pos_iff_ne_zero.2 h0
  obtain ⟨s', e, hscan, -⟩ := scan_served hconnect hcount hpos hsized
  rw [if_neg hlen] at hscan
  obtain ⟨scan', hnext⟩ : ∃ scan', next (scan cenv name)
      ⟨count, {}, 0, none⟩ s = (.error e, scan', s') := by
    rw [CrossPartitionScan.next, dif_neg (UInt32.not_le.2 hpos)]
    simp only [hscan]
    exact ⟨_, rfl⟩
  refine ⟨e, ?_⟩
  unfold drain
  split <;> rename_i heq <;> rw [hnext] at heq <;> cases heq
  rfl

theorem drain_served (hlen : (served s cenv name 0).length ≤ 2 ^ 19) :
    ((drain (scan cenv name) ⟨count, {}, 0, none⟩ s).1) = .ok (served s cenv name 0) := by
  have hserves : CrossPartitionScan.Serves (scan cenv name) {} count (served s cenv name)
      (fun part s' => (part = 0 → s' = s) ∧ cenv.Connects s'.client ∧
        ∀ a, (s'.nodes a).partitionCount = count) := by
    rintro part s' hpart ⟨hfirst, hconn, hcnt⟩
    have hempty (hp : part ≠ 0) : served s' cenv name part = [] := if_neg hp
    have hsized' : RemoteDMap.Sized (served s' cenv name part) := by
      by_cases hp : part = 0
      · rwa [hfirst hp, hp]
      · rw [hempty hp]
        exact nofun
    obtain ⟨s'', e, hscan, hseeds, hcnt'⟩ := scan_served hconn hcnt hpart hsized'
    refine ⟨s'', ?_, fun h => ?_, fun a ha => hconn a (hseeds ▸ ha), hcnt'⟩
    · rw [hscan]
      by_cases hp : part = 0
      · rw [hfirst hp, hp, if_pos hlen]
      · simp only [served, if_neg hp, length_nil, Nat.zero_le, if_true]
    · have := congrArg UInt32.toNat h
      rw [toNat_next (UInt32.not_le.2 hpart)] at this
      exact absurd this (Nat.succ_ne_zero _)
  obtain ⟨s', hdrain⟩ := @CrossPartitionScan.drain_rest _ _ _ _ _ ⟨count, {}, 0, none⟩ s hserves
    ⟨fun _ => rfl, hconnect, hcount⟩
  have hothers : ∀ part ≠ 0, served s cenv name part = [] :=
    fun part hp => if_neg hp
  rw [hdrain, rest_new {} hothers h0]

end Drain

end Cluster

def RoutingTable.owners (t : RoutingTable) (part : UInt32) : List SocketAddr :=
  ((t.primaryFor part).toList ++ t.backupsFor part).map (·.addr)

/-- The nodes store the DMap's content as the table places it: on the primary and the backups of
each key's partition. All clocks agree on what has expired at `now`. -/
structure Placed {P : Type} (env : Env) (t : RoutingTable) (count : UInt32) (name : String)
    (now : Int64) (content : Fragment) (cenv : ClientEnv) (nodes : SocketAddr → Resp.World P) :
    Prop where
  partitions : ∀ a, (nodes a).partitionCount = count
  hashed : ∀ h e, content.lookup h = some e → env.hash64 e.key = h
  utf8 : ∀ h e, content.lookup h = some e → (fromUtf8 e.key).isSome
  stored : ∀ a h, (nodes a).node.slot (asBytes name) h = (content.lookup h).filter fun e =>
    a ∈ t.owners (partitionFor env (asBytes name) e.key count)
  sized : ∀ h e, content.lookup h = some e → RemoteDMap.Sized [(e.key, e.value)]
  steady : ∀ h e, content.lookup h = some e → ∀ part,
    e.isExpired (microsToNanosI64 ((cenv.readings part).clk 0)) = e.isExpired now

def LiveKey (content : Fragment) (now : Int64) (key : Bytes) : Prop :=
  ∃ h e, content.lookup h = some e ∧ e.key = key ∧ e.isExpired now = false

section Placed

variable {P : Type} {env : Env} {t : RoutingTable} {count : UInt32} {name : String} {now : Int64}
  {content : Fragment} {cenv : ClientEnv} {s : ClientSide P}

theorem Placed.mem_served (h : Placed env t count name now content cenv s.nodes) {key : Bytes} :
    key ∈ (served s cenv name 0).map Prod.fst ↔ LiveKey content now key ∧
      s.client.seed ∈ t.owners (partitionFor env (asBytes name) key count) := by
  rw [served, if_pos rfl, mem_map]
  constructor
  · rintro ⟨item, hitem, rfl⟩
    obtain ⟨hkey, e, hlook, hlive, -, rfl⟩ := DMap.mem_liveItems.1 hitem
    rw [← Node.slot_eq, h.stored, Option.filter_eq_some_iff] at hlook
    obtain ⟨hcontent, howner⟩ := hlook
    rw [h.steady hkey e hcontent] at hlive
    exact ⟨⟨hkey, e, hcontent, rfl, hlive⟩, of_decide_eq_true howner⟩
  rintro ⟨⟨hkey, e, hcontent, rfl, hlive⟩, howner⟩
  refine ⟨(e.key, e.value),
    DMap.mem_liveItems.2 ⟨hkey, e, ?_, ?_, h.utf8 hkey e hcontent, rfl⟩, rfl⟩
  · rw [← Node.slot_eq, h.stored, hcontent, Option.filter_eq_some_iff]
    exact ⟨rfl, decide_eq_true howner⟩
  · rw [h.steady hkey e hcontent]
    exact hlive

theorem Placed.nodup_served (h : Placed env t count name now content cenv s.nodes) :
    ((served s cenv name 0).map Prod.fst).Nodup := by
  rw [served, if_pos rfl]
  refine DMap.nodup_liveItems env fun hkey e hlook => ?_
  rw [← Node.slot_eq, h.stored, Option.filter_eq_some_iff] at hlook
  exact h.hashed hkey e hlook.1

theorem Placed.sized_served (h : Placed env t count name now content cenv s.nodes)
    (part : UInt32) : RemoteDMap.Sized (served s cenv name part) := by
  intro item hitem
  unfold served at hitem
  split_ifs at hitem
  · obtain ⟨hkey, e, hlook, -, -, rfl⟩ := DMap.mem_liveItems.1 hitem
    rw [← Node.slot_eq, h.stored, Option.filter_eq_some_iff] at hlook
    exact h.sized hkey e hlook.1 _ mem_cons_self
  · cases hitem

/-- The scan over all partitions yields every live key once, and the scan of each partition keys of
that partition only, exactly if every live key is of partition 0, the node that is asked first is
an owner of it, and that node's live entries fit in one array of the client's codec. -/
theorem scan_complete_iff (env : Env) (t : RoutingTable) (count : UInt32) (name : String)
    (now : Int64) (content : Fragment) (cenv : ClientEnv) (s : ClientSide P) (h0 : count ≠ 0)
    (hconnect : cenv.Connects s.client)
    (hplaced : Placed env t count name now content cenv s.nodes) :
    (∃ items, (drain (scan cenv name) ⟨count, {}, 0, none⟩ s).1 = .ok items ∧
        (items.map Prod.fst).Nodup ∧
        ∀ key, key ∈ items.map Prod.fst ↔ LiveKey content now key) ∧
      (∀ next part items, part < count →
        (scan cenv name part {} { s with client.next := next }).1 = .ok items →
        ∀ key ∈ items.map Prod.fst, partitionFor env (asBytes name) key count = part) ↔
    (∀ key, LiveKey content now key →
      partitionFor env (asBytes name) key count = 0 ∧ s.client.seed ∈ t.owners 0) ∧
      (served s cenv name 0).length ≤ 2 ^ 19 := by
  have hpos : (0 : UInt32) < count := UInt32.pos_iff_ne_zero.2 h0
  have hsized := hplaced.sized_served 0
  have hturn (next : UInt64) : Placed env t count name now content cenv
      { s with client.next := next }.nodes := hplaced
  have hscan (next : UInt64) {part : UInt32} (hpart : part < count) :
      ∃ e, (scan cenv name part {} { s with client.next := next }).1
        = if (served { s with client.next := next } cenv name part).length ≤ 2 ^ 19 then
          .ok (served { s with client.next := next } cenv name part) else .error e := by
    obtain ⟨s', e, hs', -⟩ := @scan_served _ cenv { s with client.next := next } _ _ name hconnect
      hplaced.partitions hpart ((hturn next).sized_served part)
    exact ⟨e, by rw [hs']⟩
  constructor
  · rintro ⟨⟨items, hdrain, -, hcomplete⟩, hconfined⟩
    have hlen : (served s cenv name 0).length ≤ 2 ^ 19 := by
      by_contra hlen
      obtain ⟨e, he⟩ := drain_error hconnect hplaced.partitions h0 hsized hlen
      cases he.symm.trans hdrain
    refine ⟨fun key hlive => ?_, hlen⟩
    rw [drain_served hconnect hplaced.partitions h0 hsized hlen] at hdrain
    cases hdrain
    have hmem := (hcomplete key).2 hlive
    obtain ⟨e, hfirst⟩ := hscan s.client.next hpos
    have hzero := hconfined s.client.next 0 _ hpos (hfirst.trans (if_pos hlen)) key hmem
    have howner := (hplaced.mem_served.1 hmem).2
    rw [hzero] at howner
    exact ⟨hzero, howner⟩
  rintro ⟨hcond, hlen⟩
  refine ⟨⟨_, drain_served hconnect hplaced.partitions h0 hsized hlen,
    hplaced.nodup_served, fun key => ?_⟩, fun next part items hpart hitems key hkey => ?_⟩
  · rw [hplaced.mem_served, and_iff_left_iff_imp]
    intro hlive
    obtain ⟨hzero, howner⟩ := hcond key hlive
    rwa [hzero]
  obtain ⟨e, he⟩ := hscan next hpart
  rw [he] at hitems
  split_ifs at hitems
  cases hitems
  by_cases hp : part = 0
  · rw [hp] at hkey ⊢
    exact (hcond key ((hturn next).mem_served.1 hkey).1).1
  · rw [served, if_neg hp] at hkey
    exact absurd hkey List.not_mem_nil

def oneKey : Fragment := (∅ : Fragment).insert 107 ⟨[107], 0, 1, 0, [1]⟩

theorem lookup_oneKey {h : UInt64} {e : Entry} (he : oneKey.lookup h = some e) :
    h = 107 ∧ e = ⟨[107], 0, 1, 0, [1]⟩ := by
  by_cases hh : h = 107
  · rw [hh, oneKey, AList.lookup_insert] at he
    exact ⟨hh, (Option.some.inj he).symm⟩
  · rw [oneKey, AList.lookup_insert_ne hh] at he
    cases he

/-- A cluster where the node at `holder` has the key and the others nothing. -/
def holding (holder : SocketAddr) (count : UInt32) (a : SocketAddr) : Resp.World Unit :=
  { standalone with
    node :=
      if a = holder then ⟨(∅ : AList _).insert (asBytes "d") ⟨{}, oneKey, 0⟩, 0⟩ else .empty
    partitionCount := count }

/-- The table of a cluster where partition `i` has its primary at the `i`-th of the addresses. -/
def primaries (addrs : List SocketAddr) : RoutingTable where
  primary part := (addrs[part.toNat]?.map fun addr => ⟨part.toUInt64 + 1, addr⟩).toList
  backup _ := []

def quietClient : ClientEnv :=
  ⟨⟨fun _ => none, fun _ => ""⟩, fun _ => none, fun _ => ⟨fun _ => 0, 0⟩, fun _ => ""⟩

theorem holding_placed {holder : SocketAddr} {count : UInt32} {addrs : List SocketAddr}
    (howners : (primaries addrs).owners (partitionFor sumEnv (asBytes "d") [107] count)
      = [holder]) :
    Placed sumEnv (primaries addrs) count "d" 0 oneKey quietClient (holding holder count) where
  partitions _ := rfl
  hashed h e he := by
    obtain ⟨rfl, rfl⟩ := lookup_oneKey he
    rfl
  utf8 h e he := by
    obtain ⟨rfl, rfl⟩ := lookup_oneKey he
    exact Option.isSome_of_eq_some (fromUtf8_asBytes "k")
  stored a h := by
    have hslot : (holding holder count a).node.slot (asBytes "d") h
        = if a = holder then oneKey.lookup h else none := by
      simp only [holding]
      split_ifs
      · rw [Node.slot, AList.lookup_insert]
        rfl
      · rfl
    rw [hslot]
    rcases he : oneKey.lookup h with _ | e
    · simp
    · obtain ⟨rfl, rfl⟩ := lookup_oneKey he
      simp [howners, Option.filter]
  sized h e he := by
    obtain ⟨rfl, rfl⟩ := lookup_oneKey he
    rintro _ (_ | ⟨_, ⟨⟩⟩)
    decide
  steady h e he part := by
    obtain ⟨rfl, rfl⟩ := lookup_oneKey he
    simp [Entry.isExpired, noTtl]

theorem scan_complete_single : ∃ items, (drain (scan quietClient "d") ⟨1, {}, 0, none⟩
      ⟨⟨["a"], 0, [], by decide⟩, holding "a" 1⟩).1 = .ok items ∧
    (items.map Prod.fst).Nodup ∧ ∀ key, key ∈ items.map Prod.fst ↔ LiveKey oneKey 0 key := by
  refine ((scan_complete_iff sumEnv (primaries ["a"]) 1 "d" 0 oneKey quietClient
    ⟨⟨["a"], 0, [], by decide⟩, holding "a" 1⟩ (by decide) (fun _ _ => rfl)
    (holding_placed (by decide))).2 ⟨?_, by decide +kernel⟩).1
  rintro key ⟨h, e, he, rfl, -⟩
  obtain ⟨rfl, rfl⟩ := lookup_oneKey he
  decide

/-- Two nodes, each the primary of one of two partitions. The key is of partition 1, at `b`; the
scan of partition 0 goes to `a` and that of partition 1 to `b`, and neither yields it. -/
theorem scan_misses_key :
    Placed sumEnv (primaries ["a", "b"]) 2 "d" 0 oneKey quietClient (holding "b" 2) ∧
      LiveKey oneKey 0 [107] ∧
      (drain (scan quietClient "d") ⟨2, {}, 0, none⟩
        ⟨⟨["a", "b"], 0, [], by decide⟩, holding "b" 2⟩).1 = .ok [] := by
  refine ⟨holding_placed (by decide), ⟨107, _, AList.lookup_insert _, rfl, rfl⟩, ?_⟩
  have hsized : RemoteDMap.Sized [] := by simp [RemoteDMap.Sized]
  exact drain_served (fun _ _ => rfl) (fun _ => rfl) (by decide) hsized (Nat.zero_le _)

end Placed

end Kamino
