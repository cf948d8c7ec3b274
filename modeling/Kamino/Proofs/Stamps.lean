import Kamino.Calls
import Kamino.Lib.Runs
import Kamino.Proofs.Server

/-!
# Stamps on one node

The server's `TimestampSource` stamps a client's `DM.PUT`, and a DMap's own counter the puts of
`incr` and `get_put`.
-/

namespace Kamino

open Runs

def NodeOp.observed : NodeOp → Bool
  | .put .. => true
  | _ => false

namespace Node

variable {env : Env} {n : Node} {dmap key : Bytes}

section Source

@[simp] theorem setDMap_lastTs (n : Node) (name : Bytes) (d : DMap) :
    (n.setDMap name d).lastTs = n.lastTs := rfl

theorem openKey_lastTs (n : Node) (dmap key : Bytes) :
    (n.openKey dmap key).2.lastTs = n.lastTs := by
  rcases hopen : n.openKey dmap key with ⟨f | d, n₁⟩
  · rcases (openKey_error hopen).1 with rfl | rfl
    · rfl
    · exact opened_lastTs n dmap
  · obtain ⟨-, -, -, rfl⟩ := openKey_ok hopen
    exact opened_lastTs n dmap

theorem onDMap_lastTs (n : Node) (dmap key : Bytes) (call : DMap → Frame × DMap) :
    (n.onDMap dmap key call).2.lastTs = n.lastTs := by
  have hopen := n.openKey_lastTs dmap key
  unfold onDMap
  split <;> rename_i h <;> rw [h] at hopen <;> exact hopen

theorem dmPutPeer_lastTs (n : Node) (clk : ℕ → UInt64) (dmap key value : Bytes)
    (o : PutOptions) : (n.dmPutPeer env clk dmap key value o).2.lastTs = n.lastTs := by
  have hopen := n.openKey_lastTs dmap key
  unfold dmPutPeer
  split <;> rename_i h <;> rw [h] at hopen
  · exact hopen
  · split <;> exact hopen

theorem dmDelLocal_lastTs (n : Node) (dmap : Bytes) (keys : List Bytes) :
    (n.dmDelLocal env dmap keys).2.lastTs = n.lastTs := by
  have hcount : (n.dmDelLocalCount env dmap keys).2.lastTs = n.lastTs := by
    unfold dmDelLocalCount dmapHandle
    rcases utf8Error dmap 0 with _ | e
    · simp only [getOrCreate_eq]
      rw [setDMap_opened, setDMap_lastTs]
    · rfl
  unfold dmDelLocal
  split <;> rename_i h <;> rw [h] at hcount <;> exact hcount

theorem importPartition_lastTs (env : Env) (n : Node) (dmap : Bytes) (part : UInt32)
    (payload : Bytes) : (n.importPartition env dmap part payload).2.lastTs = n.lastTs := by
  unfold importPartition
  split
  · rfl
  split_ifs
  · rfl
  · simp only [getOrCreate_eq]
    rw [setDMap_opened, setDMap_lastTs]

theorem receiveFragment_lastTs (n : Node) (routing : Option Routing) (part : UInt32)
    (type : PartitionType) (dmap payload : Bytes) :
    (n.receiveFragment env routing part type dmap payload).2.lastTs = n.lastTs := by
  have himp := n.importPartition_lastTs env dmap part payload
  unfold receiveFragment moveFragment
  split_ifs
  · rfl
  · rfl
  · rfl
  · rfl
  · split
    · rfl
    · split <;> rename_i h <;> rw [h] at himp <;> exact himp

theorem apply_lastTs (n : Node) {op : NodeOp} (h : op.observed = false) :
    (n.apply env op).lastTs = n.lastTs := by
  cases op with
  | put rd dmap key value o => simp [NodeOp.observed] at h
  | putPeer clk dmap key value o => exact dmPutPeer_lastTs n clk dmap key value o
  | incr guard clk dmap key delta | decr guard clk dmap key delta
  | getPut guard clk dmap key value | get clk dmap key => exact onDMap_lastTs n dmap key _
  | del dmap keys => exact dmDelLocal_lastTs n dmap keys
  | moveFragment routing part type dmap payload => exact receiveFragment_lastTs n _ _ _ _ _

theorem slot_setDMap (n : Node) (name : Bytes) (d : DMap) (dmap : Bytes)
    (hkey : UInt64) : (n.setDMap name d).slot dmap hkey =
      if dmap = name then d.fragment.lookup hkey else n.slot dmap hkey := by
  split_ifs with h
  · rw [h, slot_eq, dmapAt_setDMap_self]
  · rw [slot_eq, dmapAt_setDMap_ne h, slot_eq]

@[simp] theorem slot_opened (n : Node) (name dmap : Bytes) (hkey : UInt64) :
    (n.opened name).slot dmap hkey = n.slot dmap hkey := by
  rw [slot_eq, dmapAt_opened, slot_eq]

theorem commitPut_slot (env : Env) (n : Node) (rd : Readings) (dmap key value : Bytes)
    (o : PutOptions) :
    n.lastTs ≤ (n.commitPut env rd dmap key value o).2.lastTs ∧
      ∀ dmap' hkey e, (n.commitPut env rd dmap key value o).2.slot dmap' hkey = some e →
        n.slot dmap' hkey = some e ∨ e.key = key ∧
          e.timestampNanos ≤ (n.commitPut env rd dmap key value o).2.lastTs := by
  unfold commitPut
  split
  · rename_i hopen
    rcases (openKey_error hopen).1 with rfl | rfl
    · exact ⟨le_refl _, fun _ _ _ h => .inl h⟩
    · refine ⟨(opened_lastTs n dmap).ge, fun dmap' hkey e h => .inl ?_⟩
      rwa [slot_opened] at h
  rename_i d n₁ hopen
  obtain ⟨-, -, rfl, rfl⟩ := openKey_ok hopen
  dsimp only
  rw [stamp_snd, stamp_opened, opened_lastTs]
  have hput : ∀ dmap' hkey e,
      ({ n.opened dmap with lastTs := max n.lastTs (n.stamp o rd.wall).1 }.setDMap dmap
        ((n.dmapAt dmap).put env key value (n.stampedOptions o rd.wall) rd.clk).2).slot dmap' hkey
          = some e →
        n.slot dmap' hkey = some e ∨
          e.key = key ∧ e.timestampNanos ≤ max n.lastTs (n.stamp o rd.wall).1 := by
    intro dmap' hkey e h
    rw [slot_setDMap] at h
    split_ifs at h with hd
    · rcases DMap.lookup_of_put h with hold | ⟨-, hkey', -, hts⟩
      · rw [hd, slot_eq]
        exact .inl hold
      · rw [hts _ rfl]
        exact .inr ⟨hkey', le_max_right _ _⟩
    · exact .inl ((slot_opened n dmap dmap' hkey).symm.trans h)
  split <;> rename_i hres
  all_goals
    simp only [stampedOptions, hres] at hput
    exact ⟨le_max_left _ _, hput⟩

end Source

end Node

/-- A node and, for each slot, whether the stamp in it came past the source. -/
structure Tracked where
  node : Node
  bypassed : Bytes → UInt64 → Bool

namespace Tracked

variable {env : Env} {s s' : Tracked} {op : NodeOp}

/-- A slot whose stamp a request changes is the request's. -/
def track (env : Env) (s : Tracked) (op : NodeOp) : Option Tracked :=
  let n := s.node.apply env op
  some ⟨n, fun dmap hkey =>
    if (n.slot dmap hkey).map Entry.timestampNanos =
        (s.node.slot dmap hkey).map Entry.timestampNanos then
      s.bypassed dmap hkey
    else !op.observed⟩

/-- The source has seen every stamp that came through it. -/
def Covered (s : Tracked) : Prop :=
  ∀ dmap hkey e, s.node.slot dmap hkey = some e → s.bypassed dmap hkey = false →
    e.timestampNanos ≤ s.node.lastTs

/-- A node as its server starts it: its DMaps hold nothing yet. -/
def fresh (n : Node) : Tracked := ⟨n, fun _ _ => false⟩

theorem track_covered (h : s.Covered) (hs : track env s op = some s') : s'.Covered := by
  obtain rfl := Option.some.inj hs
  intro dmap hkey e he hb
  dsimp only at he hb ⊢
  split_ifs at hb with hsame
  · -- The stamp was there before, and the source never goes back.
    rw [he, Option.map_some] at hsame
    obtain ⟨e₀, he₀, hts⟩ := Option.map_eq_some_iff.1 hsame.symm
    rw [← hts]
    refine (h dmap hkey e₀ he₀ hb).trans ?_
    rcases hop : op.observed
    · exact (s.node.apply_lastTs hop).ge
    · cases op with
      | put rd dmap key value o => exact (s.node.commitPut_slot env rd dmap key value o).1
      | _ => simp [NodeOp.observed] at hop
  · cases op with
    | put rd dmap' key value o =>
      rcases (s.node.commitPut_slot env rd dmap' key value o).2 dmap hkey e he with
        hold | ⟨-, hle⟩
      · exact absurd (by rw [he, hold]) hsame
      · exact hle
    | _ => simp [NodeOp.observed] at hb

/-- A put stamped so replaces a copy of `old` wherever it meets one. -/
def Wins (stamp : Int64) (old : Entry) : Prop :=
  ∀ (f : Fragment) (hkey : UInt64) (copy new : Entry), f.lookup hkey = some copy →
    copy.timestampNanos = old.timestampNanos → new.timestampNanos = stamp → new.Encodable →
      ∃ f', f.putLww hkey new = .ok (true, f')

theorem wins_of_lt {stamp : Int64} {old : Entry} (h : old.timestampNanos < stamp) :
    Wins stamp old := by
  intro f hkey copy new hcopy hold hnew hfit
  refine ⟨f.insert hkey new, ?_⟩
  have hlt : ¬ new.timestampNanos ≤ copy.timestampNanos := by
    rw [hold, hnew]
    exact not_le_of_gt h
  unfold Fragment.putLww
  rw [hcopy]
  dsimp only
  rw [if_neg hlt, Fragment.put_of_fits hfit]
  rfl

/-- A plain `DM.PUT` that is stamped at all is stamped above the entry it finds, and so wins
against that entry on every replica. -/
def StampsAbove (env : Env) (s : Tracked) : NodeOp → Prop
  | .put rd dmap key _ o =>
    o.timestamp = none → utf8Error dmap 0 = none → utf8Error key 0 = none →
      ∀ old ∈ s.node.slot dmap (env.hash64 key),
        old.timestampNanos < (s.node.stamp o rd.wall).1 ∧ Wins (s.node.stamp o rd.wall).1 old
  | _ => True

/-- The stamps of a put's key are below the top of the range. -/
def BelowMax (env : Env) (s : Tracked) : NodeOp → Prop
  | .put _ dmap key _ _ =>
    ∀ old ∈ s.node.slot dmap (env.hash64 key), old.timestampNanos < Int64.maxValue
  | _ => True

/-- A plain `DM.PUT` over a stamp that came past the source finds it no further than the source or
behind the wall clock. -/
def KeepsPace (env : Env) (s : Tracked) : NodeOp → Prop
  | .put rd dmap key _ o =>
    o.timestamp = none → utf8Error dmap 0 = none → utf8Error key 0 = none →
      ∀ old ∈ s.node.slot dmap (env.hash64 key), s.bypassed dmap (env.hash64 key) = true →
        old.timestampNanos ≤ s.node.lastTs ∨ old.timestampNanos < i64OrMax rd.wall
  | _ => True

instance (env : Env) (s : Tracked) : DecidablePred (BelowMax env s)
  | .put .. => inferInstanceAs (Decidable (∀ old ∈ _, _))
  | .putPeer .. | .incr .. | .decr .. | .getPut .. | .get .. | .del .. | .moveFragment .. =>
    .isTrue trivial

instance (env : Env) (s : Tracked) : DecidablePred (KeepsPace env s)
  | .put .. => inferInstanceAs (Decidable (_ → _ → _ → ∀ old ∈ _, _))
  | .putPeer .. | .incr .. | .decr .. | .getPut .. | .get .. | .del .. | .moveFragment .. =>
    .isTrue trivial

theorem stampsAbove_iff (h : s.Covered) (hmax : BelowMax env s op) :
    StampsAbove env s op ↔ KeepsPace env s op := by
  cases op with
  | put rd dmap key value o =>
    refine forall_congr' fun hts => forall_congr' fun _ => forall_congr' fun _ =>
      forall₂_congr fun old hold => ?_
    have hstamp : (s.node.stamp o rd.wall).1 =
        nextLwwTimestamp s.node.lastTs (i64OrMax rd.wall) := by
      rw [Node.stamp, hts]
    rw [hstamp]
    constructor
    · rintro ⟨hlt, -⟩ -
      rcases lt_max_iff.1 hlt with hlast | hwall
      · exact .inl ((lt_satAdd_one_iff (hmax old hold)).1 hlast)
      · exact .inr hwall
    intro hpace
    have hlt : old.timestampNanos < nextLwwTimestamp s.node.lastTs (i64OrMax rd.wall) := by
      rcases hb : s.bypassed dmap (env.hash64 key) with _ | _
      · exact lt_nextLwwTimestamp (h dmap _ old hold hb) (hmax old hold) _
      · rcases hpace hb with hle | hwall
        · exact lt_nextLwwTimestamp hle (hmax old hold) _
        · exact lt_of_lt_of_le hwall (le_max_right _ _)
    exact ⟨hlt, wins_of_lt hlt⟩
  | _ => exact Iff.rfl

/-- On a node that starts without entries, the plain puts of a run are all stamped above what they
replace exactly when each of them, over a stamp that came past the source, finds that stamp no
further than the source or behind the wall clock. -/
theorem stampsAbove_of_keepsPace (env : Env) (n : Node) (hn : ∀ dmap hkey, n.slot dmap hkey = none)
    (ops : List NodeOp) (hmax : Guarded (track env) (BelowMax env) (fresh n) ops) :
    Guarded (track env) (StampsAbove env) (fresh n) ops ↔
      Guarded (track env) (KeepsPace env) (fresh n) ops := by
  have hfresh : (fresh n).Covered := by
    intro dmap hkey e he
    rw [show (fresh n).node.slot dmap hkey = none from hn dmap hkey] at he
    cases he
  exact Guarded.congr _ (fun _ _ _ h _ hs => track_covered h hs)
    (fun _ _ h hg => stampsAbove_iff h hg) hfresh hmax

/-- A peer's put stamped by a clock a second ahead, and then a client's plain put of the key. -/
def overtaken : List NodeOp :=
  [.putPeer (fun _ => 0) [100] [107] [1] { timestamp := some 1700000001000000000 },
   .put ⟨fun _ => 0, 1700000000000000000⟩ [100] [107] [2] {}]

/-- The client's put is stamped with the wall clock, a second below the stamp it replaces. -/
theorem overtaken_not_stampsAbove :
    Guarded (track sumEnv) (BelowMax sumEnv) (fresh .empty) overtaken ∧
      ¬ Guarded (track sumEnv) (StampsAbove sumEnv) (fresh .empty) overtaken := by
  refine ⟨by decide, fun h => ?_⟩
  have hput := (h.2 _ rfl).1 rfl rfl rfl ⟨[107], 0, 1700000001000000000, 0, [1]⟩ (by rfl)
  exact absurd hput.1 (by decide)

/-- A put after the wall clock has passed the peer's stamp, and one more when it reads less. -/
theorem stampsAbove_once_wall_passes : Guarded (track sumEnv) (StampsAbove sumEnv) (fresh .empty)
      [.putPeer (fun _ => 0) [100] [107] [1] { timestamp := some 100 },
       .incr true (fun _ => 0) [100] [110] 1,
       .put ⟨fun _ => 0, 101⟩ [100] [107] [2] {}, .put ⟨fun _ => 0, 5⟩ [100] [107] [3] {}] :=
  (stampsAbove_of_keepsPace sumEnv .empty (fun _ _ => rfl) _ (by decide)).2 (by decide)

end Tracked

end Kamino
