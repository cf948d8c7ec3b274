import Kamino.Proofs.Server

/-!
# A primary and its backup

The primary overwrites its slot with every put it accepts; the backup merges the replicated copy by
its stamp.
-/

namespace Kamino

open List Option Node

/-- The put sets no expiry. -/
def PutOptions.NoTtl (o : PutOptions) : Prop :=
  o.ex = none ∧ o.px = none ∧ o.exat = none ∧ o.pxat = none

instance (o : PutOptions) : Decidable o.NoTtl := inferInstanceAs (Decidable (_ ∧ _))

/-- Nothing on the node expires or is evicted. -/
structure Node.Quiet (n : Node) : Prop where
  noLru : n.NoLru
  ttl : ∀ name, (n.options name).ttl = none
  entries : ∀ dmap hkey, ∀ e ∈ n.slot dmap hkey, e.ttlNanos = noTtl

theorem Node.quiet_empty : empty.Quiet where
  noLru name := by simp [options, dmapAt, empty, DMap.new]
  ttl name := by simp [options, dmapAt, empty, DMap.new]
  entries dmap hkey e he := by simp [slot, empty] at he

theorem Node.Quiet.of_sameBut {n n' : Node} {dmap : Bytes} {hkey : UInt64} (hq : n.Quiet)
    (hsame : n.SameBut n' dmap hkey) (hslot : ∀ e ∈ n'.slot dmap hkey, e.ttlNanos = noTtl) :
    n'.Quiet where
  noLru := hsame.noLru hq.noLru
  ttl name := hsame.options name ▸ hq.ttl name
  entries dmap' hkey' e he := by
    by_cases hs : (dmap', hkey') = (dmap, hkey)
    · cases hs
      exact hslot e he
    · exact hq.entries dmap' hkey' e (hsame.slots _ _ hs ▸ he)

/-! ## In order -/

/-- A client's `DM.PUT`, with the readings it makes on the primary and its copy on the backup. -/
structure ClientPut where
  dmap : Bytes
  key : Bytes
  value : Bytes
  options : PutOptions
  readings : Readings
  backupClk : ℕ → UInt64

structure Pair where
  primary : Node
  backup : Node

namespace Pair

variable (env : Env)

def commit (s : Pair) (p : ClientPut) : Except Frame PutOptions × Node :=
  s.primary.commitPut env p.readings p.dmap p.key p.value p.options

/-- The primary takes a put and the backup gets its copy, if there is one. -/
def put (s : Pair) (p : ClientPut) : Pair :=
  match s.commit env p with
  | (.error _, primary) => { s with primary }
  | (.ok o, primary) =>
    ⟨primary, (s.backup.peerDispatch env p.backupClk (.dmPut p.dmap p.key p.value o)).2⟩

def accepts (s : Pair) (p : ClientPut) : Bool :=
  match (s.commit env p).1 with
  | .ok _ => true
  | .error _ => false

/-- The last put the primary accepts for a slot, and the state it accepts it in. -/
def lastAccepted (dmap : Bytes) (hkey : UInt64) : Pair → List ClientPut → Option (Pair × ClientPut)
  | _, [] => none
  | s, p :: ps =>
    (lastAccepted dmap hkey (s.put env p) ps).or
      (if p.dmap = dmap ∧ env.hash64 p.key = hkey ∧ s.accepts env p then some (s, p) else none)

/-- The put is newer than what the backup holds in its slot, or is the same write again. A put
without a stamp of its own gets the source's next one, which is newer unless the source has come to
its end. -/
def Newer (s : Pair) (p : ClientPut) : Prop :=
  ∀ e ∈ s.backup.slot p.dmap (env.hash64 p.key),
    match p.options.timestamp with
    | some ts => e.timestampNanos < ts ∨ (e.timestampNanos = ts ∧ e.value = p.value)
    | none => e.timestampNanos < Int64.maxValue ∨ e.value = p.value

/-- The backup's slot is at most as new as the primary's source. -/
structure Inv (dmap : Bytes) (hkey : UInt64) (s : Pair) : Prop where
  primary : s.primary.Quiet
  backup : s.backup.NoLru
  behind : ∀ x ∈ s.backup.reg dmap hkey, x.1 ≤ s.primary.lastTs

variable {env} {s : Pair} {p : ClientPut} {dmap : Bytes} {hkey : UInt64}

theorem resolveTtlNanos_noTtl {o : PutOptions} (hv : o.validate = .ok ()) (ho : o.NoTtl)
    (now : UInt64) : o.resolveTtlNanos now none = .ok noTtl := by
  obtain ⟨h1, h2, h3, h4⟩ := ho
  simp [PutOptions.resolveTtlNanos, hv, h1, h2, h3, h4, noTtl]

theorem quiet_commit (env : Env) (hq : s.primary.Quiet) (ho : p.options.NoTtl) :
    (s.commit env p).2.Quiet := by
  rcases hc : s.commit env p with ⟨_ | o, n⟩
  · obtain ⟨hsame, hslot, -⟩ := commitPut_error hc fun e he =>
      Entry.isExpired_of_noTtl (hq.entries _ _ e he) _
    exact hq.of_sameBut hsame (hslot ▸ hq.entries _ _)
  obtain ⟨rfl, hm, hsame, -, e, hslot, -, httl⟩ := commitPut_ok hc hq.noLru
  rw [hq.ttl, resolveTtlNanos_noTtl hm.valid ho, Except.ok.injEq] at httl
  refine hq.of_sameBut hsame fun e' he' => ?_
  rw [hslot, mem_some_iff] at he'
  exact he' ▸ httl.symm

theorem accepts_iff : s.accepts env p ↔ ∃ o n, s.commit env p = (.ok o, n) := by
  unfold accepts
  rcases s.commit env p with ⟨_ | o, n⟩ <;> simp

theorem put_refused {f : Frame} {n : Node} (hc : s.commit env p = (.error f, n)) :
    s.put env p = ⟨n, s.backup⟩ := by
  rw [put, hc]

theorem put_accepted {o : PutOptions} {n : Node} (hc : s.commit env p = (.ok o, n))
    (hp : s.primary.NoLru) (hb : s.backup.NoLru) :
    (s.put env p).primary = n ∧ n.lastTs =
        max s.primary.lastTs (s.primary.stamp p.options p.readings.wall).1 ∧
      s.primary.SameBut n p.dmap (env.hash64 p.key) ∧
      s.backup.SameBut (s.put env p).backup p.dmap (env.hash64 p.key) ∧
      n.reg p.dmap (env.hash64 p.key) =
        some ((s.primary.stamp p.options p.readings.wall).1, p.value) ∧
      (s.put env p).backup.reg p.dmap (env.hash64 p.key) =
        Lww.merge (s.backup.reg p.dmap (env.hash64 p.key))
          (s.primary.stamp p.options p.readings.wall).1 p.value := by
  obtain ⟨-, hm, hsame, hlast, e, hslot, hst, -⟩ := commitPut_ok hc hp
  obtain ⟨b, hpeer, hsameb, hmerge⟩ := dmPutPeer_spec env hm hb p.backupClk
  have hput : s.put env p = ⟨n, b⟩ := by
    rw [put, hc]
    dsimp only [peerDispatch]
    rw [hpeer]
  rw [hput]
  refine ⟨rfl, hlast, hsame, hsameb, ?_, hmerge⟩
  rw [reg, hslot, map_some, hst]

theorem put_other (i : s.Inv dmap hkey)
    (h : ¬(p.dmap = dmap ∧ env.hash64 p.key = hkey ∧ s.accepts env p)) :
    (s.put env p).primary.reg dmap hkey = s.primary.reg dmap hkey ∧
      (s.put env p).backup.reg dmap hkey = s.backup.reg dmap hkey := by
  rcases hc : s.commit env p with ⟨f | o, n⟩
  · obtain ⟨hsame, hslot, -⟩ := commitPut_error hc fun e he =>
      Entry.isExpired_of_noTtl (i.primary.entries _ _ e he) _
    rw [put_refused hc]
    refine ⟨?_, rfl⟩
    by_cases hs : (dmap, hkey) = (p.dmap, env.hash64 p.key)
    · cases hs
      rw [reg, hslot, reg]
    · exact hsame.reg hs
  · obtain ⟨hprim, -, hsame, hsameb, -⟩ := put_accepted hc i.primary.noLru i.backup
    have hs : (dmap, hkey) ≠ (p.dmap, env.hash64 p.key) := by
      intro heq
      cases heq
      exact h ⟨rfl, rfl, accepts_iff.2 ⟨o, n, hc⟩⟩
    exact ⟨hprim ▸ hsame.reg hs, hsameb.reg hs⟩

theorem Inv.put (i : s.Inv dmap hkey) (ho : p.options.NoTtl) : (s.put env p).Inv dmap hkey := by
  have hquiet := quiet_commit env i.primary ho
  rcases hc : s.commit env p with ⟨f | o, n⟩ <;> rw [hc] at hquiet
  · obtain ⟨-, -, hlast⟩ := commitPut_error hc fun e he =>
      Entry.isExpired_of_noTtl (i.primary.entries _ _ e he) _
    rw [put_refused hc]
    exact ⟨hquiet, i.backup, fun x hx => le_trans (i.behind x hx) hlast⟩
  obtain ⟨hprim, hlast, -, hsameb, -, hmerge⟩ := put_accepted hc i.primary.noLru i.backup
  refine ⟨hprim ▸ hquiet, hsameb.noLru i.backup, fun x hx => ?_⟩
  rw [hprim, hlast]
  by_cases hs : (dmap, hkey) = (p.dmap, env.hash64 p.key)
  · cases hs
    rw [hmerge] at hx
    rcases (Lww.le_of_merge hx).2.1 with rfl | hold
    · exact le_max_right _ _
    · exact le_max_of_le_left (i.behind x hold)
  · exact le_max_of_le_left (i.behind x (hsameb.reg hs ▸ hx))

theorem newer_iff (i : s.Inv p.dmap (env.hash64 p.key)) :
    s.Newer env p ↔ ∀ x ∈ s.backup.reg p.dmap (env.hash64 p.key),
      x.1 < (s.primary.stamp p.options p.readings.wall).1 ∨
        x = ((s.primary.stamp p.options p.readings.wall).1, p.value) := by
  have hb := i.behind
  unfold Newer
  unfold reg at hb ⊢
  generalize s.backup.slot p.dmap (env.hash64 p.key) = slot at hb ⊢
  rcases slot with _ | e
  · simp
  simp only [map_some, mem_some_iff, forall_eq', Entry.stamped, Prod.mk.injEq] at hb ⊢
  rcases ht : p.options.timestamp with _ | ts
  · have hstamp : (s.primary.stamp p.options p.readings.wall).1 =
        nextLwwTimestamp s.primary.lastTs (i64OrMax p.readings.wall) := by
      rw [stamp, ht]
    rw [hstamp]
    rcases lt_or_eq_of_le (Int64.le_maxValue e.timestampNanos) with hlt | heq
    · simp [hlt, lt_nextLwwTimestamp hb hlt]
    · have hlast : s.primary.lastTs = Int64.maxValue :=
        le_antisymm (Int64.le_maxValue _) (heq ▸ hb)
      simp [heq, hlast, nextLwwTimestamp_maxValue]
  · rw [stamp, ht]

theorem agree_iff {key : Bytes} : ∀ {ps : List ClientPut} {s : Pair},
    s.Inv dmap (env.hash64 key) → (∀ p ∈ ps, p.options.NoTtl) →
    ((ps.foldl (put env) s).backup.reg dmap (env.hash64 key) =
        (ps.foldl (put env) s).primary.reg dmap (env.hash64 key) ↔
      match s.lastAccepted env dmap (env.hash64 key) ps with
      | some q => q.1.Newer env q.2
      | none => s.backup.reg dmap (env.hash64 key) = s.primary.reg dmap (env.hash64 key))
  | [], _, _, _ => Iff.rfl
  | p :: ps, s, i, hps => by
    rw [foldl_cons, agree_iff (i.put (hps p mem_cons_self))
      fun q hq => hps q (mem_cons_of_mem _ hq), lastAccepted]
    rcases (s.put env p).lastAccepted env dmap (env.hash64 key) ps with _ | q
    · -- No later put counts, so `p` decides if it is accepted for the slot.
      split_ifs with hacc
      · obtain ⟨rfl, hk, ha⟩ := hacc
        obtain ⟨o, n, hc⟩ := accepts_iff.1 ha
        obtain ⟨hprim, -, -, -, hreg, hmerge⟩ := put_accepted hc i.primary.noLru i.backup
        rw [hk] at hreg hmerge
        rw [← hk] at i
        simp only [none_or]
        rw [newer_iff i, hk, hprim, hreg, hmerge, Lww.merge_eq_new_iff]
      · obtain ⟨hprim, hback⟩ := put_other i hacc
        simp only [none_or]
        rw [hprim, hback]
    · simp

/-- The backup agrees with the primary on a slot if and only if the last put accepted for the slot
was newer than what the backup held. -/
theorem backup_agrees (env : Env) (dmap key : Bytes) (s : Pair) (hq : s.primary.Quiet)
    (hb : s.backup.NoLru) (hp₀ : s.primary.slot dmap (env.hash64 key) = none)
    (hb₀ : s.backup.slot dmap (env.hash64 key) = none) (ps : List ClientPut)
    (hps : ∀ p ∈ ps, p.options.NoTtl) :
    (ps.foldl (put env) s).backup.reg dmap (env.hash64 key) =
        (ps.foldl (put env) s).primary.reg dmap (env.hash64 key) ↔
      ∀ q ∈ s.lastAccepted env dmap (env.hash64 key) ps, q.1.Newer env q.2 := by
  have hinv : s.Inv dmap (env.hash64 key) := ⟨hq, hb, by simp [reg, hb₀]⟩
  rw [agree_iff hinv hps]
  rcases s.lastAccepted env dmap (env.hash64 key) ps with _ | q
  · simp [reg, hp₀, hb₀]
  · simp

def samplePut (value : Bytes) (ts : Option Int64) : ClientPut where
  dmap := [100]
  key := [107]
  value := value
  options := { timestamp := ts }
  readings := ⟨fun _ => 0, 0⟩
  backupClk := fun _ => 0

theorem backup_agrees_newer :
    let r := [samplePut [1] (some 5), samplePut [2] none].foldl (put sumEnv) ⟨.empty, .empty⟩
    r.backup.reg [100] (sumEnv.hash64 [107]) = r.primary.reg [100] (sumEnv.hash64 [107]) :=
  (backup_agrees sumEnv [100] [107] ⟨.empty, .empty⟩ quiet_empty quiet_empty.noLru rfl rfl
    _ (by decide)).2 fun q hq => by
      cases hq
      intro e he
      cases he
      exact .inl (by decide)

/-- The client's second put is stamped before its first. -/
theorem backup_keeps_first :
    let s := [samplePut [1] (some 9), samplePut [2] (some 5)].foldl (put sumEnv) ⟨.empty, .empty⟩
    s.primary.reg [100] (sumEnv.hash64 [107]) = some (5, [2]) ∧
      s.backup.reg [100] (sumEnv.hash64 [107]) = some (9, [1]) :=
  ⟨rfl, rfl⟩

end Pair

/-! ## Out of order -/

inductive ClientOp where
  | put (value : Bytes) (options : PutOptions) (readings : Readings)
  | del

/-- A replicated command on a key, as a message to the key's register. No primary replicates a put
without a stamp. -/
def Command.msg : Command → Lww.Msg Int64 Bytes
  | .dmPut _ _ value o => o.timestamp.elim .clear fun ts => .write ts value
  | .dmDel .. => .clear

def Command.stamp : Command → Option Int64
  | .dmPut _ _ _ o => o.timestamp
  | .dmDel .. => none

namespace Node

variable (env : Env) (dmap key : Bytes)

/-- The primary runs an operation: its node, and the message it replicates if the operation is
carried out. -/
def emit (n : Node) : ClientOp → Node × Option Command
  | .put value o rd =>
    match n.commitPut env rd dmap key value o with
    | (.ok o, n) => (n, some (.dmPut dmap key value o))
    | (.error _, n) => (n, none)
  | .del =>
    match n.dmDelLocalCount env dmap [key] with
    | (.ok _, n) => (n, some (.dmDel dmap [key]))
    | (.error _, n) => (n, none)

/-- The primary's node and the messages it emitted, after a list of operations. -/
def emitAll (n : Node) (ops : List ClientOp) : Node × List Command :=
  ops.foldl (fun s op =>
    let (n, m) := s.1.emit env dmap key op
    (n, s.2 ++ m.toList)) (n, [])

/-- The backup takes each message it is delivered, with the readings it makes for it. -/
def deliver (n : Node) (ds : List (Command × (ℕ → UInt64))) : Node :=
  ds.foldl (fun n d => (n.peerDispatch env d.2 d.1).2) n

inductive Emitted : Command → Prop
  | put {value : Bytes} {o : PutOptions} {ts : Int64}
      (h : Deliverable dmap key value o ts) : Emitted (.dmPut dmap key value o)
  | del (hd : utf8Error dmap 0 = none) (hk : utf8Error key 0 = none) : Emitted (.dmDel dmap [key])

variable {env dmap key} {n n' : Node} {m : Command}

theorem del_spec (env : Env) (n : Node) (hd : utf8Error dmap 0 = none)
    (hk : utf8Error key 0 = none) :
    ∃ k n', n.dmDelLocalCount env dmap [key] = (.ok k, n') ∧
      n.SameBut n' dmap (env.hash64 key) ∧ n'.reg dmap (env.hash64 key) = none := by
  obtain ⟨k, n', hrun, hopt, hgone, hkept⟩ :=
    dmDelLocalCount_of_utf8 env n hd (show ∀ k ∈ [key], _ by simpa using hk)
  refine ⟨k, n', hrun, ⟨hopt, fun dmap' hkey hne => hkept dmap' hkey ?_⟩, ?_⟩
  · simp only [mem_singleton, forall_eq]
    exact fun hd hh => hne (by rw [hd, hh])
  · rw [reg, hgone key (by simp), map_none]

theorem reg_peerDispatch (env : Env) (hm : Emitted dmap key m) (hl : n.NoLru) (clk : ℕ → UInt64) :
    (n.peerDispatch env clk m).2.NoLru ∧ (n.peerDispatch env clk m).2.reg dmap (env.hash64 key) =
      Lww.apply (n.reg dmap (env.hash64 key)) m.msg := by
  cases hm with
  | @put value o ts h =>
    obtain ⟨n', hrun, hsame, hreg⟩ := dmPutPeer_spec env h hl clk
    rw [peerDispatch, hrun, Command.msg, h.stamped]
    exact ⟨hsame.noLru hl, hreg⟩
  | del hd hk =>
    obtain ⟨k, n', hrun, hsame, hreg⟩ := del_spec env n hd hk
    have hdel : n.peerDispatch env clk (.dmDel dmap [key]) = (.integer k, n') := by
      simp [peerDispatch, dmDelLocal, hrun]
    rw [hdel]
    exact ⟨hsame.noLru hl, hreg⟩

theorem reg_deliver : ∀ {ds : List (Command × (ℕ → UInt64))} {n : Node},
    n.NoLru → (∀ d ∈ ds, Emitted dmap key d.1) →
    (n.deliver env ds).reg dmap (env.hash64 key) =
      Lww.replay (n.reg dmap (env.hash64 key)) (ds.map fun d => d.1.msg)
  | [], _, _, _ => rfl
  | d :: ds, n, hl, hds => by
    obtain ⟨hl', hreg⟩ := reg_peerDispatch env (hds d mem_cons_self) hl d.2
    have hrest := reg_deliver hl' fun d' hd' => hds d' (mem_cons_of_mem _ hd')
    rw [hreg] at hrest
    exact hrest

theorem emit_some {op : ClientOp} (h : n.emit env dmap key op = (n', some m)) (hl : n.NoLru) :
    Emitted dmap key m ∧ n'.reg dmap (env.hash64 key) = m.msg.result := by
  unfold emit at h
  split at h
  · split at h <;> cases h
    rename_i hc
    obtain ⟨-, hm, -, -, e, hslot, hst, -⟩ := commitPut_ok hc hl
    refine ⟨.put hm, ?_⟩
    rw [Command.msg, hm.stamped, reg, hslot, map_some, hst]
    rfl
  split at h <;> cases h
  rename_i hc
  obtain ⟨hd, hk⟩ := utf8_of_dmDelLocalCount hc
  have hk := hk key (by simp)
  obtain ⟨k, n₁, hrun, -, hreg⟩ := del_spec env n hd hk
  rw [hrun] at hc
  cases hc
  exact ⟨.del hd hk, hreg⟩

theorem emit_noLru (hl : n.NoLru) (op : ClientOp) : (n.emit env dmap key op).1.NoLru := by
  intro name
  cases op with
  | put value o rd =>
    have h := commitPut_options env n rd dmap key value o name
    dsimp only [emit]
    split <;> rename_i hc <;> rw [hc] at h
    all_goals exact h ▸ hl name
  | del =>
    have h := dmDelLocalCount_options env n dmap [key] name
    dsimp only [emit]
    split <;> rename_i hc <;> rw [hc] at h
    all_goals exact h ▸ hl name

theorem emitAll_concat (n : Node) (ops : List ClientOp) (op : ClientOp) :
    n.emitAll env dmap key (ops ++ [op]) = (((n.emitAll env dmap key ops).1.emit env dmap key op).1,
        (n.emitAll env dmap key ops).2 ++
          ((n.emitAll env dmap key ops).1.emit env dmap key op).2.toList) := by
  simp [emitAll]

theorem emitAll_spec (env : Env) (dmap key : Bytes) (hl : n.NoLru) (ops : List ClientOp) :
    (n.emitAll env dmap key ops).1.NoLru ∧
      ∀ m ∈ (n.emitAll env dmap key ops).2, Emitted dmap key m := by
  induction ops using List.reverseRecOn with
  | nil => exact ⟨hl, by simp [emitAll]⟩
  | append_singleton ops op ih =>
    rw [emitAll_concat]
    refine ⟨emit_noLru ih.1 op, fun m hm => ?_⟩
    rcases mem_append.1 hm with hm | hm
    · exact ih.2 m hm
    · rw [mem_toList] at hm
      exact (emit_some (Prod.ext rfl hm) ih.1).1

theorem Emitted.stamp (hm : Emitted dmap key m) {t : Int64} {v : Bytes}
    (h : m.msg = .write t v) : m.stamp = some t := by
  cases hm with
  | put hm =>
    rw [Command.msg, hm.stamped] at h
    cases h
    exact hm.stamped
  | del hd hk => cases h

/-- Whatever messages of the primary's log come, in whatever order and number, the backup ends in
the primary's state for the key if and only if no delete follows the last operation's message when
that is a put, and nothing but deletes follows the last delete when it is a delete. -/
theorem backup_converges (env : Env) (dmap key : Bytes) (n b : Node) (hn : n.NoLru)
    (hb : b.NoLru) (hb₀ : b.slot dmap (env.hash64 key) = none) (ops : List ClientOp)
    (op : ClientOp) (m : Command)
    (hlast : ((n.emitAll env dmap key ops).1.emit env dmap key op).2 = some m)
    (hinc : ((n.emitAll env dmap key (ops ++ [op])).2.filterMap Command.stamp).Pairwise (· < ·))
    (ds : List (Command × (ℕ → UInt64)))
    (hds : ∀ d ∈ ds, d.1 ∈ (n.emitAll env dmap key (ops ++ [op])).2) :
    (b.deliver env ds).reg dmap (env.hash64 key) =
        (n.emitAll env dmap key (ops ++ [op])).1.reg dmap (env.hash64 key) ↔
      m.msg.Last (ds.map fun d => d.1.msg) := by
  obtain ⟨hl, hem⟩ := emitAll_spec env dmap key hn ops
  obtain ⟨hm, hreg⟩ := emit_some (Prod.ext rfl hlast) hl
  rw [emitAll_concat, hlast] at hinc hds ⊢
  have hall : ∀ d ∈ ds, Emitted dmap key d.1 := by
    intro d hd
    rcases mem_append.1 (hds d hd) with h | h
    · exact hem _ h
    · rw [mem_singleton.1 h]
      exact hm
  rw [reg_deliver hb hall, hreg, reg, hb₀]
  refine Lww.replay_eq_result_iff fun t v t' v' hmsg hmem => ?_
  obtain ⟨d, hd, hdm⟩ := mem_map.1 hmem
  rcases mem_append.1 (hds d hd) with h | h
  · left
    rw [filterMap_append, pairwise_append] at hinc
    exact hinc.2.2 t' (mem_filterMap.2 ⟨d.1, h, (hall d hd).stamp hdm⟩) t
      (mem_filterMap.2 ⟨m, by simp, hm.stamp hmsg⟩)
  · rw [mem_singleton.1 h, hmsg] at hdm
    cases hdm
    exact .inr ⟨rfl, rfl⟩

def sampleOp (value : Bytes) (ts : Int64) : ClientOp :=
  .put value { timestamp := some ts } ⟨fun _ => 0, 0⟩

def sampleCopy (value : Bytes) (ts : Int64) : Command × (ℕ → UInt64) :=
  (.dmPut [100] [107] value { timestamp := some ts }, fun _ => 0)

/-- The second put comes again after the delete and the first put that it overtook. -/
theorem backup_converges_repeated :
    (empty.deliver sumEnv [sampleCopy [2] 2, (.dmDel [100] [[107]], fun _ => 0), sampleCopy [1] 1,
        sampleCopy [2] 2]).reg [100] (sumEnv.hash64 [107]) =
      (empty.emitAll sumEnv [100] [107] ([sampleOp [1] 1, .del] ++ [sampleOp [2] 2])).1.reg [100]
        (sumEnv.hash64 [107]) :=
  (backup_converges sumEnv [100] [107] empty empty quiet_empty.noLru quiet_empty.noLru rfl
    [sampleOp [1] 1, .del] (sampleOp [2] 2) (sampleCopy [2] 2).1 rfl (by decide) _ (by decide)).2
    (show Lww.Msg.write 2 [2] ∈ Lww.sinceClear _ by decide)

/-- The delete overtakes the put before it, which then stays. -/
theorem put_survives_delete :
    let s := empty.emitAll sumEnv [100] [107] [sampleOp [1] 1, .del]
    s.1.reg [100] (sumEnv.hash64 [107]) = none ∧
      s.2 = [(sampleCopy [1] 1).1, .dmDel [100] [[107]]] ∧
      (empty.deliver sumEnv [(.dmDel [100] [[107]], fun _ => 0), sampleCopy [1] 1]).reg [100]
        (sumEnv.hash64 [107]) = some (1, [1]) :=
  ⟨rfl, rfl, rfl⟩

end Node

end Kamino
