import Kamino.Proofs.Lines
import Kamino.Proofs.Server

/-!
# The texts in the replies of the store and the cluster

The embedded client's errors say what was wrong in words and numbers of their own, so the replies
made of them are on one line; only a scan's error quotes what came from elsewhere.
-/

namespace Kamino

open Resp Tasks Node Prod

abbrev Frame.OneLine (f : Frame) : Prop := OneLineReply (.ok f)

theorem Frame.OneLine.accepted {f : Frame} {f64 : F64Text} {version : ProtocolVersion}
    (h : f.OneLine) : Accepted f64 version f.wire := by
  cases f with
  | simpleString s => exact accepted_simpleString.2 h
  | error s => exact accepted_error.2 h
  | integer n => exact accepted_integer _
  | bulk b => exact accepted_bulk b

variable {b : Bytes}

theorem oneLine_utf8Error {i : ℕ} {e : String} (h : utf8Error b i = some e) : Resp.OneLine e := by
  have htext (n : ℕ) (len : Option ℕ) : Resp.OneLine (utf8Text n len) := by
    cases len <;> (unfold utf8Text; simp; decide)
  fun_induction utf8Error b i with
  | case1 => cases h
  | case2 _ _ _ _ ih | case4 _ _ _ _ _ _ _ ih | case8 _ _ _ _ _ _ _ _ _ _ ih
  | case14 _ _ _ _ _ _ _ _ _ _ _ _ _ ih => exact ih h
  | _ =>
    cases h
    exact htext _ _

/-! ### The client's errors -/

/-- An error of the client's is answered with a text on one line. -/
def SafeError (e : ClientError) : Prop := (mapClientError e).OneLine

def SafeCall {α : Type} (r : Except ClientError α) : Prop := ∀ e, r = .error e → SafeError e

section Calls

variable {α : Type} {env : Env} {d : DMap}

theorem SafeCall.ok (a : α) : SafeCall (.ok a) := fun _ h => absurd h (by simp)

theorem SafeCall.error {e : ClientError} (h : SafeError e) : SafeCall (.error e : Except _ α) :=
  fun _ he => Except.error.inj he ▸ h

theorem safe_invalidArgument {msg : String} (h : Resp.OneLine msg) :
    SafeError (.invalidArgument msg) :=
  .append (by decide) h

theorem validate_safe (o : PutOptions) : SafeCall o.validate := by
  unfold PutOptions.validate
  dsimp only
  split_ifs
  iterate 2 exact .error (safe_invalidArgument (by decide))
  exact .ok _

theorem resolveTtlNanos_safe (o : PutOptions) (now : UInt64) (ttl : Option ℕ) :
    SafeCall (o.resolveTtlNanos now ttl) := by
  unfold PutOptions.resolveTtlNanos
  split
  · rename_i e he
    exact .error (validate_safe o e he)
  · dsimp only
    split <;> exact .ok _

variable {e : StorageError}

theorem fragmentPut_safe {f : Fragment} {hkey : UInt64} {entry : Entry}
    (h : f.put hkey entry = .error e) : SafeError (.storage e) := by
  unfold Fragment.put Entry.encodeInto at h
  split at h
  · rename_i e' he
    split_ifs at he
    · cases he
      cases h
      exact (by decide : Resp.OneLine "ERR key too large")
    · cases he
      cases h
      exact (by decide : Resp.OneLine "ERR value too large")
  · cases h

theorem fragmentPutLww_safe {f : Fragment} {hkey : UInt64} {entry : Entry}
    (h : f.putLww hkey entry = .error e) : SafeError (.storage e) := by
  have hput (h : (f.put hkey entry).map (fun f => (true, f)) = .error e) :
      SafeError (.storage e) := by
    rcases hp : f.put hkey entry with e' | f' <;> rw [hp] at h <;> cases h
    exact fragmentPut_safe hp
  unfold Fragment.putLww at h
  split at h
  · split_ifs at h
    · exact hput h
  · exact hput h

theorem put_safe (key value : Bytes) (o : PutOptions) (clk : ℕ → UInt64) :
    SafeCall (d.put env key value o clk).1 := by
  unfold DMap.put
  split
  · rename_i e he
    exact .error (validate_safe o e he)
  dsimp only
  split_ifs
  · exact .error trivial
  · exact .error trivial
  split
  · rename_i e ts he
    unfold putEntry at he
    split at he <;> cases he
    rename_i e' he'
    exact .error (resolveTtlNanos_safe _ _ _ e he')
  · split
    · rename_i e he
      exact .error (fragmentPut_safe he)
    · exact .ok _

theorem putLww_safe (key value : Bytes) (o : PutOptions) (clk : ℕ → UInt64) :
    SafeCall (d.putLww env key value o clk).1 := by
  unfold DMap.putLww
  split
  · rename_i e he
    exact .error (validate_safe o e he)
  split
  · exact .error (safe_invalidArgument (by decide))
  dsimp only
  split
  · rename_i e he
    exact .error (resolveTtlNanos_safe _ _ _ e he)
  split
  · rename_i e he
    exact .error (fragmentPutLww_safe he)
  · exact .ok _
  · exact .ok _

theorem get_safe (key : Bytes) (clk : ℕ → UInt64) : SafeCall (d.get env key clk).1 := by
  unfold DMap.get
  split
  · exact .error trivial
  · exact .ok _

theorem parseDigits_oneLine {negative : Bool} {n : ℤ} {bs : Bytes} {e : String}
    (h : parseDigits negative n bs = .error e) : Resp.OneLine e := by
  induction bs generalizing n with
  | nil => cases h
  | cons b bs ih =>
    unfold parseDigits at h
    dsimp only at h
    split_ifs at h
    all_goals first
      | exact ih h
      | cases h; decide

theorem parseInteger_oneLine {e : String} (h : parseInteger b = .error e) : Resp.OneLine e := by
  have hdigits {negative : Bool} {bs : Bytes}
      (h : (parseDigits negative 0 bs).map Int64.ofInt = .error e) : Resp.OneLine e := by
    rcases hp : parseDigits negative 0 bs with e' | n <;> rw [hp] at h <;> cases h
    exact parseDigits_oneLine hp
  unfold parseInteger at h
  split at h
  · cases h
    decide
  · cases h
    decide
  · cases h
    decide
  · exact hdigits h
  · exact hdigits h
  · exact hdigits h

theorem currentNumber_safe (existing : Option Entry) : SafeCall (DMap.currentNumber existing) := by
  unfold DMap.currentNumber
  split
  · exact .ok _
  split
  · rename_i e _ err herr
    exact .error (.append (by decide) (oneLine_utf8Error herr))
  split
  · rename_i err herr
    exact .error (.append (by decide) (parseInteger_oneLine herr))
  · exact .ok _

section

variable (clk : ℕ → UInt64)
include clk

theorem readModifyWrite_safe {α : Type} (guard : Bool) (key : Bytes)
    {change : Option Entry → Except ClientError (Bytes × α)}
    (hchange : ∀ existing, SafeCall (change existing)) :
    SafeCall (d.readModifyWrite env guard key clk change).1 := by
  unfold DMap.readModifyWrite
  split_ifs
  · exact .error (by decide : Resp.OneLine "ERR operation timed out")
  dsimp only
  split
  · rename_i e he
    exact .error (hchange _ e he)
  split
  · rename_i e _ he
    exact .error (put_safe _ _ _ _ e (congrArg fst he))
  · exact .ok _

theorem incr_safe (guard : Bool) (key : Bytes) (delta : Int64) :
    SafeCall (d.incr env guard key delta clk).1 := by
  refine readModifyWrite_safe clk guard key fun existing => ?_
  unfold DMap.incremented
  split
  · rename_i e he
    exact .error (currentNumber_safe _ e he)
  · exact .ok _

theorem getPut_safe (guard : Bool) (key value : Bytes) :
    SafeCall (d.getPut env guard key value clk).1 :=
  readModifyWrite_safe clk guard key fun _ => .ok _

theorem expire_safe (guard : Bool) (key : Bytes) (duration : ℕ) :
    SafeCall (d.expire env guard key duration clk).1 := by
  unfold DMap.expire
  split
  · exact .error (by decide : Resp.OneLine "ERR operation timed out")
  split
  · exact .error trivial
  dsimp only
  split
  · rename_i e he
    exact .error (fragmentPut_safe he)
  · exact .ok _

theorem incrByFloat_safe (f64 : F64Text) (add : UInt64 → UInt64 → UInt64) (guard : Bool)
    (key : Bytes) (delta : UInt64) :
    SafeCall (d.incrByFloat env f64 add guard key delta clk).1 := by
  have hcurrent (existing : Option Entry) : SafeCall (DMap.currentFloat f64 existing) := by
    unfold DMap.currentFloat
    split
    · exact .ok _
    split
    · rename_i e _ err herr
      exact .error (.append (by decide) (oneLine_utf8Error herr))
    split
    · exact .ok _
    refine .error (.append (by decide) ?_)
    split_ifs
    · decide
    · decide
  refine readModifyWrite_safe clk guard key fun existing => ?_
  split
  · rename_i e he
    exact .error (hcurrent _ e he)
  · exact .ok _

end

theorem importEntries_safe (entries : List Entry) (applied : ℕ) :
    SafeCall (d.importEntries env entries applied).1 := by
  induction entries generalizing d applied with
  | nil => exact .ok _
  | cons entry entries ih =>
    unfold DMap.importEntries
    split
    · rename_i e he
      exact .error (fragmentPutLww_safe he)
    · exact ih _
    · exact ih _

theorem oneLine_decode (h : Entry.decode b = .error e) : Resp.OneLine e.text := by
  have htruncated (need : ℕ) : Resp.OneLine (StorageError.truncated need).text :=
    by unfold StorageError.text; simp; decide
  unfold Entry.decode at h
  split at h
  · cases h
    exact htruncated 1
  dsimp only at h
  split_ifs at h
  · cases h
    exact htruncated _
  · cases h
    exact .append (by decide) (by simp; decide)
  · cases h
    exact htruncated _

theorem decodeFragmentPayload_safe (b : Bytes) : SafeCall (decodeFragmentPayload b) := by
  have hentries (count : ℕ) (buf : Bytes) : SafeCall (decodeEntries count buf) := by
    induction count generalizing buf with
    | zero => exact .ok _
    | succ count ih =>
      unfold decodeEntries
      split
      · rename_i e he
        exact .error (safe_invalidArgument (.append (by decide) (oneLine_decode he)))
      rename_i entry used _
      intro e he
      rcases hd : decodeEntries count (buf.drop used) with e' | es <;> rw [hd] at he <;> cases he
      exact ih _ e hd
  unfold decodeFragmentPayload
  split
  · exact .error (safe_invalidArgument (by decide))
  split_ifs
  · exact .error (safe_invalidArgument (.append (by decide) (oneLine_nat _)))
  · exact .error (safe_invalidArgument (by decide))
  dsimp only
  intro e he
  rcases hd : decodeEntries _ (List.drop 9 _) with e' | es <;> rw [hd] at he <;> cases he
  exact hentries _ _ e hd

end Calls

/-! ### The node's handlers -/

section Node

variable {env : Env} {n : Node} {dmap key : Bytes} {f : Frame} {n' : Node}

theorem dmapHandle_oneLine {name : Bytes} (h : n.dmapHandle name = .error f) : f.OneLine := by
  unfold dmapHandle at h
  split at h <;> cases h
  rename_i e he
  exact .append (by decide) (oneLine_utf8Error he)

theorem keyStr_oneLine (h : keyStr key = .error f) : f.OneLine := by
  unfold keyStr at h
  split at h <;> cases h
  rename_i e he
  exact .append (by decide) (oneLine_utf8Error he)

theorem openKey_oneLine (h : n.openKey dmap key = (.error f, n')) : f.OneLine := by
  unfold openKey at h
  split at h
  · rename_i f' hf
    cases h
    exact dmapHandle_oneLine hf
  split at h
  · rename_i f' hf
    cases h
    exact keyStr_oneLine hf
  · cases h

theorem onDMap_oneLine {call : DMap → Frame × DMap} (h : ∀ d, (call d).1.OneLine) :
    (n.onDMap dmap key call).1.OneLine := by
  unfold onDMap
  split
  · rename_i f n' hopen
    exact openKey_oneLine hopen
  · exact h _

theorem dmPutPeer_oneLine (clk : ℕ → UInt64) (value : Bytes) (o : PutOptions) :
    (n.dmPutPeer env clk dmap key value o).1.OneLine := by
  unfold dmPutPeer
  split
  · rename_i f n' hopen
    exact openKey_oneLine hopen
  split
  · exact (by decide : Resp.OneLine "OK")
  · trivial
  · trivial
  · rename_i e _ _ _ he
    exact putLww_safe _ _ _ _ e (congrArg fst he)

theorem commitPut_oneLine {rd : Readings} {value : Bytes} {o : PutOptions}
    (h : n.commitPut env rd dmap key value o = (.error f, n')) : f.OneLine := by
  unfold commitPut at h
  split at h
  · rename_i f' n'' hopen
    cases h
    exact openKey_oneLine hopen
  dsimp only at h
  split at h <;> cases h
  · trivial
  · trivial
  · rename_i e _ _ _ he
    exact put_safe _ _ _ _ e (congrArg fst he)

theorem dmDelLocalCount_oneLine {keys : List Bytes}
    (h : n.dmDelLocalCount env dmap keys = (.error f, n')) : f.OneLine := by
  unfold dmDelLocalCount at h
  split at h
  · rename_i f' hf
    cases h
    exact dmapHandle_oneLine hf
  rename_i d n'' _
  rcases hd : deleteKeys env d keys 0 with ⟨f' | count, d'⟩ <;> rw [hd] at h <;> cases h
  obtain ⟨k, -, hk⟩ := deleteKeys_error hd
  exact keyStr_oneLine hk

theorem dmDelLocal_oneLine (keys : List Bytes) : (n.dmDelLocal env dmap keys).1.OneLine := by
  unfold dmDelLocal
  split
  · trivial
  · rename_i f n' h
    exact dmDelLocalCount_oneLine h

section

variable (clk : ℕ → UInt64)
include clk

theorem dmIncr_oneLine (guard : Bool) (delta : Int64) :
    (n.dmIncr env guard dmap key delta clk).1.OneLine := by
  refine onDMap_oneLine fun d => ?_
  split
  · trivial
  · rename_i e _ he
    exact incr_safe _ _ _ _ e (congrArg fst he)

theorem dmDecr_oneLine (guard : Bool) (delta : Int64) :
    (n.dmDecr env guard dmap key delta clk).1.OneLine :=
  dmIncr_oneLine clk guard (-delta)

theorem dmGetPut_oneLine (guard : Bool) (value : Bytes) :
    (n.dmGetPut env guard dmap key value clk).1.OneLine := by
  refine onDMap_oneLine fun d => ?_
  split
  · trivial
  · rename_i e _ he
    exact getPut_safe _ _ _ _ e (congrArg fst he)

theorem dmGetPeer_oneLine : (n.dmGetPeer env dmap key clk).1.OneLine := by
  refine onDMap_oneLine fun d => ?_
  split
  · trivial
  · trivial
  · rename_i e _ _ he
    exact get_safe _ _ e (congrArg fst he)

theorem dmExpire_oneLine (guard : Bool) (duration : ℕ) :
    (n.dmExpire env guard dmap key duration clk).1.OneLine := by
  refine onDMap_oneLine fun d => ?_
  split
  · trivial
  · trivial
  · rename_i e _ _ he
    exact expire_safe _ _ _ _ e (congrArg fst he)

theorem dmIncrByFloat_oneLine (f64 : F64Text) (add : UInt64 → UInt64 → UInt64) (guard : Bool)
    (delta : UInt64) : (n.dmIncrByFloat env f64 add guard dmap key delta clk).1.OneLine := by
  refine onDMap_oneLine fun d => ?_
  split
  · trivial
  · rename_i e _ he
    exact incrByFloat_safe _ _ _ _ _ _ e (congrArg fst he)

end

theorem dmDestroy_oneLine : (n.dmDestroy dmap).1.OneLine := by
  unfold dmDestroy
  split
  · rename_i f h
    exact dmapHandle_oneLine h
  · exact (by decide : Resp.OneLine "OK")

theorem readLocal_oneLine {clk : ℕ → UInt64}
    (h : n.readLocal env dmap key clk = (.error f, n')) : f.OneLine := by
  unfold readLocal at h
  split at h
  · rename_i f' n'' hopen
    cases h
    exact openKey_oneLine hopen
  split at h <;> cases h
  rename_i e _ _ he
  exact get_safe _ _ e (congrArg fst he)

theorem moveFragment_oneLine (routing : Option Routing) (part : UInt32) (type : PartitionType)
    (payload : Bytes) : (n.moveFragment env routing part type dmap payload).1.OneLine := by
  have himport : SafeCall (n.importPartition env dmap part payload).1 := by
    unfold importPartition
    split
    · rename_i e he
      exact .error (decodeFragmentPayload_safe _ e he)
    · split_ifs
      · exact .error (safe_invalidArgument (by simp; decide))
      · exact importEntries_safe _ _
  unfold moveFragment
  split_ifs
  · exact (by decide : Resp.OneLine
      "ERR MOVEFRAGMENT backup-type migrations are not supported in this version")
  · exact .append (by decide) (oneLine_uint32 _)
  split
  · rename_i f hf
    exact keyStr_oneLine hf
  split
  · exact (by decide : Resp.OneLine "OK")
  · rename_i e _ he
    exact himport e (congrArg fst he)

end Node

/-! ### The cluster's handlers -/

section Cluster

variable {env : Env}

theorem downstreamPartial_oneLine {s : String} (h : Resp.OneLine s) :
    Resp.OneLine (downstreamPartial s) := by
  unfold downstreamPartial
  split
  · rename_i first count rest hsplit
    have hparts : ∀ t ∈ rest, Resp.OneLine t := fun t ht =>
      h.splitOn t (hsplit ▸ List.mem_cons_of_mem _ (List.mem_cons_of_mem _ ht))
    exact .append (by simp; decide) (.intercalate (by decide) hparts)
  · decide

/-- Whatever the peers answer on one line, the handler answers on one line. -/
def SafeHandler : Handler → Prop
  | .done f => f.OneLine
  | .batch _ _ resume =>
    ∀ replies, (∀ reply ∈ replies, OneLineReply reply) → SafeHandler (resume replies)

/-- A handler whose steps answer in one line answers in one line. -/
theorem SafeHandler.run {ask : Fan → List Hop → Node → List (Except ClusterError Frame) × Node}
    (hask : ∀ label sends n, ∀ reply ∈ (ask label sends n).1, OneLineReply reply) :
    ∀ {task : Handler}, SafeHandler task → ∀ n, (task.run ask n).1.OneLine
  | .done _, h, _ => h
  | .batch label sends _, h, n => (h _ (hask label sends n)).run hask _

theorem getReply_oneLine (settings : ReadSettings) (dmap key : Bytes)
    (ask : ℕ → SocketAddr → Read) (routing : Option Routing) (found : Read) :
    (getReply env settings dmap key ask routing found).1.OneLine := by
  unfold getReply
  split
  · trivial
  dsimp only
  split
  · trivial
  unfold fanReply
  split
  · trivial
  dsimp only
  generalize (if settings.readRepair then _ else ([] : List SocketAddr)) = owners
  split
  · trivial
  rw [fanOutReply_fst]
  trivial

section Quoting

variable (hstr : ∀ s, Resp.OneLine (env.debugStr s)) (hbytes : ∀ b, Resp.OneLine (env.debugBytes b))

include hstr hbytes

theorem debug_oneLine (f : Frame) : Resp.OneLine (f.debug env) := by
  cases f with
  | bulk b => cases b <;> (unfold Frame.debug; simp [hbytes]; decide)
  | _ =>
    unfold Frame.debug
    simp [hstr]
    decide

variable {replies : List (Except ClusterError Frame)}

/-- The first error of a fan-out is one line if all the replies are. -/
theorem aggregate_oneLine {op : String} (hop : Resp.OneLine op)
    (h : ∀ reply ∈ replies, OneLineReply reply) :
    ∀ e ∈ (aggregate env replies op).firstError, Resp.OneLine e := by
  have hfail {out : ReplicationOutcome} {text : String} (hout : ∀ e ∈ out.firstError,
      Resp.OneLine e) (htext : Resp.OneLine text) :
      ∀ e ∈ (out.fail text).firstError, Resp.OneLine e := by
    intro e he
    rcases hfirst : out.firstError with _ | e' <;> rw [ReplicationOutcome.fail, hfirst] at he
    · cases he
      exact htext
    · cases he
      exact hout e hfirst
  have hstep (out : ReplicationOutcome) (reply : Except ClusterError Frame)
      (hreply : OneLineReply reply) (hout : ∀ e ∈ out.firstError, Resp.OneLine e) :
      ∀ e ∈ (out.count env op reply).firstError, Resp.OneLine e := by
    unfold ReplicationOutcome.count
    split
    · split_ifs
      · exact hout
      · exact hfail hout (.append (hop.append (by decide)) (debug_oneLine hstr hbytes _))
    · exact hout
    · exact hout
    · exact hfail hout (.append (hop.append (by decide)) hreply)
    · exact hfail hout (.append (hop.append (by decide)) hreply)
  refine List.foldlRecOn (motive := fun out : ReplicationOutcome =>
    ∀ e ∈ out.firstError, Resp.OneLine e)
    replies _ (fun e he => absurd he (by simp)) ?_
  exact fun out hout reply hreply => hstep out reply (h reply hreply) hout

theorem putReply_oneLine (r : Routing) (h : ∀ reply ∈ replies, OneLineReply reply) :
    (putReply env r replies).OneLine := by
  unfold putReply
  split
  · dsimp only
    split_ifs
    · have herr : Resp.OneLine
          ((aggregate env replies "DM.PUT").firstError.getD "no backup acked in time") := by
        rcases hfirst : (aggregate env replies "DM.PUT").firstError with _ | e
        · exact (by decide : Resp.OneLine "no backup acked in time")
        · exact aggregate_oneLine hstr hbytes (by decide) h e hfirst
      exact .append (by simp; decide) herr
    · exact (by decide : Resp.OneLine "OK")
  · exact (by decide : Resp.OneLine "OK")

theorem dmDelCount_oneLine {reply : Except ClusterError Frame} (h : OneLineReply reply)
    {e : ClusterError} (he : dmDelCount env reply = .error e) : Resp.OneLine e.text := by
  unfold dmDelCount at he
  split at he
  · cases he
    exact h
  · cases he
  · split_ifs at he
    · cases he
      exact .append (by decide) (downstreamPartial_oneLine h)
    · cases he
      exact .append (by decide) (.append (by decide) (debug_oneLine hstr hbytes _))
  · cases he
    exact .append (by decide) h
  · cases he
    exact .append (by decide) (.append (by decide) (debug_oneLine hstr hbytes _))

theorem delReply_oneLine (deleted : ℤ) (h : ∀ reply ∈ replies, OneLineReply reply) :
    (delReply env deleted replies).OneLine := by
  have hsum : ∀ e ∈ (sumResults deleted (replies.map (dmDelCount env))).2, Resp.OneLine e := by
    unfold sumResults
    refine List.foldlRecOn (motive := fun acc : ℤ × Option String => ∀ e ∈ acc.2, Resp.OneLine e)
      _ _ (fun e he => absurd he (by simp)) ?_
    intro acc hacc result hresult
    obtain ⟨reply, hreply, rfl⟩ := List.mem_map.1 hresult
    split
    · exact hacc
    rename_i e he
    have htext := dmDelCount_oneLine hstr hbytes (h reply hreply) he
    rcases hfirst : acc.2 with _ | e'
    · rintro _ ⟨⟩
      exact htext
    · rintro _ ⟨⟩
      exact hacc e' hfirst
  unfold delReply
  split
  · rename_i count e he
    exact .append (by simp; decide) (hsum e (congrArg snd he))
  · trivial

theorem startPut_safe (srv : Server) (n : Node) (rd : Readings)
    (fromPeer : Bool) (dmap key value : Bytes) (o : PutOptions) :
    SafeHandler (startPut env srv n rd fromPeer dmap key value o).1 := by
  unfold startPut
  split_ifs
  · exact dmPutPeer_oneLine _ _ _
  split
  · rename_i f n' h
    exact commitPut_oneLine h
  split
  · exact (by decide : Resp.OneLine "OK")
  dsimp only
  split_ifs
  · exact (by decide : Resp.OneLine "OK")
  · exact fun replies hreplies => putReply_oneLine hstr hbytes _ hreplies

theorem replicateKeys_safe (r : Routing) (dmap : Bytes)
    (deleted : ℤ) {next : Handler} (hnext : SafeHandler next) (keys : List Bytes) (i : ℕ) :
    SafeHandler (replicateKeys env r dmap deleted next i keys) := by
  induction keys generalizing i with
  | nil => exact hnext
  | cons key keys ih =>
    unfold replicateKeys
    dsimp only
    split_ifs
    · exact ih (i + 1)
    intro replies hreplies
    dsimp only
    split_ifs
    · have herr : Resp.OneLine
          ((aggregate env replies "DM.DEL").firstError.getD "DEL replication below quorum") := by
        rcases hfirst : (aggregate env replies "DM.DEL").firstError with _ | e
        · exact (by decide : Resp.OneLine "DEL replication below quorum")
        · exact aggregate_oneLine hstr hbytes (by decide) hreplies e hfirst
      exact .append (by simp; decide) herr
    · exact ih (i + 1)

theorem startDel_safe (srv : Server) (n : Node) (fromPeer : Bool) (dmap : Bytes)
    (keys : List Bytes) : SafeHandler (startDel env srv n fromPeer dmap keys).1 := by
  have hforward (buckets : HMap (Option SocketAddr) (List Bytes)) (deleted : ℤ) :
      SafeHandler (forwardKeys env dmap buckets deleted) :=
    fun replies hreplies => delReply_oneLine hstr hbytes deleted hreplies
  unfold startDel
  split_ifs
  · trivial
  split
  · exact dmDelLocal_oneLine _
  · exact dmDelLocal_oneLine _
  dsimp only
  split
  · exact (by decide : Resp.OneLine
      "CROSSPARTITION keys span multiple partitions; multi_key_strict is enabled")
  split
  · exact hforward _ _
  split
  · rename_i f n' h
    exact dmDelLocalCount_oneLine h
  · split_ifs
    · exact hforward _ _
    · exact replicateKeys_safe hstr hbytes _ _ _ (hforward _ _) _ _

end Quoting

end Cluster

end Kamino
