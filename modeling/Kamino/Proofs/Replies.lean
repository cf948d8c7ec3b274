import Kamino.Connection
import Kamino.Proofs.Commands
import Kamino.Proofs.ReplyTexts

/-!
# Every command gets a reply

The encoder takes every frame the connection loop sends, with four exceptions: the reply to `HELLO
3`, a map, sent while the codec is still at RESP2, and three errors that quote a client's line
breaks, on an unknown verb, on the pattern of `DM.SCAN` and on the table of
`INTERNAL.NODE.UPDATEROUTING`.
-/

namespace Kamino.Resp

open Runs World Option List Session
open Kamino.Resp.Command

variable {printable : Char → Bool} {f64 : F64Text}

section ParseErrors

def SafeErrors {α : Type} (r : Except CommandError α) : Prop :=
  ∀ e, r = .error e → OneLine e.text

namespace SafeErrors

variable {α β : Type} {command : String}

theorem ok (a : α) : SafeErrors (.ok a) := fun _ h => absurd h (by simp)

theorem error {e : CommandError} (h : OneLine e.text) : SafeErrors (.error e : Except _ α) :=
  fun _ he => Except.error.inj he ▸ h

theorem bind {x : Except CommandError α} {f : α → Except CommandError β} (hx : SafeErrors x)
    (hf : ∀ a, SafeErrors (f a)) : SafeErrors (x >>= f) := by
  rcases x with e | a
  · exact .error (hx e rfl)
  · exact hf a

variable (hc : OneLine command)
include hc

theorem wrongArity (hint : ArityHint) (got : ℕ) :
    SafeErrors (.error (.wrongArity command hint got) : Except _ α) := by
  refine .error ?_
  unfold CommandError.text
  cases hint <;> (simp [ArityHint.text, hc]; decide)

theorem invalidArgument {reason : String} (hr : OneLine reason) :
    SafeErrors (.error (.invalidArgument command reason) : Except _ α) :=
  .error (.append (.append (.append (by decide) hc) (by decide)) hr)

theorem conflictingOptions {detail : String} (hd : OneLine detail) :
    SafeErrors (.error (.conflictingOptions command detail) : Except _ α) :=
  .error (.append (.append (.append (by decide) hc) (by decide)) hd)

theorem parseInt {read : String → Option α} {b : Bytes} {field : String}
    (hf : OneLine field) : SafeErrors (parseInt printable read b command field) := by
  unfold Resp.parseInt
  split
  · exact .invalidArgument hc (hf.append (by decide))
  · split
    · exact .invalidArgument hc (by simp [hf]; decide)
    · exact .ok _

theorem once {current : Option α} {name : String} {value : Except CommandError β}
    (hn : OneLine name) (hv : SafeErrors value) : SafeErrors (once command name current value) := by
  unfold Resp.once
  split_ifs
  · exact .conflictingOptions hc (hn.append (by decide))
  · exact hv

theorem unexpected {what : String} {tok : Bytes} (hw : OneLine what) :
    SafeErrors (.error (.invalidArgument command (what ++ debugStr printable (lossy tok))) :
      Except _ α) :=
  .invalidArgument hc (hw.append (oneLine_debugStr _ _))

end SafeErrors

theorem helloClauses_safe (args : List Bytes) (hello : HelloArgs) :
    SafeErrors (helloClauses printable args hello) := by
  fun_induction helloClauses printable args hello with
  | case1 => exact .ok _
  | case2 | case4 => assumption
  | case3 | case5 => exact .invalidArgument (by decide) (by decide)
  | case6 => exact .unexpected (by decide) (by decide)

theorem putOptions_safe (args : List Bytes) (o : PutOptions) :
    SafeErrors (putOptions printable args o) := by
  have valued {α : Type} {read : String → Option α} {lit : String} {v : Bytes} {current : Option α}
      {next : α → Except CommandError PutOptions} (hlit : OneLine lit)
      (hnext : ∀ n, SafeErrors (next n)) :
      SafeErrors (once "DM.PUT" lit current (parseInt printable read v "DM.PUT" lit) >>= next) :=
    .bind (.once (by decide) hlit (.parseInt (by decide) hlit)) hnext
  fun_induction putOptions printable args o with
  | case1 => exact .ok _
  | case2 | case4 | case6 | case8 | case12 => exact .invalidArgument (by decide) (by decide)
  | case3 | case5 | case7 | case9 | case13 => exact valued (by decide) ‹_›
  | case10 | case11 => assumption
  | case14 => exact .unexpected (by decide) (by decide)

theorem scanOptions_safe (args : List Bytes) (o : ScanCommandOptions) :
    SafeErrors (scanOptions printable args o) := by
  fun_induction scanOptions printable args o with
  | case1 => exact .ok _
  | case2 | case4 => exact .invalidArgument (by decide) (by decide)
  | case3 => exact .bind (.once (by decide) (by decide) (.ok _)) ‹_›
  | case5 =>
    exact .bind (.once (by decide) (by decide) (.parseInt (by decide) (by decide))) ‹_›
  | case6 => exact .unexpected (by decide) (by decide)

variable {command : String}

section

variable (hc : OneLine command)
include hc

theorem parseBare_safe (bare : Command)
    (args : List Bytes) : SafeErrors (parseBare command bare args) := by
  unfold parseBare
  split
  · exact .ok _
  · exact .wrongArity hc _ _

theorem parseNumbered_safe {α : Type} {read : String → Option α} {field : String}
    (hf : OneLine field) (mk : Bytes → Bytes → α → Command) (args : List Bytes) :
    SafeErrors (parseNumbered printable read command field mk args) := by
  unfold parseNumbered
  split
  · exact .bind (.parseInt hc hf) fun _ => .ok _
  · exact .wrongArity hc _ _

theorem parseMessage_safe (mk : Bytes → Bytes → Command)
    (args : List Bytes) : SafeErrors (parseMessage command mk args) := by
  unfold parseMessage
  split
  · exact .ok _
  · exact .wrongArity hc _ _

theorem parseChannels_safe (mk : List Bytes → Command)
    (args : List Bytes) : SafeErrors (parseChannels command mk args) := by
  unfold parseChannels
  split
  · exact .wrongArity hc _ _
  · exact .ok _

end

section

variable (args : List Bytes)
include args

theorem parseHello_safe : SafeErrors (parseHello printable args) := by
  unfold parseHello
  split
  · exact .ok _
  split_ifs
  · exact .bind (.parseInt (by decide) (by decide)) fun _ =>
      .bind (helloClauses_safe _ _) fun _ => .ok _
  · exact .bind (helloClauses_safe _ _) fun _ => .ok _

theorem parseDmPut_safe : SafeErrors (parseDmPut printable args) := by
  unfold parseDmPut
  split
  · refine .bind (putOptions_safe _ _) fun o => ?_
    split_ifs
    · exact .conflictingOptions (by decide) (by decide)
    · exact .conflictingOptions (by decide) (by decide)
    · exact .ok _
  · exact .wrongArity (by decide) _ _

theorem parseDmScan_safe : SafeErrors (parseDmScan printable args) := by
  unfold parseDmScan
  split
  · exact .bind (.parseInt (by decide) (by decide)) fun _ =>
      .bind (.parseInt (by decide) (by decide)) fun _ =>
        .bind (scanOptions_safe _ _) fun _ => .ok _
  · exact .wrongArity (by decide) _ _

theorem parseDmIncrbyfloat_safe : SafeErrors (parseDmIncrbyfloat printable f64 args) := by
  unfold parseDmIncrbyfloat
  split
  · refine .bind ?_ fun _ => .ok _
    unfold parseFloat
    split
    · exact .invalidArgument (by decide) (by decide)
    · split
      · exact .invalidArgument (by decide) (by simp; decide)
      · exact .ok _
  · exact .wrongArity (by decide) _ _

theorem parseInternalMoveFragment_safe : SafeErrors (parseInternalMoveFragment printable args) := by
  unfold parseInternalMoveFragment
  split
  · refine .bind (.parseInt (by decide) (by decide)) fun part =>
      .bind (.parseInt (by decide) (by decide)) fun byte => ?_
    split
    · exact .invalidArgument (by decide) (.append (by decide) (oneLine_nat _))
    · exact .ok _
  · exact .wrongArity (by decide) _ _

theorem parsePubsub_safe : SafeErrors (parsePubsub printable args) := by
  unfold parsePubsub
  split
  · exact .wrongArity (by decide) _ _
  split_ifs
  · split
    · exact .ok _
    · exact .ok _
    · exact .wrongArity (by decide) _ _
  · exact .ok _
  · split
    · exact .ok _
    · exact .wrongArity (by decide) _ _
  · exact .unexpected (by decide) (by decide)

theorem verb_parse_safe (v : Verb) : SafeErrors (v.parse printable f64 args) := by
  cases v with
  | ping | auth =>
    unfold Verb.parse
    dsimp only [parsePing, parseAuth]
    split
    · exact .ok _
    · exact .ok _
    · exact .wrongArity (by decide) _ _
  | hello => exact parseHello_safe args
  | quit | stats | clusterMembers | clusterRoutingTable | clusterReady =>
    exact parseBare_safe (by decide) _ args
  | dmPut => exact parseDmPut_safe args
  | dmGet | dmDel | dmGetput | dmDestroy | internalUpdateRouting | internalGetWithTs =>
    unfold Verb.parse
    dsimp only [parseDmGet, parseDmDel, parseDmGetput, parseDmDestroy, parseInternalUpdateRouting,
      parseInternalGetWithTs]
    split
    · exact .ok _
    · exact .wrongArity (by decide) _ _
  | dmExpire | dmPexpire | dmIncr | dmDecr =>
    exact parseNumbered_safe (by decide) (by decide) _ args
  | dmIncrbyfloat => exact parseDmIncrbyfloat_safe args
  | dmScan => exact parseDmScan_safe args
  | internalLengthOfPart =>
    change SafeErrors (parseInternalLengthOfPart printable args)
    unfold parseInternalLengthOfPart
    split
    · exact .bind (.parseInt (by decide) (by decide)) fun _ => .ok _
    · exact .wrongArity (by decide) _ _
  | internalMoveFragment => exact parseInternalMoveFragment_safe args
  | internalPublish | publish => exact parseMessage_safe (by decide) _ args
  | subscribe | psubscribe => exact parseChannels_safe (by decide) _ args
  | unsubscribe | punsubscribe => exact .ok _
  | pubsub => exact parsePubsub_safe args

end

theorem bulkArg_safe (item : Frame) : SafeErrors (bulkArg item) := by
  unfold bulkArg
  split
  · exact .ok _
  · exact .invalidArgument (by decide) (by decide)
  · exact .error (by decide)

theorem mapM_bulkArg_safe (items : List Frame) : SafeErrors (items.mapM bulkArg) := by
  induction items with
  | nil => exact .ok _
  | cons item items ih =>
    rw [mapM_cons]
    exact .bind (bulkArg_safe item) fun _ => .bind ih fun _ => .ok _

/-- The frame's verb is unknown and has a line break. -/
def BrokenVerb (frame : Frame) : Prop :=
  ∃ verb args, frame = frameOf (verb :: args) ∧ Verb.ofBytes verb = none ∧ (cr ∈ verb ∨ lf ∈ verb)

theorem parse_of_brokenVerb {frame : Frame} (h : BrokenVerb frame) :
    ∃ e, parse printable f64 frame = .error e ∧ ¬ OneLine e.text := by
  obtain ⟨verb, args, rfl, hverb, hbreak⟩ := h
  refine ⟨.unknownCommand (lossy verb), ?_, fun hline => ?_⟩
  · rw [parse_frameOf, ofArgs, hverb]
  · have := (oneLine_lossy_iff verb).1 (oneLine_append.1 hline).2
    exact hbreak.elim this.1 this.2

theorem oneLine_parse_error {frame : Frame} (h : ¬ BrokenVerb frame) :
    SafeErrors (parse printable f64 frame) := by
  intro e he
  unfold parse at he
  split at he
  · rename_i item items
    rcases hitem : bulkArg item with e' | verb <;> rw [hitem] at he
    · cases he
      exact bulkArg_safe item e hitem
    rcases hitems : items.mapM bulkArg with e' | args <;> rw [hitems] at he
    · cases he
      exact mapM_bulkArg_safe items e hitems
    change ofArgs printable f64 verb args = .error e at he
    unfold ofArgs at he
    split at he
    · rename_i hverb
      cases he
      refine .append (by decide) ((oneLine_lossy_iff verb).2 (not_or.1 fun hbreak => h ?_))
      refine ⟨verb, args, ?_, hverb, hbreak⟩
      rw [bulkArg_ok hitem, mapM_bulkArg_ok hitems, frameOf, map_cons]
    · exact verb_parse_safe _ _ e he
  · cases he
    decide

end ParseErrors

section Handlers

variable {P : Type} {version : ProtocolVersion} {ctx : ServerContext} {w : World P}

/-- The command's handler quotes a library's error with a line break. -/
def Quotes (w : World P) : Command → Prop
  | .dmScan part dmap _ options => utf8Error dmap 0 = none ∧ part = 0 ∧ 0 < w.partitionCount ∧
      ∃ pattern e, options.matchPattern = some (asBytes pattern) ∧
        w.regex (globToRegex pattern) = .error e ∧ ¬ OneLine e
  | .internalNodeUpdateRouting table =>
      ∃ p ∈ w.runtime, ∃ e, p.applyRoutingUpdate table = .error e ∧ ¬ OneLine e.text
  | _ => False

theorem onNode_accepted {r : Kamino.Frame × Node} (h : r.1.OneLine) :
    Accepted f64 version (w.onNode r).1 :=
  h.accepted

theorem onCluster_accepted {start : Handler × Node} (h : SafeHandler start.1) :
    Accepted f64 version (w.onCluster start).1 :=
  onNode_accepted (h.run w.ask_oneLine start.2)

@[simp]
theorem accepted_text (s : String) : Accepted f64 version (text s) := accepted_bulk _

@[simp]
theorem accepted_count (n : ℕ) : Accepted f64 version (count n) := accepted_integer _

theorem dmGet_accepted (fromPeer : Bool) (dmap key : Bytes) :
    Accepted f64 version (w.dmGet fromPeer dmap key).1 := by
  unfold World.dmGet
  split
  · exact onNode_accepted (dmGetPeer_oneLine _)
  split
  · rename_i f n h
    exact onNode_accepted (readLocal_oneLine h)
  rename_i found n h
  dsimp only
  generalize (w.runtime.map (·.readSettings)).getD ⟨1, false⟩ = settings
  have hreply : (getReply w.env settings dmap key w.read w.routing found).1.OneLine :=
    getReply_oneLine settings dmap key w.read w.routing found
  split
  · rename_i f hf
    rw [hf] at hreply
    exact onNode_accepted hreply
  · rename_i f repair hf
    rw [hf] at hreply
    exact onNode_accepted hreply

theorem internalNodeGetWithTs_accepted (dmap key : Bytes) :
    Accepted f64 version (w.internalNodeGetWithTs dmap key).1 := by
  unfold World.internalNodeGetWithTs
  split
  · rename_i f n h
    exact onNode_accepted (readLocal_oneLine h)
  · exact accepted_bulk _
  · simp

variable {regex : String → Except String (String → Bool)}

theorem scan_safe {d : DMap} {partitionCount part : UInt32} {pattern : Option String} {now : UInt64}
    {e : ClientError} (h : d.scan regex partitionCount part pattern now = .error e) :
    SafeError e ∨ part = 0 ∧ 0 < partitionCount ∧ ∃ p, pattern = some p ∧
      ∃ e', regex (globToRegex p) = .error e' ∧ e = .storage (.regex e') := by
  unfold DMap.scan at h
  split_ifs at h with hcount hpart
  · cases h
    exact .inl (safe_invalidArgument (.append (.append (.append (by decide) (oneLine_uint32 part))
      (by decide)) (oneLine_uint32 partitionCount)))
  rw [not_not] at hpart
  subst hpart
  refine .inr ⟨rfl, UInt32.not_le.1 hcount, ?_⟩
  cases pattern with
  | none => cases h
  | some p =>
    dsimp only at h
    split at h <;> cases h
    rename_i e' he'
    exact ⟨p, rfl, e', he', rfl⟩

theorem scan_of_regex_error {d : DMap} {partitionCount : UInt32} {pattern : String} {now : UInt64}
    {e : String} (hcount : 0 < partitionCount) (h : regex (globToRegex pattern) = .error e) :
    d.scan regex partitionCount 0 (some pattern) now = .error (.storage (.regex e)) := by
  unfold DMap.scan
  rw [if_neg (UInt32.not_le.2 hcount), if_neg (not_not.2 rfl)]
  dsimp only
  rw [h]

theorem not_safeError_regex {e : String} (h : ¬ OneLine e) : ¬ SafeError (.storage (.regex e)) := by
  intro hsafe
  exact h (oneLine_append.1 (oneLine_append.1 hsafe).2).2

theorem dmScan_accepted_iff (part : UInt32) (dmap : Bytes) (cursor : UInt64)
    (options : ScanCommandOptions) :
    Accepted f64 version (w.dmScan part dmap options).1
      ↔ ¬ Quotes w (.dmScan part dmap cursor options) := by
  constructor
  · rintro haccepted ⟨hname, rfl, hcount, pattern, e, hpattern, hregex, he⟩
    unfold World.dmScan Node.dmapHandle at haccepted
    rw [hname] at haccepted
    dsimp only at haccepted
    rw [hpattern, bind_some, utf8Error_eq_none_iff.2 ⟨pattern, rfl⟩] at haccepted
    dsimp only at haccepted
    rw [bind_some, fromUtf8_asBytes, scan_of_regex_error hcount hregex] at haccepted
    exact not_safeError_regex he (accepted_error.1 haccepted)
  intro hquotes
  unfold World.dmScan
  split
  · rename_i f hf
    exact onNode_accepted (dmapHandle_oneLine hf)
  rename_i d n hd
  have hname : utf8Error dmap 0 = none := by
    unfold Node.dmapHandle at hd
    split at hd
    · cases hd
    · assumption
  split
  · rename_i e he
    obtain ⟨p, -, hp⟩ := bind_eq_some_iff.1 he
    exact onNode_accepted (.append (by decide) (oneLine_utf8Error hp))
  dsimp only
  split
  · rename_i e he
    refine onNode_accepted ?_
    obtain hsafe | ⟨rfl, hcount, p, hp, e', hregex, rfl⟩ := scan_safe he
    · exact hsafe
    obtain ⟨b, hb, hbp⟩ := bind_eq_some_iff.1 hp
    refine .append (by decide) (.append (by decide) ?_)
    by_contra hline
    refine hquotes ⟨hname, rfl, hcount, p, e', ?_, hregex, hline⟩
    rw [hb, asBytes_of_fromUtf8 hbp]
  · simp +contextual [or_imp]

theorem clusterMembers_accepted : Accepted f64 version w.clusterMembers := by
  simp [World.clusterMembers]

theorem clusterRoutingTable_accepted : Accepted f64 version w.clusterRoutingTable := by
  unfold World.clusterRoutingTable
  split
  · exact accepted_simpleString.2 (by decide)
  · exact accepted_bulk _

theorem clusterReady_accepted : Accepted f64 version w.clusterReady := by
  unfold World.clusterReady
  split
  · exact accepted_simpleString.2 (by decide)
  · exact accepted_error.2 (by decide)

theorem internalNodeUpdateRouting_accepted_iff (table : Bytes) :
    Accepted f64 version (w.internalNodeUpdateRouting table)
      ↔ ¬ Quotes w (.internalNodeUpdateRouting table) := by
  unfold World.internalNodeUpdateRouting
  rcases hruntime : w.runtime with _ | p
  · refine iff_of_true (accepted_error.2 (by decide)) ?_
    rintro ⟨p, hp, -⟩
    rw [hruntime] at hp
    cases hp
  have hquotes : Quotes w (.internalNodeUpdateRouting table)
      ↔ ∃ e, p.applyRoutingUpdate table = .error e ∧ ¬ OneLine e.text := by
    simp [Quotes, hruntime]
  rw [hquotes]
  dsimp only
  rcases hupdate : p.applyRoutingUpdate table with e | _ | _ | _
  · simp only [Except.error.injEq, exists_eq_left', not_not]
    exact accepted_error.trans (oneLine_append.trans (and_iff_right (by decide)))
  all_goals
    refine iff_of_true (accepted_array.2 ?_) (by simp)
    simp +contextual [or_imp, eq_comm]
    decide

theorem stats_accepted : Accepted f64 version (w.stats ctx) := by
  simp [World.stats]

end Handlers

section PubSub

variable {P : Type} {version : ProtocolVersion} {w : World P}

theorem noPubsubProvider_accepted : Accepted f64 version noPubsubProvider :=
  accepted_error.2 (by decide)

theorem buildSubAck_accepted (kind : String) (ack : PubSub.SubAck) :
    Accepted f64 version (buildSubAck kind ack) := by
  simp [buildSubAck]

theorem ackAll_accepted (kind : String) (st : PubSubState) (acks : List PubSub.SubAck)
    (registry : P) : ∀ f ∈ (w.ackAll kind st acks registry).1, Accepted f64 version f := by
  intro f hf
  obtain ⟨ack, -, rfl⟩ := mem_map.1 hf
  exact buildSubAck_accepted kind ack

theorem subscribing_accepted (kind : String)
    (call : PubSubProvider P → P → UInt64 → List Bytes → List PubSub.SubAck × P)
    (names : List Bytes) (st : PubSubState) :
    ∀ f ∈ (w.subscribing kind call names st).1, Accepted f64 version f := by
  unfold subscribing
  split
  · simpa using noPubsubProvider_accepted
  · exact ackAll_accepted kind _ _ _

theorem unsubscribing_accepted (kind : String) (isPattern : Bool)
    (call : PubSubProvider P → P → UInt64 → Option (List Bytes) → List PubSub.SubAck × P)
    (names : List Bytes) (st : PubSubState) :
    ∀ f ∈ (w.unsubscribing kind isPattern call names st).1, Accepted f64 version f := by
  unfold unsubscribing
  split
  · simpa using noPubsubProvider_accepted
  · split
    · simpa using buildSubAck_accepted kind _
    · exact ackAll_accepted kind _ _ _

theorem onRegistry_accepted {call : PubSubProvider P → P → Frame × P}
    (h : ∀ p s, Accepted f64 version (call p s).1) :
    Accepted f64 version (w.onRegistry call).1 := by
  unfold onRegistry
  split
  · exact noPubsubProvider_accepted
  · exact h _ _

theorem pubsubChannels_accepted (pattern : Option Bytes) :
    Accepted f64 version (w.pubsubChannels pattern).1 := by
  exact onRegistry_accepted fun p s => by simp

theorem pubsubNumsub_accepted (channels : List Bytes) :
    Accepted f64 version (w.pubsubNumsub channels).1 := by
  exact onRegistry_accepted fun p s => by simp +contextual [or_imp]

end PubSub

section Dispatch

variable {P : Type} {version : ProtocolVersion} {ctx : ServerContext} {w : World P} {st : Session}
  {cmd : Command}

theorem single_accepted {st : PubSubState} {reply : Frame × World P} :
    (∀ f ∈ (single st reply).1, Accepted f64 version f) ↔ Accepted f64 version reply.1 := by
  simp [single]

theorem handle_accepted_iff (fromPeer : Bool) (cmd : Command) (st : PubSubState) :
    (∀ f ∈ (w.handle ctx f64 fromPeer cmd st).1, Accepted f64 version f) ↔ ¬ Quotes w cmd := by
  have hput := startPut_safe w.debugStr_oneLine w.debugBytes_oneLine w.server w.node w.readings
    fromPeer
  have hdel := startDel_safe w.debugStr_oneLine w.debugBytes_oneLine w.server w.node fromPeer
  have hok {reply : Frame × World P} (h : Accepted f64 version reply.1) :
      (∀ f ∈ (single st reply).1, Accepted f64 version f) ↔ ¬ False :=
    iff_of_true (single_accepted.2 h) id
  cases cmd with
  | dmScan part dmap cursor options => exact single_accepted.trans (dmScan_accepted_iff _ _ _ _)
  | internalNodeUpdateRouting table =>
    exact single_accepted.trans (internalNodeUpdateRouting_accepted_iff table)
  | ping | auth | hello | quit => exact iff_of_true (by simp [handle]) id
  | stats => exact hok stats_accepted
  | dmPut dmap key value o => exact hok (onCluster_accepted (hput dmap key value o))
  | dmGet dmap key => exact hok (dmGet_accepted fromPeer dmap key)
  | dmDel dmap keys => exact hok (onCluster_accepted (hdel dmap keys))
  | dmExpire | dmPexpire => exact hok (onNode_accepted (dmExpire_oneLine _ _ _))
  | dmIncr => exact hok (onNode_accepted (dmIncr_oneLine _ _ _))
  | dmDecr => exact hok (onNode_accepted (dmDecr_oneLine _ _ _))
  | dmGetPut => exact hok (onNode_accepted (dmGetPut_oneLine _ _ _))
  | dmIncrByFloat => exact hok (onNode_accepted (dmIncrByFloat_oneLine _ _ _ _ _))
  | dmDestroy => exact hok (onNode_accepted dmDestroy_oneLine)
  | clusterMembers => exact hok clusterMembers_accepted
  | clusterRoutingTable => exact hok clusterRoutingTable_accepted
  | clusterReady => exact hok clusterReady_accepted
  | internalNodeLengthOfPart => exact hok (accepted_integer _)
  | internalNodeGetWithTs dmap key => exact hok (internalNodeGetWithTs_accepted dmap key)
  | internalNodeMoveFragment part type dmap payload =>
    exact hok (onNode_accepted (moveFragment_oneLine _ _ _ _))
  | internalNodePublish | publish | pubsubNumpat =>
    exact hok (onRegistry_accepted fun _ _ => accepted_count _)
  | pubsubChannels pattern => exact hok (pubsubChannels_accepted pattern)
  | pubsubNumsub channels => exact hok (pubsubNumsub_accepted channels)
  | subscribe | psubscribe => exact iff_of_true (subscribing_accepted _ _ _ st) id
  | unsubscribe | punsubscribe => exact iff_of_true (unsubscribing_accepted _ _ _ _ st) id

def Credentials (ctx : ServerContext) (username : Option Bytes) (password : Bytes) : Prop :=
  ctx.clusterSecret ≠ "" ∧ password = asBytes ctx.clusterSecret
    ∨ ctx.password ≠ "" ∧ (∀ name ∈ username, name = asBytes "default")
      ∧ password = asBytes ctx.password

/-- The client may use `HELLO`: by the credentials it sends with it, or as it is. -/
def Entitled (ctx : ServerContext) (st : Session) (args : HelloArgs) : Prop :=
  (∃ username password, args.auth = some (username, password) ∧ Credentials ctx username password)
    ∨ args.auth = none ∧ st.auth ≠ .unauthenticated

theorem auth_accepted (username : Option Bytes) (password : Bytes) :
    Accepted f64 version (auth ctx st username password).1 := by
  unfold auth
  split_ifs
  · exact accepted_simpleString.2 (by decide)
  · exact accepted_error.2 (by decide)
  · exact accepted_error.2 (by decide)
  · exact accepted_simpleString.2 (by decide)
  · exact accepted_error.2 (by decide)

theorem auth_isError_iff {username : Option Bytes} {password : Bytes} :
    (auth ctx st username password).1.isError = false ↔ Credentials ctx username password := by
  have hdefault : username.any (fun b => decide (b ≠ asBytes "default")) = true
      ↔ ¬ ∀ name ∈ username, name = asBytes "default" := by
    cases username <;> simp
  unfold auth Credentials
  split_ifs with hsecret hnone huser hpass
  · exact iff_of_true rfl (.inl hsecret)
  · exact iff_of_false (by simp [Frame.isError, noPasswordSet])
      (not_or.2 ⟨hsecret, fun h => h.1 hnone⟩)
  · exact iff_of_false (by simp [Frame.isError, wrongpass])
      (not_or.2 ⟨hsecret, fun h => hdefault.1 huser h.2.1⟩)
  · exact iff_of_true rfl (.inr ⟨hnone, not_not.1 (mt hdefault.2 huser), hpass⟩)
  · exact iff_of_false (by simp [Frame.isError, wrongpass])
      (not_or.2 ⟨hsecret, fun h => hpass h.2.2⟩)

theorem helloReply_accepted_iff (args : HelloArgs) :
    Accepted f64 .resp2 (helloReply ctx st args).1 ↔ args.protocolVersion ≠ some 3 := by
  have hpairs : Accepted f64 .resp2 (buildHelloResponse ctx false) := by
    simp [buildHelloResponse]
  unfold helloReply
  dsimp only
  split
  · rename_i h
    exact iff_of_true hpairs (by simp [h])
  · rename_i h
    exact iff_of_true hpairs (by simp [h])
  · rename_i h
    exact iff_of_false not_accepted_map (not_not.2 h)
  · rename_i other h₂ h₃ h
    refine iff_of_true (accepted_error.2 (.append (by decide) (oneLine_nat _))) ?_
    simpa [h] using h₃

theorem hello_accepted_iff (args : HelloArgs) : Accepted f64 .resp2 (hello ctx st args).1
      ↔ ¬ (args.protocolVersion = some 3 ∧ Entitled ctx st args) := by
  unfold hello Entitled
  rcases hauth : args.auth with _ | ⟨username, password⟩
  · dsimp only
    split_ifs with hun
    · exact iff_of_true (accepted_error.2 (by decide)) (by simp [hun])
    · rw [helloReply_accepted_iff]
      simp [hun]
  dsimp only
  split_ifs with herror
  · refine iff_of_true (auth_accepted username password) ?_
    have hnot : ¬ Credentials ctx username password := fun h => by
      rw [auth_isError_iff.2 h] at herror
      cases herror
    simp [hnot]
  · rw [helloReply_accepted_iff]
    have hcred := auth_isError_iff.1 (Bool.not_eq_true _ ▸ herror)
    simp [hcred]

/-- `dispatch` gets to the command's handler. -/
def Passes {W : Type} (b : Backend W) (ctx : ServerContext) (st : Session) (w : W)
    (cmd : Command) : Prop :=
  (st.isAuthed ∨ cmd.isPreAuthCommand) ∧ isInternalAllowed ctx st cmd
    ∧ (st.inPubsubMode = false ∨ cmd.isPubsubModeAllowed)
    ∧ (st.internode ∨ cmd.isDmapOp = false ∨ b.memberQuorumOk w)
    ∧ (st.internode ∨ checkRouting b w cmd = none)

variable {W : Type} {b : Backend W}

theorem dispatch_of_passes {w : W} (h : Passes b ctx st w cmd) :
    dispatch b ctx st w cmd = handleCommand b ctx st w cmd := by
  obtain ⟨hauth, hinternal, hpubsub, hquorum, hroute⟩ := h
  unfold dispatch
  rw [if_neg, if_neg, if_neg, if_neg]
  · rcases hroute with h | h
    · rw [if_pos h]
    · rw [h, ite_self]
  · rcases hquorum with h | h | h <;> simp [h]
  · rcases hpubsub with h | h <;> simp [h]
  · simp [hinternal]
  · rcases hauth with h | h <;> simp [h]

theorem oneLine_verb (cmd : Command) : OneLine cmd.verb := by
  unfold Command.verb
  split <;> decide

theorem oneLine_moved {w : W} {moved : Frame}
    (hmoved : ∀ dmap key route, b.routeKey w dmap key = some route → OneLine route.2)
    (h : checkRouting b w cmd = some moved) : ∃ s, OneLine s ∧ moved = .error s := by
  unfold checkRouting at h
  split at h
  · cases h
  rename_i dmap key _
  obtain ⟨⟨part, target⟩, hroute, rfl⟩ := map_eq_some_iff.1 h
  refine ⟨_, .append (.append (.append (by decide) ?_) (by decide)) (hmoved dmap key _ hroute),
    rfl⟩
  exact oneLine_uint32 part

theorem dispatch_of_not_passes {w : W}
    (hmoved : ∀ dmap key route, b.routeKey w dmap key = some route → OneLine route.2)
    (h : ¬ Passes b ctx st w cmd) :
    ∃ s, OneLine s ∧ dispatch b ctx st w cmd = ([.error s], .continued, st, w) := by
  unfold dispatch
  split
  · exact ⟨_, by decide, rfl⟩
  rename_i hauth
  split
  · exact ⟨_, by decide, rfl⟩
  rename_i hinternal
  split
  · refine ⟨_, .append (.append (.append (by decide) (oneLine_verb cmd)) ?_) ?_, rfl⟩ <;> decide
  rename_i hpubsub
  split
  · exact ⟨_, by decide, rfl⟩
  rename_i hquorum
  split
  · rename_i moved hroute
    by_cases hpeer : st.internode = true
    · rw [if_pos hpeer] at hroute
      cases hroute
    · rw [if_neg hpeer] at hroute
      obtain ⟨s, hs, rfl⟩ := oneLine_moved hmoved hroute
      exact ⟨s, hs, rfl⟩
  rename_i hroute
  refine absurd ⟨?_, ?_, ?_, ?_, ?_⟩ h
  · simpa [or_iff_not_imp_left] using hauth
  · simpa using hinternal
  · simpa [or_iff_not_imp_left] using hpubsub
  · simpa [or_iff_not_imp_left] using hquorum
  · exact or_iff_not_imp_left.2 fun hpeer => (if_neg hpeer).symm.trans hroute

theorem backend_routeKey_oneLine (dmap key : Bytes) (route : UInt32 × SocketAddr)
    (h : (backend ctx f64).routeKey w dmap key = some route) : OneLine route.2 := by
  obtain ⟨r, hr, h⟩ := bind_eq_some_iff.1 h
  obtain ⟨target, htarget, rfl⟩ := map_eq_some_iff.1 h
  obtain ⟨p, hp, rfl⟩ := map_eq_some_iff.1 hr
  unfold Routing.routeKey Routing.primaryOf at htarget
  split at htarget
  · cases htarget
  rename_i primary hprimary
  obtain ⟨t, ht, hhead⟩ := bind_eq_some_iff.1 hprimary
  split_ifs at htarget
  cases htarget
  exact p.addr_oneLine t ht _ primary (mem_of_head? hhead)

/-- The reply to the command, once it gets to its handler, is not taken at RESP2. -/
def Undeliverable (ctx : ServerContext) (st : Session) (w : World P) : Command → Prop
  | .hello args => args.protocolVersion = some 3 ∧ Entitled ctx st args
  | cmd => Quotes w cmd

theorem handleCommand_accepted_iff (cmd : Command) :
    (∀ f ∈ (handleCommand (backend ctx f64) ctx st w cmd).1, Accepted f64 .resp2 f)
      ↔ ¬ Undeliverable ctx st w cmd := by
  have hhandle : (∀ f ∈ (w.handle ctx f64 st.internode cmd st.pubSub).1, Accepted f64 .resp2 f)
      ↔ ¬ Quotes w cmd :=
    handle_accepted_iff st.internode cmd st.pubSub
  cases cmd with
  | ping message =>
    refine iff_of_true ?_ id
    cases message with
    | none =>
      simp [handleCommand, ping]
      decide
    | some m => simp [handleCommand, ping]
  | auth username password =>
    refine iff_of_true ?_ id
    simpa [handleCommand] using auth_accepted username password
  | hello args =>
    have hhello : Accepted f64 .resp2 (hello ctx st args).1
        ↔ ¬ Undeliverable ctx st w (.hello args) :=
      hello_accepted_iff args
    rw [← hhello]
    simp [handleCommand]
  | quit =>
    refine iff_of_true ?_ id
    simp [handleCommand]
    decide
  | _ => exact hhandle

end Dispatch

section Connection

variable {P : Type} {ctx : ServerContext} {st : Session}

section Serve

variable {W : Type} {b : Backend W} {w : W} {cmd : Command} {frame : Frame}
  {parse : Frame → Except String Command}

theorem serve_frames (h : parse frame = .ok cmd) :
    (serve b ctx st parse frame w).frames = (dispatch b ctx st w cmd).1 := by
  unfold serve
  rw [h]
  dsimp only
  split <;> simp_all

theorem serve_version (h : parse frame = .ok cmd)
    (hout : (dispatch b ctx st w cmd).2.1 ≠ .upgradeToResp3) :
    (serve b ctx st parse frame w).session.version = (dispatch b ctx st w cmd).2.2.1.version := by
  unfold serve
  rw [h]
  dsimp only
  split <;> simp_all

end Serve

theorem auth_version (username : Option Bytes) (password : Bytes) :
    (auth ctx st username password).2.version = st.version := by
  unfold auth
  split_ifs <;> rfl

theorem helloReply_upgrade {args : HelloArgs}
    (h : (helloReply ctx st args).2.1 = .upgradeToResp3) : args.protocolVersion = some 3 := by
  unfold helloReply at h
  dsimp only at h
  split at h
  · cases h
  · cases h
  · assumption
  · cases h

theorem helloReply_version (args : HelloArgs) :
    (helloReply ctx st args).2.2.version = st.version := by
  obtain ⟨version, _, _ | name⟩ := args <;> (unfold helloReply; dsimp only; split) <;> rfl

theorem hello_upgrade {args : HelloArgs} (h : (hello ctx st args).2.1 = .upgradeToResp3) :
    ¬ Accepted f64 .resp2 (hello ctx st args).1 := by
  unfold hello at h ⊢
  split
  · rename_i username password hauth
    rw [hauth] at h
    dsimp only at h ⊢
    split_ifs at h ⊢
    exact fun hacc => (helloReply_accepted_iff args).1 hacc (helloReply_upgrade h)
  rename_i hauth
  rw [hauth] at h
  dsimp only at h
  split_ifs at h ⊢
  exact fun hacc => (helloReply_accepted_iff args).1 hacc (helloReply_upgrade h)

theorem hello_version (args : HelloArgs) : (hello ctx st args).2.2.version = st.version := by
  unfold hello
  split
  · rename_i username password _
    dsimp only
    split_ifs
    · exact auth_version username password
    · exact (helloReply_version args).trans (auth_version username password)
  · split_ifs
    · rfl
    · exact helloReply_version args

theorem handleCommand_version {W : Type} {b : Backend W} {w : W} (cmd : Command) :
    (handleCommand b ctx st w cmd).2.2.1.version = st.version := by
  cases cmd with
  | auth username password => exact auth_version username password
  | hello args => exact hello_version args
  | _ => rfl

theorem handleCommand_upgrade {W : Type} {b : Backend W} {w : W} {cmd : Command}
    (h : (handleCommand b ctx st w cmd).2.1 = .upgradeToResp3) :
    ∃ f ∈ (handleCommand b ctx st w cmd).1, ¬ Accepted f64 .resp2 f := by
  cases cmd with
  | hello args => exact ⟨_, mem_singleton_self _, hello_upgrade h⟩
  | _ => cases h

variable (printable f64 ctx) in
/-- What the loop takes up has replies the encoder takes at RESP2. -/
def Answerable (st : Session) : Incoming P → Prop
  | .frame frame w => ¬ BrokenVerb frame ∧ ∀ cmd, Command.parse printable f64 frame = .ok cmd →
      Passes (World.backend ctx f64) ctx st w cmd → ¬ Undeliverable ctx st w cmd
  | .message _ => True

variable (printable f64 ctx) in
/-- The encoder takes every reply of the turn. -/
def Delivered (st : Session) (i : Incoming P) : Prop :=
  ∀ f ∈ (st.turn printable f64 ctx i).replies, Accepted f64 st.version f

theorem deliverMessageFrame_accepted (msg : PubSub.DeliveredMessage) (version : ProtocolVersion) :
    Accepted f64 version (deliverMessageFrame msg version) := by
  obtain ⟨channel, pattern, payload⟩ := msg
  cases version
  · cases pattern <;> exact accepted_array.2 (by simp)
  · cases pattern <;> exact accepted_push (by simp)

theorem delivered_iff (hv : st.version = .resp2) (i : Incoming P) :
    Delivered printable f64 ctx st i ↔ Answerable printable f64 ctx st i := by
  unfold Delivered
  rw [hv]
  cases i with
  | message msg =>
    refine iff_of_true (fun f hf => ?_) trivial
    unfold turn at hf
    split_ifs at hf
    · obtain rfl := mem_singleton.1 hf
      rw [hv]
      exact deliverMessageFrame_accepted msg .resp2
    · cases hf
  | frame frame w =>
    change (∀ f ∈ (serve (backend ctx f64) ctx st (parseText printable f64) frame w).frames,
      Accepted f64 .resp2 f) ↔ _
    rcases hparse : Command.parse printable f64 frame with e | cmd
    · have htext : parseText printable f64 frame = .error e.text := by
        rw [parseText, hparse, Except.mapError]
      have hframes : (serve (backend ctx f64) ctx st (parseText printable f64) frame w).frames
          = [.error ("ERR " ++ e.text)] := by
        rw [serve, htext]
      rw [hframes]
      have hline : BrokenVerb frame ↔ ¬ OneLine e.text := by
        refine ⟨fun h => ?_, fun h => by_contra fun hb => h (oneLine_parse_error hb e hparse)⟩
        obtain ⟨e', he', hline⟩ := @parse_of_brokenVerb printable f64 _ h
        rw [hparse] at he'
        exact Except.error.inj he' ▸ hline
      simp only [mem_singleton, forall_eq, accepted_error, Answerable, hline, hparse,
        reduceCtorEq, false_implies, implies_true, and_true, not_not]
      exact oneLine_append.trans (and_iff_right (by decide))
    have htext : parseText printable f64 frame = .ok cmd := by
      rw [parseText, hparse, Except.mapError]
    have hverb : ¬ BrokenVerb frame := fun h => by
      obtain ⟨e', he', -⟩ := @parse_of_brokenVerb printable f64 _ h
      rw [hparse] at he'
      cases he'
    rw [serve_frames htext]
    simp only [Answerable, hverb, hparse, Except.ok.injEq, forall_eq', not_false_eq_true, true_and]
    by_cases hpass : Passes (backend ctx f64) ctx st w cmd
    · rw [dispatch_of_passes hpass, handleCommand_accepted_iff]
      simp [hpass]
    · obtain ⟨s, hs, hd⟩ := dispatch_of_not_passes backend_routeKey_oneLine hpass
      rw [hd]
      simp [hpass, accepted_error, hs]

theorem step_eq_some_iff {i : Incoming P} {st' : Session} : st.step printable f64 ctx i = some st'
      ↔ Delivered printable f64 ctx st i ∧ (st.turn printable f64 ctx i).next = some st' := by
  unfold step Delivered
  rw [← encodeItems_ok_iff []]
  dsimp only
  split <;> simp_all

theorem version_step {i : Incoming P} {st' : Session} (hv : st.version = .resp2)
    (h : st.step printable f64 ctx i = some st') : st'.version = .resp2 := by
  obtain ⟨hdelivered, hnext⟩ := step_eq_some_iff.1 h
  cases i with
  | message msg => exact some.inj hnext ▸ hv
  | frame frame w =>
    have hserved : (serve (backend ctx f64) ctx st (parseText printable f64) frame w).session
        = st' := by
      unfold turn at hnext
      dsimp only at hnext
      split_ifs at hnext
      exact some.inj hnext
    rw [← hserved]
    rcases hparse : parseText printable f64 frame with e | cmd
    · rw [serve, hparse]
      exact hv
    have hframes : ∀ f ∈ (dispatch (backend ctx f64) ctx st w cmd).1, Accepted f64 .resp2 f := by
      intro f hf
      rw [← serve_frames hparse] at hf
      exact hv ▸ hdelivered f hf
    by_cases hpass : Passes (backend ctx f64) ctx st w cmd
    · rw [dispatch_of_passes hpass] at hframes
      have hout : (dispatch (backend ctx f64) ctx st w cmd).2.1 ≠ .upgradeToResp3 := by
        rw [dispatch_of_passes hpass]
        intro hup
        obtain ⟨f, hf, hnot⟩ := @handleCommand_upgrade f64 _ _ _ _ _ _ hup
        exact hnot (hframes f hf)
      rw [serve_version hparse hout, dispatch_of_passes hpass, handleCommand_version, hv]
    · obtain ⟨s, -, hd⟩ := dispatch_of_not_passes backend_routeKey_oneLine hpass
      have hout : (dispatch (backend ctx f64) ctx st w cmd).2.1 ≠ .upgradeToResp3 := by
        simp [hd]
      rw [serve_version hparse hout, hd, hv]

/-- Along a connection the encoder takes every reply, if and only if each frame is one the server
can answer at RESP2. -/
theorem replies_accepted_iff (printable : Char → Bool) (f64 : F64Text) (ctx : ServerContext)
    (incoming : List (Incoming P)) :
    (∀ before i after st, incoming = before ++ i :: after →
        exec (step printable f64 ctx) (.start ctx) before = some st →
        ∀ f ∈ (st.turn printable f64 ctx i).replies, Accepted f64 st.version f)
      ↔ Guarded (step printable f64 ctx) (Answerable printable f64 ctx) (.start ctx)
          incoming := by
  have hall : Guarded (step printable f64 ctx) (Delivered printable f64 ctx) (.start ctx)
      incoming ↔ _ := guarded_iff_forall
  have hfree : Guarded (step printable f64 ctx) (fun _ _ => True) (.start ctx) incoming :=
    .of_forall (fun _ _ => trivial) _ _
  refine hall.symm.trans (Guarded.congr (fun st => st.version = .resp2) ?_ ?_ rfl hfree)
  · intro st i st' hv _ h
    exact version_step hv h
  · intro st i hv _
    exact delivered_iff hv i

def openServer : ServerContext := { password := "", clusterSecret := "", version := "0", id := 1 }

def standalone : World Unit where
  env := ⟨fun _ => 0, fun _ _ _ => [], fun _ => "", fun _ => ""⟩
  node := ⟨∅, 0⟩
  self := "a"
  runtime := none
  members := none
  metrics := ⟨0, 1, 1, 0⟩
  pubsub := none
  registry := ()
  readings := ⟨fun _ => 0, 0⟩
  guard := true
  partitionCount := 1
  regex := fun _ => .ok fun _ => true
  addF64 := fun a _ => a
  ask := fun _ _ n => ([], n)
  read := fun _ _ => none
  debugStr_oneLine := fun _ => (by decide : OneLine "")
  debugBytes_oneLine := fun _ => (by decide : OneLine "")
  ask_oneLine := fun _ _ _ _ h => by simp at h

/-- `HELLO 3` as a connection's first frame, and a verb with a line break: neither is answered. -/
theorem hello3_not_answered :
    let f64 : F64Text := ⟨fun _ => none, fun _ => ""⟩
    let turn (args : List Bytes) := (start openServer).turn (fun _ => true) f64 openServer
      (.frame (frameOf args) standalone)
    let step (args : List Bytes) := (start openServer).step (fun _ => true) f64 openServer
      (.frame (frameOf args) standalone)
    (start openServer).version = .resp2
      ∧ (turn [asBytes "HELLO", asBytes "3"]).replies = [buildHelloResponse openServer true]
      ∧ ¬ Accepted f64 .resp2 (buildHelloResponse openServer true)
      ∧ step [asBytes "HELLO", asBytes "3"] = none
      ∧ (turn [asBytes "GET\n"]).replies = [.error "ERR unknown command: GET\n"]
      ∧ ¬ Accepted f64 .resp2 (.error "ERR unknown command: GET\n")
      ∧ step [asBytes "GET\n"] = none := by
  intro f64 turn step
  have hhello : (turn [asBytes "HELLO", asBytes "3"]).replies
      = [buildHelloResponse openServer true] := rfl
  have hverb : (turn [asBytes "GET\n"]).replies = [.error "ERR unknown command: GET\n"] := by
    rfl
  refine ⟨rfl, hhello, not_accepted_map, ?_, hverb, ?_, ?_⟩
  · rfl
  · exact fun h => absurd (accepted_error.1 h) (by decide)
  · rfl

end Connection

end Kamino.Resp
