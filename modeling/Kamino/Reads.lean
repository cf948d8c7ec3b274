import Kamino.Calls

/-!
# `DM.GET` on a cluster

A client's `DM.GET` reads its own node first. A primary that misses the key asks the partition's
previous owners and answers with the newest copy they return.
-/

namespace Kamino

/-- A value and its stamp, if a replica has one to return. -/
abbrev Read := Option (Bytes × Int64)

structure ReadSettings where
  readQuorum : ℕ
  readRepair : Bool

def Routing.previousOwnersForKey (env : Env) (r : Routing) (dmap key : Bytes) : List SocketAddr :=
  match r.snapshot with
  | none => []
  | some t =>
    let owners := t.primary (r.partitionForKey env dmap key)
    if owners.head?.map (·.id) ≠ some r.localId then [] else (owners.drop 1).map (·.addr)

namespace Node

variable (env : Env) (n : Node) (dmap key : Bytes)

def fetch (nowMicros : UInt64) : Except Frame (Option Entry) × Node :=
  match n.openKey dmap key with
  | (.error f, n) => (.error f, n)
  | (.ok d, n) =>
    let (entry, d) := d.fetchLive (env.hash64 key) nowMicros
    (.ok entry, n.setDMap dmap d)

def touch (entry : Entry) (nowMicros : UInt64) : Node :=
  match n.dmaps.lookup dmap with
  | none => n
  | some d => n.setDMap dmap (d.touchLastAccess env key entry nowMicros)

end Node

/-- What `INTERNAL.NODE.GETWITHTS` answers: an array of a value and its stamp, or another frame. -/
inductive ReadReply where
  | hit (value : Bytes) (timestamp : Int64)
  | frame (f : Frame)

def internalNodeGetWithTs : Except Frame (Option Entry) → ReadReply
  | .error f => .frame f
  | .ok none => .frame (.bulk none)
  | .ok (some e) => .hit e.value e.timestampNanos

def decodeGetWithTs : Except ClusterError ReadReply → Read
  | .ok (.hit value ts) => some (value, ts)
  | .ok (.frame _) => none
  | .error _ => none

/-- `max_by_key` returns the last of several maxima. -/
def pickHighestTs (replies : List Read) : Read :=
  (replies.filterMap id).foldl (fun best reply =>
    match best with
    | none => some reply
    | some (value, ts) => if ts ≤ reply.2 then some reply else some (value, ts)) none

def staleReplicas (replies : List (SocketAddr × Read)) (winnerTs : Int64) : List SocketAddr :=
  (replies.filter fun p => p.2.all fun reply => reply.2 < winnerTs).map fun p => p.1

/-- Requests that run at once, each with its answer once there is one. -/
abbrev Asked (α : Type*) := List (SocketAddr × Option α)

namespace Asked

variable {α : Type*}

def start (addrs : List SocketAddr) : Asked α := addrs.map fun addr => (addr, none)

def answer (asked : Asked α) (i : ℕ) (x : α) : Asked α := asked.modify i fun p => (p.1, some x)

/-- What `join_all` returns, once every request is answered. -/
def answers : Asked α → Option (List (SocketAddr × α))
  | [] => some []
  | (addr, some x) :: asked => (answers asked).map fun xs => (addr, x) :: xs
  | (_, none) :: _ => none

end Asked

/-- Where a client's `DM.GET` is. `found` is what its own node returned. -/
inductive GetStage where
  /-- The node missed the key and asks the previous owners. -/
  | prior (asked : Asked Read)
  /-- It asks the backups, and the previous owners after them. -/
  | backups (found : Read) (owners : List SocketAddr) (asked : Asked Read)
  | previous (found : Read) (replies : List (SocketAddr × Read)) (asked : Asked Read)
  | done (reply : Frame)

/-- A copy to put on replicas. -/
structure Repair where
  peers : List SocketAddr
  value : Bytes
  timestamp : Int64

/-- What `dm_get` answers with once its fan-out has returned, and the repair it starts. The replies
are one vector, the node's own read last, and are cut apart again by the numbers of peers. -/
def fanOutReply (settings : ReadSettings) (backups owners : List SocketAddr)
    (fromBackups fromOwners : List Read) (found : Read) : Frame × Option Repair :=
  let replies := fromBackups ++ fromOwners ++ [found]
  match pickHighestTs replies with
  | none => (.bulk none, none)
  | some (value, ts) =>
    if settings.readRepair then
      let backupReplies := replies.take backups.length
      let priorReplies :=
        if owners = [] then [] else (replies.drop backups.length).take owners.length
      let stale := staleReplicas (backups.zip backupReplies) ts ++
        staleReplicas (owners.zip priorReplies) ts
      (.bulk (some value), if stale = [] then none else some ⟨stale, value, ts⟩)
    else (.bulk (some value), none)

theorem fanOutReply_fst (settings : ReadSettings) (backups owners : List SocketAddr)
    (fromBackups fromOwners : List Read) (found : Read) :
    (fanOutReply settings backups owners fromBackups fromOwners found).1 =
      .bulk ((pickHighestTs (fromBackups ++ fromOwners ++ [found])).map Prod.fst) := by
  unfold fanOutReply
  dsimp only
  split <;> rename_i hpick <;> rw [hpick]
  · rfl
  · cases settings.readRepair <;> rfl

namespace GetStage

variable (env : Env) (settings : ReadSettings) (dmap key : Bytes)

def localReply (found : Read) : Frame := .bulk (found.map Prod.fst)

/-- The fan-out to the replicas, if one is needed. -/
def fan (r : Routing) (found : Read) : GetStage :=
  if settings.readQuorum ≤ 1 && !settings.readRepair then .done (localReply found)
  else
    let backups := r.backupAddrsForKey env dmap key
    let prior := if settings.readRepair then r.previousOwnersForKey env dmap key else []
    if backups = [] ∧ prior = [] then .done (localReply found)
    else .backups found prior (.start backups)

/-- What `dm_get` goes on with after its local read. -/
def afterLocal (routing : Option Routing) (found : Read) : GetStage :=
  match routing with
  | none => .done (localReply found)
  | some r =>
    let prior := r.previousOwnersForKey env dmap key
    if found = none ∧ prior ≠ [] then .prior (.start prior)
    else fan env settings dmap key r found

/-- The answer of a fan-out, and its repair. -/
def conclude (found : Read) (backups prior : List (SocketAddr × Read)) : GetStage × Option Repair :=
  let (reply, repair) := fanOutReply settings (backups.map Prod.fst) (prior.map Prod.fst)
    (backups.map Prod.snd) (prior.map Prod.snd) found
  (.done reply, repair)

/-- What `dm_get` does once the peers it has asked have answered. -/
def next (r : Routing) : GetStage → Option (GetStage × Option Repair)
  | .prior asked => asked.answers.map fun heard =>
    match pickHighestTs (heard.map Prod.snd) with
    | some (value, _) => (.done (.bulk (some value)), none)
    | none => (fan env settings dmap key r none, none)
  | .backups found owners asked => asked.answers.map fun heard =>
    if owners = [] then conclude settings found heard []
    else (.previous found heard (.start owners), none)
  | .previous found replies asked => asked.answers.map fun heard =>
    conclude settings found replies heard
  | .done _ => none

def asked : GetStage → Asked Read
  | .prior asked | .backups _ _ asked | .previous _ _ asked => asked
  | .done _ => []

def answer (i : ℕ) (reply : Read) : GetStage → GetStage
  | .prior asked => .prior (asked.answer i reply)
  | .backups found owners asked => .backups found owners (asked.answer i reply)
  | .previous found replies asked => .previous found replies (asked.answer i reply)
  | .done frame => .done frame

end GetStage

end Kamino
