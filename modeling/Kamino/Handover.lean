import Kamino.Calls

/-!
# A migration beside other requests

`migrate_one` gives up its node between its steps: the scan of the export, the round trip to the
receiver, the scan of the clear and each delete of the clear.
-/

namespace Kamino

inductive MigrateStage where
  | idle
  /-- The export has been scanned and is to be sent. -/
  | exported (payload : Bytes)
  /-- The receiver has answered `+OK`. -/
  | sent
  /-- The clear has been scanned, and these hashes are still to be deleted. -/
  | clearing (victims : List UInt64)
  | done (result : Except MigrationError Unit)

inductive MigrateEvent where
  | put (rd : Readings) (dmap key value : Bytes) (options : PutOptions)
  | putPeer (clk : ℕ → UInt64) (dmap key value : Bytes) (options : PutOptions)
  | exportScan (nowMicros : UInt64)
  | send (delivery : Delivery)
  | clearScan
  | clearDelete
  | again

/-- A put the sender has acknowledged. -/
structure Acked where
  dmap : Bytes
  hkey : UInt64
  stamp : Int64

structure HandoverConfig where
  env : Env
  partitionCount : UInt32
  plan : MigrationPlan
  routing : Option Routing

structure Handover where
  source : Node
  receiver : Node
  stage : MigrateStage
  acked : List Acked

namespace Handover

variable (cfg : HandoverConfig) (s : Handover)

/-- A put's acknowledgement, once the sender has stored or merged it. -/
def ack (dmap key : Bytes) : Option Int64 → List Acked
  | none => s.acked
  | some stamp => ⟨dmap, cfg.env.hash64 key, stamp⟩ :: s.acked

def exportStep (nowMicros : UInt64) : MigrateStage :=
  match s.source.exportPartition cfg.env cfg.partitionCount cfg.plan.dmap cfg.plan.partitionId
      nowMicros with
  | .error e => .done (.error (.panicked e))
  | .ok payload => if payload.length ≤ 9 then .done (.ok ()) else .exported payload

def sendStep (delivery : Delivery) (payload : Bytes) : Handover :=
  let (reply, receiver) := s.receiver.receiveFragment cfg.env cfg.routing cfg.plan.partitionId
    .primary cfg.plan.dmap payload
  match delivery with
  | .replied =>
    match fragmentReply cfg.env cfg.plan.peer (.ok reply) with
    | .ok () => { s with receiver, stage := .sent }
    | .error e => { s with receiver, stage := .done (.error (.cluster e)) }
  | .failed true e => { s with receiver, stage := .done (.error (.cluster e)) }
  | .failed false e => { s with stage := .done (.error (.cluster e)) }

def scanStep : MigrateStage :=
  match s.source.dmaps.lookup cfg.plan.dmap with
  | none => .done (.ok ())
  | some d =>
    .clearing (d.fragment.victims cfg.env cfg.partitionCount cfg.plan.dmap cfg.plan.partitionId)

def deleteStep (hkey : UInt64) : Node :=
  match s.source.dmaps.lookup cfg.plan.dmap with
  | none => s.source
  | some d => s.source.setDMap cfg.plan.dmap { d with fragment := (d.fragment.delete hkey).2 }

def step : MigrateEvent → Option Handover
  | .put rd dmap key value o =>
    match s.source.commitPut cfg.env rd dmap key value o with
    | (.ok o, source) => some { s with source, acked := s.ack cfg dmap key o.timestamp }
    | (.error _, source) => some { s with source }
  | .putPeer clk dmap key value o =>
    match s.source.dmPutPeer cfg.env clk dmap key value o with
    | (reply, source) =>
      if reply = .ok then some { s with source, acked := s.ack cfg dmap key o.timestamp }
      else some { s with source }
  | .exportScan nowMicros =>
    match s.stage with
    | .idle => some { s with stage := s.exportStep cfg nowMicros }
    | _ => none
  | .send delivery =>
    match s.stage with
    | .exported payload => some (s.sendStep cfg delivery payload)
    | _ => none
  | .clearScan =>
    match s.stage with
    | .sent => some { s with stage := s.scanStep cfg }
    | _ => none
  | .clearDelete =>
    match s.stage with
    | .clearing [] => some { s with stage := .done (.ok ()) }
    | .clearing (hkey :: victims) =>
      some { s with source := s.deleteStep cfg hkey, stage := .clearing victims }
    | _ => none
  | .again =>
    match s.stage with
    | .done _ => some { s with stage := .idle }
    | _ => none

end Handover

end Kamino
