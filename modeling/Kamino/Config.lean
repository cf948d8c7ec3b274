import Kamino.Routing

/-!
# The configuration

`Config::validate` checks each section, then what spans sections, then what the mode rules out and,
under the production profile, the guards.
-/

namespace Kamino

inductive Mode where
  | standalone
  | embeddedSolo
  | embeddedClustered
  deriving DecidableEq

inductive Profile where
  | development
  | production
  | custom
  deriving DecidableEq

def Profile.enforcesProductionGuards (p : Profile) : Bool := p = .production

inductive ConfigError where
  | config (msg : String)
  | productionReplicaCount (got : UInt32)
  | productionQuorum (got : UInt32)
  | irrelevantSection (name : String) (mode : Mode)
  deriving DecidableEq

inductive LoadFactor where
  | fine
  /-- Below `1.0`, with its text. -/
  | below (text : String)
  | notFinite
  deriving DecidableEq

structure CoreConfig where
  partitionCount : UInt32 := 271
  replicaCount : UInt32 := 1
  writeQuorum : UInt32 := 1
  readQuorum : UInt32 := 1
  memberCountQuorum : UInt32 := 1
  replicationMode : ReplicationMode := .sync
  loadFactor : LoadFactor := .fine
  virtualNodesPerMember : UInt32 := 20
  deriving DecidableEq

def CoreConfig.validate (c : CoreConfig) : Except ConfigError Unit :=
  if c.partitionCount = 0 then .error (.config "partition_count must be > 0")
  else if c.replicaCount = 0 then .error (.config "replica_count must be >= 1")
  else if c.writeQuorum = 0 then .error (.config "write_quorum must be >= 1")
  else if c.readQuorum = 0 then .error (.config "read_quorum must be >= 1")
  else if c.memberCountQuorum = 0 then .error (.config "member_count_quorum must be >= 1")
  else
    match c.loadFactor with
    | .below text => .error (.config ("load_factor must be >= 1.0, got " ++ text))
    | .notFinite => .error (.config "load_factor must be finite")
    | .fine =>
      if c.virtualNodesPerMember = 0 then
        .error (.config "virtual_nodes_per_member must be >= 1")
      else .ok ()

structure AuthConfig where
  password : String := ""
  clusterSecret : String := ""
  deriving DecidableEq

structure Config where
  mode : Mode := .embeddedSolo
  profile : Profile := .development
  core : CoreConfig := {}
  auth : AuthConfig := {}
  /-- `network.multi_key_strict`. -/
  multiKeyStrict : Bool := false
  /-- `discovery.peers`. -/
  peers : List String := []
  /-- The verdict on the sections from `[network]` to the DMaps'. -/
  sections : Except ConfigError Unit := .ok ()

namespace Config

variable (c : Config)

def validateCrossSection : Except ConfigError Unit :=
  if c.core.writeQuorum > c.core.replicaCount then
    .error (.config ("write_quorum (" ++ toString c.core.writeQuorum ++
      ") cannot exceed replica_count (" ++ toString c.core.replicaCount ++ ")"))
  else if c.core.readQuorum > c.core.replicaCount then
    .error (.config ("read_quorum (" ++ toString c.core.readQuorum ++
      ") cannot exceed replica_count (" ++ toString c.core.replicaCount ++ ")"))
  else .ok ()

def validateModeConsistency : Except ConfigError Unit :=
  if c.mode ≠ .embeddedSolo then .ok ()
  else if c.peers ≠ [] then .error (.irrelevantSection "discovery.peers" c.mode)
  else if c.core.replicaCount > 1 then
    .error (.config ("mode = embedded_solo cannot have replica_count > 1 (got " ++
      toString c.core.replicaCount ++ ")"))
  else if c.core.memberCountQuorum > 1 then
    .error (.config ("mode = embedded_solo cannot have member_count_quorum > 1 (got " ++
      toString c.core.memberCountQuorum ++ ")"))
  else .ok ()

def validateProductionGuards : Except ConfigError Unit :=
  if c.core.replicaCount < 2 then .error (.productionReplicaCount c.core.replicaCount)
  else if c.core.memberCountQuorum < c.core.replicaCount / 2 + 1 then
    .error (.productionQuorum c.core.memberCountQuorum)
  else .ok ()

def validate : Except ConfigError Unit := do
  c.core.validate
  c.sections
  c.validateCrossSection
  c.validateModeConsistency
  if c.profile.enforcesProductionGuards then c.validateProductionGuards

end Config

/-- A configuration that passes validation and asks for a backup. -/
structure ReplicatedConfig extends Config where
  valid : toConfig.validate = .ok ()
  replicas : 2 ≤ core.replicaCount

end Kamino
