import RaftGroup.Engine.Basic

namespace RaftGroup

-- Durations are in milliseconds.
structure TransportConfig where
  nodeId : Option String := none
  listenAddress : String := "127.0.0.1:7000"
  connectTimeout : Nat := 1000
  writeTimeout : Nat := 1000
  maxFrameLength : Nat := 4 * 1024 * 1024
  connectThreads : Nat := 4
  sendQueueLength : Nat := 64
  deriving DecidableEq, Repr

structure ReplicaConfig where
  transport : TransportConfig
  peers : List String
  tickInterval : Nat := 50
  engine : Config := {}
  deriving DecidableEq, Repr

def ReplicaConfig.ofListenAddress (address : String) (peers : List String) : ReplicaConfig :=
  { transport := { listenAddress := address }, peers }

end RaftGroup
