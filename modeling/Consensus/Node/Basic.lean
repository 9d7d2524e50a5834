import Consensus.Membership
import Consensus.Node.Effect
import Consensus.Progress
import Consensus.Recorder
import Consensus.Replica
import Consensus.Settings
import Consensus.Table

/-!
# A node

All that one node knows and owns: its replica, the membership, a leader's view of its peers,
the callers that wait for an entry to be applied, the consumer, and the effects caused so far.
A handler of events is a computation on a node that may fail; when it fails, what it did up to
there, on the disk and to the outside, has happened.
-/

namespace Consensus

/-- A caller that waits for an entry of the given term to be applied. -/
structure Waiter where
  term : Nat
  ticket : Nat
deriving DecidableEq

/-- One node. -/
structure Node (σ : Type) extends Replica σ where
  settings : Settings
  membership : Membership
  /-- A leader's view of every peer it replicates to. -/
  peers : Table Progress
  /-- Callers that wait for a command, by its index. -/
  commandWaiters : Table Waiter
  /-- Callers that wait for a membership change, by its index. -/
  changeWaiters : Table Waiter
  /-- Term and vote as last stored. -/
  persisted : HardState
  recorder : Recorder
  /-- The effects caused so far, oldest first. -/
  effects : List Effect

namespace Node

variable {σ : Type}

/-- The id of the node. -/
def self (n : Node σ) : Nat := n.settings.nodeId

/-- Cause an effect. -/
def emit (n : Node σ) (effect : Effect) : Node σ := { n with effects := n.effects ++ [effect] }

/-- Cause several effects in order. -/
def emitAll (n : Node σ) (effects : List Effect) : Node σ :=
  { n with effects := n.effects ++ effects }

/-- Change where the node stands. -/
def mapStanding (n : Node σ) (change : Standing → Standing) : Node σ :=
  { n with standing := change n.standing }

/-- A computation on a node. -/
abbrev Act (σ : Type) := EStateM Error (Node σ)

/-- Do something to the replica only. -/
def onReplica {α : Type} (act : Replica.Act σ α) : Act σ α :=
  onPart Node.toReplica (fun r n => { n with toReplica := r }) act

/-- Do something to the journal only. -/
def onJournal {α : Type} (act : Journal.Act σ α) : Act σ α := onReplica (Replica.onJournal act)

/-- Do something to the disk only. -/
def onDisk {α : Type} (act : EStateM Error σ α) : Act σ α := onJournal (Journal.onDisk act)

/-- What others can see of a node. -/
structure Status where
  nodeId : Nat
  role : Role
  currentTerm : Nat
  leader : Option Nat
  commitIndex : Nat
  lastApplied : Nat
  lastLogIndex : Nat
  lastLogTerm : Nat
  snapshotIndex : Nat
  /-- The number of entries that are not compacted. -/
  logSize : Nat
  /-- The committed members. -/
  members : NodeSet
deriving DecidableEq

/-- What others can see of the node. -/
def status (n : Node σ) : Status :=
  { nodeId := n.self, role := n.standing.role, currentTerm := n.standing.currentTerm,
    leader := n.standing.leader, commitIndex := n.standing.commitIndex,
    lastApplied := n.standing.lastApplied, lastLogIndex := n.log.lastIndex,
    lastLogTerm := n.log.lastTerm, snapshotIndex := n.log.snapshotIndex, logSize := n.log.size,
    members := n.membership.committed }

/-- Answer every waiting caller, commands first, each group by index. -/
def dismissWaiters (n : Node σ) (command change : Answer) : Node σ :=
  { n.emitAll
      (n.commandWaiters.values.map (fun w => .answer w.ticket command) ++
        n.changeWaiters.values.map fun w => .answer w.ticket change) with
    commandWaiters := ∅
    changeWaiters := ∅ }

/-- Stop every replicator. -/
def stopReplication (n : Node σ) : Node σ :=
  { n.emitAll (n.peers.keys.map .stopReplicator) with peers := ∅ }

/-- Replicate to exactly the targets: replicators of other peers stop, new targets start with
nothing known about them but where to begin. -/
def syncPeers (n : Node σ) (targets : NodeSet) (nextIndex : Nat) : Node σ :=
  let dropped := n.peers.keys.filter fun id => decide (id ∉ targets)
  let added := targets.toList.filter fun id => decide (id ≠ n.self) && (n.peers.get? id).isNone
  let kept := n.peers.restrict fun id => decide (id ∈ targets)
  { n.emitAll (dropped.map .stopReplicator ++ added.map .startReplicator) with
    peers := added.foldl (fun peers id => peers.insert id (.start nextIndex)) kept }

/-- The peers that the node replicates to when it leads. -/
def targets (n : Node σ) : NodeSet := n.membership.replicationTargets n.self

/-- After a change of role: a leader that is none any more stops its replicators, tells its
callers, and waits for a full election timeout. -/
def afterRoleChange (n : Node σ) (before : Role) : Node σ :=
  if before ≠ .leader ∨ n.standing.role = .leader then n
  else
    (n.stopReplication.dismissWaiters (.refused .leadershipLost)
      (.change (.refused n.standing.leader))).emit .resetElectionTimer

/-- The end of a node's work: replicators stop, and callers are told. -/
def stop (n : Node σ) : Node σ :=
  n.stopReplication.dismissWaiters (.refused .shutdown) (.change (.refused none))

variable [Storage σ]

/-- Store term and vote if they differ from what is stored. -/
def persist : Act σ Unit := do
  let n ← get
  let hard := n.standing.hardState
  if hard ≠ n.persisted then
    onDisk (Storage.saveHardState hard)
    modify fun n => { n with persisted := hard }

/-- Become a follower of the given term. -/
def stepDown (term : Nat) : Act σ Unit := do
  let before := (← get).standing.role
  modify (·.mapStanding (·.becomeFollower term))
  persist
  modify (·.afterRoleChange before)

end Node

end Consensus
