import Consensus.Cluster.Replicators

/-!
# The event loop of a node

A running node handles one event after another. What others see of it changes after every
event that it handled. A fatal error ends the loop: the node stops, and every caller that still
waits loses its ticket. The heartbeat of a leader is a regular tick, first due when the loop
starts; a tick that is taken more than a moment late shifts the ones after it.
-/

namespace Consensus.Cluster

variable {σ : Type}

/-- Do to the outside what the node on `host` causes. -/
def perform (c : Cluster σ) (host : Nat) (effect : Effect) : Cluster σ :=
  match c.hosts.get? host with
  | none => c
  | some h =>
    match effect with
    | .answer ticket answer => c.enqueue (.answered ticket (some answer))
    | .requestVote peer request => c.launch {
        sender := .candidate host request.term
        origin := h.node.self
        target := peer
        request := .requestVote request
        deadline := some (c.now + h.node.settings.requestTimeout) }
    | .startReplicator peer => c.startReplicator host peer
    | .stopReplicator peer => c.stopReplicator host peer
    | .dispatch peer request batch => c.dispatch host peer request batch
    | .resetElectionTimer =>
      let (fireAt, c) := c.drawElection h.node.settings
      c.updateHost host fun h => { h with electionAt := fireAt }
    | .consume _ _ => c
    | .announce applied => c.updateHost host fun h => { h with applied := applied }

/-- Do to the outside all that the node on `host` has caused. -/
def performAll (c : Cluster σ) (host : Nat) (node : Node σ) : Cluster σ :=
  let c := c.updateHost host fun h => { h with node := { node with effects := [] } }
  node.effects.foldl (fun c effect => c.perform host effect) c

/-- Every ticket of `host` that is not answered is lost. -/
def loseTickets (c : Cluster σ) (host : Nat) : Cluster σ :=
  let lost := c.pendings.rows.filter fun row => row.2.host == host
  lost.foldl (fun c row => c.enqueue (.answered row.1 row.2.kind.lost)) c

/-- Cut the event loop of `host` short, if it runs. Nothing the node holds is answered. -/
def crash (c : Cluster σ) (host : Nat) : Cluster σ :=
  match c.hosts.get? host with
  | none => c
  | some h =>
    if h.isRunning then
      let c := h.replicators.keys.foldl (fun c peer => c.stopReplicator host peer) c
      (c.updateHost host fun h => { h with run := .crashed }).loseTickets host
    else c

/-- End the event loop of `host`, if it runs: the node tells its callers and stops. -/
def finishLoop (c : Cluster σ) (host : Nat) (run : RunState) : Cluster σ :=
  match c.hosts.get? host with
  | none => c
  | some h =>
    if h.isRunning then
      ((c.performAll host h.node.stop).updateHost host fun h =>
        { h with run := run }).loseTickets host
    else c

variable [Storage σ]

/-- Have the node on `host` handle an event. -/
def handleEvent (c : Cluster σ) (host : Nat) (event : Event) : Cluster σ :=
  match c.hosts.get? host with
  | none => c
  | some h =>
    match outcome (@Node.handle σ _ .words event) h.node with
    | (.ok (), node) =>
      (c.performAll host node).updateHost host fun h => { h with status := node.status }
    | (.error e, node) => (c.performAll host node).finishLoop host (.failed e)

/-- How late a tick may be taken without shifting the ones after it. -/
def tickTolerance : Nat := 5

/-- When the next tick is due after one that was due at `due` is taken now. -/
def nextTick (now due period : Nat) : Nat :=
  if now ≤ due + tickTolerance then due + period else now + period

/-- Take the heartbeat tick of the leader on `host`. -/
def takeTick (c : Cluster σ) (host : Nat) : Cluster σ :=
  (c.updateHost host fun h => { h with
    heartbeatAt := nextTick c.now h.heartbeatAt h.node.settings.heartbeat }).handleEvent
      host .heartbeat

/-- The first host that leads and whose heartbeat is due. -/
def dueTick? (c : Cluster σ) : Option Nat :=
  (c.hosts.rows.find? fun (_, h) => h.isRunning && h.leads && h.heartbeatAt ≤ c.now).map Prod.fst

end Consensus.Cluster
