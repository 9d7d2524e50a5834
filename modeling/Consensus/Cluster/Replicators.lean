import Consensus.Cluster.Basic

/-!
# Replicators

A replicator carries its requests to the network one after another, and gives up on each after
a while: a snapshot gets ten times as long as entries do. Once stopped it is gone, and so is
the request it carried.
-/

namespace Consensus.Cluster

variable {σ : Type}

/-- How many request timeouts the transfer of a snapshot may take. -/
def snapshotPatience : Nat := 10

/-- How long a replicator waits for the end of a request. -/
def patience (settings : Settings) : BatchKind → Nat
  | .append _ _ => settings.requestTimeout
  | .snapshot _ => snapshotPatience * settings.requestTimeout

/-- Start a replicator for a peer. -/
def startReplicator (c : Cluster σ) (host peer : Nat) : Cluster σ :=
  let (id, c) := c.takeNumber
  c.updateHost host fun h => { h with replicators := h.replicators.insert peer ⟨id, false, []⟩ }

/-- Stop the replicator of a peer and drop what it carries. -/
def stopReplicator (c : Cluster σ) (host peer : Nat) : Cluster σ :=
  match (c.hosts.get? host).bind fun h => h.replicators.get? peer with
  | none => c
  | some r =>
    (c.dropFlights fun f => match f.sender with
      | .replicator _ id _ => id == r.id
      | _ => false).updateHost host fun h =>
        { h with replicators := h.replicators.erase peer }

/-- Have the replicator of a peer carry its next request, if it is free and there is one. -/
def driveReplicator (c : Cluster σ) (host peer : Nat) : Cluster σ :=
  match c.hosts.get? host with
  | none => c
  | some h =>
    match h.replicators.get? peer with
    | some ⟨id, false, (request, batch) :: rest⟩ =>
      let c := c.updateHost host fun h =>
        { h with replicators := h.replicators.insert peer ⟨id, true, rest⟩ }
      c.launch {
        sender := .replicator host id batch
        origin := h.node.self
        target := peer
        request := request
        deadline := some (c.now + patience h.node.settings batch.kind) }
    | _ => c

/-- How many requests may wait for a replicator. -/
def queueLimit : Nat := 4

/-- Hand a request to the replicator of a peer. If too many wait for it the request is dropped,
and the node knows that nothing is outstanding. -/
def dispatch (c : Cluster σ) (host peer : Nat) (request : Request) (batch : Batch) :
    Cluster σ :=
  match (c.hosts.get? host).bind fun h => h.replicators.get? peer with
  | none => c
  | some r =>
    if queueLimit ≤ r.waiting.length then
      c.updateHost host fun h => { h with
        node := h.node.recordReply peer fun p => { p with inFlight := false } }
    else
      (c.updateHost host fun h => { h with
        replicators := h.replicators.insert peer
          { r with waiting := r.waiting ++ [(request, batch)] } }).driveReplicator host peer

/-- The request that a replicator carried has ended: tell its node, and go on. -/
def finishReplication (c : Cluster σ) (host id peer : Nat) (batch : Batch)
    (response : Option Response) : Cluster σ :=
  match (c.hosts.get? host).bind fun h => h.replicators.get? peer with
  | none => c
  | some r =>
    if r.id = id then
      ((c.enqueue (.event host (.replicationReply peer batch response))).updateHost host
        fun h => { h with
          replicators := h.replicators.insert peer { r with busy := false } }).driveReplicator
            host peer
    else c

end Consensus.Cluster
