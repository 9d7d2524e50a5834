import Consensus.Cluster.Clock

/-!
# Starting and ending nodes

A node starts at a site, over its disk and consumer, as a new host. When the start is refused,
what it already did to disk and consumer stays, and what others saw of the host before stays
what they see.
-/

namespace Consensus.Cluster

variable {σ : Type}

/-- Make the node at `site` reachable on the network. -/
def register (c : Cluster σ) (site : Nat) : Cluster σ :=
  match c.hostAt? site with
  | some (host, h) => { c with network := c.network.map (·.register h.node.self host) }
  | none => c

/-- Cut the event loop at `site` short. -/
def crashSite (c : Cluster σ) (site : Nat) : Cluster σ :=
  match c.hostAt? site with
  | some (host, _) => c.crash host
  | none => c

/-- Put a recovered node into its event loop, and make it reachable. -/
def runNode (c : Cluster σ) (site : Nat) (node : Node σ) : Cluster σ :=
  let (host, c) := c.takeNumber
  let (electionAt, c) := c.drawElection node.settings
  ({ c with
    sites := c.sites.insert site ⟨host, node.settings⟩
    hosts := c.hosts.insert host {
      node := node
      run := .running
      status := node.status
      applied := node.standing.lastApplied
      electionAt := electionAt
      heartbeatAt := c.now
      replicators := ∅ } } : Cluster σ).register site

/-- Change the disk of the node at `site` from outside. -/
def updateDisk (c : Cluster σ) (site : Nat) (change : σ → σ) : Cluster σ :=
  match c.hostAt? site with
  | some (host, _) =>
    c.updateHost host fun h => { h with node := { h.node with disk := change h.node.disk } }
  | none => c

/-- Change the network. -/
def updateNetwork (c : Cluster σ) (change : Network → Network) : Cluster σ :=
  { c with network := c.network.map change }

variable [Storage σ]

/-- Start a node at the site named for it; a refused start leaves what it did to disk and
consumer. -/
def start (c : Cluster σ) (settings : Settings) (durable : Durable σ) :
    Except (Error × Durable σ) (Cluster σ) :=
  match outcome (@Node.recover σ _ .words settings) durable with
  | (.ok node, _) => .ok ((c.crashSite settings.nodeId).runNode settings.nodeId node)
  | (.error e, durable) => .error (e, durable)

/-- Start the node at `site` again, over the same disk. A running one is cut short first. A
refused start leaves the host in place, its disk and consumer as the start left them. -/
def restart (c : Cluster σ) (site : Nat) (settings : Option Settings)
    (consumer : Recorder → Recorder) : Except Error Unit × Cluster σ :=
  let c := c.crashSite site
  match c.sites.get? site, c.hostAt? site with
  | some place, some (host, h) =>
    let settings := settings.getD place.settings
    match outcome (@Node.recover σ _ .words settings) ⟨h.node.disk, consumer h.node.recorder⟩ with
    | (.ok node, _) => (.ok (), c.runNode site node)
    | (.error e, durable) =>
      let c := { c with sites := c.sites.insert site { place with settings := settings } }
      (.error e, c.updateHost host fun h => { h with node := { h.node with
        disk := durable.disk, recorder := durable.recorder } })
  | _, _ => (.ok (), c)

/-- Tell the event loop at `site` to stop. -/
def shutdown (c : Cluster σ) (site : Nat) : Cluster σ :=
  match c.hostAt? site with
  | some (host, _) => c.finishLoop host .stopped
  | none => c

end Consensus.Cluster
