import Consensus.Cluster.Handle
import Consensus.Cluster.Network
import Consensus.Gateway
import Consensus.Node.Recovery
import Consensus.Node.Step
import Consensus.Timer

/-!
# Nodes in virtual time

A cluster holds nodes in their event loops, the messages between them, and the calls of
clients, at a virtual time in milliseconds. Everything that can happen without time passing
waits in one queue and happens in the order it was caused. The network is either simulated or
left open: then requests stay until someone answers them.

A node runs at a site. Each start there is a host of its own, so that what is under way to an
ended host never reaches its successor; what the ended host last showed can still be seen.
-/

namespace Consensus

/-- Whether a node's event loop runs, and how it ended. -/
inductive RunState where
  | running
  /-- It was told to stop. -/
  | stopped
  /-- It met a fatal error. -/
  | failed (error : Error)
  /-- It was cut short. -/
  | crashed
deriving DecidableEq

/-- A replicator: it carries one request at a time. -/
structure Replicator where
  /-- Tells it from earlier replicators for the same peer. -/
  id : Nat
  /-- A request is under way. -/
  busy : Bool
  /-- Requests that wait their turn. -/
  waiting : List (Request × Batch)

/-- One start of a node, in its event loop. -/
structure Host (σ : Type) where
  node : Node σ
  run : RunState
  /-- What others last saw of the node. -/
  status : Node.Status
  /-- How far the log was last said to be applied. -/
  applied : Nat
  /-- When the election timer fires. -/
  electionAt : Nat
  /-- When the next heartbeat is due. -/
  heartbeatAt : Nat
  /-- The replicators by peer. -/
  replicators : Table Replicator

/-- Whether the host's event loop runs. -/
def Host.isRunning {σ : Type} (h : Host σ) : Bool := decide (h.run = .running)

/-- Whether the host's node leads. -/
def Host.leads {σ : Type} (h : Host σ) : Bool := decide (h.node.standing.role = .leader)

/-- A place where a node runs. -/
structure Site where
  /-- The latest start there. -/
  host : Nat
  /-- The settings for the next start, unless it brings its own. -/
  settings : Settings

/-- Who sent a request over the network. -/
inductive Sender where
  /-- A candidate of the given term. -/
  | candidate (host term : Nat)
  /-- A leader's replicator. -/
  | replicator (host id : Nat) (batch : Batch)
  /-- A client's call. -/
  | call (id : Nat)
deriving DecidableEq

/-- A request on the network that has not been answered. -/
structure Flight where
  sender : Sender
  /-- The id of the node whose network connection it uses. -/
  origin : Nat
  /-- The id of the node that it is for. -/
  target : Nat
  request : Request
  /-- When the sender gives up. -/
  deadline : Option Nat

/-- How long a caller waits for the answer to a call. -/
def CallKind.patience? (settings : Settings) : CallKind → Option Nat
  | .peer => none
  | .command => some settings.clientTimeout
  | .change => some settings.changeTimeout

/-- Who waits for a node's answer. -/
inductive Consumer where
  | call (id : Nat)
  | flight (id : Nat)
deriving DecidableEq

/-- A ticket that has not been answered. -/
structure Pending where
  host : Nat
  kind : CallKind
  consumer : Consumer
  /-- When the caller gives up. -/
  deadline : Option Nat

/-- How far a client's call has come. -/
inductive CallStage where
  | submit
  | change
  | request
  | campaign
  | relay (submission : Gateway.Submission)
  | relayChange (relay : Gateway.ChangeRelay)
  | askLeader

/-- A client's call. -/
structure Call where
  label : String
  /-- The id of the node whose network connection it uses. -/
  origin : Nat
  stage : CallStage

/-- What a client's call came to. -/
inductive CallResult where
  | index (result : Except Error Nat)
  | change (reply : ChangeReply)
  | response (result : Except Error Response)
  | started (result : Except Error Unit)
  | leader (result : Except Error (Option Nat))

/-- Something that a timer sets off. -/
inductive Alarm where
  | election (host : Nat)
  | heartbeat (host : Nat)
  /-- A sender gives up on a request. -/
  | flight (id : Nat)
  /-- A caller gives up on a ticket. -/
  | ticket (id : Nat)

/-- Something that happens without time passing. -/
inductive Task where
  /-- A node is told of an event. -/
  | event (host : Nat) (event : Event)
  /-- A timer fires. -/
  | alarm (alarm : Alarm)
  /-- A request sets out on the network. -/
  | depart (flight : Nat)
  /-- A ticket is answered, or lost. -/
  | answered (ticket : Nat) (answer : Option Answer)
  /-- A request on the network ends. -/
  | land (flight : Nat) (result : Except Error Response)

/-- Nodes, messages and calls at one moment. -/
structure Cluster (σ : Type) where
  now : Nat := 0
  sites : Table Site := ∅
  hosts : Table (Host σ) := ∅
  /-- The network; without one, requests stay open until they are answered from outside. -/
  network : Option Network := none
  queue : List Task := []
  flights : Table Flight := ∅
  pendings : Table Pending := ∅
  calls : Table Call := ∅
  /-- Calls that ended, in the order they did. -/
  finished : List (String × CallResult) := []
  /-- The next number for a ticket, flight, call, replicator or host. -/
  fresh : Nat := 1
  /-- Where random draws come from. -/
  draws : StdGen := mkStdGen

namespace Cluster

variable {σ : Type}

/-- Have something happen after all that already waits. -/
def enqueue (c : Cluster σ) (task : Task) : Cluster σ := { c with queue := c.queue ++ [task] }

/-- Take a number that was not used before. -/
def takeNumber (c : Cluster σ) : Nat × Cluster σ := (c.fresh, { c with fresh := c.fresh + 1 })

/-- The number of the latest host at a site, and the host. -/
def hostAt? (c : Cluster σ) (site : Nat) : Option (Nat × Host σ) := do
  let host := (← c.sites.get? site).host
  return (host, ← c.hosts.get? host)

/-- Change a host. -/
def updateHost (c : Cluster σ) (id : Nat) (change : Host σ → Host σ) : Cluster σ :=
  { c with hosts := c.hosts.modify id change }

/-- When an election timer set now fires. -/
def drawElection (c : Cluster σ) (settings : Settings) : Nat × Cluster σ :=
  let (draw, draws) := stdNext c.draws
  (c.now + Timer.electionTimeout settings.electionMin settings.electionMax draw,
    { c with draws := draws })

/-- Put a request on the network. A sender without any patience gives up at once. -/
def launch (c : Cluster σ) (flight : Flight) : Cluster σ :=
  let (id, c) := c.takeNumber
  let c := { c with flights := c.flights.insert id flight }
  let c := if c.network.isSome then c.enqueue (.depart id) else c
  if flight.deadline = some c.now then c.enqueue (.alarm (.flight id)) else c

/-- Take the flights off the network that satisfy `lost`. -/
def dropFlights (c : Cluster σ) (lost : Flight → Bool) : Cluster σ :=
  { c with flights := ⟨c.flights.rows.filter fun row => !lost row.2⟩ }

end Cluster

end Consensus
