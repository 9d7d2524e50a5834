import Consensus.Cluster.Client

/-!
# Messages on their way

A request is checked against the partitions before it is handed to its receiver, and its
response again, in the other direction, before it is handed back. However a request ends, its
sender learns of it once: a candidate as a vote, a replicator as the end of what it carried, a
client's call as the response it waits for.
-/

namespace Consensus.Cluster

variable {σ : Type}

/-- A response on its way back, as it arrives. -/
def returnTrip (c : Cluster σ) (flight : Flight) : Except Error Response → Except Error Response
  | .error e => .error e
  | .ok response => do
    match c.network with
    | some net => let _ ← net.route flight.target flight.origin
    | none => pure ()
    Network.carryResponse response

/-- A request sets out: it is handed to its receiver if the network lets it through. -/
def depart (c : Cluster σ) (id : Nat) : Cluster σ :=
  match c.network, c.flights.get? id with
  | some net, some flight =>
    match net.route flight.origin flight.target with
    | .error e => c.enqueue (.land id (.error e))
    | .ok host =>
      match Network.carryRequest flight.request with
      | .error e => c.enqueue (.land id (.error e))
      | .ok request =>
        match request.event? 0 with
        | some (kind, _) =>
          c.callNode host kind
            (fun ticket => ((request.event? ticket).map Prod.snd).getD .campaign) (.flight id)
        | none =>
          let leader := (c.hosts.get? host).bind (·.status.leader)
          c.enqueue (.land id (c.returnTrip flight (.ok (.leader leader))))
  | _, _ => c

/-- A request on the network ends, and its sender learns of it. -/
def land (c : Cluster σ) (id : Nat) (result : Except Error Response) : Cluster σ :=
  match c.flights.get? id with
  | none => c
  | some flight =>
    let c := { c with flights := c.flights.erase id }
    match flight.sender with
    | .candidate host term =>
      match result with
      | .ok (.vote reply) => c.enqueue (.event host (.voteReply flight.target term reply))
      | _ => c
    | .replicator host replicator batch =>
      c.finishReplication host replicator flight.target batch result.toOption
    | .call call => c.continueRemotely call result

/-- A ticket is answered or lost, and whoever waits for it learns of it. -/
def settleTicket (c : Cluster σ) (ticket : Nat) (answer : Option Answer) : Cluster σ :=
  match c.pendings.get? ticket with
  | none => c
  | some pending =>
    let c := { c with pendings := c.pendings.erase ticket }
    match pending.consumer with
    | .call id => c.continueLocally id answer
    | .flight id =>
      match c.flights.get? id with
      | none => c
      | some flight => c.enqueue (.land id (c.returnTrip flight (Answer.response? answer)))

/-- The answer to a ticket that is on its way to the caller, if there is one. -/
def answerUnderWay? (c : Cluster σ) (ticket : Nat) : Option (Option Answer) :=
  c.queue.findSome? fun task => match task with
    | .answered t answer => if t = ticket then some answer else none
    | _ => none

/-- A caller gives up on a ticket, unless the answer is there already. -/
def giveUp (c : Cluster σ) (ticket : Nat) : Cluster σ :=
  match c.pendings.get? ticket with
  | none => c
  | some p =>
    let late := p.kind.late ((c.hosts.get? p.host).bind (·.status.leader))
    c.settleTicket ticket ((c.answerUnderWay? ticket).getD late)

variable [Storage σ]

/-- A timer fires. It may have been set anew since it was due. -/
def fire (c : Cluster σ) : Alarm → Cluster σ
  | .election host =>
    match c.hosts.get? host with
    | some h =>
      if h.isRunning && !h.leads && h.electionAt ≤ c.now then c.handleEvent host .electionTimeout
      else c
    | none => c
  | .heartbeat host =>
    match c.hosts.get? host with
    | some h => if h.isRunning && h.leads && h.heartbeatAt ≤ c.now then c.takeTick host else c
    | none => c
  | .flight id =>
    match (c.flights.get? id).map Flight.sender with
    | some (.candidate _ _) => { c with flights := c.flights.erase id }
    | _ => c.land id (.error .timeout)
  | .ticket id => c.giveUp id

/-- Let one thing happen. -/
def happen (c : Cluster σ) : Task → Cluster σ
  | .event host event =>
    match c.hosts.get? host with
    | some h => if h.isRunning then c.handleEvent host event else c
    | none => c
  | .alarm alarm => c.fire alarm
  | .depart flight => c.depart flight
  | .answered ticket answer => c.settleTicket ticket answer
  | .land flight result => c.land flight result

/-- Let happen what can happen without time passing, at most `limit` things. A heartbeat that is
due comes before anything else. -/
def settle : Nat → Cluster σ → Cluster σ
  | 0, c => c
  | limit + 1, c =>
    match c.dueTick? with
    | some host => settle limit (c.takeTick host)
    | none =>
      match c.queue with
      | [] => c
      | task :: queue => settle limit (happen { c with queue := queue } task)

end Consensus.Cluster
