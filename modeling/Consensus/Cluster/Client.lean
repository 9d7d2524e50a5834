import Consensus.Cluster.EventLoop

/-!
# Calls of clients

A client calls a node through its handle, or through a gateway on the node that follows hints
to the leader. Commands and membership changes are given up after a while, or at once by a
caller without any patience; the node handles them all the same. A node whose event loop has
ended answers nothing but the question who leads, from what was last seen of it.
-/

namespace Consensus.Cluster

variable {σ : Type}

/-- Hand a call to the node on `host`, whoever is to get the answer. -/
def callNode (c : Cluster σ) (host : Nat) (kind : CallKind) (event : Nat → Event)
    (consumer : Consumer) : Cluster σ :=
  match c.hosts.get? host with
  | none => c
  | some h =>
    let (ticket, c) := c.takeNumber
    let patience := kind.patience? h.node.settings
    let pending : Pending :=
      { host := host, kind := kind, consumer := consumer, deadline := patience.map (c.now + ·) }
    let c := { c with pendings := c.pendings.insert ticket pending }
    if h.isRunning then
      let c := c.enqueue (.event host (event ticket))
      if patience = some 0 then c.enqueue (.answered ticket (kind.late h.status.leader)) else c
    else c.enqueue (.answered ticket kind.lost)

/-- A call ends. -/
def finishCall (c : Cluster σ) (id : Nat) (result : CallResult) : Cluster σ :=
  match c.calls.get? id with
  | none => c
  | some call =>
    { c with calls := c.calls.erase id, finished := c.finished ++ [(call.label, result)] }

/-- A gateway call makes its next move. -/
def makeMove {State Result : Type} (c : Cluster σ) (id : Nat) (call : Call)
    (stage : State → CallStage) (result : Result → CallResult) :
    Gateway.Move State Result → Cluster σ
  | .finish r => c.finishCall id (result r)
  | .ask target request next =>
    ({ c with calls := c.calls.insert id { call with stage := stage next } } : Cluster σ).launch
      { sender := .call id, origin := call.origin, target := target, request := request,
        deadline := none }

/-- A call gets the answer of the node it was handed to. -/
def continueLocally (c : Cluster σ) (id : Nat) (answer : Option Answer) : Cluster σ :=
  match c.calls.get? id with
  | none => c
  | some call =>
    match call.stage with
    | .submit => c.finishCall id (.index (Answer.index? answer))
    | .change => c.finishCall id (.change (Answer.changeReply answer))
    | .request => c.finishCall id (.response (Answer.response? answer))
    | .relay s =>
      c.makeMove id call .relay .index (s.afterLocal (Answer.index? answer))
    | .relayChange r =>
      c.makeMove id call .relayChange .change (r.afterAnswer (Answer.changeReply answer))
    | .campaign | .askLeader => c

/-- A call gets the end of the request that it sent over the network. -/
def continueRemotely (c : Cluster σ) (id : Nat) (response : Except Error Response) :
    Cluster σ :=
  match c.calls.get? id with
  | none => c
  | some call =>
    match call.stage with
    | .relay s => c.makeMove id call .relay .index (s.afterReply response)
    | .relayChange r => c.makeMove id call .relayChange .change (r.afterReply response)
    | .askLeader => c.finishCall id (.leader (Gateway.leaderOf response))
    | .request => c.finishCall id (.response response)
    | .submit | .change | .campaign => c

/-- Begin a call of a client. -/
def beginCall (c : Cluster σ) (label : String) (origin : Nat) (stage : CallStage) :
    Nat × Cluster σ :=
  let (id, c) := c.takeNumber
  (id, { c with calls := c.calls.insert id ⟨label, origin, stage⟩ })

/-- Call the latest host at a site; `stage` is told the id of its node. -/
def callSite (c : Cluster σ) (label : String) (site : Nat) (stage : Nat → CallStage)
    (kind : CallKind) (event : Nat → Event) : Cluster σ :=
  match c.hostAt? site with
  | none => c
  | some (host, h) =>
    let (id, c) := c.beginCall label h.node.self (stage h.node.self)
    c.callNode host kind event (.call id)

/-- The request for a membership change. -/
def changeRequest : ServerChange → Request
  | .add id => .addServer id
  | .remove id => .removeServer id

/-- Ask the node at `site` to stand for election now. -/
def campaign (c : Cluster σ) (label : String) (site : Nat) : Cluster σ :=
  match c.hostAt? site with
  | none => c
  | some (host, h) =>
    let (id, c) := c.beginCall label h.node.self .campaign
    if h.isRunning then
      (c.enqueue (.event host .campaign)).finishCall id (.started (.ok ()))
    else c.finishCall id (.started (.error .shutdown))

/-- Submit a command to the node at `site`. -/
def submit (c : Cluster σ) (label : String) (site : Nat) (payload : Bytes) : Cluster σ :=
  c.callSite label site (fun _ => .submit) .command (.command · payload)

/-- Ask the node at `site` for a membership change. -/
def changeMembers (c : Cluster σ) (label : String) (site : Nat) (change : ServerChange) :
    Cluster σ :=
  c.callSite label site (fun _ => .change) .change (.change · change)

/-- The leader that the latest host at `site` knows of. -/
def leaderAt? (c : Cluster σ) (site : Nat) : Option Nat :=
  (c.hostAt? site).bind (·.2.status.leader)

/-- Hand a request from the network to the node at `site`. -/
def request (c : Cluster σ) (label : String) (site : Nat) (request : Request) : Cluster σ :=
  match request.event? 0 with
  | some (kind, _) =>
    c.callSite label site (fun _ => .request) kind
      fun ticket => ((request.event? ticket).map Prod.snd).getD .campaign
  | none =>
    let (id, c) := c.beginCall label site .request
    c.finishCall id (.response (.ok (.leader (c.leaderAt? site))))

/-- How many hints the gateway at `site` follows. -/
def maxRedirects (c : Cluster σ) (site : Nat) : Nat :=
  ((c.sites.get? site).map (·.settings.maxRedirects)).getD 0

/-- Submit a command through the gateway at `site`. -/
def gatewaySubmit (c : Cluster σ) (label : String) (site : Nat) (payload : Bytes) :
    Cluster σ :=
  c.callSite label site (fun self => .relay ⟨self, payload, c.maxRedirects site⟩) .command
    (.command · payload)

/-- Ask for a membership change through the gateway at `site`. -/
def gatewayChange (c : Cluster σ) (label : String) (site : Nat) (change : ServerChange) :
    Cluster σ :=
  c.callSite label site
    (fun self => .relayChange ⟨changeRequest change, self, c.maxRedirects site⟩) .change
    (.change · change)

/-- Ask a node, through the gateway at `site`, who leads. -/
def gatewayAsk (c : Cluster σ) (label : String) (site peer : Nat) : Cluster σ :=
  match c.hostAt? site with
  | none => c
  | some (_, h) =>
    let self := h.node.self
    let (id, c) := c.beginCall label self .askLeader
    if peer = self then c.finishCall id (.leader (.ok h.status.leader))
    else
      c.launch { sender := .call id, origin := self, target := peer, request := .whoIsTheLeader,
                 deadline := none }

/-- Send a request from one node to another over the network. -/
def send (c : Cluster σ) (label : String) (origin target : Nat) (request : Request) :
    Cluster σ :=
  let (id, c) := c.beginCall label origin .request
  c.launch { sender := .call id, origin := origin, target := target, request := request,
             deadline := none }

end Consensus.Cluster
