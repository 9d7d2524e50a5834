import Consensus.Codec.Message
import Consensus.Error
import Consensus.Table

/-!
# A network between nodes

A node can be reached if its id is registered, and then at the host it was registered with,
unless the link from sender to receiver is cut. Links have a direction; a partition cuts both.
Requests and responses travel in their wire form.
-/

namespace Consensus

/-- Who can be reached, and which links are cut. -/
structure Network where
  /-- The hosts that can be reached, by the ids of their nodes. -/
  registered : Table Nat := ∅
  /-- Directed links that carry nothing. -/
  cut : List (Nat × Nat) := []
deriving DecidableEq

namespace Network

/-- Make a node reachable at a host. -/
def register (net : Network) (id host : Nat) : Network :=
  { net with registered := net.registered.insert id host }

/-- Make a node unreachable. -/
def unregister (net : Network) (id : Nat) : Network :=
  { net with registered := net.registered.erase id }

/-- Cut the links between two nodes. -/
def disconnect (net : Network) (a b : Nat) : Network :=
  { net with cut := (a, b) :: (b, a) :: net.cut }

/-- Restore the links between two nodes. -/
def reconnect (net : Network) (a b : Nat) : Network :=
  { net with cut := net.cut.filter fun link => link != (a, b) && link != (b, a) }

/-- Cut a node off from the others listed. -/
def isolate (net : Network) (id : Nat) (others : List Nat) : Network :=
  (others.filter (· ≠ id)).foldl (fun net other => net.disconnect id other) net

/-- Restore all links. -/
def heal (net : Network) : Network := { net with cut := [] }

/-- The host where a message from one node to another arrives, unless the receiver is
unreachable. -/
def route (net : Network) (sender receiver : Nat) : Except Error Nat :=
  if (sender, receiver) ∈ net.cut then .error (.unreachable receiver)
  else
    match net.registered.get? receiver with
    | some host => .ok host
    | none => .error (.unreachable receiver)

/-- A request as it arrives. -/
def carryRequest (request : Request) : Except Error Request :=
  match Request.decode? request.encode with
  | some request => .ok request
  | none => .error .serialization

/-- A response as it arrives. -/
def carryResponse (response : Response) : Except Error Response :=
  match Response.decode? response.encode with
  | some response => .ok response
  | none => .error .serialization

end Network

end Consensus
