import Consensus.NodeSet

/-!
# Log entries
-/

namespace Consensus

/-- What a log entry carries. -/
inductive Payload where
  /-- Appended by every new leader, so that entries of its term can be committed. -/
  | noop
  /-- A command for the consumer. -/
  | command (bytes : Bytes)
  /-- The whole membership after a change of one server. -/
  | config (members : NodeSet)
deriving DecidableEq, Inhabited

/-- One entry of the replicated log. -/
structure Entry where
  term : Nat
  index : Nat
  payload : Payload
deriving DecidableEq, Inhabited

namespace Entry

/-- The membership that the entry carries, if it carries one. -/
def config? (entry : Entry) : Option NodeSet :=
  match entry.payload with
  | .config members => some members
  | _ => none

end Entry

end Consensus
