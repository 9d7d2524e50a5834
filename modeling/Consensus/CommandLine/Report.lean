import Consensus.CommandLine.Arguments
import Consensus.Json.Record
import Consensus.Node.Basic

/-!
# The report of a run

One row a node: where it stands and how many commands its consumer has recorded. A table has
columns of fixed widths under a head and a rule; in JSON each row is a record.
-/

namespace Consensus.CommandLine

/-- The state of one node at the end of a run. -/
structure Row where
  status : Node.Status
  /-- The number of commands that the consumer has recorded. -/
  commands : Nat

/-- The text with blanks after it up to the width. -/
def padRight (width : Nat) (text : String) : String :=
  text ++ String.ofList (List.replicate (width - text.length) ' ')

/-- The widths of the table's columns. -/
def columnWidths : List Nat := [6, 10, 6, 8, 8, 8, 9, 9]

/-- The names of the table's columns. -/
def columnNames : List String :=
  ["NODE", "ROLE", "TERM", "LEADER", "COMMIT", "APPLIED", "SNAPSHOT", "COMMANDS"]

/-- One line of the table, with a blank between the columns. -/
def tableLine (cells : List String) : String :=
  " ".intercalate ((columnWidths.zip cells).map fun (width, cell) => padRight width cell) ++ "\n"

/-- The line under the table's head. -/
def tableRule : String := String.ofList (List.replicate 72 '-') ++ "\n"

namespace Row

/-- The row's cells in the table; a leader that is not known is a dash. -/
def cells (r : Row) : List String :=
  [toString r.status.nodeId, r.status.role.name, toString r.status.currentTerm,
    (r.status.leader.map toString).getD "-", toString r.status.commitIndex,
    toString r.status.lastApplied, toString r.status.snapshotIndex, toString r.commands]

/-- The row in JSON. -/
def toJson (r : Row) : Json :=
  .ofRecord [("node_id", .ofNat r.status.nodeId), ("role", .ofText r.status.role.name),
    ("term", .ofNat r.status.currentTerm), ("leader_id", .ofOption .ofNat r.status.leader),
    ("commit_index", .ofNat r.status.commitIndex), ("last_applied", .ofNat r.status.lastApplied),
    ("last_log_index", .ofNat r.status.lastLogIndex),
    ("snapshot_index", .ofNat r.status.snapshotIndex), ("applied_commands", .ofNat r.commands)]

end Row

/-- The rows in a table. -/
def renderTable (rows : List Row) : String :=
  tableLine columnNames ++ tableRule ++ String.join (rows.map fun r => tableLine r.cells)

/-- The rows in JSON, on lines of their own. -/
def renderJson (rows : List Row) : String :=
  (Utf8.decode? ((Json.ofList Row.toJson rows).pretty 0)).getD "" ++ "\n"

/-- The rows in the given format. -/
def OutputFormat.render : OutputFormat → List Row → String
  | .table => renderTable
  | .json => renderJson

end Consensus.CommandLine
