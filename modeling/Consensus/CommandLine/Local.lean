import Consensus.Cluster.Lifecycle
import Consensus.CommandLine.Report
import Consensus.Storage.FileTree
import Consensus.Storage.Memory

/-!
# A local cluster

The command `local` runs nodes 1 to n in one process: once all of them follow one leader,
commands are submitted through the last node, and when the followers have had time to learn of
the last commit, the state of every node is reported.
-/

namespace Consensus.CommandLine

/-- Why a run did not come to its report. -/
inductive Failure where
  | noNodes
  | noLeader
  | node (error : Error)
deriving DecidableEq

/-- The failure in words. -/
def Failure.message : Failure → String
  | .noNodes => "cluster needs at least one node"
  | .noLeader => "no leader elected"
  | .node error => error.message

/-- How long to wait for a leader. -/
def leaderPatience : Nat := 5000

/-- The time between two looks for a leader. -/
def leaderPause : Nat := 20

/-- The time that followers get to learn of the last commit. -/
def finalPause : Nat := 200

/-- The ids of `count` nodes. -/
def nodeIds (count : Nat) : List Nat := List.range' 1 count

/-- The name of the folder of a node's files. -/
def folderName (id : Nat) : String := "node-" ++ toString id

/-- The settings of a node in a run. -/
def LocalOptions.settings (options : LocalOptions) (id : Nat) : Settings :=
  { nodeId := id
    members := nodeIds options.nodes
    compactionThreshold := options.compactionThreshold
    dataDir := options.dataDir.map fun dir => dir ++ "/" ++ folderName id }

/-- The `i`th command of a run. -/
def demoCommand (i : Nat) : Bytes := Utf8.encode ("enqueue item-" ++ toString i)

/-- Whether every node takes part and all agree on a leader that knows it leads. -/
def hasLeader {σ : Type} (c : Cluster σ) : Bool :=
  match c.hosts.rows.find? fun (_, h) => h.status.role == .leader with
  | none => false
  | some (_, leader) => c.hosts.values.all fun h => h.status.leader == some leader.status.nodeId

/-- The state of every node. -/
def rows {σ : Type} (c : Cluster σ) : List Row :=
  c.hosts.values.map fun h => ⟨h.status, h.node.recorder.record.entries.length⟩

section

variable {σ : Type} [Storage σ]

/-- Start nodes one after another, each over its disk if that could be opened, up to the first
that is refused. Its disk comes with the reason if it was opened. -/
def startAll (c : Cluster σ) :
    List (Settings × Except Error σ) → Cluster σ × Option (Error × Option (Nat × σ))
  | [] => (c, none)
  | (_, .error e) :: _ => (c, some (e, none))
  | (settings, .ok disk) :: rest =>
    match c.start settings ⟨disk, {}⟩ with
    | .ok c => startAll c rest
    | .error (e, durable) => (c, some (e, some (settings.nodeId, durable.disk)))

/-- Look for a leader, at most `looks` times. -/
def awaitLeader : Nat → Cluster σ → Bool × Cluster σ
  | 0, c => (false, c)
  | looks + 1, c => if hasLeader c then (true, c) else awaitLeader looks (c.advance leaderPause)

/-- Submit commands `i`, `i + 1`, … through the gateway of `host`, up to the first that fails. -/
def submitAll (host : Nat) (i : Nat) : Nat → Cluster σ → Except Error Unit × Cluster σ
  | 0, c => (.ok (), c)
  | count + 1, c =>
    let label := toString i
    let c := (c.gatewaySubmit label host (demoCommand i)).advanceUntil
      (fun c => c.finished.any (·.1 == label)) Cluster.alarmLimit
    match c.finished.lookup label with
    | some (.index (.error e)) => (.error e, c)
    | some _ => submitAll host (i + 1) count { c with finished := [] }
    | none => (.error .timeout, c)

/-- Run nodes over the given disks, with election timeouts from `draws`. The disks come back as
the run leaves them. -/
def runOver (options : LocalOptions) (draws : StdGen) (disk : Nat → Except Error σ) :
    Except Failure (List Row) × List (Nat × σ) :=
  let disks (c : Cluster σ) := c.hosts.rows.map fun (_, h) => (h.node.self, h.node.disk)
  let (c, refused) := startAll { network := some {}, draws := draws }
    ((nodeIds options.nodes).map fun id => (options.settings id, disk id))
  match refused with
  | some (e, kept) => (.error (.node e), disks c ++ kept.toList)
  | none =>
    match awaitLeader (leaderPatience / leaderPause) c with
    | (false, c) => (.error .noLeader, disks c)
    | (true, c) =>
      match submitAll options.nodes 0 options.commands c with
      | (.error e, c) => (.error (.node e), disks c)
      | (.ok (), c) =>
        let c := c.advance finalPause
        (.ok (rows c), disks c)

end

/-- Make the folder of the node `id` under `dir`, and give its path. -/
def openFolder (dir : String) (id : Nat) : EStateM Error FileTree (List String) :=
  FileTree.makeFolders [] (FileTree.names dir ++ [folderName id])

/-- Make the folders of the nodes under `dir`. -/
def openFolders (dir : String) (tree : FileTree) :
    List Nat → List (Nat × Except Error (List String)) × FileTree
  | [] => ([], tree)
  | id :: ids =>
    let (opened, tree) := outcome (openFolder dir id) tree
    let (others, tree) := openFolders dir tree ids
    ((id, opened) :: others, tree)

/-- Run nodes over folders under `dir`. -/
def runOverFolders (options : LocalOptions) (draws : StdGen) (dir : String) (tree : FileTree) :
    Except Failure (List Row) × FileTree :=
  let (opened, tree) := openFolders dir tree (nodeIds options.nodes)
  let path (id : Nat) := (opened.lookup id).getD (.error (.storage .unavailable))
  let (result, disks) := runOver options draws fun id => (path id).map tree.folder
  let keep (tree : FileTree) (id : Nat) (disk : Directory) : FileTree :=
    match path id with
    | .ok path => tree.setFolder path disk
    | .error _ => tree
  (result, disks.foldl (fun tree (id, disk) => keep tree id disk) tree)

/-- Run a local cluster and give its report; folders are found and kept in the tree. -/
def runLocal (options : LocalOptions) (draws : StdGen) (tree : FileTree) :
    Except Failure String × FileTree :=
  if options.nodes = 0 then (.error .noNodes, tree)
  else
    let (result, tree) := match options.dataDir with
      | some dir => runOverFolders options draws dir tree
      | none => ((runOver options draws fun _ => .ok ({} : Memory)).1, tree)
    (result.map options.output.render, tree)

end Consensus.CommandLine
