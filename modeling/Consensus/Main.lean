import Consensus.CommandLine.Local

/-!
# The program

Reads the arguments, brings the nodes' files in, runs the cluster in virtual time, writes the
files back and prints the report.
-/

namespace Consensus.CommandLine

/-- How the program is called. -/
def usageText : String :=
  "usage: consensus local [--nodes N] [--commands N] [--data-dir DIR]\n" ++
  "         [--compaction-threshold N] [--keep-running] [-o table|json]"

/-- The version of the program. -/
def versionText : String := "0.1.0"

/-- What a name in the file system stands for. What cannot be read is taken for a folder. -/
def readItem (path : String) : IO (Option DirectoryItem) := do
  try
    return some (.file (← IO.FS.readBinFile path).toList)
  catch
    | .noFileOrDirectory _ _ _ => return none
    | _ => return some .folder

/-- The names that a node uses in its folder. -/
def nodeFiles : List String :=
  let kept := [Directory.hardStateFile, Directory.logFile, Directory.snapshotFile]
  kept ++ kept.map Directory.temporary

/-- Read a node's folder, which is made if it is missing. -/
def readFolder (path : String) : IO Directory := do
  IO.FS.createDirAll path
  nodeFiles.foldlM
    (fun contents name => do
      return match ← readItem (path ++ "/" ++ name) with
        | some item => contents.put name item
        | none => contents)
    {}

/-- Bring a node's folder from `before` to `after`. -/
def writeFolder (path : String) (before after : Directory) : IO Unit :=
  nodeFiles.forM fun name => do
    let target := path ++ "/" ++ name
    if before.item? name = after.item? name then
      return
    match after.item? name with
    | some (.file bytes) => IO.FS.writeBinFile target bytes.toByteArray
    | some .folder => IO.FS.createDir target
    | none => IO.FS.removeFile target

/-- The folder of the node `id` under `dir` in the file system. -/
def folderPath (dir : String) (id : Nat) : String := dir ++ "/" ++ folderName id

/-- Read the folders of all nodes under `dir`. -/
def readFolders (options : LocalOptions) (dir : String) : IO FileTree :=
  (nodeIds options.nodes).foldlM
    (fun tree id => do
      let contents ← readFolder (folderPath dir id)
      return match outcome (openFolder dir id) tree with
        | (.ok path, tree) => tree.setFolder path contents
        | (.error _, tree) => tree)
    {}

/-- Write the folders of all nodes under `dir` back. -/
def writeFolders (options : LocalOptions) (dir : String) (before after : FileTree) : IO Unit :=
  (nodeIds options.nodes).forM fun id =>
    match (outcome (openFolder dir id) before).1 with
    | .ok path => writeFolder (folderPath dir id) (before.folder path) (after.folder path)
    | .error _ => return

/-- A source of draws that is not the same every time. -/
def freshDraws : IO StdGen := do
  let seed ← IO.getRandomBytes 4
  return mkStdGen (seed.toList.foldl (fun n b => 256 * n + b.toNat) 0)

/-- Wait to be stopped from outside. -/
partial def waitForever : IO Unit := do
  IO.sleep 1000
  waitForever

/-- Run a local cluster and print its report. -/
def performLocal (options : LocalOptions) : IO UInt32 := do
  let before ← match options.dataDir with
    | some dir => readFolders options dir
    | none => pure {}
  let (result, after) := runLocal options (← freshDraws) before
  if let some dir := options.dataDir then
    writeFolders options dir before after
  match result with
  | .error e =>
    IO.eprintln ("Error: " ++ e.message)
    return 1
  | .ok report =>
    IO.print report
    if options.keepRunning then
      IO.println "Cluster running, press Ctrl-C to stop"
      waitForever
    return 0

end Consensus.CommandLine

open Consensus.CommandLine in
/-- Run the command line. -/
def main (args : List String) : IO UInt32 :=
  match readArguments args with
  | .ok options => performLocal options
  | .error .helpWanted => do
    IO.println usageText
    return 0
  | .error .versionWanted => do
    IO.println versionText
    return 0
  | .error _ => do
    IO.eprintln usageText
    return 2
