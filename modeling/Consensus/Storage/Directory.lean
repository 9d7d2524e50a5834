import Consensus.Codec.Stored
import Consensus.Storage
import Consensus.Text.Blank

/-!
# A disk of files

Term and vote, the log and the snapshot each have a file in one directory. The log has one
entry a line; entries are added at the end of the file, and every other change replaces a whole
file: the new contents go to a temporary file first, which is then given the name. Lines that
are blank are passed over; a carriage return before a line feed is a blank like any other. A
folder that stands where a file should be cannot be read or replaced.
-/

namespace Consensus

/-- What a name in a directory stands for. -/
inductive DirectoryItem where
  | file (bytes : Bytes)
  | folder
deriving DecidableEq

/-- A directory: names and what they stand for, each name once. -/
structure Directory where
  items : List (String × DirectoryItem) := []
deriving DecidableEq

namespace Directory

/-- The file of term and vote. -/
def hardStateFile : String := "hard_state.json"

/-- The file of the log. -/
def logFile : String := "log.jsonl"

/-- The file of the snapshot. -/
def snapshotFile : String := "snapshot.json"

/-- The name under which a file's new contents are prepared. -/
def temporary (name : String) : String := name ++ ".tmp"

/-- What `name` stands for. -/
def item? (d : Directory) (name : String) : Option DirectoryItem := d.items.lookup name

/-- The directory without `name`. -/
def erase (d : Directory) (name : String) : Directory :=
  ⟨d.items.filter fun i => i.1 != name⟩

/-- The directory with `item` under `name`. -/
def put (d : Directory) (name : String) (item : DirectoryItem) : Directory :=
  ⟨(d.erase name).items ++ [(name, item)]⟩

/-- The directory after a file is written as a whole; a folder of its name stays. -/
def overwrite (d : Directory) (name : String) (bytes : Bytes) : Directory :=
  if d.item? name = some .folder then d else d.put name (.file bytes)

/-- The directory after a file is removed; a folder of its name stays. -/
def removeFile (d : Directory) (name : String) : Directory :=
  if d.item? name = some .folder then d else d.erase name

/-- The directory after a folder is made, if the name is free. -/
def makeFolder (d : Directory) (name : String) : Directory :=
  if (d.item? name).isSome then d else d.put name .folder

/-- The contents of a file; `none` if there is no such name. -/
def read? (d : Directory) (name : String) : Except Error (Option Bytes) :=
  match d.item? name with
  | none => .ok none
  | some (.file bytes) => .ok (some bytes)
  | some .folder => .error (.storage .unavailable)

/-- Replace the contents of a file, by way of its temporary file. -/
def replace (name : String) (bytes : Bytes) : EStateM Error Directory Unit := do
  let d ← get
  if d.item? (temporary name) = some .folder then
    throw (.storage .unavailable)
  set (d.put (temporary name) (.file bytes))
  if d.item? name = some .folder then
    throw (.storage .unavailable)
  set (((d.put (temporary name) (.file bytes)).erase (temporary name)).put name (.file bytes))

/-- Add to the end of a file, which need not exist. -/
def extend (name : String) (bytes : Bytes) : EStateM Error Directory Unit := do
  let d ← get
  match d.item? name with
  | some .folder => throw (.storage .unavailable)
  | some (.file old) => set (d.put name (.file (old ++ bytes)))
  | none => set (d.put name (.file bytes))

/-- The lines of a file: what stands before each line feed, and what follows the last one if
that is anything at all. -/
def splitLines : Bytes → List Bytes
  | [] => []
  | b :: rest =>
    if b = 0x0a then [] :: splitLines rest
    else
      match splitLines rest with
      | [] => [[b]]
      | line :: lines => (b :: line) :: lines

/-- The entries on the lines, the first one being line `number`. -/
def readLines? (number : Nat) : List Bytes → Except Error (List Entry)
  | [] => .ok []
  | line :: lines =>
    match Utf8.decode? line with
    | none => .error (.storage .unavailable)
    | some text =>
      if text.toList.all Text.isBlank then readLines? (number + 1) lines
      else
        match Entry.decode? line with
        | none => .error (.corrupted (.unreadableLine logFile number))
        | some entry => (readLines? (number + 1) lines).map (entry :: ·)

/-- The entries that a log file holds. -/
def parseLog (bytes : Bytes) : Except Error (List Entry) := readLines? 1 (splitLines bytes)

/-- The lines of the entries. -/
def formatLog (entries : List Entry) : Bytes := entries.flatMap fun e => e.encode ++ [0x0a]

/-- The entries in the log file; none if there is no such file. -/
def loadEntries (d : Directory) : Except Error (List Entry) := do
  match ← d.read? logFile with
  | none => return []
  | some bytes => parseLog bytes

/-- Read a file that is a single value. -/
def loadValue {α : Type} (name : String) (decode : Bytes → Option α) (d : Directory) :
    Except Error (Option α) := do
  match ← d.read? name with
  | none => return none
  | some bytes =>
    match decode bytes with
    | some a => return some a
    | none => throw (.corrupted (.unreadableFile name))

/-- Keep only the entries of the log file that satisfy `keep`. -/
def filterLog (keep : Entry → Bool) : EStateM Error Directory Unit := do
  let entries ← Storage.inspect loadEntries
  replace logFile (formatLog (entries.filter keep))

instance : Storage Directory where
  loadHardState d := (d.loadValue hardStateFile HardState.decode?).map (·.getD {})
  loadEntries := loadEntries
  loadSnapshot := loadValue snapshotFile Snapshot.decode?
  saveHardState state := replace hardStateFile state.encode
  append entries := if entries = [] then pure () else extend logFile (formatLog entries)
  truncateFrom index := filterLog fun e => decide (e.index < index)
  compactTo index := filterLog fun e => decide (index < e.index)
  saveSnapshot snapshot := replace snapshotFile snapshot.encode

end Directory

end Consensus
