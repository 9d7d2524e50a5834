import Consensus.Storage.Directory

/-!
# Folders within folders

A tree of folders, each one seen as a directory of its own, so that disks of several nodes can
be kept under one roof. A folder is made together with those it lies in; where a file stands in
the way, nothing can be made.
-/

namespace Consensus

/-- Folders by the names that lead to them from the root. -/
structure FileTree where
  folders : List (List String × Directory) := []

namespace FileTree

/-- What a folder holds; nothing if there is no such folder. -/
def folder (t : FileTree) (path : List String) : Directory :=
  (t.folders.lookup path).getD {}

/-- The tree with the contents of a folder replaced. -/
def setFolder (t : FileTree) (path : List String) (contents : Directory) : FileTree :=
  ⟨(path, contents) :: t.folders.filter fun f => f.1 != path⟩

/-- Split a path at its slashes. -/
def splitSlashes : List Char → List (List Char)
  | [] => [[]]
  | c :: rest =>
    if c = '/' then [] :: splitSlashes rest
    else
      match splitSlashes rest with
      | [] => [[c]]
      | part :: parts => (c :: part) :: parts

/-- The names along a path; a slash at its front is a name of its own. -/
def names (path : String) : List String :=
  let parts := (splitSlashes path.toList).filter fun part => part ≠ [] ∧ part ≠ ['.']
  (if path.toList.head? = some '/' then ["/"] else []) ++ parts.map String.ofList

/-- Walk along the names from the folder `here`, making the folders that are missing, and give
the path of the last one. Two dots lead back to where a folder lies. -/
def makeFolders : List String → List String → EStateM Error FileTree (List String)
  | here, [] => pure here
  | here, name :: rest =>
    if name = ".." then makeFolders here.dropLast rest
    else do
      let t ← get
      match (t.folder here).item? name with
      | some (.file _) => throw (.storage .unavailable)
      | some .folder => makeFolders (here ++ [name]) rest
      | none =>
        set (t.setFolder here ((t.folder here).put name .folder))
        makeFolders (here ++ [name]) rest

end FileTree

end Consensus
