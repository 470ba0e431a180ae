import TreeTemplate.Document.Format
import TreeTemplate.Files.Path
import TreeTemplate.Files.Search

/-! # Files on disk

A disk tells what stands at a path.  `Tree.disk` is the disk of a folder that holds given
files and nothing else, seen from inside that folder.  What lies outside is unknown, and
taken to be empty.
-/
namespace TreeTemplate.Files

/-- What stands at a path. -/
inductive Found where
  | file (bytes : List UInt8)
  | folder
  | missing
  /-- The path leads through a file as if it were a folder. -/
  | throughFile

/-- What stands at each path. -/
abbrev Disk := String → Found

namespace Disk

/-- The files of a disk as an include search sees them, where a leading tilde stands for
the home folder. -/
def loader (disk : Disk) (home : String) : Loader := fun path =>
  match disk (expandHome home path) with
  | .file bytes => some bytes
  | _ => none

end Disk

/-- Why a document was not loaded. -/
inductive LoadFault where
  | missing (path : String)
  | folder (path : String)
  | throughFile (path : String)
  | undecodable (cause : Document.DecodeFault)

namespace LoadFault

/-- The name under which a fault is reported. -/
def kind : LoadFault → String
  | .missing _ => "FileNotFoundError"
  | .folder _ => "IsADirectoryError"
  | .throughFile _ => "NotADirectoryError"
  | .undecodable cause => cause.kind

/-- The words of a fault. -/
def message : LoadFault → String
  | .missing path => "[Errno 2] No such file or directory: " ++ Text.quote path
  | .folder path => "[Errno 21] Is a directory: " ++ Text.quote path
  | .throughFile path => "[Errno 20] Not a directory: " ++ Text.quote path
  | .undecodable cause => cause.message

end LoadFault

namespace Disk

/-- The document at a path. -/
def load (disk : Disk) (path : String) : Except LoadFault Value :=
  let place := normalize path
  match disk place with
  | .file bytes => (Document.readAt path bytes).mapError .undecodable
  | .folder => .error (.folder place)
  | .missing => .error (.missing place)
  | .throughFile => .error (.throughFile place)

end Disk

/-- The files below a folder, by the parts of their paths. -/
structure Tree where
  files : List (List (List Char) × List UInt8)

namespace Tree

/-- The tree of files given by their paths. -/
def ofFiles (files : List (String × List UInt8)) : Tree :=
  ⟨files.map fun file => (steps file.1, file.2)⟩

/-- What stands at a row of names from the folder down. -/
def find (t : Tree) (names : List (List Char)) : Found :=
  match t.files.lookup names with
  | some bytes => .file bytes
  | none =>
    if names.isEmpty || t.files.any (fun file => names.isPrefixOf file.1) then .folder
    else .missing

/-- What stands outside the folder. -/
def outside (parts : List (List Char)) : Found :=
  if parts.all fun part => isIdle part || part == ['.', '.'] then .folder else .missing

/-- Where the parts of a path lead from a row of names. -/
def walk (t : Tree) : List (List Char) → List (List Char) → Found
  | names, [] => t.find names
  | names, part :: rest =>
    match t.find names with
    | .folder =>
      if isIdle part then t.walk names rest
      else if part = ['.', '.'] then
        if names.isEmpty then outside rest else t.walk names.dropLast rest
      else t.walk (names ++ [part]) rest
    | .file _ => .throughFile
    | other => other

/-- The disk whose working folder holds the files of the tree. -/
def disk (t : Tree) : Disk := fun path =>
  if path.isEmpty then .missing
  else if path.toList.head? = some '/' then outside (parts path)
  else t.walk [] (parts path)

end Tree
end TreeTemplate.Files
