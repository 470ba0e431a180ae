import TreeTemplate.Run

/-! # Finding included files

A relative file name is tried below each search path in turn, and the first file that
is there is taken.
-/
namespace TreeTemplate.Files

/-- The contents of files by their paths. -/
abbrev Loader := String → Option (List UInt8)

/-- A file name below a path: an absolute name stands alone, and an empty path adds
nothing. -/
def join (path filename : String) : String :=
  if path.isEmpty || filename.toList.head? = some '/' then filename
  else if path.toList.getLast? = some '/' then path ++ filename
  else path ++ "/" ++ filename

/-- The first path at which a file is found; every path tried is reported. -/
def search {σ : Type} (isFile : String → Bool) (filename : String) :
    List String → Run σ (Option String)
  | [] => pure none
  | path :: rest => do
    let candidate := join path filename
    Run.emit (.probe filename candidate (isFile candidate))
    if isFile candidate then pure (some candidate) else search isFile filename rest

/-- The search paths listed in a text, with colons between them. -/
def splitPaths (listed : String) : List String :=
  (listed.splitOn ":").filter fun path => !path.isEmpty

end TreeTemplate.Files
