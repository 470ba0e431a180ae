/-! # Paths

Paths as texts: their normal form, the folder they stand in, and the home folder that a
leading tilde stands for.  Normal form drops empty parts and single points and keeps
double points, since what they lead to depends on what is there.
-/
namespace TreeTemplate.Files

/-- The parts between the slashes of a path. -/
def parts (path : String) : List (List Char) := path.toList.splitOn '/'

/-- Whether a part of a path leads nowhere else. -/
def isIdle (part : List Char) : Bool := part.isEmpty || part == ['.']

/-- The slashes that a path begins with in normal form: two of them are kept. -/
def root (path : String) : List Char :=
  match path.toList.takeWhile (· = '/') with
  | [] => []
  | ['/', '/'] => ['/', '/']
  | _ => ['/']

/-- A path from its leading slashes and its parts. -/
def ofParts (root : List Char) (parts : List (List Char)) : String :=
  match root, parts with
  | [], [] => "."
  | root, parts => String.ofList (root ++ ['/'].intercalate parts)

/-- The parts of a path that lead somewhere. -/
def steps (path : String) : List (List Char) := (parts path).filter (!isIdle ·)

/-- The normal form of a path. -/
def normalize (path : String) : String := ofParts (root path) (steps path)

/-- The folder that a path stands in. -/
def folder (path : String) : String := ofParts (root path) (steps path).dropLast

/-- A path in which a leading tilde stands for the home folder. -/
def expandHome (home : String) (path : String) : String :=
  match path.toList with
  | '~' :: rest =>
    if rest.isEmpty || rest.head? = some '/' then
      let base := (home.toList.reverse.dropWhile (· = '/')).reverse
      if (base ++ rest).isEmpty then "/" else String.ofList (base ++ rest)
    else path
  | _ => path

example : normalize "./sub//../t.json" = "sub/../t.json" ∧ normalize "" = "." ∧
    folder "sub/t.json" = "sub" ∧ folder "t.json" = "." ∧ folder "/t.json" = "/" := by
  decide +kernel

example : expandHome "home/" "~/a" = "home/a" ∧ expandHome "/home" "~a" = "~a" := by
  decide +kernel

end TreeTemplate.Files
