import TreeTemplate.CommandLine

/-! # The program

Reads what a run looks at from disk and prints what the run comes to.  A run starts from
an empty disk and is repeated with the files that it has looked at, until it looks at
nothing new.
-/
namespace TreeTemplate.Program

/-- What stands at a path of the disk. -/
def look (path : String) : IO Files.Found := do
  try
    let bytes ← IO.FS.readBinFile path
    pure (.file bytes.toList)
  catch e =>
    match e with
    | .inappropriateType none _ _ => pure .folder
    | .inappropriateType (some _) _ _ => pure .throughFile
    | _ => pure .missing

/-- The run whose every look at the disk is known. -/
partial def settle (env : CommandLine.Surroundings) (words : List String)
    (known : List (String × Files.Found)) : IO (Shown CommandLine.Output) := do
  let disk := fun path => (known.lookup path).getD .missing
  let env := { env with disk := disk }
  let shown := CommandLine.run env words
  let isNew := fun path => (known.lookup path).isNone
  match (CommandLine.consulted env words shown).filter isNew with
  | [] => pure shown
  | wanted =>
    let found ← wanted.mapM fun path => do pure (path, ← look path)
    settle env words (known ++ found)

end TreeTemplate.Program

open TreeTemplate in
/-- Runs the program on the words of a command line. -/
def main (words : List String) : IO UInt32 := do
  let includePath := (← IO.getEnv "PLAIT_INCLUDE_PATH").getD ""
  let home := (← IO.getEnv "HOME").getD "/"
  let traced := (← IO.getEnv "PLAIT_DEBUG").getD "" != ""
  let shown ← Program.settle ⟨includePath, home, traced, fun _ => .missing⟩ words []
  match shown.result with
  | .error e =>
    IO.eprintln (e.kind ++ ": " ++ e.message)
    pure 1
  | .ok output =>
    IO.print output.out
    IO.eprint output.err
    pure output.status.toUInt32
