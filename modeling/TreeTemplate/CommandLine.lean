import TreeTemplate.Session
import TreeTemplate.Trace

/-! # The command line

The words of a command line, what they ask for, and what is then printed: the value of a
template file as a document, or the report of an error.
-/
namespace TreeTemplate.CommandLine

/-- What a command line asks for. -/
structure Arguments where
  files : List String := []
  includePaths : List String := []
  format : Document.Format := .json

/-- Why a command line asks for no run. -/
inductive Stop where
  | help
  | noPath (option : String)
  | badFormat
  | unknownOption (option : String)
  | wrongFileCount
  deriving DecidableEq, Repr

/-- How the program is used. -/
def usage : String := "usage: plait TEMPLATE [DATA] [-I PATH]... [--format json|yaml]"

/-- What is printed: a text for the result, a text for errors, and the exit status. -/
structure Output where
  out : String
  err : String
  status : Nat

namespace Stop

/-- The text that goes with a stop. -/
def message : Stop → String
  | .help => usage
  | .noPath option => option ++ " needs a path\n" ++ usage
  | .badFormat => "--format must be json or yaml\n" ++ usage
  | .unknownOption option => "unknown option " ++ option ++ "\n" ++ usage
  | .wrongFileCount => usage

/-- What a stop prints; asking for help is no error. -/
def output (s : Stop) : Output :=
  match s with
  | .help => ⟨s.message ++ "\n", "", 0⟩
  | s => ⟨"", s.message ++ "\n", 1⟩

end Stop

/-- The path that is glued to the option of an include path. -/
def gluedPath? (word : String) : Option String :=
  match word.toList with
  | '-' :: 'I' :: c :: cs => some (String.ofList (c :: cs))
  | _ => none

/-- The formats that can be written. -/
def outputFormat? (name : String) : Option Document.Format :=
  match Document.Format.ofName? name with
  | some .toml => none
  | found => found

/-- Reads words after those already read. -/
def readFrom (args : Arguments) : List String → Except Stop Arguments
  | [] => .ok args
  | word :: rest =>
    if word = "-h" ∨ word = "--help" then .error .help
    else if word = "-I" ∨ word = "--include" then
      match rest with
      | [] => .error (.noPath word)
      | path :: rest =>
        readFrom { args with includePaths := args.includePaths ++ [path] } rest
    else
      match gluedPath? word with
      | some path => readFrom { args with includePaths := args.includePaths ++ [path] } rest
      | none =>
        if word = "--format" then
          match rest with
          | [] => .error .badFormat
          | name :: rest =>
            match outputFormat? name with
            | some format => readFrom { args with format := format } rest
            | none => .error .badFormat
        else if word.toList.head? = some '-' then .error (.unknownOption word)
        else readFrom { args with files := args.files ++ [word] } rest

/-- Reads a command line, which names a template file and at most one data file. -/
def read (words : List String) : Except Stop Arguments :=
  match readFrom {} words with
  | .error stop => .error stop
  | .ok args =>
    if 1 ≤ args.files.length ∧ args.files.length ≤ 2 then .ok args else .error .wrongFileCount

/-- What the program finds around it. -/
structure Surroundings where
  /-- Further search paths, with colons between them. -/
  includePath : String := ""
  home : String := "/"
  traced : Bool := false
  disk : Files.Disk

/-- The host of the command line, which lends nothing. -/
def host : Host Unit where
  shows _ _ := ""
  callable _ := false
  call _ _ s := (.ok .null, s)
  takesMessages _ := false
  send _ _ _ s := (.ok .null, s)
  member? _ _ _ := none
  invoke _ _ _ s := (.ok .null, s)

/-- The search paths when none are given. -/
def defaultPaths (includePath : String) : List String := "." :: Files.splitPaths includePath

/-- An engine over the files around the program. -/
def engine {σ : Type} (host : Host σ) (env : Surroundings) (paths : List String) : Engine σ where
  host := host
  includePaths := paths
  file? := env.disk.loader env.home
  decode path bytes := (Document.readAt path bytes).mapError Document.DecodeFault.message

/-- A text without the line ends that it ends in, and one line end. -/
def endLine (s : String) : String :=
  String.ofList ((s.toList.reverse.dropWhile (· = '\n')).reverse ++ ['\n'])

/-- The lines of a trace, if there is one. -/
def traceText (env : Surroundings) (events : List Event) : String :=
  if env.traced then String.join ((traceOf events).map (· ++ "\n")) else ""

/-- What is printed for a report. -/
def print (format : Document.Format) (trace : String) (r : Report) : Except Fault Output :=
  match r.error with
  | some e => .ok ⟨"", trace ++ e.text ++ "\n", 1⟩
  | none =>
    (Document.write (fun _ => "") format.name true r.value).map fun text =>
      ⟨endLine text, trace, 0⟩

/-- A run of the program: what is printed, or the failure that is passed on, and what was
observed. -/
def run (env : Surroundings) (words : List String) : Shown Output :=
  match read words with
  | .error stop => ⟨.ok stop.output, []⟩
  | .ok args =>
    let paths := defaultPaths env.includePath ++ args.includePaths
    let session : Session Unit := ⟨engine host env paths, ()⟩
    let shown := (session.runFiles env.disk (args.files.headD "") args.files[1]?).1
    match shown.result with
    | .error e => ⟨.error e, shown.events⟩
    | .ok r =>
      ⟨(print args.format (traceText env shown.events) r).mapError .fault, shown.events⟩

/-- The paths on disk that a run looked at: its documents, and wherever it searched for an
included file. -/
def consulted (env : Surroundings) (words : List String) (shown : Shown Output) : List String :=
  let files := ((read words).toOption.map Arguments.files).getD []
  let searched := shown.events.filterMap fun
    | .probe _ path _ => some (Files.expandHome env.home path)
    | _ => none
  files.map Files.normalize ++ searched

end TreeTemplate.CommandLine
