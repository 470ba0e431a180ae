import TreeTemplate.Document.Encoding
import TreeTemplate.Document.Json.Writer
import TreeTemplate.Document.Toml.Reader
import TreeTemplate.Document.Yaml.Reader
import TreeTemplate.Document.Yaml.Writer

/-! # Documents

Values read from documents and written as documents.  The format of a document is the
one asked for by name, else that of the extension of its path, else the one that its
first characters suggest.  Main facts: a format found by an extension does not depend on
the text, and a text always suggests a format.
-/
namespace TreeTemplate.Document

/-- A document format. -/
inductive Format where
  | json
  | yaml
  | toml
  deriving DecidableEq, Repr

namespace Format

/-- The name of a format. -/
def name : Format → String
  | .json => "json"
  | .yaml => "yaml"
  | .toml => "toml"

/-- The format with a name. -/
def ofName? (name : String) : Option Format :=
  [Format.json, .yaml, .toml].find? fun f => f.name = name

@[simp] theorem ofName?_name (f : Format) : ofName? f.name = some f := by
  cases f <;> rfl

/-- The format that an extension in lower case stands for. -/
def ofExtension? : List Char → Option Format
  | ['j', 's', 'o', 'n'] => some .json
  | ['y', 'a', 'm', 'l'] => some .yaml
  | ['y', 'm', 'l'] => some .yaml
  | ['t', 'o', 'm', 'l'] => some .toml
  | _ => none

/-- The extension of a path: what follows the last point of the file name, if anything
but points comes before it. -/
def extension? (path : List Char) : Option (List Char) :=
  let filename := path.reverse.takeWhile (· ≠ '/')
  match filename.span (· ≠ '.') with
  | (ext, '.' :: stem) => if stem.all (· = '.') then none else some ext.reverse
  | _ => none

/-- The format that the extension of a path stands for, in upper or lower case. -/
def ofPath? (path : String) : Option Format :=
  (extension? path.toList).bind fun ext => ofExtension? (ext.map Char.toLower)

/-- The format that the first characters of a text suggest. -/
def ofText (text : List Char) : Format :=
  match text.dropWhile Text.isBlank with
  | '[' :: _ => .json
  | '\x7b' :: _ => .json
  | _ => .yaml

/-- The format of a document by its path, or else by a text. -/
def detect (path : Option String) (text : Option (List Char)) : Option Format :=
  match path.bind ofPath? with
  | some f => some f
  | none => text.map ofText

/-- A path whose extension is known decides alone. -/
theorem detect_of_path {path : String} {f : Format} (text : Option (List Char))
    (h : ofPath? path = some f) : detect (some path) text = some f := by
  simp [detect, h]

/-- A text always suggests a format. -/
theorem detect_isSome (path : Option String) (text : List Char) :
    (detect path (some text)).isSome = true := by
  unfold detect
  cases path.bind ofPath? <;> rfl

example : extension? "a/b.tar.json".toList = some "json".toList ∧
    extension? "x.d/a".toList = none ∧ extension? "..json".toList = none := by
  decide +kernel

end Format

/-- Why data is no document. -/
inductive DecodeFault where
  /-- The bytes are no text in the encoding. -/
  | notText (encoding : String) (cause : DecodingFault)
  | json (detail : String)
  | yaml
  | toml
  /-- No format has this name. -/
  | unsupported (name : String)
  /-- A part of the document stands for nothing. -/
  | fault (cause : Fault)

namespace DecodeFault

/-- The name under which a fault is reported. -/
def kind : DecodeFault → String
  | .fault cause => cause.kind
  | _ => "DecodeError"

/-- The words of a fault. -/
def message : DecodeFault → String
  | .notText encoding cause => "not valid " ++ encoding ++ " text: " ++ cause.message
  | .json detail => "invalid JSON: " ++ detail
  | .yaml => "invalid YAML"
  | .toml => "invalid TOML"
  | .unsupported name => "Unsupported format: " ++ Text.quote name
  | .fault cause => cause.message

/-- The fault of a document that is no valid YAML. -/
def ofRefusal : Yaml.Refusal → DecodeFault
  | .malformed => .yaml
  | .fault cause => .fault cause

end DecodeFault

/-- Reads a text in a format. -/
def readAs (format : Format) (text : List Char) : Except DecodeFault Value :=
  match format with
  | .json => (Json.read text).mapError .json
  | .yaml => (Yaml.read text).mapError .ofRefusal
  | .toml => (Toml.read text).elim (.error .toml) .ok

/-- The text of data: bytes are decoded, and everything else is the text it inserts into
a template. -/
def textOf (shows : HostRef → String) (encoding : String) (data : Value) :
    Except DecodeFault (List Char) :=
  match data with
  | .bytes [] => .ok []
  | .bytes bs =>
    match Encoding.ofName? encoding with
    | some e => (e.decode bs).mapError (.notText encoding)
    | none => .error (.fault (.raised "LookupError" ("unknown encoding: " ++ encoding)))
  | v => .ok (v.text shows).toList

/-- The encoding of documents that name none. -/
def usualEncoding : String := "utf-8"

/-- Reads data as a document.  The name of a format, unless it is empty, goes before the
path, and an empty path is none. -/
def read (shows : HostRef → String) (data : Value) (path formatName : Option String)
    (encoding : String) : Except DecodeFault Value := do
  let text ← textOf shows encoding data
  match formatName with
  | none | some "" => readAs ((Format.detect path (some text)).getD .yaml) text
  | some name =>
    match Format.ofName? name with
    | some format => readAs format text
    | none => .error (.unsupported name)

/-- Reads the bytes that stand at a path. -/
def readAt (path : String) (bytes : List UInt8) : Except DecodeFault Value :=
  read (fun _ => "") (.bytes bytes) (some path) none usualEncoding

/-- Writes a value in a format given by its name, in upper or lower case. -/
def write (shows : HostRef → String) (formatName : String) (pretty : Bool) (v : Value) :
    Except Fault String :=
  match Format.ofName? (formatName.map Char.toLower) with
  | some .json => Json.write pretty v
  | some .yaml => Yaml.write shows v
  | _ => .error (.raised "ValueError"
      ("Unsupported serialization format: " ++ Text.quote formatName))

end TreeTemplate.Document
