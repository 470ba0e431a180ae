import TreeTemplate.Document.Yaml.Tag
import TreeTemplate.Text.Base64
import TreeTemplate.Text.Integer
import TreeTemplate.Text.Quoted
import TreeTemplate.Value.Basic

/-! # What scalars of YAML stand for

The value of a text of a known kind.  A text that was found to be of a kind has nearly always
a value of it, but a tag may claim any text.
-/
namespace TreeTemplate.Document.Yaml

/-- A text without underscores. -/
def withoutUnderscores (cs : List Char) : List Char := cs.filter (· ≠ '_')

/-- The fault of a text that ends before a number begins. -/
def refuseEmpty {α : Type} : Attempt α := refuseFault "IndexError" "string index out of range"

/-- The integer that a text writes in a base. -/
def integerIn (base : Nat) (cs : List Char) : Attempt Int :=
  match Text.readIntIn? base cs with
  | some n => .ok n
  | none => refuseFault "ValueError"
      ("invalid literal for int() with base " ++ toString base ++ ": " ++
        String.ofList ((Text.quoted cs).take 200))

/-- The integer that an unsigned text writes. -/
def unsignedInteger (cs : List Char) : Attempt Int :=
  match cs with
  | [] => refuseEmpty
  | ['0'] => .ok 0
  | '0' :: 'b' :: ds => integerIn 2 ds
  | '0' :: 'x' :: ds => integerIn 16 ds
  | '0' :: _ => integerIn 8 cs
  | cs => do
    let groups ← (cs.splitOn ':').mapM (integerIn 10)
    pure (groups.foldl (fun n group => 60 * n + group) 0)

/-- The integer that a text writes. -/
def integerOf (cs : List Char) : Attempt Int :=
  if cs.isEmpty then refuseEmpty
  else
    let (negative, unsigned) := Binary64.splitSign cs
    (unsignedInteger unsigned).map fun n => if negative then -n else n

/-- The number that a text without colons writes, or its fault. -/
def decimal (payload : Payload) (cs : List Char) : Attempt Binary64 :=
  let unsigned := Text.strip Text.isWhiteSpace cs
  let ascii := unsigned.map fun c =>
    (Text.digitValue? c).elim c fun d => Char.ofNat (0x30 + d)
  let (negative, word) := Binary64.splitSign ascii
  if word = "infinity".toList then .ok (.infinite negative)
  else
    match Binary64.read? payload ascii with
    | some x => .ok x
    | none => refuseFault "ValueError"
        ("could not convert string to float: " ++ String.ofList (Text.quoted cs))

/-- The sum of the parts of a number of base sixty, the lowest first, each scaled and
rounded by itself. -/
def sumSixties (payload : Payload) (sum : Binary64) (base : Nat) :
    List Binary64 → Attempt Binary64
  | [] => .ok sum
  | x :: xs =>
    match Binary64.ofInt base with
    | .infinite _ => refuseFault "OverflowError" "int too large to convert to float"
    | scale =>
      sumSixties payload (Binary64.add payload sum (Binary64.mul payload x scale)) (60 * base) xs

/-- The payload of the NaN that is written as a word of its own. -/
def wordPayload : Payload := .constant "yaml"

/-- The number that a text writes; the payload is that of a NaN written otherwise. -/
def numberOf (payload : Payload) (cs : List Char) : Attempt Binary64 :=
  if cs.isEmpty then refuseEmpty
  else
    let (negative, unsigned) := Binary64.splitSign (cs.map Char.toLower)
    let signed := fun x =>
      Binary64.mul payload (Binary64.ofInt (if negative then -1 else 1)) x
    if unsigned = ".inf".toList then .ok (.infinite negative)
    else if unsigned = ".nan".toList then .ok (.nan wordPayload)
    else if ':' ∈ unsigned then do
      let parts ← (unsigned.splitOn ':').mapM (decimal payload)
      signed <$> sumSixties payload (.signedZero false) 1 parts.reverse
    else signed <$> decimal payload unsigned

/-- The truth value that a text writes. -/
def truthOf (cs : List Char) : Attempt Bool :=
  let lower := cs.map Char.toLower
  let s := String.ofList lower
  if s ∈ Tag.trueTexts then .ok true
  else if s ∈ Tag.falseTexts then .ok false
  else refuseFault "KeyError" (String.ofList (Text.quoted lower))

/-- The moment that a text writes. -/
def momentOf (cs : List Char) : Attempt Moment :=
  let line := if cs.getLast? = some '\n' then cs.dropLast else cs
  match time? line with
  | none => refuseFault "AttributeError" "'NoneType' object has no attribute 'groupdict'"
  | some t =>
    match t.moment with
    | .ok m => .ok m
    | .error cause => refuseFault "ValueError" cause.message

/-- The bytes that a text writes. -/
def bytesOf (cs : List Char) : Attempt (List UInt8) :=
  if cs.all fun c => c.toNat < 0x80 then orRefuse (Text.Base64.decode? cs) else refuse

/-- The value of a text of a kind, given the payload of a NaN. -/
def Tag.value (payload : Payload) (tag : Tag) (cs : List Char) : Attempt Value :=
  match tag with
  | .null => .ok .null
  | .truth => (truthOf cs).map .bool
  | .integer => (integerOf (withoutUnderscores cs)).map .int
  | .number => (numberOf payload (withoutUnderscores cs)).map .float
  | .bytes => (bytesOf cs).map .bytes
  | .time => (momentOf cs).map .moment
  | .text => .ok (.str (String.ofList cs))
  | _ => refuse

/-- The value of an unquoted text. -/
def plainValue (cs : List Char) : Attempt Value := (Tag.ofPlain cs).value wordPayload cs

end TreeTemplate.Document.Yaml
