import TreeTemplate.Expr.Parser

/-! # The grammar of expressions

The rules of the expression language, read as an ordinary context-free grammar over
characters: the alternatives of a rule are unordered, and a repetition or a pattern takes
any number of characters that it can.

    expression   = _ alternative { _ ("?" | ":") _ alternative } _
    alternative  = "!" _ alternative | string | number | dotted | term
    dotted       = term selector { selector }
    selector     = _ "." _ rterm
    term         = group | identifier _ "(" arguments _ ")" | identifier | "$" _ term
    rterm        = group | key _ "(" arguments _ ")" | key | string | integer | "$" _ term
    group        = "(" expression ")"
    arguments    = [ expression { "," expression } ]
    string       = a text between two of the same delimiter that does not hold it
    number       = [ "+" | "-" ] digits [ "." digits ]
    integer      = [ "+" | "-" ] digits
    _            = spaces, tabs and line ends

Each rule is a relation between the texts that it derives and the trees that belong to
its derivations.  Nothing here scans, tries or looks ahead.
-/
namespace TreeTemplate.Expr.Grammar

/-! ## Patterns -/

/-- A run of white space, `_` in the rules. -/
def Blank (cs : List Char) : Prop := ∀ c ∈ cs, Token.isSpace c = true

/-- One or more decimal digits. -/
def Digits (cs : List Char) : Prop := cs ≠ [] ∧ ∀ c ∈ cs, Text.isAsciiDigit c = true

/-- An identifier; a key is spelled the same. -/
def Name (cs : List Char) : Prop := Text.isIdentifier cs = true

/-- A text between two equal delimiters, and what stands between them. -/
inductive Quoted : List Char → List Char → Prop
  | mk {d : Char} {inner : List Char} (hd : d ∈ Token.delimiters) (hi : d ∉ inner) :
      Quoted (d :: (inner ++ [d])) inner

/-- An optional sign, and whether it is a minus. -/
inductive Sign : List Char → Bool → Prop
  | none : Sign [] false
  | plus : Sign ['+'] false
  | minus : Sign ['-'] true

/-- The spelling of an integer, and its value. -/
inductive Integer : List Char → Value → Prop
  | mk {sign ds : List Char} {negative : Bool} (hs : Sign sign negative) (hd : Digits ds) :
      Integer (sign ++ ds) (.int (Binary64.signedInt negative (Text.natOfDigits ds)))

/-- The spelling of a number, and its value: one with a point is a double. -/
inductive Number : List Char → Value → Prop
  | whole {cs : List Char} {v : Value} (h : Integer cs v) : Number cs v
  | decimal {sign ds fs : List Char} {negative : Bool} (hs : Sign sign negative)
      (hd : Digits ds) (hf : Digits fs) :
      Number (sign ++ (ds ++ '.' :: fs)) (.float (Binary64.ofParts negative ds fs 0))

/-- The operators of a chain by their marks. -/
inductive Operator : Char → ChainOp → Prop
  | whenTrue : Operator '?' .whenTrue
  | whenFalse : Operator ':' .whenFalse

/-! ## Rules -/

mutual

/-- `expression`: a chain of alternatives; without steps it is its first operand. -/
inductive Chain : List Char → Expr → Prop
  | steps {v a b w : List Char} {e : Expr} {steps : List (ChainOp × Expr)}
      (hv : Blank v) (ha : Alternative a e) (hb : Steps b steps) (hw : Blank w) :
      Chain (v ++ (a ++ (b ++ w))) (ofChain e steps)

/-- `{ _ ("?" | ":") _ alternative }`. -/
inductive Steps : List Char → List (ChainOp × Expr) → Prop
  | nil : Steps [] []
  | cons {v w a b : List Char} {c : Char} {op : ChainOp} {e : Expr}
      {steps : List (ChainOp × Expr)} (hv : Blank v) (hc : Operator c op) (hw : Blank w)
      (ha : Alternative a e) (hb : Steps b steps) :
      Steps (v ++ c :: (w ++ (a ++ b))) ((op, e) :: steps)

/-- `alternative`: an operand of a chain. -/
inductive Alternative : List Char → Expr → Prop
  | negation {v a : List Char} {e : Expr} (hv : Blank v) (ha : Alternative a e) :
      Alternative ('!' :: (v ++ a)) (.not e)
  | string {a inner : List Char} (h : Quoted a inner) : Alternative a (ofQuoted inner)
  | number {a : List Char} {v : Value} (h : Number a v) : Alternative a (.literal v)
  | dotted {a b : List Char} {base : Expr} {selectors : List Expr} (ha : Term a base)
      (hb : Selectors b selectors) (hne : selectors ≠ []) :
      Alternative (a ++ b) (.dot base selectors)
  | term {a : List Char} {e : Expr} (h : Term a e) : Alternative a e

/-- `term`: what may stand before the first point. -/
inductive Term : List Char → Expr → Prop
  | group {a : List Char} {e : Expr} (h : Chain a e) : Term ('(' :: (a ++ [')'])) (.group e)
  | call {f v a w : List Char} {args : List Expr} (hf : Name f) (hv : Blank v)
      (ha : Arguments a args) (hw : Blank w) :
      Term (f ++ (v ++ '(' :: (a ++ (w ++ [')'])))) (.call (.named f) args)
  | name {f : List Char} (hf : Name f) : Term f (.named f)
  | lookup {v a : List Char} {e : Expr} (hv : Blank v) (ha : Term a e) :
      Term ('$' :: (v ++ a)) (.lookup e)

/-- `{ selector }`: each selector after its point. -/
inductive Selectors : List Char → List Expr → Prop
  | nil : Selectors [] []
  | cons {v w a b : List Char} {e : Expr} {es : List Expr} (hv : Blank v) (hw : Blank w)
      (ha : Selector a e) (hb : Selectors b es) :
      Selectors (v ++ '.' :: (w ++ (a ++ b))) (e :: es)

/-- `rterm`: what may stand after a point. -/
inductive Selector : List Char → Expr → Prop
  | group {a : List Char} {e : Expr} (h : Chain a e) : Selector ('(' :: (a ++ [')'])) (.group e)
  | method {f v a w : List Char} {args : List Expr} (hf : Name f) (hv : Blank v)
      (ha : Arguments a args) (hw : Blank w) :
      Selector (f ++ (v ++ '(' :: (a ++ (w ++ [')'])))) (.method (.str (String.ofList f)) args)
  | key {f : List Char} (hf : Name f) : Selector f (ofQuoted f)
  | string {a inner : List Char} (h : Quoted a inner) : Selector a (ofQuoted inner)
  | integer {a : List Char} {v : Value} (h : Integer a v) : Selector a (.literal v)
  | subscript {v a : List Char} {e : Expr} (hv : Blank v) (ha : Term a e) :
      Selector ('$' :: (v ++ a)) (.group e)

/-- `arguments`: none, or some with commas between them. -/
inductive Arguments : List Char → List Expr → Prop
  | none : Arguments [] []
  | some {a b : List Char} {e : Expr} {es : List Expr} (ha : Chain a e)
      (hb : MoreArguments b es) : Arguments (a ++ b) (e :: es)

/-- `{ "," expression }`. -/
inductive MoreArguments : List Char → List Expr → Prop
  | nil : MoreArguments [] []
  | cons {a b : List Char} {e : Expr} {es : List Expr} (ha : Chain a e)
      (hb : MoreArguments b es) : MoreArguments (',' :: (a ++ b)) (e :: es)

end

end TreeTemplate.Expr.Grammar
