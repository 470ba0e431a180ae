import TreeTemplate.Expr.Basic
import TreeTemplate.Expr.Token

/-! # Reading expressions

A descent over the tokens of an expression.  The first token of each part decides
which part it is, so nothing is tried twice.

    expression   = alternative { ("?" | ":") alternative }
    alternative  = "!" alternative | string | number | term { "." selector }
    term         = "(" expression ")" | name "(" arguments ")" | name | "$" term
    selector     = "(" expression ")" | name "(" arguments ")" | name | string
                 | integer | "$" term
    arguments    = [ expression { "," expression } ]
-/
namespace TreeTemplate.Expr

/-- A part of an expression and the tokens after it. -/
abbrev Parsed (α : Type) := Option (α × List Token)

/-- A string literal. -/
def ofQuoted (cs : List Char) : Expr := .literal (.str (String.ofList cs))

mutual

/-- A chain of alternatives. -/
def parseChain : Nat → List Token → Parsed Expr
  | 0, _ => none
  | n + 1, ts =>
    match parseAlternative n ts with
    | none => none
    | some (first, ts) =>
      match parseSteps n ts with
      | none => none
      | some (steps, ts) => some (ofChain first steps, ts)

/-- The steps of a chain after its first operand. -/
def parseSteps : Nat → List Token → Parsed (List (ChainOp × Expr))
  | 0, _ => none
  | n + 1, .mark '?' :: ts => parseStep n .whenTrue ts
  | n + 1, .mark ':' :: ts => parseStep n .whenFalse ts
  | _ + 1, ts => some ([], ts)

/-- A step after its operator, and the steps after it. -/
def parseStep : Nat → ChainOp → List Token → Parsed (List (ChainOp × Expr))
  | 0, _, _ => none
  | n + 1, op, ts =>
    match parseAlternative n ts with
    | none => none
    | some (operand, ts) =>
      match parseSteps n ts with
      | none => none
      | some (more, ts) => some ((op, operand) :: more, ts)

/-- One operand of a chain. -/
def parseAlternative : Nat → List Token → Parsed Expr
  | 0, _ => none
  | n + 1, .mark '!' :: ts =>
    match parseAlternative n ts with
    | none => none
    | some (operand, ts) => some (.not operand, ts)
  | _ + 1, .quoted _ cs :: ts => some (ofQuoted cs, ts)
  | _ + 1, .number cs :: ts => some (.literal (Token.numberValue cs), ts)
  | n + 1, ts =>
    match parseTerm n ts with
    | none => none
    | some (base, ts) =>
      match parseSelectors n ts with
      | none => none
      | some (selectors, ts) => some (ofDot base selectors, ts)

/-- What may stand before the first point. -/
def parseTerm : Nat → List Token → Parsed Expr
  | 0, _ => none
  | n + 1, .mark '(' :: ts => parseGroup n ts
  | n + 1, .mark '$' :: ts =>
    match parseTerm n ts with
    | none => none
    | some (name, ts) => some (.lookup name, ts)
  | n + 1, .name cs :: .mark '(' :: ts =>
    match parseArguments n ts with
    | none => none
    | some (args, ts) => some (.call (.named cs) args, ts)
  | _ + 1, .name cs :: ts => some (.named cs, ts)
  | _ + 1, _ => none

/-- A parenthesised expression after its opening parenthesis. -/
def parseGroup : Nat → List Token → Parsed Expr
  | 0, _ => none
  | n + 1, ts =>
    match parseChain n ts with
    | some (inner, .mark ')' :: ts) => some (.group inner, ts)
    | _ => none

/-- The selectors after a term. -/
def parseSelectors : Nat → List Token → Parsed (List Expr)
  | 0, _ => none
  | n + 1, .mark '.' :: ts =>
    match parseSelector n ts with
    | none => none
    | some (selector, ts) =>
      match parseSelectors n ts with
      | none => none
      | some (more, ts) => some (selector :: more, ts)
  | _ + 1, ts => some ([], ts)

/-- What may stand after a point. -/
def parseSelector : Nat → List Token → Parsed Expr
  | 0, _ => none
  | n + 1, .mark '(' :: ts => parseGroup n ts
  | n + 1, .mark '$' :: ts =>
    match parseTerm n ts with
    | none => none
    | some (inner, ts) => some (.group inner, ts)
  | n + 1, .name cs :: .mark '(' :: ts =>
    match parseArguments n ts with
    | none => none
    | some (args, ts) => some (.method (.str (String.ofList cs)) args, ts)
  | _ + 1, .name cs :: ts => some (ofQuoted cs, ts)
  | _ + 1, .quoted _ cs :: ts => some (ofQuoted cs, ts)
  | _ + 1, .number cs :: ts => some (.literal (Token.numberValue cs), ts)
  | _ + 1, _ => none

/-- The arguments of a call after its opening parenthesis. -/
def parseArguments : Nat → List Token → Parsed (List Expr)
  | 0, _ => none
  | _ + 1, .mark ')' :: ts => some ([], ts)
  | n + 1, ts =>
    match parseChain n ts with
    | none => none
    | some (first, ts) =>
      match parseMoreArguments n ts with
      | none => none
      | some (more, ts) => some (first :: more, ts)

/-- The rest of the arguments of a call after one of them. -/
def parseMoreArguments : Nat → List Token → Parsed (List Expr)
  | 0, _ => none
  | _ + 1, .mark ')' :: ts => some ([], ts)
  | n + 1, .mark ',' :: ts =>
    match parseChain n ts with
    | none => none
    | some (next, ts) =>
      match parseMoreArguments n ts with
      | none => none
      | some (more, ts) => some (next :: more, ts)
  | _ + 1, _ => none

end

/-- The expression that a row of tokens spells.  Between two tokens the descent goes
down at most four levels, which bounds its depth. -/
def ofTokens? (ts : List Token) : Option Expr :=
  match parseChain (4 * ts.length + 4) ts with
  | some (e, []) => some e
  | _ => none

/-- The expression that a text spells. -/
def parse? (text : String) : Option Expr :=
  (Token.ofText? text.toList).bind ofTokens?

end TreeTemplate.Expr
