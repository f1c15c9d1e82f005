import ExprLang.Expr.Basic
import ExprLang.Grammar.Sequence
import ExprLang.Numeral
import ExprLang.OperatorChain

/-!
# Grammar rules

The rules of the grammar, each over a parser `self` for the expressions inside it.
Some expressions are absent: braces without statements, a closure around such
braces, and any of these in parentheses. They read as `none`, and are refused where
a value is needed.
-/
namespace ExprLang.Rule

open ExprLang.Parser

/-- The value of a token that is an expression by itself. -/
def terminalValue (t : Token) : Except Complaint Expr :=
  match t.kind with
  | .identifier => .ok (.symbol t.value)
  | .number =>
    match numeral? t.value with
    | some n => .ok (.number n)
    | none => .error .invalidNumber
  | .character => .ok (.character ((t.firstChar.map Char.val).getD 0))
  | .string => .ok (.string t.value)
  | _ => .error .unexpectedToken

/-- Takes one token as an expression. -/
def terminal : Parser Expr := do
  let t ← advance
  match terminalValue t with
  | .ok e => return e
  | .error complaint => failAt t complaint

/-- A type, and a name if one follows. -/
def parameter : Parser Parameter := do
  let type ← expectName .type
  if (← current).kind = .identifier then return ⟨type, some (← advance).value⟩
  else return ⟨type, none⟩

def parameters : Parser (List Parameter) := delimited '(' ')' ',' parameter

/-- A function that is defined elsewhere. -/
def external : Parser Expr := do
  expectKeyword "ext"
  let name ← expectName .function
  return .external name (← parameters)

section

variable (self : Parser (Option Expr))

def arguments : Parser (List Expr) := delimited '(' ')' ',' (required self)

/-- Calls an expression if arguments follow it. -/
def called (callee : Expr) : Parser Expr := do
  if (← current).isMark '(' then return .call callee (← arguments self) else return callee

/-- Statements between braces. Absent ones are left out, but count as statements. -/
def block : Parser (Option Expr) := do
  let statements ← delimited '{' '}' ';' self
  return if statements.isEmpty then none else some (.block statements.reduceOption)

def grouping : Parser (Option Expr) := do
  expectMark '('
  let e ← self
  expectMark ')'
  return e

/-- A conditional. A second branch that is absent counts as none. -/
def conditional : Parser Expr := do
  expectKeyword "if"
  let condition ← required self
  let thenBranch ← required self
  if (← current).isWord .keyword "else" then
    let _ ← advance
    match ← self with
    | some elseBranch => return .ifThenElse condition thenBranch elseBranch
    | none => return .ifThen condition thenBranch
  else return .ifThen condition thenBranch

/-- A definition. Its name may be any token, its parameters may be left out, and with
an absent body it counts as external. -/
def definition : Parser Expr := do
  expectKeyword "def"
  let name := (← advance).value
  let params ← if (← current).isMark '(' then parameters else pure []
  match ← self with
  | some body => return .function name params body
  | none => return .external name params

/-- A closure, absent if its body is. -/
def closure : Parser (Option Expr) := do
  expectKeyword "cls"
  let params ← delimited '(' ')' ',' (expectName .variable)
  return (← block self).map (.closure params)

/-- An expression without what may follow it, told by its first token. -/
def unit : Parser (Option Expr) := do
  let t ← current
  if t.isWord .keyword "ext" then some <$> external
  else if t.isWord .keyword "def" then some <$> definition self
  else if t.isWord .keyword "if" then some <$> conditional self
  else if t.isWord .keyword "cls" then closure self
  else if t.isWord .keyword "true" ∨ t.isWord .keyword "false" then
    return some (.boolean ((← advance).value == "true"))
  else if t.isMark '(' then grouping self
  else if t.isMark '{' then block self
  else some <$> terminal

/-- An operand: a unit, called if arguments follow it. -/
def atom : Parser (Option Expr) := do
  match ← unit self with
  | some e => some <$> called self e
  | none => if (← current).isMark '(' then fail .missingExpression else return none

/-- An operator that binds more strongly than `floor`, and the operand behind it. -/
def link (floor : Nat) : Parser (Option Link) := do
  let t ← current
  if t.kind = .operator then
    match precedence? t.value with
    | none => fail .unknownOperator
    | some strength =>
      if strength ≤ floor then return none
      else
        expectOperator t.value
        return some ⟨t.value, strength, ← required (atom self)⟩
  else return none

/-- Joins an operand with the operators after it that bind more strongly than `floor`. -/
def chained (floor : Nat) (first : Expr) : Parser Expr := do
  return ofChain first (← repeated (link self floor))

/-- An expression: operands joined by operators, the whole called if arguments
follow it. An absent operand cannot be joined or called. -/
def expression : Parser (Option Expr) := do
  match ← atom self with
  | some e => some <$> called self (← chained self 0 e)
  | none =>
    let t ← current
    if t.kind = .operator ∨ t.isMark '(' then fail .missingExpression else return none

/-- A statement and the semicolon behind it, unless the input ends. -/
def statement : Parser (Option (Option Expr)) := do
  if ← atEnd then return none
  else
    let e ← self
    if ← atEnd then return some e
    else
      expectMark ';'
      return some e

/-- Statements up to an end mark. -/
def program : Parser Program := do
  return ⟨(← repeated (statement self)).reduceOption⟩

end

end ExprLang.Rule
