import ExprLang.Expr.Basic
import ExprLang.Literal
import ExprLang.Numeral

/-!
# Source text of expressions

The text of a tree shows its grouping by parentheses around every operation and
conditional. A definition gets them only where its body would take in what
follows, as the left operand of an operation or the callee of a call.
-/
namespace ExprLang

/-- The text of a parameter, its type first. -/
def Parameter.text (p : Parameter) : String :=
  match p.name with
  | some name => p.type ++ " " ++ name
  | none => p.type

/-- A list in parentheses. -/
def listText (items : List String) : String := "(" ++ ", ".intercalate items ++ ")"

/-- The character of a code point, or the replacement character if there is none. -/
def characterOf (code : UInt32) : Char :=
  if h : code.isValidChar then ⟨code, h⟩ else '\uFFFD'

namespace Expr

/-- The text of an operand that something follows, given the expression's own text. -/
def operandText (e : Expr) (text : String) : String :=
  if e.isDefinition then "(" ++ text ++ ")" else text

/-- The statements of a block between braces. Empty braces alone have no value, so
a block without statements is shown with one that is left out. -/
def blockText (statements : List String) : String :=
  if statements.isEmpty then "\x7b \x7b\x7d \x7d"
  else "\x7b " ++ "; ".intercalate statements ++ " \x7d"

mutual

def text : Expr → String
  | number value => numeral value
  | string value => literal '"' value
  | character code => literal '\'' (characterOf code).toString
  | boolean value => booleanText value
  | symbol name => name
  | assignment operator assignee value =>
    "(" ++ operandText assignee (text assignee) ++ " " ++ operator ++ " " ++ text value ++ ")"
  | binary operator left right =>
    "(" ++ operandText left (text left) ++ " " ++ operator ++ " " ++ text right ++ ")"
  | ifThen condition thenBranch => "(if " ++ text condition ++ " " ++ text thenBranch ++ ")"
  | ifThenElse condition thenBranch elseBranch =>
    "(if " ++ text condition ++ " " ++ text thenBranch ++ " else " ++ text elseBranch ++ ")"
  | function name params body =>
    "def " ++ name ++ listText (params.map Parameter.text) ++ " " ++ text body
  | external name params => "ext " ++ name ++ listText (params.map Parameter.text)
  | closure params body => "cls" ++ listText params ++ " " ++ text body
  | call callee arguments => operandText callee (text callee) ++ listText (texts arguments)
  | block body => blockText (texts body)

/-- The texts of expressions, one for each. -/
def texts : List Expr → List String
  | [] => []
  | e :: es => text e :: texts es

end

theorem texts_eq_map (es : List Expr) : texts es = es.map text := by
  induction es with
  | nil => rfl
  | cons e es ih => simp [texts, ih]

end Expr

/-- The text of a program, one statement a line. -/
def Program.text (p : Program) : String := ";\n".intercalate (p.body.map Expr.text)

end ExprLang
