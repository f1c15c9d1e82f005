import ExprLang.Expr.Basic
import ExprLang.Numeral
import ExprLang.Outline

/-!
# Outlines of expressions

The outline of a tree shows every node as a case around the record of its parts.
An external function is a function whose body is absent, and a conditional may
lack its second branch.
-/
namespace ExprLang

def Parameter.outline (p : Parameter) : Outline :=
  .record "Parameter"
    [.field "type_name" (.quoted p.type), .field "name" (.optional (p.name.map .quoted))]

/-- A node: its class, around the record of its parts. -/
def nodeOutline (className : String) (parts : List Outline) : Outline :=
  .case className [.record (className ++ "Expr") parts]

/-- The outline of a function, external if it has no body. -/
def functionOutline (name : String) (params : List Parameter) (body : Option Outline) :
    Outline :=
  nodeOutline "Function"
    [.field "name" (.quoted name), .field "params" (.list (params.map Parameter.outline)),
      .field "body" (.optional body)]

/-- The outline of a conditional. -/
def conditionalOutline (condition thenBranch : Outline) (elseBranch : Option Outline) :
    Outline :=
  nodeOutline "If"
    [.field "condition" condition, .field "then_branch" thenBranch,
      .field "else_branch" (.optional elseBranch)]

namespace Expr

mutual

def outline : Expr → Outline
  | number value => .case "Number" [.word (numeral value)]
  | string value => .case "String" [.quoted value]
  | character code => .case "Character" [.word code.toNat.repr]
  | boolean value => .case "Boolean" [.word (booleanText value)]
  | symbol name => .case "Symbol" [.quoted name]
  | assignment operator assignee value =>
    nodeOutline "Assignment"
      [.field "operator" (.quoted operator), .field "assignee" (outline assignee),
        .field "value" (outline value)]
  | binary operator left right =>
    nodeOutline "Binary"
      [.field "left" (outline left), .field "operator" (.quoted operator),
        .field "right" (outline right)]
  | ifThen condition thenBranch =>
    conditionalOutline (outline condition) (outline thenBranch) none
  | ifThenElse condition thenBranch elseBranch =>
    conditionalOutline (outline condition) (outline thenBranch) (some (outline elseBranch))
  | function name params body => functionOutline name params (some (outline body))
  | external name params => functionOutline name params none
  | closure params body =>
    nodeOutline "Closure"
      [.field "params" (.list (params.map .quoted)), .field "body" (outline body)]
  | call callee arguments =>
    nodeOutline "Call"
      [.field "callee" (outline callee), .field "arguments" (.list (outlines arguments))]
  | block body => nodeOutline "Block" [.field "body" (.list (outlines body))]

/-- The outlines of expressions, one for each. -/
def outlines : List Expr → List Outline
  | [] => []
  | e :: es => outline e :: outlines es

end

theorem outlines_eq_map (es : List Expr) : outlines es = es.map outline := by
  induction es with
  | nil => rfl
  | cons e es ih => simp [outlines, ih]

end Expr

def Program.outline (p : Program) : Outline :=
  .record "Program" [.field "body" (.list (p.body.map Expr.outline))]

end ExprLang
