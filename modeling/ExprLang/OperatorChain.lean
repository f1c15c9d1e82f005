import ExprLang.Expr.Basic
import ExprLang.Operator

/-!
# Operator chains

A chain is an operand followed by links of an operator and another operand. Its
tree is built from the left with a stack of operations that still lack their right
operand. Stronger operators lie higher on the stack, and an operator settles those
that bind at least as strongly as itself, so that equal ones group to the left.
-/
namespace ExprLang

/-- An operator of known strength and its right neighbour in a chain. -/
structure Link where
  operator : String
  strength : Nat
  operand : Expr
  deriving DecidableEq

/-- An operation that lacks its right operand. -/
structure Pending where
  left : Expr
  operator : String
  strength : Nat
  deriving DecidableEq

/-- The node of an operator, an assignment or an operation. -/
def joined (operator : String) (left right : Expr) : Expr :=
  if operator = assignmentOperator then .assignment operator left right
  else .binary operator left right

/-- Gives `right` to every pending operation that binds at least as strongly as
`strength`, and the result to the one below it. -/
def settle (strength : Nat) : List Pending → Expr → List Pending × Expr
  | [], right => ([], right)
  | p :: ps, right =>
    if strength ≤ p.strength then settle strength ps (joined p.operator p.left right)
    else (p :: ps, right)

/-- The tree of pending operations, the operand behind them, and the links that follow. -/
def chainTree (stack : List Pending) (operand : Expr) : List Link → Expr
  | [] => (settle 0 stack operand).2
  | l :: ls =>
    let (rest, left) := settle l.strength stack operand
    chainTree (⟨left, l.operator, l.strength⟩ :: rest) l.operand ls

/-- The tree of a chain. -/
def ofChain (first : Expr) (links : List Link) : Expr := chainTree [] first links

@[simp] theorem ofChain_nil (e : Expr) : ofChain e [] = e := rfl

@[simp] theorem ofChain_single (e : Expr) (l : Link) :
    ofChain e [l] = joined l.operator e l.operand := by
  simp [ofChain, chainTree, settle]

end ExprLang
