/-!
# Expressions

The syntax tree. Every construct of the language is an expression, and a program
is the list of its top-level expressions.
-/
namespace ExprLang

/-- A parameter of a function has a type, and a name if it is given one. -/
structure Parameter where
  type : String
  name : Option String
  deriving DecidableEq, Repr

/-- An expression. A character is kept as its code point, which need not be a
valid one in a tree built by hand; likewise the operators may be any text. -/
inductive Expr where
  | number (value : Int32)
  | string (value : String)
  | character (code : UInt32)
  | boolean (value : Bool)
  | symbol (name : String)
  | assignment (operator : String) (assignee value : Expr)
  | binary (operator : String) (left right : Expr)
  | ifThen (condition thenBranch : Expr)
  | ifThenElse (condition thenBranch elseBranch : Expr)
  /-- A function with a body. -/
  | function (name : String) (params : List Parameter) (body : Expr)
  /-- A function that is defined elsewhere. -/
  | external (name : String) (params : List Parameter)
  | closure (params : List String) (body : Expr)
  | call (callee : Expr) (arguments : List Expr)
  | block (body : List Expr)
  deriving Inhabited

namespace Expr

/-- The keyword of a truth value. -/
def booleanText (value : Bool) : String := if value then "true" else "false"

/-- The name of an expression's class. -/
def className : Expr → String
  | number _ => "Number"
  | string _ => "String"
  | character _ => "Character"
  | boolean _ => "Boolean"
  | symbol _ => "Symbol"
  | assignment .. => "Assignment"
  | binary .. => "Binary"
  | ifThen .. => "If"
  | ifThenElse .. => "If"
  | function .. => "Function"
  | external .. => "Function"
  | closure .. => "Closure"
  | call .. => "Call"
  | block _ => "Block"

/-- A definition with a body takes in whatever operators follow it. -/
def isDefinition : Expr → Bool
  | function .. => true
  | _ => false

mutual

/-- Equality of expressions, as a test. -/
def same : Expr → Expr → Bool
  | number a, number b => a == b
  | string a, string b => a == b
  | character a, character b => a == b
  | boolean a, boolean b => a == b
  | symbol a, symbol b => a == b
  | assignment o a v, assignment o' a' v' => o == o' && same a a' && same v v'
  | binary o l r, binary o' l' r' => o == o' && same l l' && same r r'
  | ifThen c t, ifThen c' t' => same c c' && same t t'
  | ifThenElse c t e, ifThenElse c' t' e' => same c c' && same t t' && same e e'
  | function n ps b, function n' ps' b' => n == n' && ps == ps' && same b b'
  | external n ps, external n' ps' => n == n' && ps == ps'
  | closure ps b, closure ps' b' => ps == ps' && same b b'
  | call f as, call f' as' => same f f' && sameAll as as'
  | block es, block es' => sameAll es es'
  | _, _ => false

def sameAll : List Expr → List Expr → Bool
  | [], [] => true
  | e :: es, e' :: es' => same e e' && sameAll es es'
  | _, _ => false

end

mutual

theorem same_iff (a b : Expr) : same a b = true ↔ a = b := by
  cases a <;> cases b <;> simp [same, same_iff, sameAll_iff, and_assoc]

theorem sameAll_iff (as bs : List Expr) : sameAll as bs = true ↔ as = bs := by
  cases as <;> cases bs <;> simp [sameAll, same_iff, sameAll_iff]

end

instance : DecidableEq Expr := fun a b => decidable_of_iff _ (same_iff a b)

end Expr

/-- The top-level expressions of a source, in order. -/
structure Program where
  body : List Expr
  deriving DecidableEq, Inhabited

end ExprLang
