/-!
# Operators

Every operator of the language has a precedence, and one of them assigns.
-/
namespace ExprLang

/-- The operator that makes an assignment. -/
def assignmentOperator : String := "="

/-- The operators and how strongly they bind, assignment the weakest of all. -/
def precedences : List (String × Nat) :=
  [("=", 1),
   ("||", 2), ("&&", 3),
   ("<", 7), (">", 7), ("<=", 7), (">=", 7), ("==", 7), ("!=", 7),
   ("+", 10), ("-", 10),
   ("*", 20), ("/", 20), ("%", 20)]

/-- How strongly an operator binds, if there is such an operator. -/
def precedence? (operator : String) : Option Nat := precedences.lookup operator

end ExprLang
