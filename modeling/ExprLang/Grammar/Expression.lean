import ExprLang.Grammar.Rules

/-!
# Expressions of the language

The rules of the grammar, closed over each other. A rule asks for an expression
inside its own only when it has taken a token, so expressions nest no deeper than
there are tokens ahead.
-/
namespace ExprLang.Parser

/-- Expressions nested at most `depth` deep in others. -/
def expressionWithin : Nat → Parser (Option Expr)
  | 0 => Rule.expression (fail .missingExpression)
  | depth + 1 => Rule.expression (expressionWithin depth)

/-- The expression at the cursor, absent if it has no value. -/
def expression : Parser (Option Expr) := fun c => expressionWithin c.size c

/-- An operand, or an expression without operators. -/
def atom : Parser (Option Expr) := Rule.atom expression

def block : Parser (Option Expr) := Rule.block expression

/-- Joins an operand with the operators after it that bind more strongly than `floor`. -/
def chained (floor : Nat) (first : Expr) : Parser Expr := Rule.chained expression floor first

/-- Calls an expression if arguments follow it. -/
def called (callee : Expr) : Parser Expr := Rule.called expression callee

def program : Parser Program := Rule.program expression

end ExprLang.Parser
