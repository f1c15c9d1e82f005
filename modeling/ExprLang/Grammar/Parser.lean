import ExprLang.Cursor
import ExprLang.SyntaxError

/-!
# Parsers

A parser reads from a cursor on and leaves it where it stops, whether it succeeds
or fails. It fails with a complaint about a token, whose value is the text that the
error shows. A parser looks at no token beyond the current one.
-/
namespace ExprLang

/-- A complaint about a token. -/
structure Fault where
  complaint : Complaint
  token : Token
  deriving DecidableEq, Repr

abbrev Parser := EStateM Fault Cursor

namespace Parser

variable {α β : Type}

theorem pure_apply (a : α) (c : Cursor) : (pure a : Parser α) c = .ok a c := rfl

/-- A parser goes on where the one before it stops, unless that one fails. -/
theorem bind_apply (p : Parser α) (f : α → Parser β) (c : Cursor) :
    (p >>= f) c =
      match p c with
      | .ok a c' => f a c'
      | .error fault c' => .error fault c' := by
  change EStateM.bind p f c = _
  unfold EStateM.bind
  cases p c <;> rfl

/-- A function of what a parser gives. -/
theorem map_apply (f : α → β) (p : Parser α) (c : Cursor) :
    (f <$> p) c =
      match p c with
      | .ok a c' => .ok (f a) c'
      | .error fault c' => .error fault c' := by
  rw [map_eq_pure_bind, bind_apply]
  rfl

/-- The current token. -/
def current : Parser Token := fun c => .ok c.current c

/-- Whether the current token is an end mark. -/
def atEnd : Parser Bool := fun c => .ok c.atEnd c

/-- Takes the current token, whatever it is. -/
def advance : Parser Token := fun c => .ok c.current c.next

/-- Complains about the current token. -/
def fail (complaint : Complaint) : Parser α := fun c => .error ⟨complaint, c.current⟩ c

/-- Complains about a token that has been taken. -/
def failAt (t : Token) (complaint : Complaint) : Parser α := fun c => .error ⟨complaint, t⟩ c

/-- Takes the current token if it is an expected one. -/
def expect (expected : Token → Bool) (complaint : Complaint) : Parser Token := fun c =>
  if expected c.current then .ok c.current c.next else .error ⟨complaint, c.current⟩ c

def expectMark (mark : Char) : Parser Unit := do
  let _ ← expect (·.isMark mark) (.expectedPunctuation mark)

def expectKeyword (word : String) : Parser Unit := do
  let _ ← expect (·.isWord .keyword word) (.expectedKeyword word)

def expectOperator (operator : String) : Parser Unit := do
  let _ ← expect (·.isWord .operator operator) (.expectedOperator operator)

/-- Takes an identifier and gives its text. -/
def expectName (kind : NameKind) : Parser String := do
  return (← expect (·.kind == .identifier) (.expectedName kind)).value

/-- Takes a value for granted: its absence is a missing expression. -/
def required (p : Parser (Option α)) : Parser α := do
  match ← p with
  | some a => return a
  | none => fail .missingExpression

end Parser

end ExprLang
