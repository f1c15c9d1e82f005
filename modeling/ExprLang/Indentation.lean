/-!
# Indentation

A text with brackets is laid out over several lines: each bracket and comma outside
a quotation ends a line, and a line is indented by two spaces for every open
bracket. Nothing but spaces is left out, and quotations are kept as they are.
-/
namespace ExprLang

/-- Where a character stands as to quotations. -/
inductive QuoteState where
  | outside
  | inside
  /-- Inside, behind a backslash that protects the character. -/
  | escaped
  deriving DecidableEq, Repr

/-- The state behind a character inside a quotation. -/
def QuoteState.after (c : Char) : QuoteState → QuoteState
  | escaped => inside
  | _ => if c = '\\' then escaped else if c = '"' then outside else inside

/-- What the characters read so far leave behind. -/
structure Indentation where
  /-- The number of brackets that are open. -/
  depth : Nat
  /-- A space that comes next begins a line and is left out. -/
  dropsSpace : Bool
  quote : QuoteState
  deriving DecidableEq, Repr

namespace Indentation

def initial : Indentation := ⟨0, false, .outside⟩

/-- A new line at a depth. -/
def newLine (depth : Nat) : List Char := '\n' :: List.replicate (2 * depth) ' '

/-- What one character becomes, and what it leaves behind. -/
def step (s : Indentation) (c : Char) : Indentation × List Char :=
  if s.quote ≠ .outside then ({ s with quote := s.quote.after c }, [c])
  else if c = '"' then ({ s with quote := .inside }, [c])
  else if c = '{' ∨ c = '(' ∨ c = '[' then
    ({ s with depth := s.depth + 1, dropsSpace := true }, c :: newLine (s.depth + 1))
  else if c = '}' ∨ c = ')' ∨ c = ']' then
    ({ s with depth := s.depth - 1 }, newLine (s.depth - 1) ++ [c])
  else if c = ',' then ({ s with dropsSpace := true }, c :: newLine s.depth)
  else if c = ' ' ∧ s.dropsSpace = true then ({ s with dropsSpace := false }, [])
  else ({ s with dropsSpace := false }, [c])

/-- The layout of a text, after `done`, and the state at its end. -/
def run (s : Indentation) (done : String) : List Char → Indentation × String
  | [] => (s, done)
  | c :: rest => run (s.step c).1 (done ++ String.ofList (s.step c).2) rest

end Indentation

/-- The text laid out by its brackets and commas. -/
def indented (text : String) : String := (Indentation.initial.run "" text.toList).2

end ExprLang
