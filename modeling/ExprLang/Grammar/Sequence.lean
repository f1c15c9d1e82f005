import ExprLang.Grammar.Parser

/-!
# Sequences

A list has an opening mark, elements with separators between them, perhaps one
more separator, and a closing mark. An end mark of the input ends the elements
like the closing mark does, which is then found missing.
-/
namespace ExprLang.Parser

variable {α : Type}

/-- Reads items until there is none, as often as the budget allows. -/
def repeatedWithin (item : Parser (Option α)) : List Token → Parser (List α)
  | [] => return []
  | _ :: budget => do
    match ← item with
    | none => return []
    | some a => return a :: (← repeatedWithin item budget)

/-- Reads items until there is none. An item takes at least one token, so that there
is one for every token ahead at most. -/
def repeated (item : Parser (Option α)) : Parser (List α) := fun c =>
  repeatedWithin item c.ahead c

/-- Whether a list ends here. -/
def atClose (close : Char) : Parser Bool := do
  let t ← current
  return t.isEof || t.isMark close

/-- The first element of a list. -/
def firstElement (close : Char) (element : Parser α) : Parser (Option α) := do
  if ← atClose close then return none else return some (← element)

/-- Another element of a list, behind its separator. -/
def nextElement (close separator : Char) (element : Parser α) : Parser (Option α) := do
  if ← atClose close then return none
  else
    expectMark separator
    if (← current).isMark close then return none else return some (← element)

/-- The elements of a list. -/
def elements (close separator : Char) (element : Parser α) : Parser (List α) := do
  match ← firstElement close element with
  | none => return []
  | some a => return a :: (← repeated (nextElement close separator element))

/-- A list with its opening and closing marks. -/
def delimited (opening close separator : Char) (element : Parser α) : Parser (List α) := do
  expectMark opening
  let as ← elements close separator element
  expectMark close
  return as

end ExprLang.Parser
