import ExprLang.Quotation

/-!
# Outlines

An outline spells out a value of nested records on one line: a record names its
fields, a case lists its contents in parentheses, a list stands in brackets.
-/
namespace ExprLang

/-- A value to be spelled out. -/
inductive Outline where
  /-- A word or number that is shown as it is. -/
  | word (text : String)
  /-- A text that is shown in quotes. -/
  | quoted (text : String)
  | field (name : String) (value : Outline)
  | record (name : String) (fields : List Outline)
  | case (name : String) (contents : List Outline)
  | list (items : List Outline)

namespace Outline

/-- An optional value is spelled out as a case of its own. -/
def optional : Option Outline → Outline
  | none => word "None"
  | some o => case "Some" [o]

mutual

/-- An outline on one line. -/
def text : Outline → String
  | word w => w
  | quoted t => quotation t
  | field name value => name ++ ": " ++ text value
  | record name fields => name ++ " \x7b " ++ ", ".intercalate (texts fields) ++ " \x7d"
  | case name contents => name ++ "(" ++ ", ".intercalate (texts contents) ++ ")"
  | list items => "[" ++ ", ".intercalate (texts items) ++ "]"

def texts : List Outline → List String
  | [] => []
  | o :: os => text o :: texts os

end

theorem texts_eq_map (os : List Outline) : texts os = os.map text := by
  induction os with
  | nil => rfl
  | cons o os ih => simp [texts, ih]

end Outline

end ExprLang
