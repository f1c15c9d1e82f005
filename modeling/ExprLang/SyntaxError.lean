import ExprLang.Position
import ExprLang.Quotation

/-!
# Syntax errors

A syntax error is a complaint about one piece of text at one position. Reading a
source ends at its first error.
-/
namespace ExprLang

/-- What a name is needed for. -/
inductive NameKind where
  | variable
  | type
  | function
  deriving DecidableEq, Repr

def NameKind.text : NameKind → String
  | .variable => "variable"
  | .type => "type"
  | .function => "function"

/-- What is wrong with the text that an error is about. -/
inductive Complaint where
  | unrecognisedToken
  | unexpectedToken
  | expectedPunctuation (mark : Char)
  | expectedKeyword (keyword : String)
  | expectedOperator (operator : String)
  | expectedName (kind : NameKind)
  | unknownOperator
  | invalidNumber
  | missingExpression
  deriving DecidableEq, Repr

namespace Complaint

/-- The heading under which a complaint is reported. -/
def name : Complaint → String
  | unrecognisedToken => "UnrecognisedToken"
  | unexpectedToken => "UnexpectedToken"
  | expectedPunctuation _ => "ExpectedPunctuation"
  | expectedKeyword _ => "ExpectedKeyword"
  | expectedOperator _ => "ExpectedOperator"
  | expectedName _ => "ExpectedName"
  | unknownOperator => "UnknownOperator"
  | invalidNumber => "NumberParseError"
  | missingExpression => "MissingExpression"

/-- The complaint about `found` in one line, whatever characters it holds. -/
def message (found : String) : Complaint → String
  | unrecognisedToken => "unrecognised token: " ++ quotation found
  | unexpectedToken => "unexpected token " ++ quotation found
  | expectedPunctuation mark =>
    "token '" ++ mark.toString ++ "' expected, found " ++ quotation found
  | expectedKeyword keyword =>
    "keyword " ++ quotation keyword ++ " expected, found " ++ quotation found
  | expectedOperator operator =>
    "operator '" ++ operator ++ "' expected, found " ++ quotation found
  | expectedName kind => kind.text ++ " name expected, found " ++ quotation found
  | unknownOperator => "unknown operator " ++ quotation found
  | invalidNumber => "error parsing number: " ++ quotation found
  | missingExpression => "expected expression, found " ++ quotation found

/-- Advice on what may have led to the complaint. -/
def tip (found : String) : Complaint → Option String
  | unrecognisedToken => none
  | unexpectedToken => some ("Unexpected token: `" ++ found ++ "`, did you miss a semicolon?")
  | expectedPunctuation mark =>
    some ("Expected `" ++ mark.toString ++ "` but found `" ++ found ++ "`")
  | expectedKeyword keyword =>
    some ("Expected keyword `" ++ keyword ++ "` but found `" ++ found ++ "`")
  | expectedOperator operator =>
    some ("Expected operator `" ++ operator ++ "` but found `" ++ found ++ "`")
  | expectedName kind =>
    some ("A " ++ kind.text ++ " name must be an identifier, found `" ++ found ++ "`")
  | unknownOperator => some ("Operator `" ++ found ++ "` has no precedence, is it a typo?")
  | invalidNumber => some ("Invalid number: `" ++ found ++ "`, is it above the integer limit?")
  | missingExpression =>
    some ("An empty block has no value, it cannot be used before `" ++ found ++ "`")

end Complaint

/-- A complaint about the text `found` at a position. -/
structure SyntaxError where
  complaint : Complaint
  found : String
  position : Position
  deriving DecidableEq, Repr

namespace SyntaxError

def message (e : SyntaxError) : String := e.complaint.message e.found

def tip (e : SyntaxError) : Option String := e.complaint.tip e.found

/-- The form in which an error is printed by itself. -/
def text (e : SyntaxError) : String := "SyntaxError: " ++ e.message

end SyntaxError

end ExprLang
