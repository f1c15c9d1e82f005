import ExprLang.SourceLine
import ExprLang.SyntaxError
import ExprLang.WhiteSpace

/-!
# Reports

A report gives an error's heading and file, and then the source line with a caret
below the place of the error. The line is shown without the spaces before it and the
blanks behind it, and columns are counted in bytes.
-/
namespace ExprLang

/-- A text without the blanks at its end. -/
def trimEnd (text : List Char) : List Char := (text.reverse.dropWhile isBlank).reverse

namespace SyntaxError

/-- The name of the error, with its tip if it has one. -/
def heading (e : SyntaxError) : String :=
  match e.tip with
  | none => e.complaint.name
  | some tip => e.complaint.name ++ " (" ++ tip ++ ")"

end SyntaxError

/-- Copies of a character. -/
def repeatedChar (n : Nat) (c : Char) : String := String.ofList (List.replicate n c)

namespace SourceLine

/-- The spaces before a line, which are not shown. -/
def margin (l : SourceLine) : List Char := l.text.takeWhile (· == ' ')

/-- The part of a line that is shown. -/
def shown (l : SourceLine) : List Char := trimEnd (l.text.dropWhile (· == ' '))

/-- The space that line numbers take up, ended by a bar. -/
def gutter (l : SourceLine) : String :=
  repeatedChar (l.number.repr.length + 1) ' ' ++ "|"

/-- The number of the line and its text. -/
def numbered (l : SourceLine) : String := l.number.repr ++ " | " ++ String.ofList l.shown

/-- A caret below the offset of the line, or below its first character if the offset
lies in the margin. -/
def caret (l : SourceLine) : String :=
  l.gutter ++ " " ++ repeatedChar (l.offset - l.margin.length) '-' ++ "^"

end SourceLine

/-- The report of an error in a source that is shown under the name `file`. -/
def report (e : SyntaxError) (source file : String) : String :=
  "Error: " ++ e.heading ++ "\n-> " ++ file ++ "\n" ++
    match SourceLine.at? source e.position.offset.toNat with
    | none => e.text ++ "\n"
    | some l => l.gutter ++ "\n" ++ l.numbered ++ "\n" ++ l.caret ++ "\n"

end ExprLang
