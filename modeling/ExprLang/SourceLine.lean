import ExprLang.Position

/-!
# Source lines

A text is cut into lines behind each newline, so that a line includes the newline
that ends it. A byte offset belongs to the line that holds the byte; offsets past
the text belong to its last line.
-/
namespace ExprLang

/-- A line of a text and a byte offset in it. -/
structure SourceLine where
  /-- The lines are counted from one. -/
  number : Nat
  text : List Char
  offset : Nat
  deriving DecidableEq, Repr

/-- The lines of a text, each with the newline that ends it. -/
def lines : List Char → List (List Char)
  | [] => []
  | c :: rest =>
    if c = '\n' then [c] :: lines rest
    else
      match lines rest with
      | [] => [[c]]
      | l :: ls => (c :: l) :: ls

theorem flatten_lines (text : List Char) : (lines text).flatten = text := by
  fun_induction lines text with
  | case1 => rfl
  | case2 => simp_all
  | case3 => simp_all
  | case4 => simp_all

namespace SourceLine

/-- The line that holds a byte offset, among lines counted from `number`. An offset
past the last line is taken to be that of its newline, or of its end. -/
def among (number offset : Nat) : List (List Char) → Option SourceLine
  | [] => none
  | [l] => some ⟨number, l, if offset < width l then offset else width (l.takeWhile (· != '\n'))⟩
  | l :: ls =>
    if offset < width l then some ⟨number, l, offset⟩
    else among (number + 1) (offset - width l) ls

/-- The line of a text that holds a byte offset. There is none in an empty text. -/
def at? (text : String) (offset : Nat) : Option SourceLine := among 1 offset (lines text.toList)

end SourceLine

end ExprLang
