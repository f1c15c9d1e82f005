import ExprLang.GraphemeExtend
import ExprLang.Unprintable

/-!
# Quotation

Messages and outlines show a text in double quotes on one line. Quotes,
backslashes and the common controls have short escapes; any other character that
would not be seen as a glyph of its own is given by its code point.
-/
namespace ExprLang

/-- The halfwidth sound marks extend the letter before them, but are letters with a
place of their own beside it. -/
def halfwidthSoundMarks : CharTable := [(0xff9e, 0xff9f)]

/-- A character that is drawn over the one before it. -/
def joinsPrevious (c : Char) : Bool :=
  graphemeExtend.contains c && !halfwidthSoundMarks.contains c

/-- A character with a glyph of its own, wherever it stands in a text. -/
def showsItself (c : Char) : Bool :=
  if c.toNat < 0x7f then 0x20 ≤ c.toNat else !unprintable.contains c && !joinsPrevious c

/-- The code point in hexadecimal, between braces. -/
def codePointEscape (c : Char) : List Char :=
  ['\\', 'u', '{'] ++ Nat.toDigits 16 c.toNat ++ ['}']

/-- How one character is written inside a quotation. -/
def quotedChar (c : Char) : List Char :=
  match c with
  | '\t' => ['\\', 't']
  | '\r' => ['\\', 'r']
  | '\n' => ['\\', 'n']
  | '\x00' => ['\\', '0']
  | '"' => ['\\', '"']
  | '\\' => ['\\', '\\']
  | c => if showsItself c then [c] else codePointEscape c

/-- The text between double quotes. -/
def quotation (text : String) : String :=
  String.ofList (['"'] ++ text.toList.flatMap quotedChar ++ ['"'])

@[simp] theorem toList_quotation (text : String) :
    (quotation text).toList = ['"'] ++ text.toList.flatMap quotedChar ++ ['"'] := by
  simp [quotation]

end ExprLang
