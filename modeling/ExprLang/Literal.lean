/-!
# Literals

The body of a string or character literal names some characters by a backslash
and a letter, and any character up to U+00FF by `\x` and its code point in at
most two hexadecimal digits. Writing a body uses the named escapes only.
-/
namespace ExprLang

/-- The character that a letter names after a backslash. -/
def namedEscape : Char → Option Char
  | 'n' => some '\n'
  | 't' => some '\t'
  | 'r' => some '\r'
  | '0' => some '\x00'
  | '\\' => some '\\'
  | '"' => some '"'
  | '\'' => some '\''
  | _ => none

def isHexDigit (c : Char) : Bool :=
  c.isDigit || ('a' ≤ c && c ≤ 'f') || ('A' ≤ c && c ≤ 'F')

/-- The value of a hexadecimal digit of either case. -/
def hexValue (c : Char) : Nat :=
  if c.isDigit then c.toNat - '0'.toNat
  else if 'a' ≤ c then c.toNat - 'a'.toNat + 10
  else c.toNat - 'A'.toNat + 10

/-- The hexadecimal digits, two at most, at the head of a text. -/
def hexDigits (text : List Char) : List Char := (text.take 2).takeWhile isHexDigit

/-- The character of a code point escape; without digits its letter stands for itself. -/
def hexEscape : List Char → Char
  | [] => 'x'
  | digits => Char.ofNat (digits.foldl (fun value c => 16 * value + hexValue c) 0)

/-- The characters that a literal's body stands for. A backslash that begins no
escape is kept. -/
def unescape : List Char → List Char
  | [] => []
  | '\\' :: c :: rest =>
    match namedEscape c with
    | some d => d :: unescape rest
    | none =>
      if c = 'x' then hexEscape (hexDigits rest) :: unescape (rest.drop (hexDigits rest).length)
      else '\\' :: unescape (c :: rest)
  | c :: rest => c :: unescape rest
termination_by text => text.length
decreasing_by all_goals simp; try omega

/-- How a character is written in a literal that `quote` encloses. -/
def escapeChar (quote c : Char) : List Char :=
  match c with
  | '\n' => ['\\', 'n']
  | '\t' => ['\\', 't']
  | '\r' => ['\\', 'r']
  | '\x00' => ['\\', '0']
  | '\\' => ['\\', '\\']
  | c => if c = quote then ['\\', c] else [c]

/-- The body of the literal for a text. -/
def escape (quote : Char) (text : List Char) : List Char :=
  text.flatMap (escapeChar quote)

/-- The literal for a text, with the quotes that enclose it. -/
def literal (quote : Char) (text : String) : String :=
  String.ofList ([quote] ++ escape quote text.toList ++ [quote])

@[simp] theorem toList_literal (quote : Char) (text : String) :
    (literal quote text).toList = [quote] ++ escape quote text.toList ++ [quote] := by
  simp [literal]

end ExprLang
