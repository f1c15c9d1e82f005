import ExprLang.Position

/-!
# Tokens

A token is a classified piece of the source together with the value it stands
for. The value of a literal is its content; for every other kind it is the text.
-/
namespace ExprLang

/-- The classes of tokens. `eof` marks the end of the input. -/
inductive TokenKind where
  | eof
  | identifier
  | number
  | string
  | character
  | keyword
  | punctuation
  | operator
  deriving DecidableEq, Repr

def TokenKind.name : TokenKind → String
  | .eof => "EOF"
  | .identifier => "Identifier"
  | .number => "Number"
  | .string => "String"
  | .character => "Character"
  | .keyword => "Keyword"
  | .punctuation => "Punctuation"
  | .operator => "Operator"

/-- The words that are no names. -/
def keywords : List String := ["def", "ext", "cls", "if", "else", "true", "false"]

def isKeyword (word : String) : Bool := keywords.contains word

structure Token where
  kind : TokenKind
  value : String
  span : Span
  deriving DecidableEq, Repr

namespace Token

/-- A token that comes from no source. -/
def detached (kind : TokenKind) (value : String) : Token := ⟨kind, value, .null⟩

def position (t : Token) : Position := t.span.position

def isEof (t : Token) : Bool := t.kind == .eof

/-- The first character of the value, by which punctuation is told apart. -/
def firstChar (t : Token) : Option Char := t.value.toList.head?

/-- Punctuation whose value begins with `mark`. -/
def isMark (t : Token) (mark : Char) : Bool :=
  t.kind == .punctuation && t.firstChar == some mark

/-- A token of the given kind and value. -/
def isWord (t : Token) (kind : TokenKind) (value : String) : Bool :=
  t.kind == kind && t.value == value

/-- The form in which a token list is printed. -/
def text (t : Token) : String := t.kind.name ++ " (" ++ t.value ++ ")"

theorem isMark_iff {t : Token} {mark : Char} :
    t.isMark mark = true ↔ t.kind = .punctuation ∧ t.firstChar = some mark := by
  simp [isMark]

theorem isWord_iff {t : Token} {kind : TokenKind} {value : String} :
    t.isWord kind value = true ↔ t.kind = kind ∧ t.value = value := by
  simp [isWord]

end Token

end ExprLang
