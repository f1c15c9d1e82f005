import ExprLang.Literal
import ExprLang.Token
import ExprLang.WhiteSpace

/-!
# Lexemes

A source is cut into lexemes from the left. The first character of a lexeme tells
its shape, with one more to tell a comment from an operator: it is either a run,
which is as long as it can be, or a literal, which ends at its closing quote.
Blanks and comments stand for nothing, the other lexemes for a token each.
Cutting ends early at a text that no lexeme begins.
-/
namespace ExprLang

def isNameStart (c : Char) : Bool := c.isAlpha || c == '_'

def isNameChar (c : Char) : Bool := c.isAlphanum || c == '_'

def isMarkChar (c : Char) : Bool :=
  [',', ';', '(', ')', '{', '}', '[', ']'].contains c

def isOperatorChar (c : Char) : Bool :=
  ['+', '-', '*', '/', '%', '=', '&', '|', '<', '>', '!'].contains c

/-- A piece of the source and the token it stands for, if any. -/
structure Lexeme where
  text : List Char
  reading : Option (TokenKind × String)
  deriving DecidableEq, Repr

/-- The shapes of lexemes that go on while a class of characters does. -/
inductive Run where
  | word
  | digits
  | blanks
  | comment
  | mark
  | operator
  deriving DecidableEq, Repr

namespace Run

/-- The characters that go on with a run. A mark stands alone. -/
def continues : Run → Char → Bool
  | word, c => isNameChar c
  | digits, c => c.isDigit
  | blanks, c => isBlank c
  | comment, c => c != '\n'
  | mark, _ => false
  | operator, c => isOperatorChar c

/-- What a run stands for. Its value is its text, and a word is a keyword or a name. -/
def reading (text : String) : Run → Option (TokenKind × String)
  | word => some (if isKeyword text then .keyword else .identifier, text)
  | digits => some (.number, text)
  | blanks => none
  | comment => none
  | mark => some (.punctuation, text)
  | operator => some (.operator, text)

/-- The lexeme of a run with the given text. -/
def lexeme (r : Run) (text : List Char) : Lexeme := ⟨text, r.reading (String.ofList text)⟩

@[simp] theorem text_lexeme (r : Run) (text : List Char) : (r.lexeme text).text = text := rfl

end Run

/-- How a lexeme begins. -/
inductive Opening where
  | run (r : Run)
  | quote (kind : TokenKind)
  deriving DecidableEq, Repr

/-- The opening that a character makes before `next`. -/
def Opening.of? (c : Char) (next : Option Char) : Option Opening :=
  if isNameStart c then some (.run .word)
  else if c.isDigit then some (.run .digits)
  else if isBlank c then some (.run .blanks)
  else if c = '/' ∧ next = some '/' then some (.run .comment)
  else if c = '"' then some (.quote .string)
  else if c = '\'' then some (.quote .character)
  else if isMarkChar c then some (.run .mark)
  else if isOperatorChar c then some (.run .operator)
  else none

/-- Splits a text at the first `quote` that no backslash protects. A backslash
protects any character but a newline, and has to protect one. -/
def enclosed (quote : Char) : List Char → Option (List Char × List Char)
  | [] => none
  | '\\' :: c :: rest =>
    if c = '\n' then none
    else (enclosed quote rest).map fun (body, after) => ('\\' :: c :: body, after)
  | c :: rest =>
    if c = quote then some ([], rest)
    else (enclosed quote rest).map fun (body, after) => (c :: body, after)

theorem enclosed_eq_some {quote : Char} {text body after : List Char}
    (h : enclosed quote text = some (body, after)) : body ++ quote :: after = text := by
  fun_induction enclosed quote text generalizing body after with
  | case1 => simp at h
  | case2 => simp at h
  | case3 c rest _ ih =>
    obtain ⟨⟨b, a⟩, hb, heq⟩ := Option.map_eq_some_iff.1 h
    obtain ⟨rfl, rfl⟩ := Prod.mk.inj heq
    simp [ih hb]
  | case4 => simp_all
  | case5 c rest _ _ ih =>
    obtain ⟨⟨b, a⟩, hb, heq⟩ := Option.map_eq_some_iff.1 h
    obtain ⟨rfl, rfl⟩ := Prod.mk.inj heq
    simp [ih hb]

namespace Lexeme

/-- A body between two quotes, which stands for the characters it names. -/
def quoted (kind : TokenKind) (quote : Char) (body : List Char) : Lexeme :=
  ⟨quote :: (body ++ [quote]), some (kind, String.ofList (unescape body))⟩

@[simp] theorem text_quoted (kind : TokenKind) (quote : Char) (body : List Char) :
    (quoted kind quote body).text = quote :: (body ++ [quote]) := rfl

/-- The lexeme that `c` opens before `rest`, and what follows it. -/
def cut (c : Char) (rest : List Char) : Opening → Option (Lexeme × List Char)
  | .run r => some (r.lexeme (c :: rest.takeWhile r.continues), rest.dropWhile r.continues)
  | .quote kind => (enclosed c rest).map fun (body, after) => (quoted kind c body, after)

/-- The lexeme that begins a text, and what follows it. -/
def next? : List Char → Option (Lexeme × List Char)
  | [] => none
  | c :: rest => (Opening.of? c rest.head?).bind (cut c rest)

/-- A lexeme is a nonempty piece cut off the front. -/
theorem cut_eq_some {c : Char} {rest after : List Char} {o : Opening} {l : Lexeme}
    (h : cut c rest o = some (l, after)) : l.text ++ after = c :: rest ∧ l.text ≠ [] := by
  cases o with
  | run r =>
    obtain ⟨rfl, rfl⟩ := Prod.mk.inj (Option.some.inj h)
    simp
  | quote kind =>
    obtain ⟨⟨body, a⟩, hb, heq⟩ := Option.map_eq_some_iff.1 h
    obtain ⟨rfl, rfl⟩ := Prod.mk.inj heq
    simp [enclosed_eq_some hb]

theorem next?_eq_some {text after : List Char} {l : Lexeme} (h : next? text = some (l, after)) :
    l.text ++ after = text ∧ l.text ≠ [] := by
  cases text with
  | nil => simp [next?] at h
  | cons c rest =>
    obtain ⟨o, _, ho⟩ := Option.bind_eq_some_iff.1 h
    exact cut_eq_some ho

theorem length_lt_of_next? {text after : List Char} {l : Lexeme}
    (h : next? text = some (l, after)) : after.length < text.length := by
  obtain ⟨rfl, hne⟩ := next?_eq_some h
  have := List.length_pos_iff.2 hne
  simp only [List.length_append]
  omega

end Lexeme

/-- The lexemes of a text, and the text from the first place where none begins. -/
def lexemes (text : List Char) : List Lexeme × List Char :=
  match _h : Lexeme.next? text with
  | none => ([], text)
  | some (l, after) =>
    let (ls, left) := lexemes after
    (l :: ls, left)
termination_by text.length
decreasing_by exact Lexeme.length_lt_of_next? _h

theorem lexemes_of_none {text : List Char} (h : Lexeme.next? text = none) :
    lexemes text = ([], text) := by
  rw [lexemes]
  split <;> simp_all

theorem lexemes_of_some {text after : List Char} {l : Lexeme}
    (h : Lexeme.next? text = some (l, after)) :
    lexemes text = (l :: (lexemes after).1, (lexemes after).2) := by
  rw [lexemes]
  split <;> simp_all

/-- Nothing is lost: the lexemes and what is left make up the text. -/
theorem lexemes_append (text : List Char) :
    (lexemes text).1.flatMap Lexeme.text ++ (lexemes text).2 = text := by
  induction hn : text.length using Nat.strongRecOn generalizing text with
  | ind n ih =>
    cases h : Lexeme.next? text with
    | none => simp [lexemes_of_none h]
    | some p =>
      obtain ⟨l, after⟩ := p
      have := ih after.length (hn ▸ Lexeme.length_lt_of_next? h) after rfl
      rw [lexemes_of_some h]
      simp [this, (Lexeme.next?_eq_some h).1]

end ExprLang
