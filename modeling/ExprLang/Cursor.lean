import ExprLang.Token

/-!
# Cursors

A cursor is what lies ahead in a token list that ends with an end mark. The last
mark is kept apart from the tokens before it, so that there always is a current
token and moving on stops at that mark. An end mark in the middle is an ordinary
token as far as moving is concerned.
-/
namespace ExprLang

/-- The last token of a list: an end mark, whatever its value and place. -/
structure EndMark where
  value : String
  span : Span
  deriving DecidableEq, Repr

namespace EndMark

def token (m : EndMark) : Token := ⟨.eof, m.value, m.span⟩

/-- The mark that closes a list which has none. -/
def detached : EndMark := ⟨"EOF", .null⟩

end EndMark

/-- A token list with one end mark, which is its last token. -/
def Terminated (tokens : List Token) : Prop :=
  ∃ ts t, tokens = ts ++ [t] ∧ t.isEof = true ∧ ∀ u ∈ ts, u.isEof = false

structure Cursor where
  ahead : List Token
  last : EndMark
  deriving DecidableEq, Repr

namespace Cursor

/-- The start of a token list, closed by a detached mark unless it ends with one. -/
def ofTokens (tokens : List Token) : Cursor :=
  match tokens.getLast? with
  | some t => if t.isEof then ⟨tokens.dropLast, t.value, t.span⟩ else ⟨tokens, .detached⟩
  | none => ⟨[], .detached⟩

/-- All tokens from the current one to the last. -/
def tokens (c : Cursor) : List Token := c.ahead ++ [c.last.token]

def current (c : Cursor) : Token :=
  match c.ahead with
  | [] => c.last.token
  | t :: _ => t

/-- The cursor past the current token, or the same cursor at the last mark. -/
def next (c : Cursor) : Cursor := ⟨c.ahead.tail, c.last⟩

/-- The number of tokens before the last mark. -/
def size (c : Cursor) : Nat := c.ahead.length

/-- The current token is an end mark, be it the last or one in the middle. -/
def atEnd (c : Cursor) : Bool := c.current.isEof

@[simp] theorem current_nil (last : EndMark) : current ⟨[], last⟩ = last.token := rfl

@[simp] theorem current_cons (t : Token) (ts : List Token) (last : EndMark) :
    current ⟨t :: ts, last⟩ = t := rfl

@[simp] theorem next_nil (last : EndMark) : next ⟨[], last⟩ = ⟨[], last⟩ := rfl

@[simp] theorem next_cons (t : Token) (ts : List Token) (last : EndMark) :
    next ⟨t :: ts, last⟩ = ⟨ts, last⟩ := rfl

@[simp] theorem size_next (c : Cursor) : c.next.size = c.size - 1 := by simp [size, next]

/-- Before a token that is no end mark there is something to move past. -/
theorem size_next_lt {c : Cursor} (h : c.atEnd = false) : c.next.size < c.size := by
  rcases c with ⟨_ | ⟨t, ts⟩, last⟩
  · simp [atEnd, EndMark.token, Token.isEof] at h
  · simp [size]

theorem ofTokens_append {ts : List Token} {t : Token} (ht : t.isEof = true) :
    ofTokens (ts ++ [t]) = ⟨ts, t.value, t.span⟩ := by
  simp [ofTokens, ht]

/-- A list that ends with an end mark is kept as it is. -/
theorem tokens_ofTokens {ts : List Token} {t : Token} (h : t.isEof = true) :
    (ofTokens (ts ++ [t])).tokens = ts ++ [t] := by
  have : t.kind = .eof := by simpa [Token.isEof] using h
  simp [ofTokens, h, tokens, EndMark.token, ← this]

/-- The place for an error about a token. A token without a place of its own is
reported at the current token, and failing that at the same offset of `file`. -/
def place (c : Cursor) (file : String) (t : Token) : Position :=
  if !t.position.isNull then t.position
  else if !c.current.position.isNull then c.current.position
  else ⟨c.current.span.start, file⟩

end Cursor

end ExprLang
