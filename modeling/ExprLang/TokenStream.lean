import ExprLang.Cursor
import ExprLang.SyntaxError

/-!
# Token streams

A token stream is a cursor that knows how many tokens lie behind it and which
file its tokens are taken to come from where they do not say so themselves.
-/
namespace ExprLang

structure TokenStream where
  cursor : Cursor
  /-- The number of tokens passed so far. -/
  position : Nat
  file : String
  deriving DecidableEq, Repr

namespace TokenStream

def ofTokens (tokens : List Token) (file : String) : TokenStream := ⟨.ofTokens tokens, 0, file⟩

def current (s : TokenStream) : Token := s.cursor.current

def atEnd (s : TokenStream) : Bool := s.cursor.atEnd

/-- The stream at a cursor further on in the same tokens. -/
def moveTo (s : TokenStream) (c : Cursor) : TokenStream :=
  ⟨c, s.position + (s.cursor.size - c.size), s.file⟩

def next (s : TokenStream) : TokenStream := s.moveTo s.cursor.next

/-- A complaint about the text `found` at a token of the stream. -/
def errorAt (s : TokenStream) (t : Token) (complaint : Complaint) (found : String) :
    SyntaxError :=
  ⟨complaint, found, s.cursor.place s.file t⟩

/-- A complaint about the text `found` at the current token. -/
def error (s : TokenStream) (complaint : Complaint) (found : String) : SyntaxError :=
  s.errorAt s.current complaint found

end TokenStream

end ExprLang
