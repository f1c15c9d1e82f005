import ExprLang.Lexeme
import ExprLang.SyntaxError

/-!
# Tokenization

The tokens of a source are its lexemes that stand for something, each placed at
its byte offset, and an end mark behind the last byte. A source that is not cut
into lexemes to its end has no tokens, but an error at its first character that
no lexeme begins.
-/
namespace ExprLang

/-- The token that a lexeme stands for at a byte offset. -/
def Lexeme.token? (l : Lexeme) (offset : Nat) (file : String) : Option Token :=
  l.reading.map fun (kind, value) =>
    ⟨kind, value, ⟨.ofNat offset, .ofNat (offset + width l.text), file⟩⟩

/-- The tokens of adjacent lexemes that begin at a byte offset. -/
def placed (file : String) : Nat → List Lexeme → List Token
  | _, [] => []
  | offset, l :: ls =>
    (l.token? offset file).toList ++ placed file (offset + width l.text) ls

/-- The number of bytes that lexemes take up. -/
def extent (ls : List Lexeme) : Nat := width (ls.flatMap Lexeme.text)

/-- The token behind the last byte of a source. -/
def endToken (offset : Nat) (file : String) : Token :=
  ⟨.eof, "EOF", ⟨.ofNat offset, .ofNat offset, file⟩⟩

/-- The complaint about a character that begins no lexeme. -/
def unrecognised (c : Char) (offset : Nat) (file : String) : SyntaxError :=
  ⟨.unrecognisedToken, String.singleton c, ⟨.ofNat offset, file⟩⟩

/-- The tokens of a source, or the error at its first unreadable character. -/
def tokenize (source : String) (file : String) : Except SyntaxError (List Token) :=
  match lexemes source.toList with
  | (ls, []) => .ok (placed file 0 ls ++ [endToken (extent ls) file])
  | (ls, c :: _) => .error (unrecognised c (extent ls) file)

/-- What is cut and what is left take up the whole text. -/
theorem extent_lexemes_add (text : List Char) :
    extent (lexemes text).1 + width (lexemes text).2 = width text := by
  rw [extent, ← width_append, lexemes_append]

theorem tokenize_eq_ok {source file : String} {tokens : List Token} :
    tokenize source file = .ok tokens ↔ (lexemes source.toList).2 = [] ∧
      tokens = placed file 0 (lexemes source.toList).1 ++
        [endToken (width source.toList) file] := by
  have hextent := extent_lexemes_add source.toList
  unfold tokenize
  split
  · next ls hls =>
    rw [hls] at hextent ⊢
    simp only [width_nil, Nat.add_zero] at hextent
    simp [hextent, eq_comm]
  · next ls c left hls => simp [hls]

theorem tokenize_eq_error {source file : String} {e : SyntaxError} :
    tokenize source file = .error e ↔ ∃ c left, (lexemes source.toList).2 = c :: left ∧
      e = unrecognised c (extent (lexemes source.toList).1) file := by
  unfold tokenize
  split
  · next ls hls => simp [hls]
  · next ls c left hls => simp [hls, eq_comm]

end ExprLang
