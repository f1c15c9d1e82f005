import ExprLang.Expr.Text
import ExprLang.Grammar.Expression
import ExprLang.TokenStream
import ExprLang.Tokenization

/-!
# Programs

Reading a program from tokens or from a source, and reading its text again.
-/
namespace ExprLang

/-- Runs a parser on a stream. A fault is placed where the parser has stopped. -/
def TokenStream.run {α : Type} (s : TokenStream) (p : Parser α) :
    Except SyntaxError α × TokenStream :=
  match p s.cursor with
  | .ok a c => (.ok a, s.moveTo c)
  | .error fault c =>
    (.error ((s.moveTo c).errorAt fault.token fault.complaint fault.token.value), s.moveTo c)

namespace Program

/-- The program that a token list spells, or its first error. -/
def ofTokens (tokens : List Token) (file : String) : Except SyntaxError Program :=
  ((TokenStream.ofTokens tokens file).run Parser.program).1

/-- The program of a source, or its first error. Tokens without a place of their own
are taken to come from `streamFile`. -/
def ofSource (source file streamFile : String) : Except SyntaxError Program := do
  ofTokens (← tokenize source file) streamFile

theorem ofSource_eq_ok {source file streamFile : String} {p : Program} :
    ofSource source file streamFile = .ok p ↔
      ∃ tokens, tokenize source file = .ok tokens ∧ ofTokens tokens streamFile = .ok p := by
  rw [ofSource]
  cases tokenize source file <;> simp [bind, Except.bind]

theorem ofSource_eq_error {source file streamFile : String} {e : SyntaxError} :
    ofSource source file streamFile = .error e ↔ tokenize source file = .error e ∨
      ∃ tokens, tokenize source file = .ok tokens ∧ ofTokens tokens streamFile = .error e := by
  rw [ofSource]
  cases tokenize source file <;> simp [bind, Except.bind]

/-- What the text of a program reads as. -/
def reread (p : Program) : Except SyntaxError Program := ofSource p.text shellFile shellFile

end Program

end ExprLang
