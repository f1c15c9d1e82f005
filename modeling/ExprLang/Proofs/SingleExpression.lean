import ExprLang.Proofs.Blocks
import ExprLang.Proofs.Climbing

/-!
# Single expressions

Tokens that are read as one expression make a program if the input ends behind them. If it goes on
there, a semicolon is what the program misses. An operand of one token is such an expression before
any token that neither joins nor calls it.
-/
namespace ExprLang

open ExprLang.Parser Cursor

section Programs

variable {e : Expr} {c c' : Cursor}

theorem Parser.expectMark_eq_error {mark : Char} (h : c.current.isMark mark = false) :
    expectMark mark c = .error ⟨.expectedPunctuation mark, c.current⟩ c := by
  rw [expectMark, bind_apply]
  simp [expect, h]

/-- Behind an expression that does not end the input, a program fails where there is no
semicolon. -/
theorem Reads.program_eq_error (h : Reads (.expression (some e)) c c') (hend : c'.atEnd = false)
    (hm : c'.current.isMark ';' = false) :
    Parser.program c = .error ⟨.expectedPunctuation ';', c'.current⟩ c' := by
  have hrun : Parser.expression c = .ok (some e) c' := h.run
  have hstatement : Rule.statement Parser.expression c =
      .error ⟨.expectedPunctuation ';', c'.current⟩ c' := by
    rw [Rule.statement, bind_apply]
    simp only [Parser.atEnd, h.atEnd_eq_false, Bool.false_eq_true, if_false]
    rw [bind_apply, hrun]
    dsimp only
    rw [bind_apply]
    simp only [Parser.atEnd, hend, Bool.false_eq_true, if_false]
    rw [bind_apply, expectMark_eq_error hm]
  rw [Parser.program, Rule.program, bind_apply,
    repeated_apply (Rule.takesBelow_statement takes_expression) Rule.stopsAtEnd_statement
      (Nat.lt_succ_self _), bind_apply, hstatement]

/-- The cursor at the end of the input. -/
def Cursor.finish (last : Token) : Cursor := ⟨[], last.value, last.span⟩

variable {ts us : List Token} {x last : Token}

theorem Reads.ofTokens_eq_ok (hlast : last.isEof = true) (file : String)
    (h : Reads (.expression (some e)) (push ts (finish last)) (finish last)) :
    Program.ofTokens (ts ++ [last]) file = .ok ⟨[e]⟩ := by
  refine (ofTokens_eq_ok_iff hlast).2 ⟨finish last, program_eq_ok_iff.2 ⟨[some e], ?_, rfl⟩⟩
  have hstart : (⟨ts, last.value, last.span⟩ : Cursor) = push ts (finish last) := by
    simp [push, finish]
  rw [hstart]
  exact .lastStatement h.atEnd_eq_false h rfl

/-- Behind an expression a semicolon is missed at the first token that is none. -/
theorem Reads.run_eq_error (hlast : last.isEof = true) (file : String)
    (h : Reads (.expression (some e)) (push (ts ++ x :: us) (finish last))
      (push (x :: us) (finish last))) (hx : x.isEof = false) (hm : x.isMark ';' = false) :
    let tokens := ts ++ x :: us ++ [last]
    let s := TokenStream.startAt tokens ts.length file
    s.current = x ∧ (TokenStream.ofTokens tokens file).run Parser.program =
      (.error (s.error (.expectedPunctuation ';') x.value), s) := by
  intro tokens s
  have hstart : Cursor.ofTokens tokens = push (ts ++ x :: us) (finish last) :=
    (ofTokens_append hlast).trans (by simp [push, finish])
  have hs : (TokenStream.ofTokens tokens file).moveTo (push (x :: us) (finish last)) = s := by
    simp only [s, TokenStream.ofTokens, TokenStream.moveTo, TokenStream.startAt, hstart, drop_push,
      size_push, List.length_append]
    congr 1
    omega
  have hrun : Parser.program (TokenStream.ofTokens tokens file).cursor = .error
      ⟨.expectedPunctuation ';', x⟩ (push (x :: us) (finish last)) := by
    rw [TokenStream.ofTokens, hstart]
    exact h.program_eq_error hx hm
  have hcurrent : s.current = x := by
    rw [← hs]
    rfl
  refine ⟨hcurrent, ?_⟩
  rw [TokenStream.run, hrun]
  dsimp only
  rw [hs, TokenStream.error, hcurrent]

end Programs

/-- An operand is complete before such a token. -/
structure Token.EndsOperand (t : Token) : Prop where
  kind : t.kind ≠ .operator
  isMark : t.isMark '(' = false

theorem Cursor.Ends.endsOperand {c : Cursor} (h : c.Ends) : c.current.EndsOperand :=
  ⟨h.kind, h.isMark⟩

theorem Token.endsOperand_of_isMark {t : Token} {m : Char} (h : t.isMark m = true)
    (hm : m ≠ '(') : t.EndsOperand := by
  obtain ⟨hk, hf⟩ := Token.isMark_iff.1 h
  constructor <;> simp [Token.isMark, hk, hf, hm]

theorem Token.endsOperand_of_isWord {t : Token} {word : String}
    (h : t.isWord .keyword word = true) : t.EndsOperand := by
  constructor <;> simp [Token.isMark, (Token.isWord_iff.1 h).1]

/-- Operands of one token, each behind a token that leads it. -/
inductive LedTokens (lead : Token → Bool) : List Expr → List Token → Prop
  | nil : LedTokens lead [] []
  | cons {e : Expr} {es : List Expr} {x t : Token} {ts : List Token} (hx : lead x = true)
    (ht : IsOperand t e) (h : LedTokens lead es ts) : LedTokens lead (e :: es) (x :: t :: ts)

section Operands

variable {t : Token} {e : Expr} {es : List Expr} {ts : List Token} {c : Cursor}
  {lead : Token → Bool}

theorem IsOperand.isMark (h : IsOperand t e) (m : Char) : t.isMark m = false := by
  cases h <;> simp_all [Token.isMark]

theorem IsOperand.endsOperand (h : IsOperand t e) : t.EndsOperand where
  kind := by cases h <;> simp_all
  isMark := h.isMark '('

theorem IsOperand.atom (h : IsOperand t e) (hc : c.current.isMark '(' = false) :
    Reads (.atom (some e)) (push [t] c) c :=
  .atom (IsOperand.reads h) (.uncalled hc)

theorem IsOperand.expression (h : IsOperand t e) (hc : c.current.EndsOperand) :
    Reads (.expression (some e)) (push [t] c) c :=
  .expression (h.atom hc.isMark) (.noOperator hc.kind) (.uncalled hc.isMark)

namespace LedTokens

theorem plain (h : LedTokens lead es ts) : ∀ e ∈ es, e.Plain := by
  induction h with
  | nil => nofun
  | cons _ ht _ ih => exact List.forall_mem_cons.2 ⟨ht.plain, ih⟩

theorem length_eq (h : LedTokens lead es ts) : ts.length = 2 * es.length := by
  induction h with
  | nil => rfl
  | cons _ _ _ ih => simp only [List.length_cons, ih, Nat.mul_succ]

theorem drop (h : LedTokens lead es ts) (k : ℕ) :
    LedTokens lead (es.drop k) (ts.drop (2 * k)) := by
  induction k generalizing es ts with
  | zero => exact h
  | succ k ih =>
    cases h with
    | nil => simpa using .nil
    | cons _ _ h => exact ih h

/-- What holds of the tokens that lead, and of the one behind all operands, holds of the first. -/
theorem current_push {P : Token → Prop} (h : LedTokens lead es ts)
    (hlead : ∀ x, lead x = true → P x) (hc : P c.current) : P (push ts c).current := by
  cases h with
  | nil => exact hc
  | cons hx => exact hlead _ hx

end LedTokens

end Operands

end ExprLang
