import ExprLang.Proofs.Delimiting
import ExprLang.Proofs.SingleExpression

/-!
# Complete expressions

Tokens that are read as an expression up to a token that ends it are read so before every such
token. What they stand for is then the same wherever an expression may be put.
-/
namespace ExprLang

open ExprLang.Parser Cursor

/-- An expression is complete before such a token. -/
structure Token.EndsExpression (t : Token) : Prop extends t.EndsOperand where
  isWord : t.isWord .keyword "else" = false

theorem Cursor.ends_iff {c : Cursor} : c.Ends ↔ c.current.EndsExpression :=
  ⟨fun h => ⟨h.endsOperand, h.isWord⟩, fun h => ⟨h.kind, h.isMark, h.isWord⟩⟩

section Streams

variable {ts rest : List Token} {t : Token}

/-- A list that is not empty is closed alike whatever stands before it. -/
theorem Cursor.ofTokens_append_cons (ts : List Token) (t : Token) (rest : List Token) :
    ofTokens (ts ++ t :: rest) = push ts (ofTokens (t :: rest)) := by
  obtain ⟨front, x, hx⟩ := (t :: rest).eq_nil_or_concat'.resolve_left (List.cons_ne_nil t rest)
  rw [hx, ← List.append_assoc]
  cases he : x.isEof <;> simp [ofTokens, he, push]

@[simp] theorem Cursor.current_ofTokens_cons (t : Token) (rest : List Token) :
    (ofTokens (t :: rest)).current = t := by
  cases rest with
  | cons u rest =>
    have hpush : ofTokens ([t] ++ u :: rest) = push [t] (ofTokens (u :: rest)) :=
      ofTokens_append_cons [t] u rest
    exact congrArg current hpush
  | nil =>
    cases he : t.isEof with
    | false => simp [ofTokens, he]
    | true =>
      have hk : t.kind = .eof := by simpa [Token.isEof] using he
      simp [ofTokens, he, EndMark.token, ← hk]

end Streams

/-- The tokens stand for `o`: it is read from them up to any token that ends an expression. -/
def IsExpression (ts : List Token) (o : Option Expr) : Prop :=
  ∀ c : Cursor, c.Ends → Parser.expression (push ts c) = .ok o c

section Expressions

variable {ts : List Token} {o : Option Expr} {c : Cursor}

theorem IsExpression.reads (h : IsExpression ts o) (hc : c.Ends) :
    Reads (.expression o) (push ts c) c := reads_iff.2 (h c hc)

/-- One token that ends an expression tells as much as all of them. -/
theorem isExpression_iff (hc : c.Ends) :
    IsExpression ts o ↔ Reads (.expression o) (push ts c) c := by
  refine ⟨fun h => h.reads hc, fun h d hd => ?_⟩
  have hread : Reads (.expression o) (push ts d) (push [] d) := (Reads.exchange_iff hc hd).1 h
  exact hread.run

/-- From the first token on, an expression is read to one that ends it exactly where the tokens
before that one stand for it. -/
theorem expression_gives_iff {t : Token} (ht : t.EndsExpression) (rest : List Token)
    (file : String) : Parser.expression.Gives (ts ++ t :: rest) file 0 o ts.length ↔
      IsExpression ts o := by
  have hstart := ofTokens_append_cons ts t rest
  have hends : (ofTokens (t :: rest)).Ends := ends_iff.2 (by rwa [current_ofTokens_cons])
  have hdrop : (ofTokens (ts ++ t :: rest)).drop ts.length = ofTokens (t :: rest) := by
    rw [hstart]
    simpa using drop_push ts [] (ofTokens (t :: rest))
  have hsize : ts.length ≤ (ofTokens (ts ++ t :: rest)).size := by
    rw [hstart, size_push]
    exact Nat.le_add_right ..
  rw [(Element.forward .expression).gives_iff (Nat.zero_le _), drop_zero, hdrop, hstart,
    isExpression_iff hends, reads_iff]
  exact and_iff_right (hstart ▸ hsize)

end Expressions

/-- What becomes of tokens that stand for `o` in each place where an expression may be put: as
a program, as the statement of a block, in parentheses, as an argument and as the body of a
definition. -/
structure PlacedAs (ts : List Token) (o : Option Expr) : Prop where
  program {last : Token} (hlast : last.isEof = true) (file : String) :
    Program.ofTokens (ts ++ [last]) file = .ok ⟨o.toList⟩
  block {opening closing : Token} (hopen : opening.isMark '\x7b' = true)
    (hclose : closing.isMark '\x7d' = true) (c : Cursor) :
    Parser.block (push (opening :: (ts ++ [closing])) c) = .ok (some (.block o.toList)) c
  group {opening closing : Token} (hopen : opening.isMark '(' = true)
    (hclose : closing.isMark ')' = true) (c : Cursor) :
    Rule.grouping Parser.expression (push (opening :: (ts ++ [closing])) c) = .ok o c
  argument {e : Expr} (he : o = some e) {opening closing : Token}
    (hopen : opening.isMark '(' = true) (hclose : closing.isMark ')' = true) (callee : Expr)
    (c : Cursor) : Parser.called callee (push (opening :: (ts ++ [closing])) c) =
      .ok (.call callee [e]) c
  body {word name opening closing : Token} (hword : word.isWord .keyword "def" = true)
    (hopen : opening.isMark '(' = true) (hclose : closing.isMark ')' = true) {c : Cursor}
    (hc : c.Ends) : Rule.definition Parser.expression
      (push (word :: name :: opening :: closing :: ts) c) =
        .ok (o.elim (.external name.value []) (.function name.value [])) c

section Places

variable {ts : List Token} {o : Option Expr}

/-- An expression alone is what a list has between its marks. -/
theorem IsExpression.elements (h : IsExpression ts o) {close : Char} (separator : Char)
    (hclose : close ≠ '(' ∧ close ≠ '\x7b') {c : Cursor} (hc : c.current.isMark close = true) :
    Reads (.elements close separator [o]) (push ts c) c := by
  have hread := h.reads (.of_isMark hc hclose.1)
  exact .elements (hread.not_closes hclose) hread (.noItems (.inr hc))

theorem IsExpression.placedAs (h : IsExpression ts o) : PlacedAs ts o where
  program := by
    intro last hlast file
    have hread : Reads (.expression o) (push ts (finish last)) (finish last) :=
      h.reads (.of_isEof rfl)
    have hstatements := Reads.lastStatement hread.atEnd_eq_false hread rfl
    refine (ofTokens_eq_ok_iff hlast).2 ⟨finish last, program_eq_ok_iff.2 ⟨[o], ?_, ?_⟩⟩
    · simpa [push, finish] using hstatements
    · cases o <;> rfl
  block := by
    intro opening closing hopen hclose c
    have hmark : (push [closing] c).current.isMark '\x7d' = true := hclose
    have hel := h.elements ';' (by decide) hmark
    have hblock := Reads.block (c := push (opening :: (ts ++ [closing])) c) hopen
      (by rwa [next_push_cons, ← push_push]) hmark
    have hrun := reads_iff.1 hblock
    cases o <;> exact hrun
  group := by
    intro opening closing hopen hclose c
    have hmark : (push [closing] c).current.isMark ')' = true := hclose
    refine Rule.grouping_eq_ok.2 ⟨hopen, push [closing] c, ?_, hmark, rfl⟩
    rw [next_push_cons, ← push_push]
    exact h _ (.of_isMark hmark (by decide))
  argument := by
    rintro e rfl opening closing hopen hclose callee c
    have hmark : (push [closing] c).current.isMark ')' = true := hclose
    have hel := h.elements ',' (by decide) hmark
    have hcall : Reads (.called callee (.call callee [e])) (push (opening :: (ts ++ [closing])) c)
        (push [closing] c).next := .call hopen (by rwa [next_push_cons, ← push_push]) hmark
    exact hcall.run
  body := by
    intro word name opening closing hword hopen hclose c hc
    refine Rule.definition_eq_ok.2 ⟨hword, [], push ts c, .inl ⟨hopen, ?_⟩, o, h c hc, rfl⟩
    refine delimited_eq_ok.2 ⟨hopen, push (closing :: ts) c, ?_, hclose, rfl⟩
    exact (elements_eq_ok ..).2 (.inl ⟨.inr hclose, rfl, rfl⟩)

end Places

/-- Tokens in front of any two that end an expression are read as the same expression up to
these, whatever comes after them, and what is read is what every place makes of the tokens. -/
theorem expression_gives_iff_of_endsExpression {t u : Token} (ht : t.EndsExpression)
    (hu : u.EndsExpression) (ts rest rest' : List Token) (file file' : String)
    (o : Option Expr) :
    (Parser.expression.Gives (ts ++ t :: rest) file 0 o ts.length ↔
      Parser.expression.Gives (ts ++ u :: rest') file' 0 o ts.length) ∧
    (Parser.expression.Gives (ts ++ t :: rest) file 0 o ts.length → PlacedAs ts o) := by
  rw [expression_gives_iff ht, expression_gives_iff hu]
  exact ⟨Iff.rfl, IsExpression.placedAs⟩

/-- A conditional whose second branch is absent, before a parenthesis and before an end mark. -/
theorem expression_gives_iff_of_endsExpression_conditional :
    let ts : List Token := [.detached .keyword "if", .detached .identifier "a",
      .detached .punctuation "\x7b", .detached .identifier "f", .detached .punctuation "(",
      .detached .number "1", .detached .punctuation ")", .detached .punctuation ";",
      .detached .punctuation "\x7d", .detached .keyword "else", .detached .punctuation "\x7b",
      .detached .punctuation "\x7d"]
    let t : Token := .detached .punctuation ")"
    let u : Token := .detached .eof ""
    let rest : List Token := [.detached .punctuation "("]
    let rest' : List Token := [.detached .operator "+", .detached .eof "EOF"]
    let e := some (.ifThen (.symbol "a") (.block [.call (.symbol "f") [.number 1]]))
    t.EndsExpression ∧ u.EndsExpression ∧
      Parser.expression.Gives (ts ++ t :: rest) "s" 0 e ts.length ∧
      Parser.expression.Gives (ts ++ u :: rest') "r" 0 e ts.length ∧ PlacedAs ts e := by
  intro ts t u rest rest' e
  have ht : t.EndsExpression := ⟨⟨by decide, by decide⟩, by decide⟩
  have hu : u.EndsExpression := ⟨⟨by decide, by decide⟩, by decide⟩
  have hgives : Parser.expression.Gives (ts ++ t :: rest) "s" 0 e ts.length :=
    ⟨by decide +kernel, by decide +kernel⟩
  have h := expression_gives_iff_of_endsExpression ht hu ts rest rest' "s" "r" e
  exact ⟨ht, hu, hgives, h.1.1 hgives, h.2 hgives⟩

end ExprLang
