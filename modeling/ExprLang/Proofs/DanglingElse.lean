import ExprLang.Proofs.SingleExpression

/-!
# Dangling second branches

A second branch goes to the nearest conditional that has none. Behind conditionals that are nested
in each other's first branches, second branches are taken from the innermost one outward, and one
more than there are conditionals is left over.
-/
namespace ExprLang

open ExprLang.Parser Cursor

/-- Conditionals with these conditions, each in the first branch of the one before it and the last
one with the first branch `t`. The second branches go to them from the last one on. -/
def nestedIf (t : Expr) (es : List Expr) : List Expr → Expr
  | [] => t
  | c :: cs =>
    match es[cs.length]? with
    | some e => .ifThenElse c (nestedIf t es cs) e
    | none => .ifThen c (nestedIf t es cs)

section Nesting

variable {t : Expr} {x : Token} {cs es : List Expr} {ifs elses : List Token} {c : Cursor}

/-- Nested conditionals take one second branch each, and leave the others. -/
theorem nestedIf_reads (hcs : LedTokens (·.isWord .keyword "if") cs ifs) (hx : IsOperand x t)
    (hes : LedTokens (·.isWord .keyword "else") es elses) (hc : c.Ends) :
    Reads (.expression (some (nestedIf t es cs))) (push (ifs ++ x :: elses) c)
      (push (elses.drop (2 * cs.length)) c) := by
  have hends : ∀ k, (push (elses.drop (2 * k)) c).current.EndsOperand := fun k =>
    (hes.drop k).current_push (fun _ => Token.endsOperand_of_isWord) hc.endsOperand
  -- A conditional looks for its second branch when the one inside it has taken its own.
  induction hcs with
  | nil => exact hx.expression (hends 0)
  | @cons condition cs i y ifs hi hy hcs ih =>
    have hthen : (push (ifs ++ x :: elses) c).current.EndsOperand := by
      rw [← push_push]
      exact hcs.current_push (fun _ => Token.endsOperand_of_isWord) hx.endsOperand
    have hcondition : Reads (.expression (some condition)) (push (y :: (ifs ++ x :: elses)) c)
        (push (ifs ++ x :: elses) c) :=
      hy.expression (c := push (ifs ++ x :: elses) c) hthen
    have hunit : Reads (.unit (some (nestedIf t es (condition :: cs))))
        (push (i :: y :: (ifs ++ x :: elses)) c)
        (push (elses.drop (2 * (cs.length + 1))) c) := by
      have hrest := hes.drop cs.length
      have hnext := hends (cs.length + 1)
      rw [Nat.mul_succ, ← List.drop_drop] at hnext ⊢
      generalize elses.drop (2 * cs.length) = elses' at *
      cases hget : es[cs.length]? with
      | none =>
        have hnil : es.drop cs.length = [] := List.drop_eq_nil_of_le (by simpa using hget)
        have htree : nestedIf t es (condition :: cs) = .ifThen condition (nestedIf t es cs) := by
          simp [nestedIf, hget]
        rw [hnil] at hrest
        cases hrest
        rw [htree]
        exact .ifThen (c := push (i :: y :: (ifs ++ x :: elses)) c) hi hcondition ih hc.isWord
      | some e =>
        obtain ⟨hlt, rfl⟩ := List.getElem?_eq_some_iff.1 hget
        have htree : nestedIf t es (condition :: cs) =
            .ifThenElse condition (nestedIf t es cs) es[cs.length] := by
          simp [nestedIf, hget]
        rw [List.drop_eq_getElem_cons hlt] at hrest
        cases hrest with
        | cons hx' hy' _ =>
          rw [htree]
          exact .ifThenElse (c := push (i :: y :: (ifs ++ x :: elses)) c) hi hcondition ih hx'
            (hy'.expression hnext)
    exact .expression (.atom hunit (.uncalled (hends _).isMark)) (.noOperator (hends _).kind)
      (.uncalled (hends _).isMark)

end Nesting

/-- Conditionals that are nested in each other's first branches take the second branches behind
them from the innermost one on. If there are more of these, the first one left over is where a
semicolon is missed. -/
theorem program_of_nestedIf {cs es : List Expr} {t : Expr} {ifs elses : List Token}
    {x last : Token} (hcs : LedTokens (·.isWord .keyword "if") cs ifs) (hx : IsOperand x t)
    (hes : LedTokens (·.isWord .keyword "else") es elses) (hlast : last.isEof = true)
    (file : String) :
    let tokens := ifs ++ x :: elses ++ [last]
    let s := TokenStream.startAt tokens (4 * cs.length + 1) file
    ((∃ p, Program.ofTokens tokens file = .ok p) ↔ es.length ≤ cs.length) ∧
      (es.length ≤ cs.length → Program.ofTokens tokens file = .ok ⟨[nestedIf t es cs]⟩) ∧
      (cs.length < es.length → s.current.isWord .keyword "else" = true ∧
        (TokenStream.ofTokens tokens file).run Parser.program =
          (.error (s.error (.expectedPunctuation ';') "else"), s)) := by
  intro tokens s
  have hreads := nestedIf_reads (c := finish last) hcs hx hes (.of_isEof rfl)
  have hok : es.length ≤ cs.length →
      Program.ofTokens tokens file = .ok ⟨[nestedIf t es cs]⟩ := by
    intro hle
    have hnone : elses.drop (2 * cs.length) = [] :=
      List.drop_eq_nil_of_le (by rw [hes.length_eq]; omega)
    rw [hnone] at hreads
    exact hreads.ofTokens_eq_ok hlast file
  have herror : cs.length < es.length → s.current.isWord .keyword "else" = true ∧
      (TokenStream.ofTokens tokens file).run Parser.program =
        (.error (s.error (.expectedPunctuation ';') "else"), s) := by
    intro hlt
    obtain ⟨y, us, hdrop, hy⟩ : ∃ y us, elses.drop (2 * cs.length) = y :: us ∧
        y.isWord .keyword "else" = true := by
      have hrest := hes.drop cs.length
      rw [List.drop_eq_getElem_cons hlt] at hrest
      generalize elses.drop (2 * cs.length) = elses' at hrest
      cases hrest with
      | cons hy => exact ⟨_, _, rfl, hy⟩
    obtain ⟨hkind, hvalue⟩ := Token.isWord_iff.1 hy
    have hsplit : ifs ++ x :: elses = (ifs ++ x :: elses.take (2 * cs.length)) ++ y :: us := by
      rw [List.append_assoc, List.cons_append, ← hdrop, List.take_append_drop]
    have hlen : (ifs ++ x :: elses.take (2 * cs.length)).length = 4 * cs.length + 1 := by
      simp only [List.length_append, List.length_cons, List.length_take, hcs.length_eq,
        hes.length_eq]
      omega
    rw [hsplit, hdrop] at hreads
    have hrun := hreads.run_eq_error hlast file (by simp [Token.isEof, hkind])
      (by simp [Token.isMark, hkind])
    rw [hlen, ← hsplit, hvalue] at hrun
    exact ⟨hrun.1 ▸ hy, hrun.2⟩
  refine ⟨⟨?_, fun hle => ⟨_, hok hle⟩⟩, hok, herror⟩
  rintro ⟨p, hp⟩
  by_contra hlt
  have hrun := (herror (not_le.1 hlt)).2
  rw [Program.ofTokens, hrun] at hp
  simp at hp

/-- Two conditionals before one second branch, and before three. -/
theorem program_of_nestedIf_leftover :
    let ifs : List Token := [.detached .keyword "if", .detached .identifier "a",
      .detached .keyword "if", .detached .identifier "b"]
    let x := Token.detached .number "1"
    let elses : List Token := [.detached .keyword "else", .detached .string "else"]
    let more : List Token := [.detached .keyword "else", .detached .character "'",
      .detached .keyword "else", .detached .keyword "true"]
    let last := Token.detached .eof ""
    let s := TokenStream.startAt (ifs ++ x :: (elses ++ more) ++ [last]) 9 "p"
    Program.ofTokens (ifs ++ x :: elses ++ [last]) "p" = .ok ⟨[.ifThen (.symbol "a")
        (.ifThenElse (.symbol "b") (.number 1) (.string "else"))]⟩ ∧
      (TokenStream.ofTokens (ifs ++ x :: (elses ++ more) ++ [last]) "p").run Parser.program =
        (.error (s.error (.expectedPunctuation ';') "else"), s) := by
  intro ifs x elses more last s
  have hcs : LedTokens (·.isWord .keyword "if") [.symbol "a", .symbol "b"] ifs :=
    .cons rfl (.name rfl) (.cons rfl (.name rfl) .nil)
  have hx : IsOperand x (.number 1) := .number rfl (by decide +kernel)
  have hone : LedTokens (·.isWord .keyword "else") [.string "else"] elses :=
    .cons rfl (.string rfl) .nil
  have hthree : LedTokens (·.isWord .keyword "else")
      [.string "else", .character 39, .boolean true] (elses ++ more) :=
    .cons rfl (.string rfl) <| .cons rfl (.character rfl) <| .cons rfl (.truth true rfl rfl) .nil
  exact ⟨(program_of_nestedIf hcs hx hone rfl "p").2.1 (by decide),
    ((program_of_nestedIf hcs hx hthree rfl "p").2.2 (by decide)).2⟩

end ExprLang
