import ExprLang.Proofs.SingleExpression

/-!
# Argument lists behind chains

Behind an operand of a chain, a first argument list makes a call of that operand. A second list
makes a call of all that the chain is up to there, and nothing goes on behind that.
-/
namespace ExprLang

open ExprLang.Parser Cursor

/-- The operands and operators of a chain in front of one of its operands. -/
inductive PendingTokens : List Pending → List Token → Prop
  | nil : PendingTokens [] []
  | cons {p : Pending} {ps : List Pending} {t o : Token} {ts : List Token}
    (ht : IsOperand t p.left) (hk : o.kind = .operator) (hv : o.value = p.operator)
    (hp : precedence? p.operator = some p.strength) (h : PendingTokens ps ts) :
    PendingTokens (p :: ps) (t :: o :: ts)

/-- A list of operands between parentheses, with commas between them and perhaps one more. -/
inductive ArgumentTokens : List Expr → List Token → Prop
  | empty {o c : Token} (ho : o.isMark '(' = true) (hc : c.isMark ')' = true) :
    ArgumentTokens [] [o, c]
  | operands {e : Expr} {es : List Expr} {o t c : Token} {ts : List Token} {comma : Option Token}
    (ho : o.isMark '(' = true) (ht : IsOperand t e) (h : LedTokens (·.isMark ',') es ts)
    (hcomma : ∀ x ∈ comma, x.isMark ',' = true) (hc : c.isMark ')' = true) :
    ArgumentTokens (e :: es) (o :: t :: (ts ++ comma.toList ++ [c]))

/-- The first operand of a chain and its links, where some operations are pending before the
operand `e` and some links are behind it. -/
def hang : List Pending → Expr → List Link → Expr × List Link
  | [], e, ls => (e, ls)
  | p :: ps, e, ls => (p.left, ⟨p.operator, p.strength, (hang ps e ls).1⟩ :: (hang ps e ls).2)

/-- The operands and operators of pending operations from left to right. -/
def pendingInorder (ps : List Pending) : List (Expr ⊕ String) :=
  ps.flatMap fun p => [.inl p.left, .inr p.operator]

section Arguments

variable {e : Expr} {es : List Expr} {ts : List Token} {c : Cursor}

theorem LedTokens.endsOperand (h : LedTokens (·.isMark ',') es ts) {comma : Option Token}
    (hcomma : ∀ x ∈ comma, x.isMark ',' = true) (hc : c.current.isMark ')' = true) :
    (push (ts ++ comma.toList) c).current.EndsOperand := by
  rw [← push_push]
  refine h.current_push (fun x hx => Token.endsOperand_of_isMark hx (by decide)) ?_
  cases comma with
  | none => exact Token.endsOperand_of_isMark hc (by decide)
  | some x => exact Token.endsOperand_of_isMark (hcomma x rfl) (by decide)

/-- The operands behind a comma are read up to the closing parenthesis. -/
theorem LedTokens.items (h : LedTokens (·.isMark ',') es ts) {comma : Option Token}
    (hcomma : ∀ x ∈ comma, x.isMark ',' = true) (hc : c.current.isMark ')' = true) :
    Reads (.items ')' ',' (es.map some)) (push (ts ++ comma.toList) c) c := by
  induction h with
  | nil =>
    cases comma with
    | none => exact .noItems (.inr hc)
    | some x =>
      have hx := hcomma x rfl
      exact .trailing (c := push [x] c) (not_closes_of_isMark hx (by decide)) hx hc
  | @cons e es x t ts hx ht h ih =>
    exact .items (c := push (x :: t :: (ts ++ comma.toList)) c)
      (not_closes_of_isMark hx (by decide)) hx (ht.isMark ')')
      (ht.expression (c := push (ts ++ comma.toList) c) (h.endsOperand hcomma hc)) ih

theorem ArgumentTokens.reads (h : ArgumentTokens es ts) (callee : Expr) (c : Cursor) :
    Reads (.called callee (.call callee es)) (push ts c) c := by
  cases h with
  | @empty o cl ho hc =>
    have hnone : Reads (.elements ')' ',' (([] : List Expr).map some)) (push [cl] c)
        (push [cl] c) := .noElements (.inr hc)
    exact .call (c := push [o, cl] c) ho hnone hc
  | @operands e es o t cl ts comma ho ht h hcomma hc =>
    have hfirst : Reads (.expression (some e)) (push (t :: (ts ++ comma.toList)) (push [cl] c))
        (push (ts ++ comma.toList) (push [cl] c)) :=
      ht.expression (c := push (ts ++ comma.toList) (push [cl] c)) (h.endsOperand hcomma hc)
    have hall : Reads (.elements ')' ',' ((e :: es).map some))
        (push (t :: (ts ++ comma.toList)) (push [cl] c)) (push [cl] c) :=
      .elements (hfirst.not_closes (by decide)) hfirst (h.items hcomma hc)
    rw [push_push] at hall
    exact .call (c := push (o :: t :: (ts ++ comma.toList ++ [cl])) c) ho hall hc

theorem ArgumentTokens.plain (h : ArgumentTokens es ts) (he : e.Plain) : (Expr.call e es).Plain := by
  have hes : ∀ a ∈ es, a.Plain := by
    cases h with
    | empty => nofun
    | operands _ ht h => exact List.forall_mem_cons.2 ⟨ht.plain, h.plain⟩
  refine ⟨rfl, Expr.forall_mem_nodes.2 ⟨trivial, ?_⟩⟩
  exact List.forall_mem_cons.2 ⟨he.graded, fun a ha => (hes a ha).graded⟩

theorem ArgumentTokens.exists_cons (h : ArgumentTokens es ts) :
    ∃ o us, ts = o :: us ∧ o.isMark '(' = true := by
  cases h with
  | empty ho => exact ⟨_, _, rfl, ho⟩
  | operands ho => exact ⟨_, _, rfl, ho⟩

/-- An operand is called by the list behind it. -/
theorem IsOperand.atom_called {t : Token} (he : IsOperand t e) (h : ArgumentTokens es ts) :
    Reads (.atom (some (.call e es))) (push (t :: ts) c) c :=
  .atom (c := push (t :: ts) c) (IsOperand.reads he) (h.reads e c)

theorem ArgumentTokens.exists_of_mem {args : List (List Expr)} {argTokens : List (List Token)}
    (h : List.Forall₂ ArgumentTokens args argTokens) : ∀ as ∈ args, ∃ ts, ArgumentTokens as ts := by
  induction h with
  | nil => nofun
  | cons h _ ih => exact List.forall_mem_cons.2 ⟨⟨_, h⟩, ih⟩

/-- Argument lists and the links behind them begin with no semicolon. -/
theorem exists_first_token {args : List (List Expr)} {argTokens : List (List Token)}
    {ls : List Link} {us : List Token} (hargs : List.Forall₂ ArgumentTokens args argTokens)
    (hls : LinkTokens ls us) (hne : args ≠ [] ∨ ls ≠ []) :
    ∃ x vs, argTokens.flatten ++ us = x :: vs ∧ x.isEof = false ∧ x.isMark ';' = false ∧
      (args ≠ [] → x.isMark '(' = true) := by
  cases hargs with
  | nil =>
    cases hls with
    | nil => simp at hne
    | cons hk =>
      exact ⟨_, _, rfl, by simp [Token.isEof, hk], by simp [Token.isMark, hk],
        fun h => absurd rfl h⟩
  | cons h =>
    obtain ⟨o, vs, rfl, ho⟩ := h.exists_cons
    obtain ⟨hk, hf⟩ := Token.isMark_iff.1 ho
    exact ⟨o, _, rfl, by simp [Token.isEof, hk], by simp [Token.isMark, hf], fun _ => ho⟩

end Arguments

section Chains

variable {e : Expr} {ps : List Pending} {ls : List Link} {ts : List Token}

theorem inorder_hang : .inl (hang ps e ls).1 :: linksInorder (hang ps e ls).2 =
    pendingInorder ps ++ .inl e :: linksInorder ls := by
  induction ps with
  | nil => rfl
  | cons p ps ih => simpa [hang, pendingInorder, linksInorder] using ih

theorem PendingTokens.hang_plain (h : PendingTokens ps ts) (he : e.Plain)
    (hls : ∀ l ∈ ls, l.Proper) :
    (hang ps e ls).1.Plain ∧ ∀ l ∈ (hang ps e ls).2, l.Proper := by
  induction h with
  | nil => exact ⟨he, hls⟩
  | cons ht _ _ hp _ ih =>
    exact ⟨ht.plain, List.forall_mem_cons.2 ⟨⟨ih.1, by simp [strengthOf, hp]⟩, ih.2⟩⟩

/-- What is pending before an operand is read in front of it. -/
theorem PendingTokens.reads (h : PendingTokens ps ts) {c c₁ c₂ : Cursor}
    (he : Reads (.atom (some e)) c c₁) (hls : Reads (.links 0 ls) c₁ c₂) :
    ∃ d, Reads (.atom (some (hang ps e ls).1)) (push ts c) d ∧
      Reads (.links 0 (hang ps e ls).2) d c₂ := by
  induction h with
  | nil => exact ⟨c₁, he, hls⟩
  | @cons p ps t o ts ht hk hv hp h ih =>
    obtain ⟨d, hatom, hlinks⟩ := ih
    refine ⟨push (o :: ts) c, ht.atom (c := push (o :: ts) c) (by simp [Token.isMark, hk]), ?_⟩
    obtain ⟨left, operator, strength⟩ := p
    obtain rfl : o.value = operator := hv
    exact .link (c := push (o :: ts) c) hk hp (pos_of_precedence? hp) hatom hlinks

theorem LinkTokens.length_eq {us : List Token} (h : LinkTokens ls us) :
    us.length = 2 * ls.length := by
  induction h with
  | nil => rfl
  | cons _ _ _ _ _ ih => simp only [List.length_cons, ih, Nat.mul_succ]

/-- All links of the language are read. -/
theorem LinkTokens.reads_all {us : List Token} (h : LinkTokens ls us) {c : Cursor}
    (hc : c.current.EndsOperand) : Reads (.links 0 ls) (push us c) c := by
  have hall : ls.takeWhile (fun l => 0 < l.strength) = ls :=
    List.takeWhile_eq_self_iff.2 fun l hl => by simpa using h.pos l hl
  have hreads := h.reads hc.kind hc.isMark 0
  have hdrop := drop_push us [] c
  rw [List.append_nil, push_nil, h.length_eq] at hdrop
  rwa [hall, hdrop] at hreads

/-- The tree of a chain around one of its operands. -/
def treeAround (ps : List Pending) (ls : List Link) (e : Expr) : Expr :=
  ofChain (hang ps e ls).1 (hang ps e ls).2

theorem PendingTokens.eq_treeAround_iff (h : PendingTokens ps ts) (he : e.Plain)
    (hls : ∀ l ∈ ls, l.Proper) (T : Expr) : T = treeAround ps ls e ↔
      T.inorder = pendingInorder ps ++ .inl e :: linksInorder ls ∧ ∀ n ∈ T.nodes, n.Graded := by
  obtain ⟨hfirst, hlinks⟩ := h.hang_plain he hls
  rw [treeAround, eq_ofChain_iff hfirst hlinks, inorder_hang]

variable {us : List Token} {c c₁ c₂ : Cursor}

/-- A chain is read to the end of its links. -/
theorem PendingTokens.expression (h : PendingTokens ps ts) (hls : LinkTokens ls us)
    (he : Reads (.atom (some e)) c (push us c₁)) (hc : c₁.current.EndsOperand) :
    Reads (.expression (some (treeAround ps ls e))) (push ts c) c₁ := by
  obtain ⟨d, hatom, hlinks⟩ := h.reads he (hls.reads_all hc)
  exact .expression hatom hlinks (.uncalled hc.isMark)

/-- A chain whose last operand is called already is called as a whole. -/
theorem PendingTokens.expression_called (h : PendingTokens ps ts)
    (he : Reads (.atom (some e)) c c₁) {as : List Expr} (has : ArgumentTokens as us)
    (hc : c₁ = push us c₂) :
    Reads (.expression (some (.call (treeAround ps [] e) as))) (push ts c) c₂ := by
  subst hc
  obtain ⟨o, us', rfl, ho⟩ := has.exists_cons
  have hnone : Reads (.links 0 []) (push (o :: us') c₂) (push (o :: us') c₂) :=
    .noOperator (by simp [(Token.isMark_iff.1 ho).1])
  obtain ⟨d, hatom, hlinks⟩ := h.reads he hnone
  exact .expression hatom hlinks (has.reads _ c₂)

end Chains

/-- Behind an operand of a chain, one argument list makes a call of that operand, and two make a
call of the whole chain if it ends there. Whatever else follows the second list is where a
semicolon is missed. -/
theorem program_of_argumentTokens {lead : List Pending} {a : Expr} {args : List (List Expr)}
    {ls : List Link} {ts us : List Token} {argTokens : List (List Token)} {t last : Token}
    (hlead : PendingTokens lead ts) (ha : IsOperand t a)
    (hargs : List.Forall₂ ArgumentTokens args argTokens) (hls : LinkTokens ls us)
    (hlast : last.isEof = true) (file : String) :
    let tokens := ts ++ t :: (argTokens.flatten ++ us) ++ [last]
    let s := TokenStream.startAt tokens (ts.length + 1 + (argTokens.take 2).flatten.length) file
    ∃ tree : Expr → Expr,
      (∀ e, e = a ∨ (∃ as ∈ args, e = .call a as) → ∀ T, T = tree e ↔
        T.inorder = pendingInorder lead ++ .inl e :: linksInorder ls ∧
          ∀ n ∈ T.nodes, n.Graded) ∧
      match args with
      | [] => Program.ofTokens tokens file = .ok ⟨[tree a]⟩
      | [as] => Program.ofTokens tokens file = .ok ⟨[tree (.call a as)]⟩
      | as :: bs :: rest =>
        (rest = [] ∧ ls = [] →
          Program.ofTokens tokens file = .ok ⟨[.call (tree (.call a as)) bs]⟩) ∧
        (rest ≠ [] ∨ ls ≠ [] → (rest ≠ [] → s.current.isMark '(' = true) ∧
          (TokenStream.ofTokens tokens file).run Parser.program =
            (.error (s.error (.expectedPunctuation ';') s.current.value), s)) := by
  intro tokens s
  have hends : (finish last).current.EndsOperand := Ends.endsOperand (.of_isEof rfl)
  refine ⟨treeAround lead ls, fun e he => hlead.eq_treeAround_iff ?_ hls.proper, ?_⟩
  · rcases he with rfl | ⟨as, has, rfl⟩
    · exact ha.plain
    · obtain ⟨_, has⟩ := ArgumentTokens.exists_of_mem hargs as has
      exact has.plain ha.plain
  -- The first list is taken with the operand. The second one ends the links, and is taken behind.
  cases hargs with
  | nil =>
    have hatom : Reads (.atom (some a)) (push (t :: us) (finish last)) (push us (finish last)) :=
      ha.atom (c := push us (finish last)) (hls.isMark_current_push hends.isMark)
    have hreads := hlead.expression hls hatom hends
    rw [push_push] at hreads
    exact hreads.ofTokens_eq_ok hlast file
  | @cons as ats args argTokens has hargs =>
    have hatom : ∀ vs, Reads (.atom (some (.call a as)))
        (push (t :: ats) (push vs (finish last))) (push vs (finish last)) :=
      fun vs => ha.atom_called has
    cases hargs with
    | nil =>
      have hreads := hlead.expression hls (hatom us) hends
      simp only [push_push] at hreads
      simpa [tokens] using hreads.ofTokens_eq_ok hlast file
    | @cons bs bts rest argTokens hbs hrest =>
      have hreads := hlead.expression_called (hatom (bts ++ (argTokens.flatten ++ us))) hbs
        (push_push ..).symm
      simp only [push_push] at hreads
      refine ⟨?_, fun hmore => ?_⟩
      · rintro ⟨rfl, rfl⟩
        cases hrest
        cases hls
        simpa [tokens] using hreads.ofTokens_eq_ok hlast file
      · obtain ⟨x, vs, hvs, heof, hsemi, hopen⟩ := exists_first_token hrest hls hmore
        have hsplit : ts ++ (t :: ats ++ (bts ++ (argTokens.flatten ++ us))) =
            ts ++ t :: (ats ++ bts) ++ x :: vs := by simp [hvs]
        have htokens : tokens = ts ++ t :: (ats ++ bts) ++ x :: vs ++ [last] := by
          simp [tokens, hvs]
        have hlen : (ts ++ t :: (ats ++ bts)).length =
            ts.length + 1 + ((ats :: bts :: argTokens).take 2).flatten.length := by
          simp
          omega
        rw [hsplit, hvs] at hreads
        obtain ⟨hcurrent, hrun⟩ := hreads.run_eq_error hlast file heof hsemi
        rw [hlen, ← htokens] at hcurrent hrun
        exact ⟨fun hne => hcurrent ▸ hopen hne, by rw [hrun, hcurrent]⟩

/-- Two lists behind the last operand of a chain, and one more behind these. -/
theorem program_of_argumentTokens_assignment :
    let ts : List Token := [.detached .identifier "a", .detached .operator "=",
      .detached .number "2", .detached .operator "*"]
    let f := Token.detached .identifier "f"
    let xs : List Token := [.detached .punctuation "(", .detached .number "1",
      .detached .punctuation ",", .detached .string "s", .detached .punctuation ",",
      .detached .punctuation ")"]
    let ys : List Token := [.detached .punctuation "(", .detached .punctuation ")"]
    let last := Token.detached .eof ""
    let s := TokenStream.startAt (ts ++ f :: ([xs, ys, ys].flatten ++ []) ++ [last]) 13 "p"
    Program.ofTokens (ts ++ f :: ([xs, ys].flatten ++ []) ++ [last]) "p" =
        .ok ⟨[.call (.assignment "=" (.symbol "a") (.binary "*" (.number 2)
          (.call (.symbol "f") [.number 1, .string "s"]))) []]⟩ ∧
      (TokenStream.ofTokens (ts ++ f :: ([xs, ys, ys].flatten ++ []) ++ [last]) "p").run
        Parser.program = (.error (s.error (.expectedPunctuation ';') "("), s) := by
  intro ts f xs ys last s
  have hlead : PendingTokens [⟨.symbol "a", "=", 1⟩, ⟨.number 2, "*", 20⟩] ts :=
    .cons (.name rfl) rfl rfl rfl <| .cons (.number rfl (by decide +kernel)) rfl rfl rfl .nil
  have hf : IsOperand f (.symbol "f") := .name rfl
  have hone : IsOperand (.detached .number "1") (.number 1) := .number rfl (by decide +kernel)
  have hrest : LedTokens (·.isMark ',') [.string "s"]
      [.detached .punctuation ",", .detached .string "s"] := .cons rfl (.string rfl) .nil
  have hcomma : ∀ x ∈ some (Token.detached .punctuation ","), x.isMark ',' = true := by
    rintro _ ⟨⟩
    rfl
  have hxs : ArgumentTokens [.number 1, .string "s"] xs := .operands rfl hone hrest hcomma rfl
  have hys : ArgumentTokens [] ys := .empty rfl rfl
  have hlast : last.isEof = true := rfl
  obtain ⟨tree, htree, hok, -⟩ :=
    program_of_argumentTokens hlead hf (.cons hxs (.cons hys .nil)) .nil hlast "p"
  obtain ⟨-, -, -, herror⟩ :=
    program_of_argumentTokens hlead hf (.cons hxs (.cons hys (.cons hys .nil))) .nil hlast "p"
  let T : Expr := .assignment "=" (.symbol "a")
    (.binary "*" (.number 2) (.call (.symbol "f") [.number 1, .string "s"]))
  have hT : T = tree (.call (.symbol "f") [.number 1, .string "s"]) := by
    refine (htree _ (.inr ⟨_, List.mem_cons_self, rfl⟩) T).2 ⟨rfl, ?_⟩
    have hstrength : strengthOf "=" < strengthOf "*" := by decide
    simp [T, Expr.nodes, Expr.nodesOf, Expr.Graded, Expr.Ranked, Expr.operators, Expr.inorder,
      assignmentOperator, hstrength]
  have hrun := hok ⟨rfl, rfl⟩
  rw [← hT] at hrun
  exact ⟨hrun, (herror (.inl (List.cons_ne_nil _ _))).2⟩

end ExprLang
