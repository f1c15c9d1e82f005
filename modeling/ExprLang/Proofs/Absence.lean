import ExprLang.Proofs.CompleteExpressions
import ExprLang.Proofs.Nesting

/-!
# Absent expressions

An expression is absent exactly where its tokens are an empty form: braces with nothing between
them, a closure with such a body, or one of these in parentheses. So nothing but empty forms is
left out of a program or a block.
-/
namespace ExprLang

open ExprLang.Parser Cursor

/-- Names with a comma between each two of them, and perhaps one more behind the last. -/
inductive NameTokens : List Token → Prop
  | nil : NameTokens []
  | last {x : Token} (hx : x.kind = .identifier) : NameTokens [x]
  | cons {x comma : Token} {ts : List Token} (hx : x.kind = .identifier)
    (hcomma : comma.isMark ',' = true) (h : NameTokens ts) : NameTokens (x :: comma :: ts)

/-- The tokens of an expression without a value. -/
inductive EmptyForm : List Token → Prop
  | braces {opening closing : Token} (hopen : opening.isMark '\x7b' = true)
    (hclose : closing.isMark '\x7d' = true) : EmptyForm [opening, closing]
  | closure {word left right opening closing : Token} {names : List Token}
    (hword : word.isWord .keyword "cls" = true) (hleft : left.isMark '(' = true)
    (hnames : NameTokens names) (hright : right.isMark ')' = true)
    (hopen : opening.isMark '\x7b' = true) (hclose : closing.isMark '\x7d' = true) :
    EmptyForm (word :: left :: (names ++ [right, opening, closing]))
  | grouping {left right : Token} {ts : List Token} (hleft : left.isMark '(' = true)
    (h : EmptyForm ts) (hright : right.isMark ')' = true) : EmptyForm (left :: (ts ++ [right]))

section Names

variable {ps : List String} {c c' : Cursor} {ts : List Token}

/-- What is read behind a name of a list goes on with it. -/
theorem exists_nameTokens_of_items
    (h : repeated (nextElement ')' ',' (expectName .variable)) c = .ok ps c') :
    ∃ ts, c = push ts c' ∧ ∀ x : Token, x.kind = .identifier → NameTokens (x :: ts) := by
  refine items_induction (motive := fun _ c c' => ∃ ts, c = push ts c' ∧
    ∀ x : Token, x.kind = .identifier → NameTokens (x :: ts)) ')' ','
    (fun _ => follows_expectName .eq .variable) (fun c => ⟨[], rfl, fun x hx => .last hx⟩) ?_ ?_ h
  · intro c hcomma
    exact ⟨[c.current], eq_push_current_of_isMark hcomma, fun x hx => .cons hx hcomma .nil⟩
  · rintro c a c₁ as c' hcomma ha ⟨ts, hts, hnames⟩
    obtain ⟨hk, -, hnext⟩ := expectName_eq_ok.1 ha
    obtain ⟨y, hy⟩ := exists_eq_push_of_kind (by simp [hk]) (hnext.trans hts)
    obtain ⟨comma, rfl⟩ := exists_eq_push_of_isMark hcomma hy
    exact ⟨comma :: y :: ts, rfl, fun x hx => .cons hx hcomma (hnames y hk)⟩

/-- Names in parentheses are read from their tokens. -/
theorem exists_nameTokens
    (h : delimited '(' ')' ',' (expectName .variable) c = .ok ps c') :
    ∃ left names right, c = push (left :: (names ++ [right])) c' ∧ left.isMark '(' = true ∧
      NameTokens names ∧ right.isMark ')' = true := by
  obtain ⟨hopen, c₁, hel, hclose, hend⟩ := delimited_eq_ok.1 h
  obtain ⟨names, hstart, hnames⟩ : ∃ names, c.next = push names c₁ ∧ NameTokens names := by
    rcases (elements_eq_ok ..).1 hel with ⟨-, -, hnext⟩ | ⟨-, a, c₂, as, ha, hitems, -⟩
    · exact ⟨[], hnext, .nil⟩
    · obtain ⟨hk, -, hnext⟩ := expectName_eq_ok.1 ha
      obtain ⟨ts, rfl, hts⟩ := exists_nameTokens_of_items hitems
      obtain ⟨x, hx⟩ := exists_eq_push_of_kind (by simp [hk]) hnext
      rw [hx] at hk
      exact ⟨x :: ts, hx, hts x hk⟩
  exact ⟨_, names, _, hend ▸ eq_push_of_enclosed hopen hstart hclose, hopen, hnames, hclose⟩

theorem NameTokens.not_closes (h : NameTokens ts) (hts : ts ≠ []) (c : Cursor) :
    ¬Closes ')' (push ts c) := by
  cases h with
  | nil => exact absurd rfl hts
  | last hx | cons hx =>
    rintro (he | hm)
    · simp [Token.isEof, hx] at he
    · simp [Token.isMark, hx] at hm

/-- Names are read before a closing parenthesis. -/
theorem NameTokens.exists_elements (h : NameTokens ts) (hc : c.current.isMark ')' = true) :
    ∃ ps, elements ')' ',' (expectName .variable) (push ts c) = .ok ps c := by
  have hf : ∀ n, Follows Eq n Eq (expectName .variable) (expectName .variable) := fun _ =>
    follows_expectName .eq .variable
  have ht := fun n => takesBelow_nextElement ')' ',' (hf n)
  have hs := stopsAtEnd_nextElement ')' ',' (e := expectName .variable)
  induction h with
  | nil => exact ⟨[], (elements_eq_ok ..).2 (.inl ⟨.inr hc, rfl, rfl⟩)⟩
  | @last x hx =>
    have hnone : nextElement ')' ',' (expectName .variable) c = .ok none c :=
      nextElement_eq_ok.2 (.inl ⟨.inr hc, rfl, rfl⟩)
    have hnot := (NameTokens.last hx).not_closes (List.cons_ne_nil x []) c
    exact ⟨[x.value], (elements_eq_ok ..).2 (.inr ⟨hnot, x.value, c, [],
      expectName_eq_ok.2 ⟨hx, rfl, rfl⟩, (repeated_eq_ok ht hs).2 (.inl ⟨hnone, rfl⟩), rfl⟩)⟩
  | @cons x comma ts hx hcomma h ih =>
    obtain ⟨ps, hps⟩ := ih
    have hnot := (NameTokens.cons hx hcomma h).not_closes (List.cons_ne_nil x _) c
    have hclose : ¬Closes ')' (push (comma :: ts) c) :=
      not_closes_of_isMark (c := push (comma :: ts) c) hcomma (by decide)
    -- What is read behind the comma are the elements that are read there.
    have hitems : ∃ ps, repeated (nextElement ')' ',' (expectName .variable))
        (push (comma :: ts) c) = .ok ps c := by
      rcases (elements_eq_ok ..).1 hps with ⟨-, -, hend⟩ | ⟨hcl, p, c₁, ps', hp, hrest, -⟩
      · obtain rfl := push_eq_self.1 hend
        have hnone : nextElement ')' ',' (expectName .variable) (push [comma] c) = .ok none c :=
          nextElement_eq_ok.2 (.inr ⟨hclose, hcomma, .inl ⟨hc, rfl, rfl⟩⟩)
        exact ⟨[], (repeated_eq_ok ht hs).2 (.inl ⟨hnone, rfl⟩)⟩
      · have hopen : (push ts c).current.isMark ')' = false := by
          simpa using fun hm => hcl (.inr hm)
        have hsome : nextElement ')' ',' (expectName .variable) (push (comma :: ts) c) =
            .ok (some p) c₁ :=
          nextElement_eq_ok.2 (.inr ⟨hclose, hcomma, .inr ⟨hopen, p, hp, rfl⟩⟩)
        exact ⟨p :: ps', (repeated_eq_ok ht hs).2 (.inr ⟨p, c₁, ps', hsome, hrest, rfl⟩)⟩
    obtain ⟨ps', hps'⟩ := hitems
    exact ⟨x.value :: ps', (elements_eq_ok ..).2 (.inr ⟨hnot, x.value, push (comma :: ts) c, ps',
      expectName_eq_ok.2 ⟨hx, rfl, rfl⟩, hps', rfl⟩)⟩

theorem NameTokens.exists_delimited (h : NameTokens ts) {left right : Token}
    (hleft : left.isMark '(' = true) (hright : right.isMark ')' = true) (c : Cursor) :
    ∃ ps, delimited '(' ')' ',' (expectName .variable) (push (left :: (ts ++ [right])) c) =
      .ok ps c := by
  have hmark : (push [right] c).current.isMark ')' = true := hright
  obtain ⟨ps, hps⟩ := h.exists_elements hmark
  rw [push_push] at hps
  exact ⟨ps, delimited_eq_ok.2 ⟨hleft, push [right] c, hps, hmark, rfl⟩⟩

end Names

section Readings

variable {c c' : Cursor} {ts : List Token}

theorem Reads.exists_braces (h : Reads (.block none) c c') : ∃ opening closing,
    c = push [opening, closing] c' ∧ opening.isMark '\x7b' = true ∧
      closing.isMark '\x7d' = true := by
  generalize ho : (none : Option Expr) = o at h
  cases h with
  | block hopen hel hclose =>
    cases hel with
    | noElements =>
      exact ⟨_, _, eq_push_of_enclosed hopen (push_nil _).symm hclose, hopen, hclose⟩
    | elements => simp [blockOf] at ho

/-- An absent expression is read from an empty form. -/
theorem Reads.exists_emptyForm (h : Reads (.expression none) c c') :
    ∃ ts, c = push ts c' ∧ EmptyForm ts := by
  generalize hφ : Phrase.expression none = φ at h
  replace hφ : φ = .unit none ∨ φ = .atom none ∨ φ = .expression none := .inr (.inr hφ.symm)
  induction h with
  | @closure _ _ _ params b hk hps hb =>
    obtain rfl : b = none := by simpa using hφ
    obtain ⟨opening, closing, rfl, hopen, hclose⟩ := hb.exists_braces
    obtain ⟨left, names, right, hnext, hleft, hnames, hright⟩ := exists_nameTokens hps
    rw [push_push] at hnext
    obtain ⟨word, rfl⟩ := exists_eq_push_of_isWord hk hnext
    exact ⟨_, rfl, by simpa using .closure hk hleft hnames hright hopen hclose⟩
  | @grouping c c₁ o hopen _ hclose ih =>
    obtain ⟨ts, hnext, hts⟩ := ih (.inr (.inr (by simpa using hφ)))
    exact ⟨_, eq_push_of_enclosed hopen hnext hclose, .grouping hopen hts hclose⟩
  | braces hb =>
    obtain rfl := by simpa using hφ
    obtain ⟨opening, closing, rfl, hopen, hclose⟩ := hb.exists_braces
    exact ⟨_, rfl, .braces hopen hclose⟩
  | absentAtom _ _ ih => exact ih (.inl rfl)
  | absent _ _ _ ih => exact ih (.inr (.inl rfl))
  | _ => simp at hφ

theorem Reads.endsOperand_of_absent (h : Reads (.expression none) c c') :
    c'.current.EndsOperand := by
  cases h with
  | absent _ hk hm => exact ⟨hk, hm⟩

theorem reads_braces {opening closing : Token} (hopen : opening.isMark '\x7b' = true)
    (hclose : closing.isMark '\x7d' = true) (c : Cursor) :
    Reads (.block none) (push [opening, closing] c) c := by
  have hnone : Reads (.elements '\x7d' ';' []) (push [closing] c) (push [closing] c) :=
    .noElements (.inr hclose)
  exact .block (c := push [opening, closing] c) hopen hnone hclose

theorem EmptyForm.reads (h : EmptyForm ts) (c : Cursor) : Reads (.unit none) (push ts c) c := by
  induction h generalizing c with
  | braces hopen hclose => exact .braces (reads_braces hopen hclose c)
  | @closure word left right opening closing names hword hleft hnames hright hopen hclose =>
    obtain ⟨ps, hps⟩ := hnames.exists_delimited hleft hright (push [opening, closing] c)
    let start := push (word :: left :: (names ++ [right, opening, closing])) c
    have hnames' : delimited '(' ')' ',' (expectName .variable) start.next =
        .ok ps (push [opening, closing] c) := by simpa [start] using hps
    exact .closure (c := start) (b := none) hword hnames' (reads_braces hopen hclose c)
  | @grouping left right ts hleft _ hright ih =>
    have hmark : (push [right] c).current.isMark ')' = true := hright
    have hends : (push [right] c).Ends := .of_isMark hmark (by decide)
    have hinner : Reads (.expression none) (push (ts ++ [right]) c) (push [right] c) := by
      rw [← push_push]
      exact .absent (.absentAtom (ih _) hends.isMark) hends.kind hends.isMark
    exact .grouping (c := push (left :: (ts ++ [right])) c) hleft hinner hmark

theorem EmptyForm.expression (h : EmptyForm ts) (hc : c.current.EndsOperand) :
    Reads (.expression none) (push ts c) c :=
  .absent (.absentAtom (h.reads c) hc.isMark) hc.kind hc.isMark

theorem EmptyForm.ne_nil (h : EmptyForm ts) : ts ≠ [] := by
  cases h <;> exact List.cons_ne_nil _ _

end Readings

/-- Tokens that are cut into statements by semicolons, with what each statement stands for. There
may be a semicolon behind the last one. -/
inductive StatementTokens : List (List Token × Option Expr) → List Token → Prop
  | nil : StatementTokens [] []
  | last {ts : List Token} {o : Option Expr} (h : IsExpression ts o) : StatementTokens [(ts, o)] ts
  | cons {ts rest : List Token} {o : Option Expr} {semicolon : Token}
    {parts : List (List Token × Option Expr)} (h : IsExpression ts o)
    (hsep : semicolon.isMark ';' = true) (hrest : StatementTokens parts rest) :
    StatementTokens ((ts, o) :: parts) (ts ++ semicolon :: rest)

/-- The expressions are the statements of the tokens, without those that are empty forms. -/
def HasStatements (ts : List Token) (body : List Expr) : Prop :=
  ∃ parts, StatementTokens parts ts ∧ body = (parts.map Prod.snd).reduceOption ∧
    ∀ part ∈ parts, part.2 = none ↔ EmptyForm part.1

section Statements

variable {ts : List Token} {o : Option Expr} {os : List (Option Expr)} {body : List Expr}
  {e : Cursor}

/-- A statement is absent exactly if it is an empty form. -/
theorem IsExpression.eq_none_iff (h : IsExpression ts o) : o = none ↔ EmptyForm ts := by
  have hends : Cursor.Ends ⟨[], .detached⟩ := .of_isEof rfl
  have hread := h.reads hends
  constructor
  · rintro rfl
    obtain ⟨us, hus, hform⟩ := hread.exists_emptyForm
    rwa [push_inj.1 hus]
  · intro hform
    have hrun := (hform.expression hends.endsOperand).run
    have hrun' := hread.run
    simp_all [Phrase.Run]

theorem StatementTokens.forall_mem {parts : List (List Token × Option Expr)}
    (h : StatementTokens parts ts) : ∀ part ∈ parts, part.2 = none ↔ EmptyForm part.1 := by
  induction h with
  | nil => nofun
  | last h => simpa using h.eq_none_iff
  | cons h _ _ ih => exact List.forall_mem_cons.2 ⟨h.eq_none_iff, ih⟩

/-- What is read as statements is cut into these. -/
theorem Reads.exists_statementTokens (h : Reads (.statements os) (push ts e) e)
    (he : e.atEnd = true) : ∃ parts, StatementTokens parts ts ∧ parts.map Prod.snd = os := by
  have hends : e.Ends := .of_isEof he
  induction os generalizing ts with
  | nil =>
    obtain rfl : ts = [] := by
      by_contra hts
      exact h.ne_nil_of_statements hts rfl
    exact ⟨[], .nil, rfl⟩
  | cons o os ih =>
    obtain ⟨us, ho, ⟨rfl, rfl⟩ | ⟨x, us, rfl, hsep, hos⟩⟩ := (reads_statements_cons_iff he).1 h
    · exact ⟨[(ts, o)], .last ((isExpression_iff hends).2 ho), rfl⟩
    · obtain ⟨parts, hparts, rfl⟩ := ih hos
      obtain ⟨front, hfront⟩ := ho.exists_push_of_expression
      rw [push_push, push_inj] at hfront
      subst hfront
      have hends' : (push (x :: us) e).Ends := .of_isMark (m := ';') hsep (by decide)
      rw [← push_push] at ho
      exact ⟨(front, o) :: parts, .cons ((isExpression_iff hends').2 ho) hsep hparts, rfl⟩

theorem hasStatements_of_reads (h : Reads (.statements os) (push ts e) e) (he : e.atEnd = true) :
    HasStatements ts os.reduceOption := by
  obtain ⟨parts, hparts, rfl⟩ := h.exists_statementTokens he
  exact ⟨parts, hparts, rfl, hparts.forall_mem⟩

/-- A block has its statements between its braces. -/
theorem Reads.exists_statements_of_block {c c' : Cursor}
    (h : Reads (.block (some (.block body))) c c') : ∃ opening ts closing,
      c = push (opening :: (ts ++ [closing])) c' ∧ opening.isMark '\x7b' = true ∧
        closing.isMark '\x7d' = true ∧ HasStatements ts body := by
  generalize ho : some (Expr.block body) = o at h
  cases h with
  | @block _ c₁ os hopen hel hclose =>
    obtain ⟨hos, rfl⟩ := blockOf_eq_some_block.1 ho.symm
    obtain ⟨ts, hts⟩ := hel.exists_push_of_elements
    rw [hts] at hel
    have hne : ts ≠ [] := by
      obtain ⟨o, os, rfl⟩ := List.exists_cons_of_ne_nil hos
      obtain ⟨us, hread, -⟩ := reads_elements_cons_iff.1 hel
      obtain ⟨x, xs, rfl⟩ := hread.exists_cons
      exact List.cons_ne_nil x xs
    have hend : Cursor.atEnd ⟨[], .detached⟩ = true := rfl
    have hstatements := (reads_elements_iff hclose hend hne).1 hel
    exact ⟨_, ts, _, eq_push_of_enclosed hopen hts hclose, hopen, hclose,
      hasStatements_of_reads hstatements hend⟩

end Statements

section Streams

variable {α : Type} {tokens : List Token} {E : Parser α} {file : String} {p q : ℕ} {a : α}

/-- The tokens between two places of a cursor stand in front of the second one. -/
theorem Cursor.drop_eq_push_extract (c : Cursor) (hpq : p ≤ q) (hq : q ≤ c.size) :
    c.drop p = push (c.tokens.extract p q) (c.drop q) := by
  obtain ⟨ts, last⟩ := c
  have hq : q ≤ ts.length := hq
  have hlen : q - p ≤ (ts.drop p).length := by
    rw [List.length_drop]
    omega
  have hextract : (tokens ⟨ts, last⟩).extract p q = (ts.drop p).take (q - p) := by
    rw [tokens, List.extract_eq_take_drop, List.drop_append_of_le_length (hpq.trans hq),
      List.take_append_of_le_length hlen]
  have hrest : ts.drop q = (ts.drop p).drop (q - p) := by
    rw [List.drop_drop, Nat.add_sub_cancel' hpq]
  simp only [drop, push, hextract, hrest, List.take_append_drop]

/-- What an operation that takes a token gives, it gives at the tokens up to where it stops. -/
theorem Parser.Operation.gives_iff (hE : E.Operation) (ht : Takes E) :
    E.Gives tokens file p a q ↔ p ≤ q ∧ q ≤ (ofTokens tokens).size ∧
      E (push ((ofTokens tokens).tokens.extract p q) ((ofTokens tokens).drop q)) =
        .ok a ((ofTokens tokens).drop q) := by
  constructor
  · intro h
    have hpq : p ≤ q := h.2 ▸ TokenStream.position_le_run (.startAt tokens p file) E
    obtain ⟨c, hc, -⟩ := TokenStream.run_eq_ok_iff.1 h
    have hlt := ht hc
    simp only [TokenStream.startAt, size_drop] at hlt
    obtain ⟨hq, hrun⟩ := (hE.forward.gives_iff (by omega)).1 h
    exact ⟨hpq, hq, drop_eq_push_extract _ hpq hq ▸ hrun⟩
  · rintro ⟨hpq, hq, hrun⟩
    refine (hE.forward.gives_iff (hpq.trans hq)).2 ⟨hq, ?_⟩
    rwa [drop_eq_push_extract _ hpq hq]

end Streams

section Terminated

variable {tokens : List Token} (htokens : Terminated tokens) {file : String} {p q : ℕ}
  {body : List Expr}

include htokens

theorem Terminated.tokens_ofTokens : (ofTokens tokens).tokens = tokens := by
  obtain ⟨ts, last, rfl, hlast, -⟩ := htokens
  exact Cursor.tokens_ofTokens hlast

/-- The token at an index is the one before which the cursor stands there. -/
theorem Terminated.getElem?_eq_some_iff {t : Token} : tokens[q]? = some t ↔
    q ≤ (ofTokens tokens).size ∧ ((ofTokens tokens).drop q).current = t := by
  have hget := (ofTokens tokens).getElem?_tokens q
  have hlen : tokens.length = (ofTokens tokens).size + 1 := by
    rw [← congrArg List.length htokens.tokens_ofTokens]
    simp [Cursor.tokens, size]
  rw [htokens.tokens_ofTokens] at hget
  constructor
  · intro h
    have hlt := (List.getElem?_eq_some_iff.1 h).1
    have hq : q ≤ (ofTokens tokens).size := by omega
    rw [min_eq_left hq, h] at hget
    exact ⟨hq, (Option.some.inj hget).symm⟩
  · rintro ⟨hq, rfl⟩
    rwa [min_eq_left hq] at hget

theorem Terminated.expression_gives_none_iff : Parser.expression.Gives tokens file p none q ↔
    EmptyForm (tokens.extract p q) ∧ ∃ t, tokens[q]? = some t ∧ t.EndsOperand := by
  rw [Operation.expression.gives_iff takes_expression, htokens.tokens_ofTokens]
  constructor
  · rintro ⟨-, hq, hrun⟩
    have hread : Reads (.expression none) _ _ := reads_iff.2 hrun
    obtain ⟨us, hus, hform⟩ := hread.exists_emptyForm
    obtain rfl := push_inj.1 hus
    exact ⟨hform, _, htokens.getElem?_eq_some_iff.2 ⟨hq, rfl⟩, hread.endsOperand_of_absent⟩
  · rintro ⟨hform, t, ht, hends⟩
    obtain ⟨hq, rfl⟩ := htokens.getElem?_eq_some_iff.1 ht
    have hpq : p ≤ q := by
      by_contra hlt
      have hzero : q - p = 0 := by omega
      exact hform.ne_nil (by simp [List.extract_eq_take_drop, hzero])
    exact ⟨hpq, hq, (hform.expression hends).run⟩

theorem Terminated.hasStatements_of_ofTokens (h : Program.ofTokens tokens file = .ok ⟨body⟩) :
    HasStatements tokens.dropLast body := by
  obtain ⟨ts, last, rfl, hlast, hts⟩ := htokens
  obtain ⟨c', hrun⟩ := (ofTokens_eq_ok_iff hlast).1 h
  obtain ⟨os, hos, hbody⟩ := program_eq_ok_iff.1 hrun
  obtain rfl : body = os.reduceOption := by simpa using hbody
  obtain rfl := hos.eq_of_statements hts
  have hstart : (⟨ts, last.value, last.span⟩ : Cursor) = push ts ⟨[], last.value, last.span⟩ := by
    simp [push]
  rw [List.dropLast_concat]
  exact hasStatements_of_reads (hstart ▸ hos) rfl

theorem Terminated.exists_hasStatements_of_block
    (h : Parser.block.Gives tokens file p (some (.block body)) q) :
    ∃ opening ts closing, tokens.extract p q = opening :: (ts ++ [closing]) ∧
      opening.isMark '\x7b' = true ∧ closing.isMark '\x7d' = true ∧ HasStatements ts body := by
  have htakes : Takes Parser.block := fun c o c' hr => by
    have := size_add_two_le_of_block hr
    omega
  obtain ⟨-, -, hrun⟩ := (Operation.block.gives_iff htakes).1 h
  have hread : Reads (.block (some (.block body))) _ _ := reads_iff.2 hrun
  obtain ⟨opening, ts, closing, hts, hopen, hclose, hbody⟩ := hread.exists_statements_of_block
  rw [htokens.tokens_ofTokens, push_inj] at hts
  exact ⟨opening, ts, closing, hts, hopen, hclose, hbody⟩

end Terminated

/-- An expression is absent, with the cursor at the token `q`, exactly where the tokens up to that
one are an empty form and it is neither an operator nor an opening parenthesis. What a program and
a block leave out of their statements are the empty forms among these. -/
theorem expression_absent_iff_emptyForm {tokens : List Token} (htokens : Terminated tokens)
    (file : String) :
    (∀ p q, Parser.expression.Gives tokens file p none q ↔
      EmptyForm (tokens.extract p q) ∧ ∃ t, tokens[q]? = some t ∧ t.EndsOperand) ∧
    (∀ body, Program.ofTokens tokens file = .ok ⟨body⟩ → HasStatements tokens.dropLast body) ∧
    ∀ p q body, Parser.block.Gives tokens file p (some (.block body)) q →
      ∃ opening ts closing, tokens.extract p q = opening :: (ts ++ [closing]) ∧
        opening.isMark '\x7b' = true ∧ closing.isMark '\x7d' = true ∧ HasStatements ts body :=
  ⟨fun _ _ => htokens.expression_gives_none_iff, fun _ => htokens.hasStatements_of_ofTokens,
    fun _ _ _ => htokens.exists_hasStatements_of_block⟩

/-- A closure without statements and empty braces in parentheses, before a block of which one
statement is left. -/
theorem expression_absent_iff_emptyForm_closure :
    let statements : List Token := [.detached .punctuation "\x7b", .detached .punctuation "\x7d",
      .detached .punctuation ";", .detached .identifier "x"]
    let tokens : List Token := ([.detached .keyword "cls", .detached .punctuation "(",
      .detached .identifier "a", .detached .punctuation ",", .detached .punctuation ")",
      .detached .punctuation "\x7b", .detached .punctuation "\x7d", .detached .punctuation ";",
      .detached .punctuation "(", .detached .punctuation "\x7b", .detached .punctuation "\x7d",
      .detached .punctuation ")", .detached .punctuation ";",
      .detached .punctuation "\x7b"] : List Token) ++ statements ++
      ([.detached .punctuation "\x7d", .detached .eof "EOF"] : List Token)
    Terminated tokens ∧ Parser.expression.Gives tokens "s" 0 none 7 ∧
      Parser.expression.Gives tokens "s" 8 none 12 ∧
      HasStatements tokens.dropLast [.block [.symbol "x"]] ∧
      HasStatements statements [.symbol "x"] := by
  intro statements tokens
  have htokens : Terminated tokens :=
    ⟨_, _, (List.dropLast_append_getLast (by simp [tokens])).symm, by decide, by decide⟩
  obtain ⟨hgives, hprogram, hblock⟩ := expression_absent_iff_emptyForm htokens "s"
  have hnames : NameTokens [.detached .identifier "a", .detached .punctuation ","] :=
    .cons rfl (by decide) .nil
  have hclosure : EmptyForm (tokens.extract 0 7) :=
    .closure (by decide) (by decide) hnames (by decide) (by decide) (by decide)
  have hbraces : EmptyForm [.detached .punctuation "\x7b", .detached .punctuation "\x7d"] :=
    .braces (by decide) (by decide)
  have hgrouping : EmptyForm (tokens.extract 8 12) := .grouping (by decide) hbraces (by decide)
  refine ⟨htokens, (hgives 0 7).2 ⟨hclosure, _, rfl, by decide, by decide⟩,
    (hgives 8 12).2 ⟨hgrouping, _, rfl, by decide, by decide⟩, hprogram _ (by decide +kernel), ?_⟩
  obtain ⟨opening, ts, closing, hts, -, -, hbody⟩ :=
    hblock 13 19 [.symbol "x"] ⟨by decide +kernel, by decide +kernel⟩
  have hslice : tokens.extract 13 19 = .detached .punctuation "\x7b" ::
      (statements ++ [.detached .punctuation "\x7d"]) := rfl
  obtain ⟨-, hinner⟩ := List.cons.inj (hslice.symm.trans hts)
  obtain ⟨rfl, -⟩ := List.append_inj' hinner rfl
  exact hbody

end ExprLang
