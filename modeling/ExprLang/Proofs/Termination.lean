import ExprLang.Proofs.Lookahead

/-!
# Termination

The parsers for expressions are bounded by the tokens ahead, in how deep they nest and in how
often a loop turns. Neither bound is ever met: if the recursion of the grammar is unfolded
often enough, and its loops are, it does not matter what would be done further down or further
on. What carries this is that an expression inside another one is read from fewer tokens, and
that each turn of a loop takes one.
-/
namespace ExprLang.Parser

open Cursor

variable {α : Type}

/-- The parsers that the lists of the grammar are made of, over one for expressions. -/
inductive ElementScheme : {α : Type} → (Parser (Option Expr) → Parser α) → Prop
  | parameter : ElementScheme fun _ => Rule.parameter
  | name : ElementScheme fun _ => expectName .variable
  | expression : ElementScheme id
  | value : ElementScheme required

/-- The operations of the grammar, over a parser for expressions. -/
inductive OperationScheme : {α : Type} → (Parser (Option Expr) → Parser α) → Prop
  | expression : OperationScheme id
  | value : OperationScheme required
  | atom : OperationScheme Rule.atom
  | block : OperationScheme Rule.block
  | program : OperationScheme Rule.program
  | chained (floor : ℕ) (first : Expr) : OperationScheme (Rule.chained · floor first)
  | called (callee : Expr) : OperationScheme (Rule.called · callee)
  | delimited {α : Type} {element : Parser (Option Expr) → Parser α}
    (opening close separator : Char) (h : ElementScheme element) :
    OperationScheme fun self => delimited opening close separator (element self)

/-- The items that the loops of the grammar repeat, over a parser for expressions. -/
inductive LoopScheme : {α : Type} → (Parser (Option Expr) → Parser (Option α)) → Prop
  | links (floor : ℕ) : LoopScheme (Rule.link · floor)
  | elements {α : Type} {element : Parser (Option Expr) → Parser α} (close separator : Char)
    (h : ElementScheme element) : LoopScheme fun self => nextElement close separator (element self)
  | statements : LoopScheme Rule.statement

/-- One turn of a loop, and the rest of the loop if there is an item. -/
def turn (item : Parser (Option α)) (rest : Parser (List α)) : Parser (List α) := do
  match ← item with
  | none => return []
  | some a => return a :: (← rest)

/-- An operation returns from a cursor: its outcome is settled by unfolding the grammar, whatever
is done for expressions that nest deeper than that. -/
def Returns (F : Parser (Option Expr) → Parser α) (c : Cursor) : Prop :=
  ∃ n, ∀ deeper, F (Rule.expression^[n] deeper) c = F expression c

/-- A loop ends from a cursor: its outcome is settled by a number of turns, whatever is done
behind these and for expressions that nest deeper than that. -/
def Ends (L : Parser (Option Expr) → Parser (Option α)) (c : Cursor) : Prop :=
  ∃ n, ∀ deeper rest, (turn (L (Rule.expression^[n] deeper)))^[n] rest c =
    repeated (L expression) c

section Unfolding

variable {n : ℕ}

/-- With fewer tokens ahead than the grammar is unfolded, the bottom is not reached. -/
theorem follows_iterate (deeper : Parser (Option Expr)) (n : ℕ) :
    Follows Eq n Eq (Rule.expression^[n] deeper) expression := by
  induction n with
  | zero => exact fun c hc => absurd hc (Nat.not_lt_zero _)
  | succ n ih =>
    rw [Function.iterate_succ_apply', expression_eq]
    exact Rule.follows_expression .eq ih fun _ => follows_expression .eq

/-- With fewer tokens ahead than a loop is unfolded, it does not go on behind its last turn. -/
theorem iterate_turn_eq {p q : Parser (Option α)} {N : ℕ} (hpq : Follows Eq N Eq p q)
    (ht : ∀ m, TakesBelow m q) (hs : StopsAtEnd q) {c : Cursor} (hn : c.size < n)
    (hN : c.size < N) (rest : Parser (List α)) : (turn p)^[n] rest c = repeated q c := by
  -- An item takes a token, so that the turns that are left still outnumber the tokens ahead.
  induction n generalizing c with
  | zero => exact absurd hn (Nat.not_lt_zero _)
  | succ n ih =>
    have hitem : p c = q c := hpq.apply_eq hN
    rw [Function.iterate_succ_apply', turn, bind_apply, hitem,
      repeated_apply (ht _) hs c.size.lt_succ_self, bind_apply]
    cases hr : q c with
    | error fault c' => rfl
    | ok o c' =>
      cases o with
      | none => rfl
      | some a =>
        have hlt : c'.size < c.size := ht _ c.size.lt_succ_self hr
        have hrest : (turn p)^[n] rest c' = repeated q c' := ih (by omega) (by omega)
        simp only [map_eq_pure_bind, bind_apply, hrest]

end Unfolding

section Schemes

variable {n : ℕ} {self : Parser (Option Expr)}

theorem ElementScheme.element {E : Parser (Option Expr) → Parser α} (h : ElementScheme E) :
    Element (E Parser.expression) := by
  cases h with
  | parameter => exact .parameter
  | name => exact .name
  | expression => exact .expression
  | value => exact .value

theorem OperationScheme.operation {F : Parser (Option Expr) → Parser α}
    (h : OperationScheme F) : Operation (F Parser.expression) := by
  cases h with
  | expression => exact .expression
  | value => exact .value
  | atom => exact .atom
  | block => exact .block
  | program => exact .program
  | chained floor first => exact .chained floor first
  | called callee => exact .called callee
  | delimited opening close separator h => exact .delimited opening close separator h.element

variable (hself : Follows Eq n Eq self Parser.expression)

include hself

theorem ElementScheme.follows {E : Parser (Option Expr) → Parser α} (h : ElementScheme E) :
    Follows Eq n Eq (E self) (E Parser.expression) := by
  cases h with
  | parameter => exact Rule.follows_parameter .eq
  | name => exact follows_expectName .eq _
  | expression => exact hself
  | value => exact follows_required .eq hself

theorem LoopScheme.follows {L : Parser (Option Expr) → Parser (Option α)} (h : LoopScheme L) :
    Follows Eq n Eq (L self) (L expression) := by
  cases h with
  | links floor =>
    exact (Rule.follows_link .eq hself (fun _ => follows_expression .eq) floor).mono n.le_succ
  | elements close separator h => exact follows_nextElement close separator .eq (h.follows hself)
  | statements => exact Rule.follows_statement .eq hself

omit hself in
theorem LoopScheme.takesBelow {L : Parser (Option Expr) → Parser (Option α)}
    (h : LoopScheme L) (m : ℕ) : TakesBelow m (L expression) := by
  cases h with
  | links floor => exact takesBelow_link floor m
  | elements close separator h =>
    exact takesBelow_nextElement close separator (h.element.follows .eq)
  | statements => exact Rule.takesBelow_statement takes_expression

omit hself in
theorem LoopScheme.stopsAtEnd {L : Parser (Option Expr) → Parser (Option α)}
    (h : LoopScheme L) : StopsAtEnd (L expression) := by
  cases h with
  | links floor => exact Rule.stopsAtEnd_link floor
  | elements close separator => exact stopsAtEnd_nextElement close separator
  | statements => exact Rule.stopsAtEnd_statement

/-- A program over another parser for expressions takes its statements like that one does. -/
theorem follows_program_of_follows :
    Follows Eq n Eq (Rule.program self) (Rule.program expression) := by
  have hitem := LoopScheme.statements.follows hself
  have htakes : TakesBelow n (Rule.statement self) := by
    intro c o c' hc h
    rw [hitem.apply_eq hc] at h
    exact LoopScheme.statements.takesBelow _ c.size.lt_succ_self h
  refine (follows_repeated .eq hitem htakes LoopScheme.statements.takesBelow
    Rule.stopsAtEnd_statement Rule.stopsAtEnd_statement).bind .eq ?_
  rintro os _ rfl
  exact follows_pure rfl

theorem OperationScheme.follows {F : Parser (Option Expr) → Parser α}
    (h : OperationScheme F) : Follows Eq n Eq (F self) (F Parser.expression) := by
  have hs : ∀ m, Follows Eq m Eq Parser.expression Parser.expression := fun _ =>
    follows_expression .eq
  cases h with
  | expression => exact hself
  | value => exact follows_required .eq hself
  | atom => exact (Rule.follows_atom .eq hself hs).mono n.le_succ
  | block => exact (Rule.follows_block .eq hself hs).mono n.le_succ
  | program => exact follows_program_of_follows hself
  | chained floor first => exact (Rule.follows_chained .eq hself hs floor first).mono n.le_succ
  | called callee => exact (Rule.follows_called .eq hself hs callee).mono n.le_succ
  | delimited opening close separator h =>
    exact (follows_delimited close separator .eq opening (h.follows hself)
      fun _ => h.element.follows .eq).mono n.le_succ

end Schemes

theorem OperationScheme.returns {F : Parser (Option Expr) → Parser α} (h : OperationScheme F)
    (c : Cursor) : Returns F c :=
  ⟨c.size + 1, fun deeper =>
    (h.follows (follows_iterate deeper (c.size + 1))).apply_eq c.size.lt_succ_self⟩

theorem LoopScheme.ends {L : Parser (Option Expr) → Parser (Option α)} (h : LoopScheme L)
    (c : Cursor) : Ends L c :=
  ⟨c.size + 1, fun deeper => iterate_turn_eq (h.follows (follows_iterate deeper (c.size + 1)))
    h.takesBelow h.stopsAtEnd c.size.lt_succ_self c.size.lt_succ_self⟩

end ExprLang.Parser
