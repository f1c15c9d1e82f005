import ExprLang.Grammar.Program
import ExprLang.Proofs.Recursion
import Mathlib.Data.List.ReduceOption

/-!
# Readings

The grammar as a relation: a phrase, with what it stands for, is read from one cursor
to another. Its rules are those of the parser without its bounds and without its
failures, and a phrase is read exactly where the parser succeeds with it. Facts about
all that the parser accepts are proved by induction on readings.
-/
namespace ExprLang

open ExprLang.Parser

/-- The phrases of the grammar, each with what it stands for. -/
inductive Phrase where
  | unit (o : Option Expr)
  | block (o : Option Expr)
  | called (callee e : Expr)
  | atom (o : Option Expr)
  | links (floor : ℕ) (ls : List Link)
  | expression (o : Option Expr)
  /-- The elements of a list, all of them or those behind the first. -/
  | elements (close separator : Char) (os : List (Option Expr))
  | items (close separator : Char) (os : List (Option Expr))
  | statements (os : List (Option Expr))

@[simp] theorem reduceOption_map_some {α : Type} (as : List α) :
    (as.map some).reduceOption = as := by simp [List.reduceOption]

/-- What the statements between braces stand for. -/
def blockOf (os : List (Option Expr)) : Option Expr :=
  if os.isEmpty then none else some (.block os.reduceOption)

/-- The parameters of a definition, which may be left out. -/
inductive ReadsParameters : List Parameter → Cursor → Cursor → Prop
  | given {params : List Parameter} {c c' : Cursor} (hm : c.current.isMark '(' = true)
    (h : Rule.parameters c = .ok params c') : ReadsParameters params c c'
  | omitted {c : Cursor} (hm : c.current.isMark '(' = false) : ReadsParameters [] c c

/-- A phrase is read from one cursor to another. -/
inductive Reads : Phrase → Cursor → Cursor → Prop
  | external {c c' : Cursor} {params : List Parameter}
    (hk : c.current.isWord .keyword "ext" = true) (hn : c.next.current.kind = .identifier)
    (hps : Rule.parameters c.next.next = .ok params c') :
    Reads (.unit (some (.external c.next.current.value params))) c c'
  | function {c c₁ c' : Cursor} {params : List Parameter} {body : Expr}
    (hk : c.current.isWord .keyword "def" = true)
    (hps : ReadsParameters params c.next.next c₁) (hb : Reads (.expression (some body)) c₁ c') :
    Reads (.unit (some (.function c.next.current.value params body))) c c'
  | bodiless {c c₁ c' : Cursor} {params : List Parameter}
    (hk : c.current.isWord .keyword "def" = true)
    (hps : ReadsParameters params c.next.next c₁) (hb : Reads (.expression none) c₁ c') :
    Reads (.unit (some (.external c.next.current.value params))) c c'
  | ifThen {c c₁ c' : Cursor} {condition thenBranch : Expr}
    (hk : c.current.isWord .keyword "if" = true)
    (hc : Reads (.expression (some condition)) c.next c₁)
    (ht : Reads (.expression (some thenBranch)) c₁ c')
    (helse : c'.current.isWord .keyword "else" = false) :
    Reads (.unit (some (.ifThen condition thenBranch))) c c'
  | ifThenElse {c c₁ c₂ c' : Cursor} {condition thenBranch elseBranch : Expr}
    (hk : c.current.isWord .keyword "if" = true)
    (hc : Reads (.expression (some condition)) c.next c₁)
    (ht : Reads (.expression (some thenBranch)) c₁ c₂)
    (helse : c₂.current.isWord .keyword "else" = true)
    (he : Reads (.expression (some elseBranch)) c₂.next c') :
    Reads (.unit (some (.ifThenElse condition thenBranch elseBranch))) c c'
  | ifThenAbsent {c c₁ c₂ c' : Cursor} {condition thenBranch : Expr}
    (hk : c.current.isWord .keyword "if" = true)
    (hc : Reads (.expression (some condition)) c.next c₁)
    (ht : Reads (.expression (some thenBranch)) c₁ c₂)
    (helse : c₂.current.isWord .keyword "else" = true)
    (he : Reads (.expression none) c₂.next c') :
    Reads (.unit (some (.ifThen condition thenBranch))) c c'
  | closure {c c₁ c' : Cursor} {params : List String} {b : Option Expr}
    (hk : c.current.isWord .keyword "cls" = true)
    (hps : delimited '(' ')' ',' (expectName .variable) c.next = .ok params c₁)
    (hb : Reads (.block b) c₁ c') : Reads (.unit (b.map (.closure params))) c c'
  | boolean {c : Cursor} (hk : c.current.isWord .keyword "true" = true ∨
      c.current.isWord .keyword "false" = true) :
    Reads (.unit (some (.boolean (c.current.value == "true")))) c c.next
  | grouping {c c₁ : Cursor} {o : Option Expr} (hopen : c.current.isMark '(' = true)
    (h : Reads (.expression o) c.next c₁) (hclose : c₁.current.isMark ')' = true) :
    Reads (.unit o) c c₁.next
  | braces {c c' : Cursor} {o : Option Expr} (h : Reads (.block o) c c') : Reads (.unit o) c c'
  | terminal {c : Cursor} {e : Expr} (h : Rule.terminalValue c.current = .ok e) :
    Reads (.unit (some e)) c c.next
  | block {c c₁ : Cursor} {os : List (Option Expr)} (hopen : c.current.isMark '{' = true)
    (h : Reads (.elements '}' ';' os) c.next c₁) (hclose : c₁.current.isMark '}' = true) :
    Reads (.block (blockOf os)) c c₁.next
  | uncalled {c : Cursor} {e : Expr} (hm : c.current.isMark '(' = false) :
    Reads (.called e e) c c
  | call {c c₁ : Cursor} {callee : Expr} {as : List Expr}
    (hopen : c.current.isMark '(' = true)
    (h : Reads (.elements ')' ',' (as.map some)) c.next c₁)
    (hclose : c₁.current.isMark ')' = true) : Reads (.called callee (.call callee as)) c c₁.next
  | atom {c c₁ c' : Cursor} {e e' : Expr} (hu : Reads (.unit (some e)) c c₁)
    (hc : Reads (.called e e') c₁ c') : Reads (.atom (some e')) c c'
  | absentAtom {c c' : Cursor} (hu : Reads (.unit none) c c')
    (hm : c'.current.isMark '(' = false) : Reads (.atom none) c c'
  | noOperator {c : Cursor} {floor : ℕ} (hk : c.current.kind ≠ .operator) :
    Reads (.links floor []) c c
  | weakOperator {c : Cursor} {floor strength : ℕ} (hk : c.current.kind = .operator)
    (hp : precedence? c.current.value = some strength) (hs : strength ≤ floor) :
    Reads (.links floor []) c c
  | link {c c₁ c' : Cursor} {floor strength : ℕ} {e : Expr} {ls : List Link}
    (hk : c.current.kind = .operator) (hp : precedence? c.current.value = some strength)
    (hs : floor < strength) (he : Reads (.atom (some e)) c.next c₁)
    (hls : Reads (.links floor ls) c₁ c') :
    Reads (.links floor (⟨c.current.value, strength, e⟩ :: ls)) c c'
  | expression {c c₁ c₂ c' : Cursor} {first e : Expr} {ls : List Link}
    (ha : Reads (.atom (some first)) c c₁) (hls : Reads (.links 0 ls) c₁ c₂)
    (hc : Reads (.called (ofChain first ls) e) c₂ c') : Reads (.expression (some e)) c c'
  | absent {c c' : Cursor} (ha : Reads (.atom none) c c') (hk : c'.current.kind ≠ .operator)
    (hm : c'.current.isMark '(' = false) : Reads (.expression none) c c'
  | noElements {close separator : Char} {c : Cursor} (hclose : Closes close c) :
    Reads (.elements close separator []) c c
  | elements {close separator : Char} {c c₁ c' : Cursor} {o : Option Expr}
    {os : List (Option Expr)} (hclose : ¬Closes close c) (ho : Reads (.expression o) c c₁)
    (hos : Reads (.items close separator os) c₁ c') :
    Reads (.elements close separator (o :: os)) c c'
  | noItems {close separator : Char} {c : Cursor} (hclose : Closes close c) :
    Reads (.items close separator []) c c
  | trailing {close separator : Char} {c : Cursor} (hclose : ¬Closes close c)
    (hsep : c.current.isMark separator = true) (hend : c.next.current.isMark close = true) :
    Reads (.items close separator []) c c.next
  | items {close separator : Char} {c c₁ c' : Cursor} {o : Option Expr}
    {os : List (Option Expr)} (hclose : ¬Closes close c)
    (hsep : c.current.isMark separator = true) (hend : c.next.current.isMark close = false)
    (ho : Reads (.expression o) c.next c₁) (hos : Reads (.items close separator os) c₁ c') :
    Reads (.items close separator (o :: os)) c c'
  | noStatements {c : Cursor} (hend : c.atEnd = true) : Reads (.statements []) c c
  | lastStatement {c c' : Cursor} {o : Option Expr} (hend : c.atEnd = false)
    (ho : Reads (.expression o) c c') (hend' : c'.atEnd = true) : Reads (.statements [o]) c c'
  | statements {c c₁ c' : Cursor} {o : Option Expr} {os : List (Option Expr)}
    (hend : c.atEnd = false) (ho : Reads (.expression o) c c₁)
    (hsep : c₁.current.isMark ';' = true) (hos : Reads (.statements os) c₁.next c') :
    Reads (.statements (o :: os)) c c'

namespace Phrase

/-- The parser of a phrase succeeds with what the phrase stands for. -/
def Run : Phrase → Cursor → Cursor → Prop
  | unit o, c, c' => Rule.unit Parser.expression c = .ok o c'
  | block o, c, c' => Rule.block Parser.expression c = .ok o c'
  | called callee e, c, c' => Rule.called Parser.expression callee c = .ok e c'
  | atom o, c, c' => Rule.atom Parser.expression c = .ok o c'
  | links floor ls, c, c' => repeated (Rule.link Parser.expression floor) c = .ok ls c'
  | expression o, c, c' => Parser.expression c = .ok o c'
  | elements close separator os, c, c' =>
    Parser.elements close separator Parser.expression c = .ok os c'
  | items close separator os, c, c' =>
    repeated (nextElement close separator Parser.expression) c = .ok os c'
  | statements os, c, c' => repeated (Rule.statement Parser.expression) c = .ok os c'

variable {c c' : Cursor}

theorem repeated_link_eq_ok {floor : ℕ} {ls : List Link} :
    repeated (Rule.link Parser.expression floor) c = .ok ls c' ↔
      Rule.link Parser.expression floor c = .ok none c' ∧ ls = [] ∨
        ∃ l c₁ ls', Rule.link Parser.expression floor c = .ok (some l) c₁ ∧
          repeated (Rule.link Parser.expression floor) c₁ = .ok ls' c' ∧ ls = l :: ls' :=
  repeated_eq_ok (takesBelow_link floor) (Rule.stopsAtEnd_link floor)

theorem repeated_nextElement_eq_ok {close separator : Char} {os : List (Option Expr)} :
    repeated (nextElement close separator Parser.expression) c = .ok os c' ↔
      nextElement close separator Parser.expression c = .ok none c' ∧ os = [] ∨
        ∃ o c₁ os', nextElement close separator Parser.expression c = .ok (some o) c₁ ∧
          repeated (nextElement close separator Parser.expression) c₁ = .ok os' c' ∧
          os = o :: os' :=
  repeated_eq_ok (fun _ => takesBelow_nextElement _ _ (follows_expression .eq))
    (stopsAtEnd_nextElement _ _)

theorem repeated_statement_eq_ok {os : List (Option Expr)} :
    repeated (Rule.statement Parser.expression) c = .ok os c' ↔
      Rule.statement Parser.expression c = .ok none c' ∧ os = [] ∨
        ∃ o c₁ os', Rule.statement Parser.expression c = .ok (some o) c₁ ∧
          repeated (Rule.statement Parser.expression) c₁ = .ok os' c' ∧ os = o :: os' :=
  repeated_eq_ok (fun _ => Rule.takesBelow_statement takes_expression) Rule.stopsAtEnd_statement

theorem arguments_eq_ok {as : List Expr} :
    Rule.arguments Parser.expression c = .ok as c' ↔
      c.current.isMark '(' = true ∧ ∃ c₁,
        (elements ')' ',' (as.map some)).Run c.next c₁ ∧
        c₁.current.isMark ')' = true ∧ c₁.next = c' := by
  rw [Rule.arguments, delimited_eq_ok]
  simp only [elements_required _ _ (fun _ => follows_expression .eq) .eq]
  rfl

end Phrase

/-- A phrase that is read is what its parser succeeds with. -/
theorem Reads.run {φ : Phrase} {c c' : Cursor} (h : Reads φ c c') : φ.Run c c' := by
  induction h with
  | external hk hn hps =>
    exact Rule.unit_eq_ok.2 (.inl ⟨_, Rule.external_eq_ok.2 ⟨hk, hn, _, hps, rfl⟩, rfl⟩)
  | function hk hps _ hb =>
    refine Rule.unit_eq_ok.2 (.inr (.inl ⟨_, Rule.definition_eq_ok.2 ?_, rfl⟩))
    refine ⟨hk, _, _, ?_, _, hb, rfl⟩
    cases hps with
    | given hm h => exact .inl ⟨hm, h⟩
    | omitted hm => exact .inr ⟨hm, rfl, rfl⟩
  | bodiless hk hps _ hb =>
    refine Rule.unit_eq_ok.2 (.inr (.inl ⟨_, Rule.definition_eq_ok.2 ?_, rfl⟩))
    refine ⟨hk, _, _, ?_, _, hb, rfl⟩
    cases hps with
    | given hm h => exact .inl ⟨hm, h⟩
    | omitted hm => exact .inr ⟨hm, rfl, rfl⟩
  | ifThen hk _ _ helse hc ht =>
    refine Rule.unit_eq_ok.2 (.inr (.inr (.inl ⟨_, Rule.conditional_eq_ok.2 ?_, rfl⟩)))
    exact ⟨hk, _, _, hc, _, _, ht, .inr ⟨helse, rfl, rfl⟩⟩
  | ifThenElse hk _ _ helse _ hc ht he =>
    refine Rule.unit_eq_ok.2 (.inr (.inr (.inl ⟨_, Rule.conditional_eq_ok.2 ?_, rfl⟩)))
    exact ⟨hk, _, _, hc, _, _, ht, .inl ⟨helse, _, he, rfl⟩⟩
  | ifThenAbsent hk _ _ helse _ hc ht he =>
    refine Rule.unit_eq_ok.2 (.inr (.inr (.inl ⟨_, Rule.conditional_eq_ok.2 ?_, rfl⟩)))
    exact ⟨hk, _, _, hc, _, _, ht, .inl ⟨helse, _, he, rfl⟩⟩
  | closure hk hps _ hb =>
    refine Rule.unit_eq_ok.2 (.inr (.inr (.inr (.inl (Rule.closure_eq_ok.2 ?_)))))
    exact ⟨hk, _, _, hps, _, hb, rfl⟩
  | boolean hk =>
    exact Rule.unit_eq_ok.2 (.inr (.inr (.inr (.inr (.inl ⟨hk, rfl, rfl⟩)))))
  | grouping hopen _ hclose h =>
    refine Rule.unit_eq_ok.2 (.inr (.inr (.inr (.inr (.inr (.inl (Rule.grouping_eq_ok.2 ?_)))))))
    exact ⟨hopen, _, h, hclose, rfl⟩
  | braces _ h =>
    exact Rule.unit_eq_ok.2 (.inr (.inr (.inr (.inr (.inr (.inr (.inl h)))))))
  | terminal h =>
    refine Rule.unit_eq_ok.2 (.inr (.inr (.inr (.inr (.inr (.inr (.inr ⟨_, ?_, rfl⟩)))))))
    exact Rule.terminal_eq_ok.2 ⟨h, rfl⟩
  | block hopen _ hclose h =>
    exact Rule.block_eq_ok.2 ⟨_, delimited_eq_ok.2 ⟨hopen, _, h, hclose, rfl⟩, rfl⟩
  | uncalled hm => exact Rule.called_eq_ok.2 (.inr ⟨hm, rfl, rfl⟩)
  | call hopen _ hclose h =>
    refine Rule.called_eq_ok.2 (.inl ⟨hopen, _, Phrase.arguments_eq_ok.2 ?_, rfl⟩)
    exact ⟨hopen, _, h, hclose, rfl⟩
  | atom _ _ hu hc => exact Rule.atom_eq_ok.2 (.inl ⟨_, _, hu, _, hc, rfl⟩)
  | absentAtom _ hm hu => exact Rule.atom_eq_ok.2 (.inr ⟨hu, hm, rfl⟩)
  | noOperator hk =>
    exact Phrase.repeated_link_eq_ok.2 (.inl ⟨Rule.link_eq_ok.2 (.inl ⟨hk, rfl, rfl⟩), rfl⟩)
  | weakOperator hk hp hs =>
    refine Phrase.repeated_link_eq_ok.2 (.inl ⟨Rule.link_eq_ok.2 (.inr ?_), rfl⟩)
    exact ⟨hk, _, hp, .inl ⟨hs, rfl, rfl⟩⟩
  | link hk hp hs _ _ he hls =>
    refine Phrase.repeated_link_eq_ok.2 (.inr ⟨_, _, _, Rule.link_eq_ok.2 (.inr ?_), hls, rfl⟩)
    exact ⟨hk, _, hp, .inr ⟨hs, _, he, rfl⟩⟩
  | expression _ _ _ ha hls hc =>
    rw [Phrase.Run, expression_eq]
    refine Rule.expression_eq_ok.2 (.inl ⟨_, _, ha, _, _, Rule.chained_eq_ok.2 ?_, _, hc, rfl⟩)
    exact ⟨_, hls, rfl⟩
  | absent _ hk hm ha =>
    rw [Phrase.Run, expression_eq]
    exact Rule.expression_eq_ok.2 (.inr ⟨ha, hk, hm, rfl⟩)
  | noElements hclose => exact (elements_eq_ok ..).2 (.inl ⟨hclose, rfl, rfl⟩)
  | elements hclose _ _ ho hos =>
    exact (elements_eq_ok ..).2 (.inr ⟨hclose, _, _, _, ho, hos, rfl⟩)
  | noItems hclose =>
    refine Phrase.repeated_nextElement_eq_ok.2 (.inl ⟨nextElement_eq_ok.2 ?_, rfl⟩)
    exact .inl ⟨hclose, rfl, rfl⟩
  | trailing hclose hsep hend =>
    refine Phrase.repeated_nextElement_eq_ok.2 (.inl ⟨nextElement_eq_ok.2 ?_, rfl⟩)
    exact .inr ⟨hclose, hsep, .inl ⟨hend, rfl, rfl⟩⟩
  | items hclose hsep hend _ _ ho hos =>
    refine Phrase.repeated_nextElement_eq_ok.2
      (.inr ⟨_, _, _, nextElement_eq_ok.2 ?_, hos, rfl⟩)
    exact .inr ⟨hclose, hsep, .inr ⟨hend, _, ho, rfl⟩⟩
  | noStatements hend =>
    refine Phrase.repeated_statement_eq_ok.2 (.inl ⟨Rule.statement_eq_ok.2 ?_, rfl⟩)
    exact .inl ⟨hend, rfl, rfl⟩
  | lastStatement hend _ hend' ho =>
    have hnone := Phrase.repeated_statement_eq_ok.2
      (.inl ⟨Rule.statement_eq_ok.2 (.inl ⟨hend', rfl, rfl⟩), rfl⟩)
    refine Phrase.repeated_statement_eq_ok.2
      (.inr ⟨_, _, _, Rule.statement_eq_ok.2 (.inr ?_), hnone, rfl⟩)
    exact ⟨hend, _, _, ho, rfl, .inl ⟨hend', rfl⟩⟩
  | statements hend _ hsep _ ho hos =>
    refine Phrase.repeated_statement_eq_ok.2
      (.inr ⟨_, _, _, Rule.statement_eq_ok.2 (.inr ?_), hos, rfl⟩)
    refine ⟨hend, _, _, ho, rfl, .inr ⟨?_, hsep, rfl⟩⟩
    simp [Cursor.atEnd, Token.isEof, (Token.isMark_iff.1 hsep).1]

namespace Parser

/-- The expressions of fewer than `n` tokens are read. -/
def ReadBelow (n : ℕ) : Prop :=
  ∀ ⦃c o c'⦄, c.size < n → expression c = .ok o c' → Reads (.expression o) c c'

variable {n : ℕ} (ih : ReadBelow n) {c c' : Cursor} {o : Option Expr}

include ih

theorem ReadBelow.items {close separator : Char} {os : List (Option Expr)} (hc : c.size < n + 1)
    (h : repeated (nextElement close separator expression) c = .ok os c') :
    Reads (.items close separator os) c c' := by
  induction os generalizing c with
  | nil =>
    obtain ⟨h, -⟩ | ⟨_, _, _, -, -, hos⟩ := Phrase.repeated_nextElement_eq_ok.1 h
    · rcases nextElement_eq_ok.1 h with ⟨hcl, -, rfl⟩ | ⟨hcl, hsep, ⟨hend, -, rfl⟩ | ⟨-, _, -, ho⟩⟩
      · exact .noItems hcl
      · exact .trailing hcl hsep hend
      · simp at ho
    · simp at hos
  | cons o os ihos =>
    obtain ⟨-, hos⟩ | ⟨o, c₁, os, h, hrest, heq⟩ := Phrase.repeated_nextElement_eq_ok.1 h
    · simp at hos
    · obtain ⟨rfl, rfl⟩ := List.cons.inj heq
      rcases nextElement_eq_ok.1 h with ⟨-, ho, -⟩ | ⟨hcl, hsep, ⟨-, ho, -⟩ | ⟨hend, _, he, ho⟩⟩
      · simp at ho
      · simp at ho
      · obtain rfl := Option.some.inj ho
        have hlt := Cursor.size_next_lt_of_isMark hsep
        have hlt' := takes_expression he
        exact .items hcl hsep hend (ih (by omega) he) (ihos (by omega) hrest)

theorem ReadBelow.elements {close separator : Char} {os : List (Option Expr)} (hc : c.size < n)
    (h : Parser.elements close separator expression c = .ok os c') :
    Reads (.elements close separator os) c c' := by
  rcases (elements_eq_ok ..).1 h with ⟨hcl, rfl, rfl⟩ | ⟨hcl, o, c₁, os, ho, hos, rfl⟩
  · exact .noElements hcl
  · have hlt := takes_expression ho
    exact .elements hcl (ih hc ho) (ih.items (by omega) hos)

theorem ReadBelow.block (hc : c.size < n + 1) (h : Rule.block expression c = .ok o c') :
    Reads (.block o) c c' := by
  obtain ⟨os, hos, rfl⟩ := Rule.block_eq_ok.1 h
  obtain ⟨hopen, c₁, hel, hclose, rfl⟩ := delimited_eq_ok.1 hos
  have hlt := Cursor.size_next_lt_of_isMark hopen
  exact .block hopen (ih.elements (by omega) hel) hclose

theorem ReadBelow.called {callee e : Expr} (hc : c.size < n + 1)
    (h : Rule.called expression callee c = .ok e c') : Reads (.called callee e) c c' := by
  rcases Rule.called_eq_ok.1 h with ⟨-, as, has, rfl⟩ | ⟨hm, rfl, rfl⟩
  · obtain ⟨hopen, c₁, hel, hclose, rfl⟩ := Phrase.arguments_eq_ok.1 has
    have hlt := Cursor.size_next_lt_of_isMark hopen
    exact .call hopen (ih.elements (by omega) hel) hclose
  · exact .uncalled hm

theorem ReadBelow.unit (hc : c.size < n + 1) (h : Rule.unit expression c = .ok o c') :
    Reads (.unit o) c c' := by
  have hnext : ∀ d : Cursor, d.next.size ≤ d.size := fun d => by simp
  have hdefinition : ∀ {params : List Parameter} {d d' : Cursor},
      (d.current.isMark '(' = true ∧ Rule.parameters d = .ok params d' ∨
        d.current.isMark '(' = false ∧ params = [] ∧ d = d') →
      ReadsParameters params d d' ∧ d'.size ≤ d.size := by
    rintro params d d' (⟨hm, h⟩ | ⟨hm, rfl, rfl⟩)
    · exact ⟨.given hm h, (Rule.follows_parameters .eq).size_le d.size.lt_succ_self h⟩
    · exact ⟨.omitted hm, le_rfl⟩
  rcases Rule.unit_eq_ok.1 h with ⟨e, he, rfl⟩ | ⟨e, he, rfl⟩ | ⟨e, he, rfl⟩ | h | ⟨hk, rfl, rfl⟩ |
    h | h | ⟨e, he, rfl⟩
  · obtain ⟨hk, hn, params, hps, rfl⟩ := Rule.external_eq_ok.1 he
    exact .external hk hn hps
  · obtain ⟨hk, params, c₁, hps, o, ho, rfl⟩ := Rule.definition_eq_ok.1 he
    obtain ⟨hps, hle⟩ := hdefinition hps
    have hlt := Cursor.size_next_lt_of_isWord hk
    have hle' := hnext c.next
    have hbody := ih (by omega) ho
    cases o with
    | none => exact .bodiless hk hps hbody
    | some body => exact .function hk hps hbody
  · obtain ⟨hk, condition, c₁, h₁, thenBranch, c₂, h₂, h⟩ := Rule.conditional_eq_ok.1 he
    have hlt := Cursor.size_next_lt_of_isWord hk
    have hlt₁ := takes_expression h₁
    have hlt₂ := takes_expression h₂
    have hc := ih (by omega) h₁
    have ht := ih (by omega) h₂
    rcases h with ⟨helse, o, ho, rfl⟩ | ⟨helse, rfl, rfl⟩
    · have hle := hnext c₂
      have he := ih (by omega) ho
      cases o with
      | none => exact .ifThenAbsent hk hc ht helse he
      | some elseBranch => exact .ifThenElse hk hc ht helse he
    · exact .ifThen hk hc ht helse
  · obtain ⟨hk, params, c₁, hps, b, hb, rfl⟩ := Rule.closure_eq_ok.1 h
    have hlt := Cursor.size_next_lt_of_isWord hk
    have hle := (follows_delimited (n := n) ')' ',' .eq '(' (follows_expectName .eq .variable)
      fun _ => follows_expectName .eq .variable).size_le (by omega) hps
    exact .closure hk hps (ih.block (by omega) hb)
  · exact .boolean hk
  · obtain ⟨hopen, c₁, hin, hclose, rfl⟩ := Rule.grouping_eq_ok.1 h
    have hlt := Cursor.size_next_lt_of_isMark hopen
    exact .grouping hopen (ih (by omega) hin) hclose
  · exact .braces (ih.block hc h)
  · obtain ⟨hv, rfl⟩ := Rule.terminal_eq_ok.1 he
    exact .terminal hv

theorem ReadBelow.atom (hc : c.size < n + 1) (h : Rule.atom expression c = .ok o c') :
    Reads (.atom o) c c' := by
  rcases Rule.atom_eq_ok.1 h with ⟨e, c₁, hu, e', hcall, rfl⟩ | ⟨hu, hm, rfl⟩
  · have hlt := Rule.size_lt_of_unit .eq (follows_expression .eq) (fun _ => follows_expression .eq)
      hc hu
    exact .atom (ih.unit hc hu) (ih.called (by omega) hcall)
  · exact .absentAtom (ih.unit hc hu) hm

theorem ReadBelow.links {floor : ℕ} {ls : List Link} (hc : c.size < n + 1)
    (h : repeated (Rule.link expression floor) c = .ok ls c') : Reads (.links floor ls) c c' := by
  induction ls generalizing c with
  | nil =>
    obtain ⟨h, -⟩ | ⟨_, _, _, -, -, hls⟩ := Phrase.repeated_link_eq_ok.1 h
    · rcases Rule.link_eq_ok.1 h with ⟨hk, -, rfl⟩ | ⟨hk, _, hp, ⟨hs, -, rfl⟩ | ⟨-, _, -, hl⟩⟩
      · exact .noOperator hk
      · exact .weakOperator hk hp hs
      · simp at hl
    · simp at hls
  | cons l ls ihls =>
    obtain ⟨-, hls⟩ | ⟨l, c₁, ls, h, hrest, heq⟩ := Phrase.repeated_link_eq_ok.1 h
    · simp at hls
    · obtain ⟨rfl, rfl⟩ := List.cons.inj heq
      rcases Rule.link_eq_ok.1 h with ⟨-, hl, -⟩ | ⟨hk, _, hp, ⟨-, hl, -⟩ | ⟨hs, e, he, hl⟩⟩
      · simp at hl
      · simp at hl
      · obtain rfl := Option.some.inj hl
        have hle : c.next.size ≤ c.size := by simp
        have hlt := Rule.size_lt_of_atom .eq (follows_expression .eq)
          (fun _ => follows_expression .eq) (hle.trans_lt hc) he
        exact .link hk hp hs (ih.atom (by omega) he) (ihls (by omega) hrest)

theorem ReadBelow.succ : ReadBelow (n + 1) := by
  intro c o c' hc h
  rw [expression_eq] at h
  rcases Rule.expression_eq_ok.1 h with ⟨first, c₁, ha, e, c₂, hchain, e', hcall, rfl⟩ |
    ⟨ha, hk, hm, rfl⟩
  · obtain ⟨ls, hls, rfl⟩ := Rule.chained_eq_ok.1 hchain
    have hf : ∀ m, Follows Eq m Eq expression expression := fun _ => follows_expression .eq
    have hlt := Rule.size_lt_of_atom .eq (hf n) hf hc ha
    have hle := (Rule.follows_chained .eq (hf n) hf 0 first).size_le (by omega) hchain
    exact .expression (ih.atom hc ha) (ih.links (by omega) hls) (ih.called (by omega) hcall)
  · exact .absent (ih.atom hc ha) hk hm

omit ih

theorem readBelow (n : ℕ) : ReadBelow n := by
  induction n with
  | zero => exact fun _ _ _ hc => absurd hc (Nat.not_lt_zero _)
  | succ n ih => exact ih.succ

theorem ReadBelow.statements {os : List (Option Expr)}
    (h : repeated (Rule.statement expression) c = .ok os c') : Reads (.statements os) c c' := by
  induction os generalizing c with
  | nil =>
    obtain ⟨h, -⟩ | ⟨_, _, _, -, -, hos⟩ := Phrase.repeated_statement_eq_ok.1 h
    · rcases Rule.statement_eq_ok.1 h with ⟨hend, -, rfl⟩ | ⟨-, _, _, -, ho, -⟩
      · exact .noStatements hend
      · simp at ho
    · simp at hos
  | cons o os ihos =>
    obtain ⟨-, hos⟩ | ⟨o, c₁, os, h, hrest, heq⟩ := Phrase.repeated_statement_eq_ok.1 h
    · simp at hos
    · obtain ⟨rfl, rfl⟩ := List.cons.inj heq
      rcases Rule.statement_eq_ok.1 h with ⟨-, ho, -⟩ | ⟨hend, e, c₂, he, ho, hsep⟩
      · simp at ho
      · obtain rfl := Option.some.inj ho
        have he := readBelow _ c.size.lt_succ_self he
        rcases hsep with ⟨hend', rfl⟩ | ⟨-, hsep, rfl⟩
        · cases ihos hrest with
          | noStatements => exact .lastStatement hend he hend'
          | lastStatement hend'' => simp [hend'] at hend''
          | statements hend'' => simp [hend'] at hend''
        · exact .statements hend he hsep (ihos hrest)

end Parser

open ExprLang.Parser in
/-- A phrase is read exactly where its parser succeeds with what it stands for. -/
theorem reads_iff {φ : Phrase} {c c' : Cursor} : Reads φ c c' ↔ φ.Run c c' := by
  refine ⟨Reads.run, fun h => ?_⟩
  have ih := readBelow (c.size + 1)
  have hc : c.size < c.size + 1 + 1 := by omega
  cases φ with
  | unit o => exact ih.unit hc h
  | block o => exact ih.block hc h
  | called callee e => exact ih.called hc h
  | atom o => exact ih.atom hc h
  | links floor ls => exact ih.links hc h
  | expression o => exact ih c.size.lt_succ_self h
  | elements close separator os => exact ih.elements c.size.lt_succ_self h
  | items close separator os => exact ih.items hc h
  | statements os => exact ReadBelow.statements h

/-- A phrase is read to one place only. -/
theorem Reads.eq_of_same {φ : Phrase} {c d d' : Cursor} (h : Reads φ c d) (h' : Reads φ c d') :
    d = d' := by
  have hrun := h.run
  have hrun' := h'.run
  cases φ <;> simp_all [Phrase.Run]

/-- A program is read from its statements. -/
theorem program_eq_ok_iff {p : Program} {c c' : Cursor} :
    Parser.program c = .ok p c' ↔
      ∃ os, Reads (.statements os) c c' ∧ p = ⟨os.reduceOption⟩ := by
  simp only [reads_iff]
  exact Rule.program_eq_ok

/-- What tokens are read as is read from the cursor at the first of them. -/
theorem ofTokens_eq_ok_iff {ts : List Token} {t : Token} {file : String} {p : Program}
    (ht : t.isEof = true) : Program.ofTokens (ts ++ [t]) file = .ok p ↔
      ∃ c', Parser.program ⟨ts, t.value, t.span⟩ = .ok p c' := by
  rw [Program.ofTokens, TokenStream.run, TokenStream.ofTokens, Cursor.ofTokens_append ht]
  cases Parser.program ⟨ts, t.value, t.span⟩ <;> simp

/-- An error is placed where the parser has stopped. -/
theorem ofTokens_eq_error_iff {ts : List Token} {t : Token} {file : String} {e : SyntaxError}
    (ht : t.isEof = true) : Program.ofTokens (ts ++ [t]) file = .error e ↔
      ∃ fault c', Parser.program ⟨ts, t.value, t.span⟩ = .error fault c' ∧
        e = ⟨fault.complaint, fault.token.value, c'.place file fault.token⟩ := by
  rw [Program.ofTokens, TokenStream.run, TokenStream.ofTokens, Cursor.ofTokens_append ht]
  cases Parser.program ⟨ts, t.value, t.span⟩ <;>
    simp [TokenStream.errorAt, TokenStream.moveTo, eq_comm]

end ExprLang
