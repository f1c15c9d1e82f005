import ExprLang.Proofs.Lookahead
import ExprLang.Proofs.Seams

/-!
# What complaints are about

A run that fails complains about the token where it stops. Only two complaints are about the
meaning of a token that stands for a value, which has been taken by then.
-/
namespace ExprLang

/-- Whether the token that a complaint is about has been taken. -/
def Complaint.isTaken : Complaint → Bool
  | .unexpectedToken | .invalidNumber => true
  | _ => false

namespace Parser

open Cursor

/-- A run from `c` ends behind some of the tokens ahead. If it fails, the complaint is about
the current token there or about the last one that has been taken. -/
inductive EndsAhead {α : Type} (c : Cursor) : EStateM.Result Fault Cursor α → Prop
  | ok {a : α} {k : ℕ} : EndsAhead c (.ok a (c.drop k))
  | current {complaint : Complaint} {k : ℕ} (h : complaint.isTaken = false) :
    EndsAhead c (.error ⟨complaint, (c.drop k).current⟩ (c.drop k))
  | taken {complaint : Complaint} {k : ℕ} (h : complaint.isTaken = true) :
    EndsAhead c (.error ⟨complaint, (c.drop k).current⟩ (c.drop (k + 1)))

/-- Every run goes forward, and complains about a token where it stops. -/
def Blames {α : Type} (p : Parser α) : Prop := ∀ c, EndsAhead c (p c)

variable {α β : Type} {p : Parser α}

theorem EndsAhead.of_drop {c : Cursor} {j : ℕ} {r : EStateM.Result Fault Cursor α}
    (h : EndsAhead (c.drop j) r) : EndsAhead c r := by
  cases h with
  | ok =>
    rw [drop_drop]
    exact .ok
  | current h =>
    rw [drop_drop]
    exact .current h
  | taken h =>
    rw [drop_drop, drop_drop, ← Nat.add_assoc]
    exact .taken h

namespace Blames

theorem pure (a : α) : Blames (pure a) := fun _ => .ok (k := 0)

theorem bind (hp : Blames p) {f : α → Parser β} (hf : ∀ a, Blames (f a)) :
    Blames (p >>= f) := by
  intro c
  have h := hp c
  rw [bind_apply]
  generalize p c = r at h
  cases h with
  | ok => exact (hf _ _).of_drop
  | current h => exact .current h
  | taken h => exact .taken h

theorem map (hp : Blames p) (f : α → β) : Blames (f <$> p) := by
  rw [map_eq_pure_bind]
  exact hp.bind fun a => pure (f a)

theorem current : Blames current := fun _ => .ok (k := 0)

theorem atEnd : Blames atEnd := fun _ => .ok (k := 0)

theorem advance : Blames advance := fun c => by
  rw [Parser.advance, ← drop_one]
  exact .ok

theorem fail {complaint : Complaint} (h : complaint.isTaken = false) :
    Blames (fail complaint : Parser α) := fun _ => .current (k := 0) h

theorem expect (expected : Token → Bool) {complaint : Complaint}
    (h : complaint.isTaken = false) : Blames (expect expected complaint) := by
  rw [expect_eq]
  refine current.bind fun t => ?_
  split_ifs
  · exact advance
  · exact fail h

theorem expectMark (mark : Char) : Blames (expectMark mark) :=
  (expect _ rfl).bind fun _ => pure ()

theorem expectKeyword (word : String) : Blames (expectKeyword word) :=
  (expect _ rfl).bind fun _ => pure ()

theorem expectOperator (operator : String) : Blames (expectOperator operator) :=
  (expect _ rfl).bind fun _ => pure ()

theorem expectName (kind : NameKind) : Blames (expectName kind) :=
  (expect _ rfl).bind fun t => pure t.value

theorem required {p : Parser (Option α)} (hp : Blames p) : Blames (required p) :=
  hp.bind fun o => match o with
    | some a => pure a
    | none => fail rfl

section Sequences

variable {close separator : Char}

theorem repeatedWithin {item : Parser (Option α)} (h : Blames item) (budget : List Token) :
    Blames (repeatedWithin item budget) := by
  induction budget with
  | nil => exact pure []
  | cons _ budget ih =>
    exact h.bind fun o => match o with
      | none => pure []
      | some a => ih.bind fun as => pure (a :: as)

theorem repeated {item : Parser (Option α)} (h : Blames item) : Blames (repeated item) :=
  fun c => h.repeatedWithin c.ahead c

theorem atClose (close : Char) : Blames (atClose close) := current.bind fun _ => pure _

theorem firstElement (hp : Blames p) : Blames (firstElement close p) := by
  refine (atClose close).bind fun b => ?_
  split_ifs
  · exact pure none
  · exact hp.bind fun a => pure (some a)

theorem nextElement (hp : Blames p) : Blames (nextElement close separator p) := by
  refine (atClose close).bind fun b => ?_
  split_ifs
  · exact pure none
  · refine (expectMark separator).bind fun _ => current.bind fun t => ?_
    split_ifs
    · exact pure none
    · exact hp.bind fun a => pure (some a)

theorem elements (hp : Blames p) : Blames (elements close separator p) :=
  hp.firstElement.bind fun o => match o with
    | none => pure []
    | some a => hp.nextElement.repeated.bind fun as => pure (a :: as)

theorem delimited {opening : Char} (hp : Blames p) :
    Blames (delimited opening close separator p) :=
  (expectMark opening).bind fun _ => hp.elements.bind fun as =>
    (expectMark close).bind fun _ => pure as

end Sequences

end Blames

end Parser

namespace Rule

open ExprLang.Parser

/-- The token that is no expression, or no numeral in range, has been taken. -/
theorem blames_terminal : Blames terminal := by
  have hlate : ∀ (t : Token) (complaint : Complaint), terminalValue t = .error complaint →
      complaint.isTaken = true := by
    intro t complaint h
    unfold terminalValue at h
    split at h
    · simp at h
    · split at h
      · simp at h
      · obtain rfl := Except.error.inj h
        rfl
    · simp at h
    · simp at h
    · obtain rfl := Except.error.inj h
      rfl
  intro c
  have hc : c.next = c.drop (0 + 1) := by simp
  rw [terminal, bind_apply]
  simp only [advance, hc]
  cases hv : terminalValue c.current with
  | ok e => exact .ok
  | error complaint => exact .taken (k := 0) (hlate _ _ hv)

theorem blames_parameter : Blames parameter := by
  refine (Blames.expectName .type).bind fun type => Blames.current.bind fun t => ?_
  split_ifs
  · exact Blames.advance.bind fun t => .pure _
  · exact .pure _

theorem blames_parameters : Blames parameters := blames_parameter.delimited

theorem blames_external : Blames external :=
  (Blames.expectKeyword "ext").bind fun _ => (Blames.expectName .function).bind fun _ =>
    blames_parameters.bind fun _ => .pure _

variable {self : Parser (Option Expr)} (hs : Blames self)

include hs

theorem blames_called (callee : Expr) : Blames (called self callee) := by
  refine Blames.current.bind fun t => ?_
  split_ifs
  · exact hs.required.delimited.bind fun as => .pure _
  · exact .pure _

theorem blames_block : Blames (block self) := hs.delimited.bind fun _ => .pure _

theorem blames_grouping : Blames (grouping self) :=
  (Blames.expectMark '(').bind fun _ => hs.bind fun o =>
    (Blames.expectMark ')').bind fun _ => .pure o

theorem blames_conditional : Blames (conditional self) := by
  refine (Blames.expectKeyword "if").bind fun _ => hs.required.bind fun condition =>
    hs.required.bind fun thenBranch => Blames.current.bind fun t => ?_
  split_ifs
  · refine Blames.advance.bind fun _ => hs.bind fun o => ?_
    cases o <;> exact .pure _
  · exact .pure _

theorem blames_definition : Blames (definition self) := by
  refine (Blames.expectKeyword "def").bind fun _ => Blames.advance.bind fun t =>
    Blames.current.bind fun _ => ?_
  simp only
  split_ifs
  · refine blames_parameters.bind fun params => hs.bind fun o => ?_
    cases o <;> exact .pure _
  · refine hs.bind fun o => ?_
    cases o <;> exact .pure _

theorem blames_closure : Blames (closure self) :=
  (Blames.expectKeyword "cls").bind fun _ => (Blames.expectName .variable).delimited.bind
    fun _ => (blames_block hs).bind fun _ => .pure _

theorem blames_unit : Blames (unit self) := by
  refine Blames.current.bind fun t => ?_
  split_ifs
  · exact blames_external.map some
  · exact (blames_definition hs).map some
  · exact (blames_conditional hs).map some
  · exact blames_closure hs
  · exact Blames.advance.bind fun t => .pure _
  · exact blames_grouping hs
  · exact blames_block hs
  · exact blames_terminal.map some

theorem blames_atom : Blames (atom self) := by
  refine (blames_unit hs).bind fun o => ?_
  cases o with
  | some e => exact (blames_called hs e).map some
  | none =>
    refine Blames.current.bind fun t => ?_
    split_ifs
    · exact .fail rfl
    · exact .pure none

theorem blames_link (floor : ℕ) : Blames (link self floor) := by
  refine Blames.current.bind fun t => ?_
  split_ifs
  · cases precedence? t.value with
    | none => exact .fail rfl
    | some strength =>
      simp only
      split_ifs
      · exact .pure none
      · exact (Blames.expectOperator t.value).bind fun _ =>
          (blames_atom hs).required.bind fun e => .pure _
  · exact .pure none

theorem blames_chained (floor : ℕ) (first : Expr) : Blames (chained self floor first) :=
  (blames_link hs floor).repeated.bind fun _ => .pure _

theorem blames_expression : Blames (expression self) := by
  refine (blames_atom hs).bind fun o => ?_
  cases o with
  | some first =>
    exact (blames_chained hs 0 first).bind fun e => (blames_called hs e).map some
  | none =>
    refine Blames.current.bind fun t => ?_
    split_ifs
    · exact .fail rfl
    · exact .pure none

theorem blames_statement : Blames (statement self) := by
  refine Blames.atEnd.bind fun b => ?_
  split_ifs
  · exact .pure none
  · refine hs.bind fun o => Blames.atEnd.bind fun b => ?_
    split_ifs
    · exact .pure _
    · exact (Blames.expectMark ';').bind fun _ => .pure _

end Rule

namespace Parser

theorem blames_expressionWithin (depth : ℕ) : Blames (expressionWithin depth) := by
  induction depth with
  | zero => exact Rule.blames_expression (.fail rfl)
  | succ depth ih => exact Rule.blames_expression ih

theorem blames_expression : Blames expression := fun c => blames_expressionWithin c.size c

theorem blames_program : Blames program :=
  (Rule.blames_statement blames_expression).repeated.bind fun _ => .pure _

end Parser

section Sources

variable {source file : String} {tokens : List Token}

/-- All tokens of a source come from its file. -/
theorem file_of_mem_tokenize (h : tokenize source file = .ok tokens) :
    ∀ t ∈ tokens, t.span.file = file := by
  have hplaced : ∀ (offset : ℕ) (ls : List Lexeme),
      ∀ t ∈ placed file offset ls, t.span.file = file := by
    intro offset ls
    induction ls generalizing offset with
    | nil => nofun
    | cons l ls ih =>
      refine List.forall_mem_append.2 ⟨fun t ht => ?_, ih _⟩
      obtain ⟨w, -, rfl⟩ := Option.map_eq_some_iff.1 (Option.mem_toList.1 ht)
      rfl
  obtain ⟨-, rfl⟩ := tokenize_eq_ok.1 h
  exact List.forall_mem_append.2 ⟨hplaced _ _, List.forall_mem_singleton.2 rfl⟩

/-- The current token behind some of the tokens ahead, or behind all of them. -/
theorem Cursor.getElem?_tokens (c : Cursor) (k : ℕ) :
    c.tokens[min k c.size]? = some (c.drop k).current := by
  obtain ⟨ts, last⟩ := c
  rcases lt_or_ge k ts.length with hk | hk
  · have hmin : min k (size ⟨ts, last⟩) = k := min_eq_left hk.le
    have hdrop : ts.drop k = ts[k] :: ts.drop (k + 1) := List.drop_eq_getElem_cons hk
    rw [hmin, tokens, List.getElem?_append_left hk, List.getElem?_eq_getElem hk, drop]
    dsimp only
    rw [hdrop, current_cons]
  · have hmin : min k (size ⟨ts, last⟩) = ts.length := min_eq_right hk
    rw [hmin, tokens, List.getElem?_concat_length, drop]
    dsimp only
    rw [List.drop_eq_nil_of_le hk, current_nil]

/-- The error of a run is about a token ahead, and stands at its place if it has one. -/
theorem TokenStream.exists_of_run_eq_error {α : Type} {p : Parser α} (hp : p.Blames)
    {s s' : TokenStream} {e : SyntaxError} (h : s.run p = (.error e, s')) :
    ∃ k, e.found = (s.cursor.drop k).current.value ∧
      ((s.cursor.drop k).current.position.isNull = false →
        e.position = (s.cursor.drop k).current.position) ∧
      s'.position = s.position +
        min (if e.complaint.isTaken = true then k + 1 else k) s.cursor.size := by
  have hends := hp s.cursor
  have hplace : ∀ (t : Token) (c : Cursor), t.position.isNull = false →
      c.place s.file t = t.position := fun t c ht => by simp [Cursor.place, ht]
  have hsteps : ∀ j n : ℕ, n - (n - j) = min j n := by omega
  unfold run at h
  generalize p s.cursor = r at h hends
  cases hends with
  | ok => simp at h
  | @current complaint k hk =>
    obtain ⟨he, rfl⟩ := Prod.mk.inj h
    obtain rfl := Except.error.inj he
    exact ⟨k, rfl, hplace _ _, by simp [moveTo, errorAt, hk, hsteps]⟩
  | @taken complaint k hk =>
    obtain ⟨he, rfl⟩ := Prod.mk.inj h
    obtain rfl := Except.error.inj he
    exact ⟨k, rfl, hplace _ _, by simp [moveTo, errorAt, hk, hsteps]⟩

end Sources

/-- A syntax error is about one of the tokens, with its value and its place. The parser stops
at that token, or behind it where the complaint is about a token that it has taken, unless
this is the end mark. -/
theorem exists_token_of_run_eq_error {source file streamFile : String} {tokens : List Token}
    {e : SyntaxError} {s : TokenStream} (ht : tokenize source file = .ok tokens)
    (hfile : file ≠ nullFile)
    (h : (TokenStream.ofTokens tokens streamFile).run Parser.program = (.error e, s)) :
    ∃ i t, tokens[i]? = some t ∧ e.found = t.value ∧ e.position = ⟨t.span.start, file⟩ ∧
      (e.complaint.isTaken = false → s.position = i) ∧
      (e.complaint.isTaken = true →
        s.position = if i + 1 = tokens.length then i else i + 1) := by
  obtain ⟨k, hfound, hposition, hsteps⟩ :=
    TokenStream.exists_of_run_eq_error Parser.blames_program h
  have hfiles := file_of_mem_tokenize ht
  obtain ⟨-, rfl⟩ := tokenize_eq_ok.1 ht
  let ts := placed file 0 (lexemes source.toList).1
  let last := endToken (width source.toList) file
  have hstart : TokenStream.ofTokens (ts ++ [last]) streamFile =
      ⟨⟨ts, last.value, last.span⟩, 0, streamFile⟩ := by
    rw [TokenStream.ofTokens, Cursor.ofTokens_append rfl]
  rw [hstart] at hfound hposition hsteps
  have hget := Cursor.getElem?_tokens ⟨ts, last.value, last.span⟩ k
  have hof := hfiles _ (List.mem_of_getElem? hget)
  refine ⟨_, _, hget, hfound, ?_, fun hc => ?_, fun hc => ?_⟩
  · have hnull : (Cursor.drop k ⟨ts, last.value, last.span⟩).current.position.isNull = false := by
      simp [Token.position, Span.position, Position.isNull, hof, hfile]
    rw [hposition hnull, Token.position, Span.position, hof]
  · simpa [hc] using hsteps
  · have hlen : (ts ++ [last]).length = ts.length + 1 := List.length_append
    have hsize : Cursor.size ⟨ts, last.value, last.span⟩ = ts.length := rfl
    rw [if_pos hc, Nat.zero_add, hsize] at hsteps
    rw [hsteps, hlen, hsize]
    split_ifs <;> omega

/-- The end of the input is taken for an argument, and the parser stays there. -/
theorem exists_token_of_run_eq_error_end :
    let tokens : List Token := [⟨.identifier, "f", 0, 1, "s"⟩, ⟨.punctuation, "(", 1, 2, "s"⟩,
      ⟨.character, "é", 2, 6, "s"⟩, ⟨.punctuation, ",", 6, 7, "s"⟩, endToken 8 "s"]
    let run := (TokenStream.ofTokens tokens "t").run Parser.program
    let e : SyntaxError := ⟨.unexpectedToken, "EOF", ⟨8, "s"⟩⟩
    tokenize "f('é', " "s" = .ok tokens ∧ run.1 = .error e ∧ run.2.position = 4 ∧
      ∃ i t, tokens[i]? = some t ∧ e.found = t.value ∧ e.position = ⟨t.span.start, "s"⟩ ∧
        (e.complaint.isTaken = false → run.2.position = i) ∧
        (e.complaint.isTaken = true →
          run.2.position = if i + 1 = tokens.length then i else i + 1) := by
  intro tokens run e
  have ht : tokenize "f('é', " "s" = .ok tokens := by decide +kernel
  have he : run.1 = .error e := by decide +kernel
  have hstop : run.2.position = 4 := by decide +kernel
  have hfile : "s" ≠ nullFile := by decide
  exact ⟨ht, he, hstop, exists_token_of_run_eq_error ht hfile (Prod.ext he rfl)⟩

end ExprLang
