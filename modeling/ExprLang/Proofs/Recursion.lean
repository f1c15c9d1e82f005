import ExprLang.Proofs.Repetition
import ExprLang.Proofs.RuleRuns

/-!
# The recursion of the grammar

The rules of the grammar follow each other as far as the parsers for the expressions
inside do on fewer tokens. So neither the depth that bounds their recursion nor the
place of a token matters to a run, and an expression is read by the rule for
expressions over itself.
-/
namespace ExprLang

namespace Rule

open Cursor ExprLang.Parser

variable {W : Token → Token → Prop} {n : ℕ} (hW : Likeness W)

include hW

theorem terminalValue_congr {t u : Token} (h : W t u) : terminalValue t = terminalValue u := by
  simp [terminalValue, hW.kind h, hW.value h, Token.firstChar]

theorem follows_terminal : Follows W n Eq terminal terminal := by
  refine follows_advance.bind hW fun t u htu => ?_
  rw [terminalValue_congr hW htu]
  cases terminalValue u with
  | ok e => exact follows_pure rfl
  | error complaint => exact follows_failAt htu complaint

theorem follows_parameter : Follows W n Eq parameter parameter := by
  apply (follows_expectName hW .type).bind hW
  rintro type _ rfl
  refine follows_current.bind hW fun t u htu => ?_
  rw [hW.kind htu]
  split_ifs
  · exact follows_advance.bind hW fun _ _ h => follows_pure (by rw [hW.value h])
  · exact follows_pure rfl

theorem follows_parameters : Follows W n Eq parameters parameters :=
  (follows_delimited ')' ',' hW '(' (follows_parameter hW)
    fun _ => follows_parameter hW).mono n.le_succ

theorem follows_external : Follows W n Eq external external := by
  refine (follows_expectKeyword hW "ext").bind hW fun _ _ _ => ?_
  apply (follows_expectName hW .function).bind hW
  rintro name _ rfl
  exact (follows_parameters hW).bind hW (by rintro ps _ rfl; exact follows_pure rfl)

variable {self self' : Parser (Option Expr)} (hs : Follows W n Eq self self')
  (hf : ∀ m, Follows W m Eq self' self')

include hs hf

theorem follows_arguments : Follows W (n + 1) Eq (arguments self) (arguments self') :=
  follows_delimited ')' ',' hW '(' (follows_required hW hs) fun m => follows_required hW (hf m)

theorem follows_called (callee : Expr) :
    Follows W (n + 1) Eq (called self callee) (called self' callee) := by
  refine follows_current.bind hW fun t u htu => ?_
  rw [hW.isMark htu]
  split_ifs
  · exact (follows_arguments hW hs hf).bind hW (by rintro as _ rfl; exact follows_pure rfl)
  · exact follows_pure rfl

theorem follows_block : Follows W (n + 1) Eq (block self) (block self') :=
  (follows_delimited '}' ';' hW '{' hs hf).bind hW (by rintro os _ rfl; exact follows_pure rfl)

omit hf in
theorem follows_grouping : Follows W (n + 1) Eq (grouping self) (grouping self') := by
  refine (follows_expectMark hW '(').bind_takes hW (takes_expectMark '(') fun _ _ _ => ?_
  apply hs.bind hW
  rintro o _ rfl
  exact (follows_expectMark hW ')').bind hW fun _ _ _ => follows_pure rfl

omit hf in
theorem follows_conditional : Follows W (n + 1) Eq (conditional self) (conditional self') := by
  refine (follows_expectKeyword hW "if").bind_takes hW (takes_expectKeyword "if") fun _ _ _ => ?_
  apply (follows_required hW hs).bind hW
  rintro condition _ rfl
  apply (follows_required hW hs).bind hW
  rintro thenBranch _ rfl
  refine follows_current.bind hW fun t u htu => ?_
  rw [hW.isWord htu]
  split_ifs
  · refine follows_advance.bind hW fun _ _ _ => ?_
    apply hs.bind hW
    rintro o _ rfl
    cases o <;> exact follows_pure rfl
  · exact follows_pure rfl

omit hf in
theorem follows_definition : Follows W (n + 1) Eq (definition self) (definition self') := by
  refine (follows_expectKeyword hW "def").bind_takes hW (takes_expectKeyword "def")
    fun _ _ _ => ?_
  refine follows_advance.bind hW fun t u htu => ?_
  rw [hW.value htu]
  refine follows_current.bind hW fun t' u' htu' => ?_
  rw [hW.isMark htu']
  simp only
  split_ifs
  · refine (follows_parameters hW).bind hW ?_
    rintro params _ rfl
    refine hs.bind hW ?_
    rintro o _ rfl
    cases o <;> exact follows_pure rfl
  · refine hs.bind hW ?_
    rintro o _ rfl
    cases o <;> exact follows_pure rfl

theorem follows_closure : Follows W (n + 1) Eq (closure self) (closure self') := by
  refine (follows_expectKeyword hW "cls").bind hW fun _ _ _ => ?_
  refine (follows_delimited ')' ',' hW '(' (follows_expectName hW .variable)
    fun _ => follows_expectName hW .variable).bind hW ?_
  rintro params _ rfl
  exact (follows_block hW hs hf).bind hW (by rintro o _ rfl; exact follows_pure rfl)

theorem follows_unit : Follows W (n + 1) Eq (unit self) (unit self') := by
  refine follows_current.bind hW fun t u htu => ?_
  simp only [hW.isWord htu, hW.isMark htu]
  have hsome : ∀ {p q : Parser Expr}, Follows W (n + 1) Eq p q →
      Follows W (n + 1) Eq (some <$> p) (some <$> q) := fun h =>
    h.map hW (by rintro a _ rfl; rfl)
  split_ifs
  · exact hsome (follows_external hW)
  · exact hsome (follows_definition hW hs)
  · exact hsome (follows_conditional hW hs)
  · exact follows_closure hW hs hf
  · exact follows_advance.bind hW fun _ _ h => follows_pure (by rw [hW.value h])
  · exact follows_grouping hW hs
  · exact follows_block hW hs hf
  · exact hsome (follows_terminal hW)

theorem follows_atom : Follows W (n + 1) Eq (atom self) (atom self') := by
  apply (follows_unit hW hs hf).bind hW
  rintro o _ rfl
  cases o with
  | some e => exact (follows_called hW hs hf e).map hW (by rintro a _ rfl; rfl)
  | none =>
    refine follows_current.bind hW fun t u htu => ?_
    rw [hW.isMark htu]
    split_ifs
    · exact follows_fail _
    · exact follows_pure rfl

theorem follows_link (floor : ℕ) : Follows W (n + 1) Eq (link self floor) (link self' floor) := by
  refine follows_current.bind hW fun t u htu => ?_
  rw [hW.kind htu, hW.value htu]
  split_ifs
  · cases precedence? u.value with
    | none => exact follows_fail _
    | some strength =>
      simp only
      split_ifs
      · exact follows_pure rfl
      · refine (follows_expectOperator hW u.value).bind hW fun _ _ _ => ?_
        apply (follows_required hW (follows_atom hW hs hf)).bind hW
        rintro e _ rfl
        exact follows_pure rfl
  · exact follows_pure rfl

/-- Every unit has a first token. -/
theorem size_lt_of_unit {c c' : Cursor} {o : Option Expr} (hc : c.size < n + 1)
    (h : unit self c = .ok o c') : c'.size < c.size := by
  have hnext : ∀ d : Cursor, d.next.size ≤ d.size := fun d => by simp
  have hparams : ∀ {d d' : Cursor} {params}, parameters d = .ok params d' → d'.size ≤ d.size :=
    fun {d _ _} h => (follows_parameters hW).size_le d.size.lt_succ_self h
  have hblock : ∀ {d d' : Cursor} {o}, d.size < n + 1 → block self d = .ok o d' →
      d'.size < d.size := fun hd h => by
    obtain ⟨os, hos, -⟩ := block_eq_ok.1 h
    exact size_lt_of_delimited _ _ hW _ hs hf hd hos
  rcases unit_eq_ok.1 h with ⟨e, he, -⟩ | ⟨e, he, -⟩ | ⟨e, he, -⟩ | h | ⟨hk, -, rfl⟩ | h | h |
    ⟨e, he, -⟩
  · obtain ⟨hk, -, params, hps, -⟩ := external_eq_ok.1 he
    exact (hparams hps).trans_lt ((hnext _).trans_lt (size_next_lt_of_isWord hk))
  · obtain ⟨hk, params, c₁, hps, o, ho, -⟩ := definition_eq_ok.1 he
    have hlt := size_next_lt_of_isWord hk
    have hle := hnext c.next
    have hc₁ : c₁.size ≤ c.next.next.size := by
      rcases hps with ⟨-, hps⟩ | ⟨-, -, rfl⟩
      · exact hparams hps
      · exact le_rfl
    have := hs.size_le (by omega) ho
    omega
  · obtain ⟨hk, _, c₁, h₁, _, c₂, h₂, h⟩ := conditional_eq_ok.1 he
    have hlt := size_next_lt_of_isWord hk
    have hc₁ := hs.size_le (by omega) h₁
    have hc₂ := hs.size_le (by omega) h₂
    rcases h with ⟨-, o, ho, -⟩ | ⟨-, -, rfl⟩
    · have hle := hnext c₂
      have := hs.size_le (by omega) ho
      omega
    · omega
  · obtain ⟨hk, params, c₁, hps, b, hb, -⟩ := closure_eq_ok.1 h
    have hlt := size_next_lt_of_isWord hk
    have hc₁ := size_lt_of_delimited (n := n) _ _ hW _ (follows_expectName hW .variable)
      (fun _ => follows_expectName hW .variable) (by omega) hps
    have := hblock (by omega) hb
    omega
  · rcases hk with hk | hk <;> exact size_next_lt_of_isWord hk
  · obtain ⟨hm, c₁, h₁, -, rfl⟩ := grouping_eq_ok.1 h
    have hlt := size_next_lt_of_isMark hm
    have hle := hnext c₁
    have := hs.size_le (by omega) h₁
    omega
  · exact hblock hc h
  · obtain ⟨hv, rfl⟩ := terminal_eq_ok.1 he
    refine size_next_lt_of_kind fun hk => ?_
    have := terminalValue_eq_ok hv
    simp [hk] at this

theorem size_lt_of_atom {c c' : Cursor} {o : Option Expr} (hc : c.size < n + 1)
    (h : atom self c = .ok o c') : c'.size < c.size := by
  rcases atom_eq_ok.1 h with ⟨e, c₁, hu, e', hcall, -⟩ | ⟨hu, -⟩
  · have hlt := size_lt_of_unit hW hs hf hc hu
    exact ((follows_called hW hs hf e).size_le (by omega) hcall).trans_lt hlt
  · exact size_lt_of_unit hW hs hf hc hu

theorem takesBelow_link (floor : ℕ) : TakesBelow (n + 1) (link self floor) := by
  intro c l c' hc h
  rcases link_eq_ok.1 h with ⟨-, hl, -⟩ | ⟨-, _, -, ⟨-, hl, -⟩ | ⟨-, e, he, -⟩⟩
  · simp at hl
  · simp at hl
  · have hle : c.next.size ≤ c.size := by simp
    exact (size_lt_of_atom hW hs hf (by omega) he).trans_le hle

omit hW hs hf in
theorem stopsAtEnd_link (floor : ℕ) : StopsAtEnd (link self floor) := fun c hc =>
  link_eq_ok.2 (.inl ⟨by simp_all [Cursor.atEnd, Token.isEof], rfl, rfl⟩)

theorem follows_chained (floor : ℕ) (first : Expr) :
    Follows W (n + 1) Eq (chained self floor first) (chained self' floor first) := by
  have hlink := follows_repeated hW (follows_link hW hs hf floor) (takesBelow_link hW hs hf floor)
    (fun m => (takesBelow_link hW (hf m) hf floor).mono m.le_succ) (stopsAtEnd_link floor)
    (stopsAtEnd_link floor)
  exact hlink.bind hW (by rintro ls _ rfl; exact follows_pure rfl)

theorem follows_expression : Follows W (n + 1) Eq (expression self) (expression self') := by
  apply (follows_atom hW hs hf).bind hW
  rintro o _ rfl
  cases o with
  | some first =>
    apply (follows_chained hW hs hf 0 first).bind hW
    rintro e _ rfl
    exact (follows_called hW hs hf e).map hW (by rintro a _ rfl; rfl)
  | none =>
    refine follows_current.bind hW fun t u htu => ?_
    rw [hW.kind htu, hW.isMark htu]
    split_ifs
    · exact follows_fail _
    · exact follows_pure rfl

theorem size_lt_of_expression {c c' : Cursor} {o : Option Expr} (hc : c.size < n + 1)
    (h : expression self c = .ok o c') : c'.size < c.size := by
  rcases expression_eq_ok.1 h with ⟨first, c₁, ha, e, c₂, hchain, e', hcall, -⟩ | ⟨ha, -⟩
  · have hlt := size_lt_of_atom hW hs hf hc ha
    have hle := (follows_chained hW hs hf 0 first).size_le (by omega) hchain
    have := (follows_called hW hs hf e).size_le (by omega) hcall
    omega
  · exact size_lt_of_atom hW hs hf hc ha

omit hs hf in
theorem follows_statement (hs : Follows W n Eq self self') :
    Follows W n Eq (statement self) (statement self') := by
  apply (follows_atEnd hW).bind hW
  rintro b _ rfl
  split_ifs
  · exact follows_pure rfl
  · apply hs.bind hW
    rintro o _ rfl
    apply (follows_atEnd hW).bind hW
    rintro b _ rfl
    split_ifs
    · exact follows_pure rfl
    · exact (follows_expectMark hW ';').bind hW fun _ _ _ => follows_pure rfl

omit hW hs hf in
theorem takesBelow_statement (ht : Takes self) : TakesBelow n (statement self) := by
  intro c s c' _ h
  rcases statement_eq_ok.1 h with ⟨-, hs, -⟩ | ⟨-, e, c₁, he, -, ⟨-, rfl⟩ | ⟨-, -, rfl⟩⟩
  · simp at hs
  · exact ht he
  · have hle : c₁.next.size ≤ c₁.size := by simp
    exact hle.trans_lt (ht he)

omit hW hs hf in
theorem stopsAtEnd_statement : StopsAtEnd (statement self) := fun _ hc =>
  statement_eq_ok.2 (.inl ⟨hc, rfl, rfl⟩)

omit hf in
theorem follows_program (ht : Takes self) (ht' : Takes self') :
    Follows W n Eq (program self) (program self') :=
  (follows_repeated hW (follows_statement hW hs) (takesBelow_statement ht)
    (fun _ => takesBelow_statement ht') stopsAtEnd_statement stopsAtEnd_statement).bind hW
    (by rintro ss _ rfl; exact follows_pure rfl)

end Rule

namespace Parser

open Cursor

variable {W : Token → Token → Prop} {n : ℕ} (hW : Likeness W)

include hW

theorem follows_expressionWithin_self (depth : ℕ) :
    Follows W n Eq (expressionWithin depth) (expressionWithin depth) := by
  induction depth generalizing n with
  | zero =>
    exact (Rule.follows_expression hW (follows_fail _) fun _ => follows_fail _).mono n.le_succ
  | succ depth ih => exact (Rule.follows_expression hW ih fun _ => ih).mono n.le_succ

/-- Any depth is a rule over some parser. -/
theorem exists_expressionWithin (depth : ℕ) :
    ∃ self, expressionWithin depth = Rule.expression self ∧ ∀ n, Follows W n Eq self self := by
  cases depth with
  | zero => exact ⟨_, rfl, fun _ => follows_fail _⟩
  | succ depth => exact ⟨_, rfl, fun _ => follows_expressionWithin_self hW depth⟩

/-- Expressions nest no deeper than there are tokens ahead. -/
theorem follows_expressionWithin {k depth depth' : ℕ} (h : k ≤ depth) (h' : k ≤ depth') :
    Follows W (k + 1) Eq (expressionWithin depth) (expressionWithin depth') := by
  induction k generalizing depth depth' with
  | zero =>
    obtain ⟨self, he, -⟩ := exists_expressionWithin hW depth
    obtain ⟨self', he', hf⟩ := exists_expressionWithin hW depth'
    rw [he, he']
    exact Rule.follows_expression hW (fun c hc => absurd hc (Nat.not_lt_zero _)) hf
  | succ k ih =>
    obtain ⟨depth, rfl⟩ : ∃ m, depth = m + 1 := ⟨depth - 1, by omega⟩
    obtain ⟨depth', rfl⟩ : ∃ m, depth' = m + 1 := ⟨depth' - 1, by omega⟩
    exact Rule.follows_expression hW (ih (by omega) (by omega))
      fun _ => follows_expressionWithin_self hW _

omit hW in
theorem expressionWithin_eq {depth : ℕ} {c : Cursor} (h : c.size ≤ depth) :
    expressionWithin depth c = expression c :=
  (follows_expressionWithin .eq h le_rfl).apply_eq c.size.lt_succ_self

theorem follows_expression : Follows W n Eq expression expression :=
  .of_apply fun c d _ => ⟨expressionWithin (max c.size d.size), _,
    follows_expressionWithin_self hW _, expressionWithin_eq (le_max_left ..),
    expressionWithin_eq (le_max_right ..)⟩

omit hW in
/-- The recursion of the grammar, free of its bound. -/
theorem expression_eq : expression = Rule.expression expression := by
  funext c
  have hinner : Follows Eq c.size Eq (expressionWithin c.size) expression :=
    .of_apply fun c' d hc' => ⟨expression, expression, follows_expression .eq,
      (expressionWithin_eq hc'.le).symm, rfl⟩
  calc
    expression c = expressionWithin (c.size + 1) c := (expressionWithin_eq c.size.le_succ).symm
    _ = Rule.expression expression c :=
      (Rule.follows_expression .eq hinner fun _ => follows_expression .eq).apply_eq
        c.size.lt_succ_self

omit hW in
theorem takes_expression : Takes expression := by
  intro c o c' h
  rw [expression_eq] at h
  exact Rule.size_lt_of_expression .eq (follows_expression .eq)
    (fun _ => follows_expression .eq) c.size.lt_succ_self h

omit hW in
theorem takesBelow_link (floor n : ℕ) : TakesBelow n (Rule.link expression floor) :=
  (Rule.takesBelow_link .eq (follows_expression .eq) (fun _ => follows_expression .eq)
    floor).mono n.le_succ

theorem follows_program : Follows W n Eq program program :=
  Rule.follows_program hW (follows_expression hW) takes_expression takes_expression

end Parser

end ExprLang
