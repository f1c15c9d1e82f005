import ExprLang.Grammar.Expression
import ExprLang.Proofs.Runs

/-!
# Successful runs of the grammar rules

For each rule, what a successful run over a parser `self` for the expressions inside
says about its parts. A rule is opened by these equivalences and nowhere else.
-/
namespace ExprLang.Rule

open ExprLang.Parser

variable {c c' : Cursor} {e : Expr} {o : Option Expr}

theorem terminal_eq_ok : terminal c = .ok e c' ↔ terminalValue c.current = .ok e ∧ c.next = c' := by
  rw [terminal, bind_eq_ok]
  cases h : terminalValue c.current <;> simp [h]

theorem parameter_eq_ok {p : Parameter} :
    parameter c = .ok p c' ↔ c.current.kind = .identifier ∧
      (c.next.current.kind = .identifier ∧
          p = ⟨c.current.value, some c.next.current.value⟩ ∧ c.next.next = c' ∨
        c.next.current.kind ≠ .identifier ∧ p = ⟨c.current.value, none⟩ ∧ c.next = c') := by
  rw [parameter, bind_eq_ok]
  by_cases h : c.next.current.kind = .identifier <;>
    simp [h, and_assoc, and_comm, eq_comm (a := p)]

theorem external_eq_ok :
    external c = .ok e c' ↔ c.current.isWord .keyword "ext" = true ∧
      c.next.current.kind = .identifier ∧
      ∃ params, parameters c.next.next = .ok params c' ∧
        e = .external c.next.current.value params := by
  simp [external, and_assoc, eq_comm (b := e)]

variable {self : Parser (Option Expr)}

theorem called_eq_ok {callee : Expr} :
    called self callee c = .ok e c' ↔
      c.current.isMark '(' = true ∧ (∃ as, arguments self c = .ok as c' ∧ e = .call callee as) ∨
        c.current.isMark '(' = false ∧ e = callee ∧ c = c' := by
  cases h : c.current.isMark '(' <;> simp [called, h, eq_comm (b := e)]

theorem block_eq_ok :
    block self c = .ok o c' ↔ ∃ os, delimited '{' '}' ';' self c = .ok os c' ∧
      o = if os.isEmpty then none else some (.block os.reduceOption) := by
  simp [block, eq_comm (b := o)]

theorem grouping_eq_ok :
    grouping self c = .ok o c' ↔ c.current.isMark '(' = true ∧
      ∃ c₁, self c.next = .ok o c₁ ∧ c₁.current.isMark ')' = true ∧ c₁.next = c' := by
  simp [grouping, and_assoc]

theorem conditional_eq_ok :
    conditional self c = .ok e c' ↔ c.current.isWord .keyword "if" = true ∧
      ∃ condition c₁, self c.next = .ok (some condition) c₁ ∧
      ∃ thenBranch c₂, self c₁ = .ok (some thenBranch) c₂ ∧
        (c₂.current.isWord .keyword "else" = true ∧
            (∃ o, self c₂.next = .ok o c' ∧
              e = o.elim (.ifThen condition thenBranch) (.ifThenElse condition thenBranch)) ∨
          c₂.current.isWord .keyword "else" = false ∧ e = .ifThen condition thenBranch ∧
            c₂ = c') := by
  simp only [conditional, bind_eq_ok, expectKeyword_eq_ok, required_eq_ok, current_eq_ok]
  constructor
  · rintro ⟨_, _, ⟨hk, rfl⟩, condition, c₁, h₁, thenBranch, c₂, h₂, _, _, ⟨rfl, rfl⟩, h⟩
    refine ⟨hk, condition, c₁, h₁, thenBranch, c₂, h₂, ?_⟩
    split_ifs at h with helse
    · obtain ⟨_, _, ha, o, c₃, ho, h⟩ := by simpa only [bind_eq_ok, advance_eq_ok] using h
      obtain ⟨-, rfl⟩ := ha
      cases o <;> obtain ⟨rfl, rfl⟩ := pure_eq_ok.1 h <;> exact .inl ⟨helse, _, ho, rfl⟩
    · obtain ⟨rfl, rfl⟩ := pure_eq_ok.1 h
      exact .inr ⟨by simpa using helse, rfl, rfl⟩
  · rintro ⟨hk, condition, c₁, h₁, thenBranch, c₂, h₂, h⟩
    refine ⟨(), _, ⟨hk, rfl⟩, condition, c₁, h₁, thenBranch, c₂, h₂, _, _, ⟨rfl, rfl⟩, ?_⟩
    rcases h with ⟨helse, o, ho, rfl⟩ | ⟨helse, rfl, rfl⟩
    · rw [if_pos helse, bind_eq_ok]
      refine ⟨_, _, advance_eq_ok.2 ⟨rfl, rfl⟩, bind_eq_ok.2 ⟨o, c', ho, ?_⟩⟩
      cases o <;> rfl
    · rw [if_neg (by simp [helse])]
      rfl

theorem definition_eq_ok :
    definition self c = .ok e c' ↔ c.current.isWord .keyword "def" = true ∧
      ∃ params c₁, (c.next.next.current.isMark '(' = true ∧
            parameters c.next.next = .ok params c₁ ∨
          c.next.next.current.isMark '(' = false ∧ params = [] ∧ c.next.next = c₁) ∧
        ∃ o, self c₁ = .ok o c' ∧
          e = o.elim (.external c.next.current.value params)
            (.function c.next.current.value params) := by
  simp only [definition, bind_eq_ok, expectKeyword_eq_ok, advance_eq_ok, current_eq_ok]
  constructor
  · rintro ⟨_, _, ⟨hk, rfl⟩, _, _, ⟨rfl, rfl⟩, _, _, ⟨rfl, rfl⟩, h⟩
    refine ⟨hk, ?_⟩
    split_ifs at h with hm
    · obtain ⟨params, c₁, hps, o, c₂, ho, h⟩ := by simpa only [bind_eq_ok] using h
      cases o <;> obtain ⟨rfl, rfl⟩ := pure_eq_ok.1 h <;>
        exact ⟨params, c₁, .inl ⟨hm, hps⟩, _, ho, rfl⟩
    · obtain ⟨params, c₁, ⟨rfl, rfl⟩, o, c₂, ho, h⟩ := by
        simpa only [bind_eq_ok, pure_eq_ok] using h
      cases o <;> obtain ⟨rfl, rfl⟩ := pure_eq_ok.1 h <;>
        exact ⟨[], _, .inr ⟨by simpa using hm, rfl, rfl⟩, _, ho, rfl⟩
  · rintro ⟨hk, params, c₁, hps, o, ho, rfl⟩
    refine ⟨(), _, ⟨hk, rfl⟩, _, _, ⟨rfl, rfl⟩, _, _, ⟨rfl, rfl⟩, ?_⟩
    rcases hps with ⟨hm, hps⟩ | ⟨hm, rfl, rfl⟩
    · rw [if_pos hm, bind_eq_ok]
      exact ⟨params, c₁, hps, bind_eq_ok.2 ⟨o, c', ho, by cases o <;> rfl⟩⟩
    · rw [if_neg (by simp [hm]), bind_eq_ok]
      exact ⟨[], _, rfl, bind_eq_ok.2 ⟨o, c', ho, by cases o <;> rfl⟩⟩

theorem closure_eq_ok :
    closure self c = .ok o c' ↔ c.current.isWord .keyword "cls" = true ∧
      ∃ params c₁, delimited '(' ')' ',' (expectName .variable) c.next = .ok params c₁ ∧
        ∃ b, block self c₁ = .ok b c' ∧ o = b.map (.closure params) := by
  simp [closure, and_assoc, eq_comm (b := o)]

/-- A token that is an expression by itself is neither a word of the language nor a mark. -/
theorem terminalValue_eq_ok {t : Token} (h : terminalValue t = .ok e) :
    t.kind = .identifier ∨ t.kind = .number ∨ t.kind = .character ∨ t.kind = .string := by
  unfold terminalValue at h
  split at h <;> simp_all

theorem unit_eq_ok :
    unit self c = .ok o c' ↔
      (∃ e, external c = .ok e c' ∧ o = some e) ∨
      (∃ e, definition self c = .ok e c' ∧ o = some e) ∨
      (∃ e, conditional self c = .ok e c' ∧ o = some e) ∨
      closure self c = .ok o c' ∨
      ((c.current.isWord .keyword "true" = true ∨ c.current.isWord .keyword "false" = true) ∧
        o = some (.boolean (c.current.value == "true")) ∧ c.next = c') ∨
      grouping self c = .ok o c' ∨
      block self c = .ok o c' ∨
      (∃ e, terminal c = .ok e c' ∧ o = some e) := by
  rw [unit, bind_eq_ok]
  simp only [current_eq_ok]
  constructor
  · rintro ⟨t, _, ⟨rfl, rfl⟩, h⟩
    split_ifs at h
    · exact .inl (by simpa [eq_comm (b := o)] using h)
    · exact .inr (.inl (by simpa [eq_comm (b := o)] using h))
    · exact .inr (.inr (.inl (by simpa [eq_comm (b := o)] using h)))
    · exact .inr (.inr (.inr (.inl h)))
    · exact .inr (.inr (.inr (.inr (.inl ⟨‹_›, by simpa [and_comm, eq_comm (b := o)] using h⟩))))
    · exact .inr (.inr (.inr (.inr (.inr (.inl h)))))
    · exact .inr (.inr (.inr (.inr (.inr (.inr (.inl h))))))
    · exact .inr (.inr (.inr (.inr (.inr (.inr (.inr (by simpa [eq_comm (b := o)] using h)))))))
  · intro h
    refine ⟨_, _, ⟨rfl, rfl⟩, ?_⟩
    rcases h with ⟨e, he, rfl⟩ | ⟨e, he, rfl⟩ | ⟨e, he, rfl⟩ | h | ⟨hk, rfl, rfl⟩ | h | h |
      ⟨e, he, rfl⟩
    · rw [if_pos (external_eq_ok.1 he).1]
      exact map_eq_ok.2 ⟨e, he, rfl⟩
    · have hk := Token.isWord_iff.1 (definition_eq_ok.1 he).1
      simpa [Token.isWord, hk] using he
    · have hk := Token.isWord_iff.1 (conditional_eq_ok.1 he).1
      simpa [Token.isWord, hk] using he
    · have hk := Token.isWord_iff.1 (closure_eq_ok.1 h).1
      simpa [Token.isWord, hk] using h
    · have hw : ∃ w, c.current.isWord .keyword w = true ∧ (w = "true" ∨ w = "false") :=
        hk.elim (fun h => ⟨_, h, .inl rfl⟩) (fun h => ⟨_, h, .inr rfl⟩)
      obtain ⟨w, hw, hv⟩ := hw
      obtain ⟨hkind, hval⟩ := Token.isWord_iff.1 hw
      rcases hv with rfl | rfl <;> simp [Token.isWord, hkind, hval]
    · have hm := Token.isMark_iff.1 (grouping_eq_ok.1 h).1
      simpa [Token.isWord, Token.isMark, hm] using h
    · obtain ⟨os, hos, -⟩ := block_eq_ok.1 h
      obtain ⟨_, _, hm, -⟩ := bind_eq_ok.1 hos
      have hm := Token.isMark_iff.1 (expectMark_eq_ok.1 hm).1
      simpa [Token.isWord, Token.isMark, hm] using h
    · have hk := terminalValue_eq_ok (terminal_eq_ok.1 he).1
      rcases hk with hk | hk | hk | hk <;> simpa [Token.isWord, Token.isMark, hk] using he

theorem atom_eq_ok :
    atom self c = .ok o c' ↔
      (∃ e c₁, unit self c = .ok (some e) c₁ ∧ ∃ e', called self e c₁ = .ok e' c' ∧ o = some e') ∨
        unit self c = .ok none c' ∧ c'.current.isMark '(' = false ∧ o = none := by
  rw [atom, bind_eq_ok]
  constructor
  · rintro ⟨r, c₁, hu, h⟩
    cases r with
    | some e => exact .inl ⟨e, c₁, hu, by simpa [eq_comm (b := o)] using h⟩
    | none =>
      cases hm : c₁.current.isMark '(' with
      | true => simp [hm] at h
      | false =>
        obtain ⟨rfl, rfl⟩ : none = o ∧ c₁ = c' := by simpa [hm] using h
        exact .inr ⟨hu, hm, rfl⟩
  · rintro (⟨e, c₁, hu, e', hc, rfl⟩ | ⟨hu, hm, rfl⟩)
    · exact ⟨some e, c₁, hu, by simpa using hc⟩
    · exact ⟨none, c', hu, by simp [hm]⟩

theorem link_eq_ok {floor : ℕ} {l : Option Link} :
    link self floor c = .ok l c' ↔
      c.current.kind ≠ .operator ∧ l = none ∧ c = c' ∨
        c.current.kind = .operator ∧ ∃ strength, precedence? c.current.value = some strength ∧
          (strength ≤ floor ∧ l = none ∧ c = c' ∨
            floor < strength ∧ ∃ e, atom self c.next = .ok (some e) c' ∧
              l = some ⟨c.current.value, strength, e⟩) := by
  by_cases hk : c.current.kind = .operator
  · cases hp : precedence? c.current.value with
    | none => simp [link, hk, hp]
    | some strength =>
      have hw : c.current.isWord .operator c.current.value = true := Token.isWord_iff.2 ⟨hk, rfl⟩
      by_cases hs : strength ≤ floor
      · simp [link, hk, hp, hs, eq_comm (a := l), not_lt.2 hs]
      · simp [link, hk, hp, hs, hw, eq_comm (a := l), not_le.1 hs]
  · simp [link, hk, eq_comm (a := l)]

theorem chained_eq_ok {floor : ℕ} {first : Expr} :
    chained self floor first c = .ok e c' ↔
      ∃ ls, repeated (link self floor) c = .ok ls c' ∧ e = ofChain first ls := by
  simp [chained, eq_comm (b := e)]

theorem expression_eq_ok :
    expression self c = .ok o c' ↔
      (∃ first c₁, atom self c = .ok (some first) c₁ ∧
        ∃ e c₂, chained self 0 first c₁ = .ok e c₂ ∧
        ∃ e', called self e c₂ = .ok e' c' ∧ o = some e') ∨
      atom self c = .ok none c' ∧ c'.current.kind ≠ .operator ∧
        c'.current.isMark '(' = false ∧ o = none := by
  rw [expression, bind_eq_ok]
  constructor
  · rintro ⟨r, c₁, ha, h⟩
    cases r with
    | some first => exact .inl ⟨first, c₁, ha, by simpa [eq_comm (b := o)] using h⟩
    | none =>
      by_cases hm : c₁.current.kind = .operator ∨ c₁.current.isMark '(' = true
      · simp [hm] at h
      · obtain ⟨rfl, rfl⟩ : none = o ∧ c₁ = c' := by simpa [hm] using h
        exact .inr ⟨ha, by simpa using hm⟩
  · rintro (⟨first, c₁, ha, e, c₂, hc, e', hcall, rfl⟩ | ⟨ha, hk, hm, rfl⟩)
    · exact ⟨some first, c₁, ha, by simpa using ⟨e, c₂, hc, hcall⟩⟩
    · exact ⟨none, c', ha, by simp [hk, hm]⟩

theorem statement_eq_ok {s : Option (Option Expr)} :
    statement self c = .ok s c' ↔
      c.atEnd = true ∧ s = none ∧ c = c' ∨
        c.atEnd = false ∧ ∃ e c₁, self c = .ok e c₁ ∧ s = some e ∧
          (c₁.atEnd = true ∧ c₁ = c' ∨
            c₁.atEnd = false ∧ c₁.current.isMark ';' = true ∧ c₁.next = c') := by
  rw [statement, bind_eq_ok]
  constructor
  · rintro ⟨b, c₀, hb, h⟩
    obtain ⟨rfl, rfl⟩ := atEnd_eq_ok.1 hb
    split_ifs at h with hend
    · obtain ⟨rfl, rfl⟩ := pure_eq_ok.1 h
      exact .inl ⟨hend, rfl, rfl⟩
    · obtain ⟨e, c₁, he, b', c₂, hb', h⟩ := by simpa only [bind_eq_ok] using h
      obtain ⟨rfl, rfl⟩ := atEnd_eq_ok.1 hb'
      refine .inr ⟨by simpa using hend, e, c₁, he, ?_⟩
      split_ifs at h with hend'
      · obtain ⟨rfl, rfl⟩ := pure_eq_ok.1 h
        exact ⟨rfl, .inl ⟨hend', rfl⟩⟩
      · obtain ⟨u, c₂, hm, h⟩ := bind_eq_ok.1 h
        obtain ⟨rfl, rfl⟩ := pure_eq_ok.1 h
        exact ⟨rfl, .inr ⟨by simpa using hend', expectMark_eq_ok.1 hm⟩⟩
  · rintro (⟨hend, rfl, rfl⟩ | ⟨hend, e, c₁, he, rfl, h⟩)
    · exact ⟨true, c, atEnd_eq_ok.2 ⟨hend, rfl⟩, rfl⟩
    · refine ⟨false, c, atEnd_eq_ok.2 ⟨hend, rfl⟩, bind_eq_ok.2 ⟨e, c₁, he, bind_eq_ok.2 ?_⟩⟩
      rcases h with ⟨hend', rfl⟩ | ⟨hend', hm⟩
      · exact ⟨true, c₁, atEnd_eq_ok.2 ⟨hend', rfl⟩, rfl⟩
      · refine ⟨false, c₁, atEnd_eq_ok.2 ⟨hend', rfl⟩, bind_eq_ok.2 ?_⟩
        exact ⟨(), c', expectMark_eq_ok.2 hm, rfl⟩

theorem program_eq_ok {p : Program} :
    program self c = .ok p c' ↔
      ∃ ss, repeated (statement self) c = .ok ss c' ∧ p = ⟨ss.reduceOption⟩ := by
  simp [program, eq_comm (b := p)]

end ExprLang.Rule
