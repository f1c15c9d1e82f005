import ExprLang.Proofs.WordLists

/-!
# Printable trees

A text has parentheses around operations and conditionals, but none around calls. It
shows the grouping of a tree whose operands and callees end with one argument list at
most, if no parenthesis behind a condition is taken for another one.
-/
namespace ExprLang

open Cursor

namespace Word

/-- An expression may begin with the word. -/
structure Begins (w : Word) : Prop where
  ne_eof : w.1 ≠ .eof
  ne_operator : w.1 ≠ .operator
  isMark : ∀ m, w.token.isMark m = true → m = '(' ∨ m = '\x7b'

theorem begins_mark {m : Char} (h : m = '(' ∨ m = '\x7b') : (mark m).Begins where
  ne_eof := by simp
  ne_operator := by simp
  isMark n hn := by
    obtain rfl : m = n := by simpa using hn
    exact h

theorem begins_of_ne {w : Word} (he : w.1 ≠ .eof) (ho : w.1 ≠ .operator)
    (hp : w.1 ≠ .punctuation) : w.Begins where
  ne_eof := he
  ne_operator := ho
  isMark m hm := by simp [isMark_of_ne hp] at hm

end Word

namespace Expr

/-- The first word of a spelling begins an expression. -/
theorem exists_spelling_eq (e : Expr) : ∃ w ws, e.spelling = w :: ws ∧ w.Begins := by
  have hopen : ∀ ws, ∃ w' ws', Word.mark '(' :: ws = w' :: ws' ∧ w'.Begins :=
    fun ws => ⟨_, ws, rfl, Word.begins_mark (.inl rfl)⟩
  have hbrace : ∀ ws, ∃ w' ws', Word.mark '\x7b' :: ws = w' :: ws' ∧ w'.Begins :=
    fun ws => ⟨_, ws, rfl, Word.begins_mark (.inr rfl)⟩
  induction e using induction_on_children with
  | h e ih =>
    cases e with
    | call callee arguments =>
      rw [spelling, operandSpelling]
      split_ifs
      · exact hopen _
      · obtain ⟨w, ws, hw, hb⟩ := ih callee (by simp [children])
        exact ⟨w, _, by rw [hw, List.cons_append], hb⟩
    | block body =>
      rw [spelling, blockSpelling]
      split_ifs <;> exact hbrace _
    | assignment | binary | ifThen | ifThenElse => exact hopen _
    | _ => exact ⟨_, _, rfl, Word.begins_of_ne (by rintro ⟨⟩) (by rintro ⟨⟩) (by rintro ⟨⟩)⟩

theorem exists_spelling_block (es : List Expr) :
    ∃ ws, (block es).spelling = .mark '\x7b' :: ws := by
  rw [spelling, blockSpelling]
  split_ifs <;> exact ⟨_, rfl⟩

/-- The text of a tree begins with a parenthesis. -/
def Opens (e : Expr) : Prop := e.text.toList.head? = some '('

/-- A text begins with a parenthesis if its words do. -/
theorem opens_iff {e : Expr} (h : ∀ n ∈ e.nodes, n.Legible) (rest : List Word) :
    (ofWords (e.spelling ++ rest)).current.isMark '(' = true ↔ e.Opens := by
  constructor
  · clear h
    induction e using induction_on_children generalizing rest with
    | h e ih =>
      intro hm
      cases e with
      | assignment | binary | ifThen | ifThenElse => simp [Opens, text]
      | call callee arguments =>
        rw [spelling, operandSpelling] at hm
        rw [Opens, text, operandText]
        split_ifs at hm ⊢
        · simp
        · have hc : callee.text.toList.head? = some '(' :=
            ih callee (by simp [children]) _ (by simpa [List.append_assoc] using hm)
          simp [List.head?_append, hc]
      | block body =>
        rw [spelling, blockSpelling] at hm
        split_ifs at hm <;> simp at hm
      | _ => simp [spelling, Word.isMark_of_ne, Word.keyword, Word.name] at hm
  · intro ho
    obtain ⟨t, ht⟩ : ∃ t, e.text.toList = '(' :: t := by
      cases htext : e.text.toList with
      | nil => simp [Opens, htext] at ho
      | cons c t => exact ⟨t, by simpa [Opens, htext] using ho⟩
    have hw := writes_text h [] .nil
    rw [ht, List.cons_append, scan_mark (by decide)] at hw
    obtain ⟨w, ws, he, -⟩ := exists_spelling_eq e
    simp [he] at hw ⊢
    simp [← hw.1.1]

/-- An operation or call has operands and callees that are called once at most. -/
def Shallow : Expr → Prop
  | assignment _ left right | binary _ left right => left.callDepth ≤ 1 ∧ right.callDepth ≤ 1
  | call callee _ => callee.callDepth ≤ 1
  | _ => True

/-- A parenthesis that begins the first branch of a conditional is no argument list. -/
def Apart : Expr → Prop
  | ifThen condition thenBranch | ifThenElse condition thenBranch _ =>
    thenBranch.Opens → condition.callDepth = 2
  | _ => True

/-- The text of a node shows how its children are grouped. -/
def Printable (e : Expr) : Prop := e.Shallow ∧ e.Apart

/-- A node with legible leaves whose text would show its grouping even if any parenthesis
behind a condition were an argument list. -/
def WellFormed (e : Expr) : Prop :=
  e.Legible ∧ e.Shallow ∧
    match e with
    | ifThen _ thenBranch | ifThenElse _ thenBranch _ => ¬thenBranch.Opens
    | _ => True

theorem WellFormed.printable {e : Expr} (h : e.WellFormed) : e.Printable := by
  refine ⟨h.2.1, ?_⟩
  cases e with
  | ifThen condition thenBranch => exact fun ho => absurd ho h.2.2
  | ifThenElse condition thenBranch elseBranch => exact fun ho => absurd ho h.2.2
  | _ => trivial

section Decidable

instance (p : Parameter) : Decidable p.Legible := inferInstanceAs (Decidable (_ ∧ _))

instance (e : Expr) : Decidable (∃ es, e = block es) :=
  match e with
  | block es => .isTrue ⟨es, rfl⟩
  | number _ | string _ | character _ | boolean _ | symbol _ | assignment .. | binary ..
  | ifThen .. | ifThenElse .. | function .. | external .. | closure .. | call .. => .isFalse nofun

instance : (e : Expr) → Decidable e.Legible
  | number value => inferInstanceAs (Decidable (0 ≤ value.toInt))
  | character code => inferInstanceAs (Decidable code.isValidChar)
  | symbol name => inferInstanceAs (Decidable (isName name = true))
  | assignment operator _ _ => inferInstanceAs (Decidable (operator = assignmentOperator))
  | binary operator _ _ => inferInstanceAs (Decidable (_ ∧ operator ≠ assignmentOperator))
  | function _ params _ | external _ params =>
    inferInstanceAs (Decidable (_ ∧ ∀ p ∈ params, p.Legible))
  | closure _ body => inferInstanceAs (Decidable (_ ∧ ∃ es, body = block es))
  | string _ | boolean _ | ifThen .. | ifThenElse .. | call .. | block _ => .isTrue trivial

instance (e : Expr) : Decidable e.Opens := inferInstanceAs (Decidable (_ = _))

instance : (e : Expr) → Decidable e.Shallow
  | assignment .. | binary .. => inferInstanceAs (Decidable (_ ≤ 1 ∧ _ ≤ 1))
  | call .. => inferInstanceAs (Decidable (_ ≤ 1))
  | number _ | string _ | character _ | boolean _ | symbol _ | ifThen .. | ifThenElse ..
  | function .. | external .. | closure .. | block _ => .isTrue trivial

instance : (e : Expr) → Decidable e.Apart
  | ifThen _ thenBranch | ifThenElse _ thenBranch _ =>
    inferInstanceAs (Decidable (thenBranch.Opens → _ = 2))
  | number _ | string _ | character _ | boolean _ | symbol _ | assignment .. | binary ..
  | function .. | external .. | closure .. | call .. | block _ => .isTrue trivial

instance (e : Expr) : Decidable e.Printable := inferInstanceAs (Decidable (_ ∧ _))

instance : (e : Expr) → Decidable e.WellFormed
  | ifThen _ thenBranch | ifThenElse _ thenBranch _ =>
    inferInstanceAs (Decidable (_ ∧ _ ∧ ¬thenBranch.Opens))
  | number _ | string _ | character _ | boolean _ | symbol _ | assignment .. | binary ..
  | function .. | external .. | closure .. | call .. | block _ =>
    inferInstanceAs (Decidable (_ ∧ _ ∧ True))

end Decidable

theorem callDepth_of_isDefinition {e : Expr} (h : e.isDefinition = true) : e.callDepth = 0 := by
  cases e with
  | function => rfl
  | _ => simp [isDefinition] at h

theorem callDepth_le_two {e : Expr} (h : e.Shallow) : e.callDepth ≤ 2 := by
  cases e with
  | call callee arguments => exact Nat.succ_le_succ h
  | _ => simp [callDepth]

end Expr

end ExprLang
