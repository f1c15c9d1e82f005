import ExprLang.Command
import ExprLang.Proofs.LayoutSteps
import ExprLang.Proofs.Trees

/-!
# Outlines over several lines

The outline of a tree is laid out by its brackets. Quotations are escaped so that they end where
they should, and brackets outside of them come in pairs. So no bracket is closed that is not open,
and each line is indented by two spaces for every bracket that is open where it begins.
-/
namespace ExprLang

/-- A text that is not empty and has neither brackets, quotes, commas nor spacing in it. -/
def IsPlainText (text : String) : Prop := text.toList ≠ [] ∧ ∀ c ∈ text.toList, IsPlain c

instance (text : String) : Decidable (IsPlainText text) :=
  decidable_of_iff (text.toList ≠ [] ∧ text.toList.all (decide <| IsPlain ·) = true)
    (by simp [IsPlainText])

namespace Outline

/-- All words and names in an outline are plain, and no record is empty. What is quoted is free. -/
inductive PlainlyNamed : Outline → Prop
  | word {w : String} (h : IsPlainText w) : PlainlyNamed (.word w)
  | quoted (text : String) : PlainlyNamed (.quoted text)
  | field {name : String} {value : Outline} (h : IsPlainText name) (hvalue : PlainlyNamed value) :
    PlainlyNamed (.field name value)
  | record {name : String} {fields : List Outline} (h : IsPlainText name) (hne : fields ≠ [])
    (hfields : ∀ o ∈ fields, PlainlyNamed o) : PlainlyNamed (.record name fields)
  | case {name : String} {contents : List Outline} (h : IsPlainText name)
    (hcontents : ∀ o ∈ contents, PlainlyNamed o) : PlainlyNamed (.case name contents)
  | list {items : List Outline} (hitems : ∀ o ∈ items, PlainlyNamed o) : PlainlyNamed (.list items)

open Indentation

/-- An outline is laid out on lines that are indented for the brackets around it. -/
theorem PlainlyNamed.fills {o : Outline} (h : o.PlainlyNamed) : Fills o.text.toList := by
  have htexts : ∀ {os : List Outline}, (∀ o ∈ os, Fills o.text.toList) →
      ∀ text ∈ (texts os).map String.toList, Fills text := by
    intro os hos text htext
    simp only [texts_eq_map, List.map_map, List.mem_map] at htext
    obtain ⟨o, ho, rfl⟩ := htext
    exact hos o ho
  have hcolon : Fills [':'] := .plain (by simp) (List.forall_mem_singleton.2 (by decide))
  induction h with
  | word h => exact .plain h.1 h.2
  | quoted text =>
    obtain ⟨hbody, hline⟩ := isBody_quoted text.toList
    simpa [Outline.text] using Fills.quotation hbody hline
  | field h _ ih =>
    have hname := (Fills.plain h.1 h.2).append hcolon
    simpa [Outline.text] using hname.append_space.append ih
  | record h hne _ ih =>
    -- The space behind the opening brace is left out. The other one may end the line of a field.
    have hfields := Fills.intercalate (by simpa [texts_eq_map] using hne) (htexts ih)
    have hbraces := hfields.append_space.cons_space.bracketed (.inl rfl) (.inl rfl)
    simpa [Outline.text] using (Fills.plain h.1 h.2).append_space.append hbraces
  | case h _ ih =>
    have hcontents := FollowsBreak.intercalate (htexts ih)
    have hbrackets := hcontents.bracketed (.inr (.inl rfl)) (.inr (.inl rfl))
    simpa [Outline.text] using (Fills.plain h.1 h.2).append hbrackets
  | list _ ih =>
    have hitems := FollowsBreak.intercalate (htexts ih)
    simpa [Outline.text] using hitems.bracketed (.inr (.inr rfl)) (.inr (.inr rfl))

end Outline

theorem isPlain_of_isDigit {c : Char} (h : c.isDigit = true) : IsPlain c := by
  have hne : ∀ d : Char, d.isDigit = false → c ≠ d := by
    rintro d hd rfl
    simp [hd] at h
  refine ⟨hne _ rfl, ?_, ?_, hne _ rfl, hne _ rfl, hne _ rfl⟩ <;> rintro (h | h | h) <;>
    exact hne _ rfl h

theorem isPlainText_repr (n : ℕ) : IsPlainText n.repr := by
  rw [IsPlainText, Nat.toList_repr]
  exact ⟨Nat.toDigits_ne_nil, fun c hc =>
    isPlain_of_isDigit (Nat.isDigit_of_mem_toDigits (by decide) (by decide) hc)⟩

theorem isPlainText_numeral (value : Int32) : IsPlainText (numeral value) := by
  rw [numeral]
  cases value.toInt with
  | ofNat n => exact isPlainText_repr n
  | negSucc n =>
    have ht : (Int.negSucc n).repr.toList = '-' :: (n + 1).repr.toList := by simp [Int.repr]
    rw [IsPlainText, ht]
    exact ⟨List.cons_ne_nil _ _, List.forall_mem_cons.2 ⟨by decide, (isPlainText_repr (n + 1)).2⟩⟩

namespace Outline.PlainlyNamed

variable {name className : String} {value part : Outline} {parts : List Outline}
  {o elseBranch body : Option Outline}

theorem last_field (h : IsPlainText name) (hvalue : value.PlainlyNamed) :
    ∀ o ∈ [Outline.field name value], o.PlainlyNamed :=
  List.forall_mem_singleton.2 (.field h hvalue)

theorem cons_field (h : IsPlainText name) (hvalue : value.PlainlyNamed)
    (hparts : ∀ o ∈ parts, o.PlainlyNamed) :
    ∀ o ∈ Outline.field name value :: parts, o.PlainlyNamed :=
  List.forall_mem_cons.2 ⟨.field h hvalue, hparts⟩

theorem single (h : IsPlainText className) (hpart : part.PlainlyNamed) :
    (Outline.case className [part]).PlainlyNamed :=
  .case h (List.forall_mem_singleton.2 hpart)

theorem optional (h : ∀ value ∈ o, value.PlainlyNamed) : (Outline.optional o).PlainlyNamed := by
  cases o with
  | none => exact .word (by decide)
  | some value => exact .single (by decide) (h value rfl)

theorem map {α : Type} {f : α → Outline} {as : List α} (h : ∀ a ∈ as, (f a).PlainlyNamed) :
    (Outline.list (as.map f)).PlainlyNamed :=
  .list (List.forall_mem_map.2 h)

theorem node (h : IsPlainText className) (hparts : ∀ o ∈ part :: parts, o.PlainlyNamed) :
    (nodeOutline className (part :: parts)).PlainlyNamed := by
  have hsuffix : IsPlainText "Expr" := by decide
  have hrecord : IsPlainText (className ++ "Expr") := by
    refine ⟨by simp [h.1], ?_⟩
    rw [String.toList_append]
    exact List.forall_mem_append.2 ⟨h.2, hsuffix.2⟩
  exact .single h (.record hrecord (List.cons_ne_nil _ _) hparts)

theorem of_parameter (p : Parameter) : p.outline.PlainlyNamed := by
  have hname : ∀ o ∈ p.name.map Outline.quoted, o.PlainlyNamed := by
    intro o ho
    obtain ⟨name, -, rfl⟩ := Option.map_eq_some_iff.1 ho
    exact .quoted name
  exact .record (by decide) (List.cons_ne_nil _ _)
    (cons_field (by decide) (.quoted p.type) (last_field (by decide) (optional hname)))

theorem of_function (name : String) (params : List Parameter)
    (h : ∀ o ∈ body, o.PlainlyNamed) : (functionOutline name params body).PlainlyNamed :=
  node (by decide) (cons_field (by decide) (.quoted name)
    (cons_field (by decide) (map fun p _ => of_parameter p) (last_field (by decide) (optional h))))

theorem of_conditional {condition thenBranch : Outline} (hcondition : condition.PlainlyNamed)
    (hthen : thenBranch.PlainlyNamed) (helse : ∀ o ∈ elseBranch, o.PlainlyNamed) :
    (conditionalOutline condition thenBranch elseBranch).PlainlyNamed :=
  node (by decide) (cons_field (by decide) hcondition
    (cons_field (by decide) hthen (last_field (by decide) (optional helse))))

end Outline.PlainlyNamed

open Outline.PlainlyNamed in
theorem Expr.plainlyNamed_outline (e : Expr) : e.outline.PlainlyNamed := by
  induction e using induction_on_children with
  | h e ih =>
    cases e with
    | number value => exact single (by decide) (.word (isPlainText_numeral value))
    | string value => exact single (by decide) (.quoted value)
    | character code => exact single (by decide) (.word (isPlainText_repr code.toNat))
    | boolean value =>
      have hvalue : IsPlainText (booleanText value) := by cases value <;> decide
      exact single (by decide) (.word hvalue)
    | symbol name => exact single (by decide) (.quoted name)
    | assignment operator assignee value =>
      have hassignee := ih assignee (by simp [children])
      have hvalue := ih value (by simp [children])
      exact node (by decide) (cons_field (by decide) (.quoted operator)
        (cons_field (by decide) hassignee (last_field (by decide) hvalue)))
    | binary operator left right =>
      have hleft := ih left (by simp [children])
      have hright := ih right (by simp [children])
      exact node (by decide) (cons_field (by decide) hleft
        (cons_field (by decide) (.quoted operator) (last_field (by decide) hright)))
    | ifThen condition thenBranch =>
      have hcondition := ih condition (by simp [children])
      have hthen := ih thenBranch (by simp [children])
      exact of_conditional hcondition hthen (by simp)
    | ifThenElse condition thenBranch elseBranch =>
      have hcondition := ih condition (by simp [children])
      have hthen := ih thenBranch (by simp [children])
      have helse := ih elseBranch (by simp [children])
      exact of_conditional hcondition hthen (by simpa using helse)
    | function name params body =>
      have hbody := ih body (by simp [children])
      exact of_function name params (by simpa using hbody)
    | external name params => exact of_function name params (by simp)
    | closure params body =>
      have hparams := map fun name (_ : name ∈ params) => Outline.PlainlyNamed.quoted name
      have hbody := ih body (by simp [children])
      exact node (by decide) (cons_field (by decide) hparams (last_field (by decide) hbody))
    | call callee arguments =>
      have hcallee := ih callee (by simp [children])
      have harguments := map fun e (he : e ∈ arguments) => ih e (by simp [children, he])
      rw [← outlines_eq_map] at harguments
      exact node (by decide) (cons_field (by decide) hcallee (last_field (by decide) harguments))
    | block body =>
      have hbody := map ih
      rw [children, ← outlines_eq_map] at hbody
      exact node (by decide) (last_field (by decide) hbody)

open Outline.PlainlyNamed in
theorem Program.plainlyNamed_outline (p : Program) : p.outline.PlainlyNamed :=
  .record (by decide) (List.cons_ne_nil _ _)
    (last_field (by decide) (map fun e _ => e.plainlyNamed_outline))

/-- In the outline of a program no bracket is closed that is not open, and at its end no bracket
and no quotation is left open. Printed over several lines, it has two spaces for each open bracket
at the start of every line, and no more. -/
theorem Program.wellIndented_printed_debug (p : Program) :
    (∀ front c back, p.outline.text.toList = front ++ c :: back → IsClosing c →
      (Indentation.initial.run "" front).1.quote = .outside →
        0 < (Indentation.initial.run "" front).1.depth) ∧
    (Indentation.initial.run "" p.outline.text.toList).1.depth = 0 ∧
    (Indentation.initial.run "" p.outline.text.toList).1.quote = .outside ∧
    WellIndented (p.printed .debug).toList := by
  have hprints := p.plainlyNamed_outline.fills _ [] Indentation.behind_initial
  have hpage : (p.printed .debug).toList = Indentation.initial.laid p.outline.text.toList :=
    toList_indented _
  simp only [Indentation.run_eq, hpage]
  refine ⟨fun front c back htext hc hquote => ?_, hprints.depth_eq, hprints.behind.outside,
    wellIndented_of_throughout hprints.behind.aligned⟩
  exact hprints.closesOpen front c back htext hquote hc

/-- A string with a bracket, a newline and a quote in it. The bracket does not count, and around
the quotation three others are open. -/
theorem Program.wellIndented_printed_debug_string :
    let p : Program := ⟨[.string ")\n\""]⟩
    let front := "Program \x7b body: [String(\")\\n\\\"\""
    let lines := "Program \x7b\n  body: [\n    String(\n"
    p.outline.text = front ++ ")] \x7d" ∧
      p.printed .debug = lines ++ "      \")\\n\\\"\"\n    )\n  ]\n\x7d" ∧
      0 < (Indentation.initial.run "" front.toList).1.depth ∧
      (6 : ℤ) = 2 * openAt (lines.toList ++ "      ".toList) '"' := by
  intro p front lines
  have htext : p.outline.text = front ++ ")] \x7d" := by decide +kernel
  have hprinted : p.printed .debug = lines ++ "      \")\\n\\\"\"\n    )\n  ]\n\x7d" := by
    decide +kernel
  have hlast : lines.toList.getLast? = some '\n' := by decide +kernel
  have hline : IsLine (p.printed .debug).toList lines.toList
      ("      ".toList ++ '"' :: ")\\n\\\"\"".toList) "\n    )\n  ]\n\x7d".toList := by
    refine ⟨by rw [hprinted]; decide +kernel, by simp [hlast], ?_, by simp⟩
    simp
  obtain ⟨hopen, -, -, hindent⟩ := p.wellIndented_printed_debug
  refine ⟨htext, hprinted, hopen _ ')' "] \x7d".toList ?_ (.inr (.inl rfl)) (by decide +kernel),
    hindent _ _ _ _ _ hline (by simp) (by decide)⟩
  rw [htext]
  decide +kernel

end ExprLang
