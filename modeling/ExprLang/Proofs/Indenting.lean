import ExprLang.Indentation
import ExprLang.Proofs.Quotations

/-!
# What indentation keeps

A text is laid out from its start, each character by the state that those before it left behind.
A bracket or comma outside quotations comes with a line break, and a space may be left out. So the
quotations are the same afterwards, and all else that is not spacing stands in the same order.
-/
namespace ExprLang

/-- An opening bracket. -/
def IsOpening (c : Char) : Prop := c = '{' ∨ c = '(' ∨ c = '['

/-- A closing bracket. -/
def IsClosing (c : Char) : Prop := c = '}' ∨ c = ')' ∨ c = ']'

instance (c : Char) : Decidable (IsOpening c) := inferInstanceAs (Decidable (_ ∨ _ ∨ _))

instance (c : Char) : Decidable (IsClosing c) := inferInstanceAs (Decidable (_ ∨ _ ∨ _))

namespace Indentation

/-- The state behind a text. -/
def after (s : Indentation) : List Char → Indentation
  | [] => s
  | c :: rest => (s.step c).1.after rest

/-- What a text becomes. -/
def laid (s : Indentation) : List Char → List Char
  | [] => []
  | c :: rest => (s.step c).2 ++ (s.step c).1.laid rest

variable {s : Indentation} {c : Char} {text : List Char}

theorem run_eq (s : Indentation) (done : String) (text : List Char) :
    s.run done text = (s.after text, done ++ String.ofList (s.laid text)) := by
  induction text generalizing s done with
  | nil => simp [run, after, laid]
  | cons c text ih => simp [run, after, laid, ih, String.append_assoc]

theorem after_append (s : Indentation) (front back : List Char) :
    s.after (front ++ back) = (s.after front).after back := by
  induction front generalizing s with
  | nil => rfl
  | cons c front ih => exact ih _

theorem laid_append (s : Indentation) (front back : List Char) :
    s.laid (front ++ back) = s.laid front ++ (s.after front).laid back := by
  induction front generalizing s with
  | nil => rfl
  | cons c front ih => rw [List.cons_append, laid, laid, ih, List.append_assoc, after]

section Steps

variable (hs : s.quote = .outside)
include hs

theorem step_opening (hc : IsOpening c) : s.step c =
    ({ s with depth := s.depth + 1, dropsSpace := true }, c :: newLine (s.depth + 1)) := by
  rcases hc with rfl | rfl | rfl <;> simp [step, hs]

theorem step_closing (hc : IsClosing c) :
    s.step c = ({ s with depth := s.depth - 1 }, newLine (s.depth - 1) ++ [c]) := by
  rcases hc with rfl | rfl | rfl <;> simp [step, hs]

theorem step_comma : s.step ',' = ({ s with dropsSpace := true }, ',' :: newLine s.depth) := by
  simp [step, hs]

theorem step_space :
    s.step ' ' = ({ s with dropsSpace := false }, if s.dropsSpace then [] else [' ']) := by
  by_cases hd : s.dropsSpace = true <;> simp [step, hs, hd]

theorem step_plain (hq : c ≠ '"') (ho : ¬IsOpening c) (hc : ¬IsClosing c) (hcomma : c ≠ ',')
    (hspace : c ≠ ' ') : s.step c = ({ s with dropsSpace := false }, [c]) := by
  unfold IsOpening IsClosing at *
  simp [step, hs, hq, ho, hc, hcomma, hspace]

end Steps

theorem step_inside {depth : ℕ} {drops : Bool} (hc : c ≠ '"') (hback : c ≠ '\\') :
    step ⟨depth, drops, .inside⟩ c = (⟨depth, drops, .inside⟩, [c]) := by
  simp [step, QuoteState.after, hback, hc]

/-- Up to the end of a quotation a text is laid out as it is. -/
theorem laid_inside (depth : ℕ) (drops : Bool) (text : List Char) :
    laid ⟨depth, drops, .inside⟩ text =
      (insideQuotes text).1 ++ laid ⟨depth, drops, .outside⟩ (insideQuotes text).2 := by
  fun_induction insideQuotes text with
  | case1 => rfl
  | case2 c rest ih => exact congrArg ('\\' :: c :: ·) ih
  | case3 rest => rfl
  | case4 c rest hpair hc ih =>
    by_cases hback : c = '\\'
    · cases rest with
      | nil => simp [laid, step, insideQuotes]
      | cons d rest => exact absurd rfl (hpair d rest hback)
    · rw [laid, step_inside hc hback, ih]
      rfl

theorem eq_of_mem_newLine {depth : ℕ} (h : c ∈ newLine depth) : c = '\n' ∨ c = ' ' := by
  rcases List.mem_cons.1 h with h | h
  · exact .inl h
  · exact .inr (List.eq_of_mem_replicate h)

theorem newLine_ne_quote {depth : ℕ} : ∀ c ∈ newLine depth, c ≠ '"' := by
  intro c hc
  rcases eq_of_mem_newLine hc with rfl | rfl <;> decide

/-- A line break as parts of a text. -/
def breakPieces (depth : ℕ) : List Piece := (newLine depth).map .plain

/-- What becomes of a character outside quotations. -/
inductive BlockOf : Char → List Piece → Prop
  | opening {c : Char} (h : IsOpening c) (depth : ℕ) : BlockOf c (.plain c :: breakPieces depth)
  | closing {c : Char} (h : IsClosing c) (depth : ℕ) : BlockOf c (breakPieces depth ++ [.plain c])
  | comma (depth : ℕ) : BlockOf ',' (.plain ',' :: breakPieces depth)
  | dropped : BlockOf ' ' []
  | kept {c : Char} (ho : ¬IsOpening c) (hc : ¬IsClosing c) (hcomma : c ≠ ',') :
    BlockOf c [.plain c]

/-- The parts of a text and of what it is laid out as. Quotations are kept. -/
inductive LaidOut : List Piece → List Piece → Prop
  | nil : LaidOut [] []
  | quotation {ps qs : List Piece} (text : List Char) (h : LaidOut ps qs) :
    LaidOut (.quotation text :: ps) (.quotation text :: qs)
  | plain {c : Char} {block ps qs : List Piece} (hblock : BlockOf c block) (h : LaidOut ps qs) :
    LaidOut (.plain c :: ps) (block ++ qs)

theorem block_step (hs : s.quote = .outside) (hc : c ≠ '"') :
    (s.step c).1.quote = .outside ∧ (∀ d ∈ (s.step c).2, d ≠ '"') ∧
      BlockOf c ((s.step c).2.map .plain) := by
  by_cases hopening : IsOpening c
  · rw [step_opening hs hopening]
    exact ⟨hs, List.forall_mem_cons.2 ⟨hc, newLine_ne_quote⟩, .opening hopening _⟩
  by_cases hclosing : IsClosing c
  · rw [step_closing hs hclosing, List.map_append]
    exact ⟨hs, List.forall_mem_append.2 ⟨newLine_ne_quote, by simpa using hc⟩,
      .closing hclosing _⟩
  by_cases hcomma : c = ','
  · rw [hcomma, step_comma hs]
    exact ⟨hs, List.forall_mem_cons.2 ⟨by decide, newLine_ne_quote⟩, .comma _⟩
  by_cases hspace : c = ' '
  · rw [hspace, step_space hs]
    cases s.dropsSpace with
    | true => exact ⟨hs, by simp, .dropped⟩
    | false => exact ⟨hs, by simp, .kept (by decide) (by decide) (by decide)⟩
  · rw [step_plain hs hc hopening hclosing hcomma hspace]
    exact ⟨hs, by simpa using hc, .kept hopening hclosing hcomma⟩

/-- Whatever the text is, its parts are laid out one by one. -/
theorem laidOut_laid (hs : s.quote = .outside) (text : List Char) :
    LaidOut (pieces text) (pieces (s.laid text)) := by
  induction text using pieces.induct generalizing s with
  | case1 =>
    rw [laid, pieces_nil]
    exact .nil
  | case2 rest ih =>
    obtain ⟨depth, drops, quote⟩ := s
    obtain rfl : quote = .outside := hs
    let back := laid ⟨depth, drops, .outside⟩ (insideQuotes rest).2
    have hlaid : laid ⟨depth, drops, .outside⟩ ('"' :: rest) =
        '"' :: ((insideQuotes rest).1 ++ back) := congrArg ('"' :: ·) (laid_inside depth drops rest)
    have hend : insideQuotes ((insideQuotes rest).1 ++ back) = ((insideQuotes rest).1, back) := by
      refine insideQuotes_append_eq fun hnil => ?_
      simp [back, hnil, laid]
    rw [hlaid, pieces_quote, pieces_quote, hend]
    exact .quotation _ (ih rfl)
  | case3 c rest hc ih =>
    obtain ⟨houtside, hquote, hblock⟩ := block_step hs hc
    rw [laid, pieces_cons_of_ne hc, pieces_append_of_ne hquote]
    exact .plain hblock (ih houtside)

variable {block ps qs : List Piece}

theorem solid_breakPieces (depth : ℕ) : (breakPieces depth).filter (!·.isSpacing) = [] := by
  simp [breakPieces, newLine, Piece.isSpacing]

theorem BlockOf.solid (h : BlockOf c block) :
    block.filter (!·.isSpacing) = [Piece.plain c].filter (!·.isSpacing) := by
  cases h with
  | opening _ depth | comma depth =>
    rw [← List.singleton_append, List.filter_append, solid_breakPieces, List.append_nil]
  | closing _ depth => rw [List.filter_append, solid_breakPieces, List.nil_append]
  | dropped => rfl
  | kept => rfl

theorem LaidOut.solid (h : LaidOut ps qs) :
    qs.filter (!·.isSpacing) = ps.filter (!·.isSpacing) := by
  induction h with
  | nil => rfl
  | quotation text _ ih => rw [List.filter_cons, List.filter_cons, ih]
  | plain hblock _ ih =>
    rw [List.filter_append, hblock.solid, ih, ← List.filter_append, List.singleton_append]

end Indentation

theorem toList_indented (text : String) :
    (indented text).toList = Indentation.initial.laid text.toList := by
  simp [indented, Indentation.run_eq]

/-- Indentation keeps the quotations of a text, and all that is left of it without the spaces and
newlines between them. Its parts, which make up the whole text, are laid out one by one. -/
theorem quotations_condensed_indented (text : String) :
    quotations (indented text).toList = quotations text.toList ∧
      condensed (indented text).toList = condensed text.toList ∧
      (pieces text.toList).flatMap Piece.text = text.toList ∧
      Indentation.LaidOut (pieces text.toList) (pieces (indented text).toList) := by
  have hlaid : Indentation.LaidOut (pieces text.toList) (pieces (indented text).toList) := by
    rw [toList_indented]
    exact Indentation.laidOut_laid rfl _
  have hsolid : solidPieces (indented text).toList = solidPieces text.toList := hlaid.solid
  refine ⟨?_, ?_, flatMap_text_pieces _, hlaid⟩
  · rw [quotations_eq, quotations_eq, hsolid]
  · rw [condensed, condensed, hsolid]

/-- A space behind a comma is left out, but not if it is quoted or behind another one. -/
example : (indented "a,  \", \"").toList = "a,\n \", \"".toList := by decide +kernel

end ExprLang
