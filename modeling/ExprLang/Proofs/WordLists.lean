import ExprLang.Proofs.Spelling
import ExprLang.Proofs.WordCursor

/-!
# Spelt lists

A list is read from its words if each element is read from its own, wherever these are
followed by a separator or the closing mark. Parameters are such elements.
-/
namespace ExprLang

namespace Parser

open Cursor

variable {α β : Type} {p : Parser α} {close separator : Char} {f : β → List Word} {g : β → α}
  {bs : List β}

/-- Elements are read from their words before a separator and before the closing mark. -/
structure ReadsEach (p : Parser α) (close separator : Char) (f : β → List Word) (g : β → α)
    (bs : List β) : Prop where
  follows : ∀ n, Follows Eq n Eq p p
  ne : separator ≠ close
  opens : ∀ b ∈ bs, ∀ ws, ¬Closes close (ofWords (f b ++ ws))
  reads : ∀ b ∈ bs, ∀ m ws, m = separator ∨ m = close →
    p (ofWords (f b ++ .mark m :: ws)) = .ok (g b) (ofWords (.mark m :: ws))

theorem closes_mark (m : Char) (ws : List Word) : Closes m (ofWords (.mark m :: ws)) :=
  .inr (by simp)

theorem not_closes_mark {m : Char} (h : m ≠ close) (ws : List Word) :
    ¬Closes close (ofWords (.mark m :: ws)) := not_closes_of_isMark (by simp) h

namespace ReadsEach

theorem tail {b : β} (h : ReadsEach p close separator f g (b :: bs)) :
    ReadsEach p close separator f g bs where
  follows := h.follows
  ne := h.ne
  opens := (List.forall_mem_cons.1 h.opens).2
  reads := (List.forall_mem_cons.1 h.reads).2

/-- An element is read before the elements behind it. -/
theorem head {b : β} (h : ReadsEach p close separator f g (b :: bs)) (rest : List Word) :
    p (ofWords (f b ++ ((bs.map f).flatMap (.mark separator :: ·) ++ .mark close :: rest))) =
      .ok (g b) (ofWords ((bs.map f).flatMap (.mark separator :: ·) ++ .mark close :: rest)) := by
  have hb := (List.forall_mem_cons.1 h.reads).1
  cases bs with
  | nil => exact hb close rest (.inr rfl)
  | cons b' bs => exact hb separator _ (.inl rfl)

theorem repeated (h : ReadsEach p close separator f g bs) (rest : List Word) :
    repeated (nextElement close separator p)
        (ofWords ((bs.map f).flatMap (.mark separator :: ·) ++ .mark close :: rest)) =
      .ok (bs.map g) (ofWords (.mark close :: rest)) := by
  have ht := fun n => takesBelow_nextElement close separator (h.follows n)
  induction bs with
  | nil =>
    have hnone : nextElement close separator p (ofWords (.mark close :: rest)) =
        .ok none (ofWords (.mark close :: rest)) :=
      nextElement_eq_ok.2 (.inl ⟨closes_mark close rest, rfl, rfl⟩)
    exact (repeated_eq_ok ht (stopsAtEnd_nextElement ..)).2 (.inl ⟨hnone, rfl⟩)
  | cons b bs ih =>
    have hopen := (List.forall_mem_cons.1 h.opens).1
    rw [repeated_eq_ok ht (stopsAtEnd_nextElement ..)]
    refine .inr ⟨g b, _, bs.map g, nextElement_eq_ok.2 (.inr ⟨?_, ?_, .inr ⟨?_, g b, ?_, rfl⟩⟩),
      ih h.tail, rfl⟩
    · exact not_closes_mark h.ne _
    · simp
    · rw [Bool.eq_false_iff]
      exact fun hm => hopen _ (.inr (by simpa using hm))
    · simpa using h.head rest

theorem elements (h : ReadsEach p close separator f g bs) (rest : List Word) :
    elements close separator p
        (ofWords (separated (.mark separator) (bs.map f) ++ .mark close :: rest)) =
      .ok (bs.map g) (ofWords (.mark close :: rest)) := by
  cases bs with
  | nil => exact (elements_eq_ok ..).2 (.inl ⟨closes_mark close rest, rfl, rfl⟩)
  | cons b bs =>
    have hopen := (List.forall_mem_cons.1 h.opens).1
    refine (elements_eq_ok ..).2 (.inr ⟨?_, g b, _, bs.map g, ?_, h.tail.repeated rest, rfl⟩)
    · rw [List.map_cons, separated, List.append_assoc]
      exact hopen _
    · rw [List.map_cons, separated, List.append_assoc]
      exact h.head rest

theorem delimited (h : ReadsEach p close separator f g bs) (opening : Char) (rest : List Word) :
    delimited opening close separator p
        (ofWords (.mark opening :: (separated (.mark separator) (bs.map f) ++
          .mark close :: rest))) =
      .ok (bs.map g) (ofWords rest) := by
  refine delimited_eq_ok.2 ⟨by simp, _, h.elements rest, by simp, rfl⟩

end ReadsEach

end Parser

open ExprLang.Parser Cursor

theorem readsEach_parameter (ps : List Parameter) :
    ReadsEach Rule.parameter ')' ',' Parameter.spelling id ps where
  follows _ := Rule.follows_parameter .eq
  ne := by decide
  opens p _ ws := by simp [Closes, Parameter.spelling, Token.isMark, Word.name]
  reads p _ m ws _ := by
    obtain ⟨type, _ | name⟩ := p <;>
      simp [Rule.parameter_eq_ok, Parameter.spelling, Word.name, Word.mark]

/-- Parameters are read from their list, whatever comes after it. -/
theorem parameters_ofWords (ps : List Parameter) (rest : List Word) :
    Rule.parameters (ofWords (listSpelling (ps.map Parameter.spelling) ++ rest)) =
      .ok ps (ofWords rest) := by
  unfold Rule.parameters
  simpa [listSpelling] using (readsEach_parameter ps).delimited '(' rest

theorem readsEach_name (ps : List String) :
    ReadsEach (expectName .variable) ')' ',' (fun p => [.name p]) id ps where
  follows _ := follows_expectName .eq .variable
  ne := by decide
  opens p _ ws := by simp [Closes, Token.isMark, Word.name]
  reads p _ m ws _ := by simp [Word.name, Word.mark]

theorem names_ofWords (ps : List String) (rest : List Word) :
    delimited '(' ')' ',' (expectName .variable)
      (ofWords (listSpelling (ps.map fun p => [.name p]) ++ rest)) = .ok ps (ofWords rest) := by
  simpa [listSpelling] using (readsEach_name ps).delimited '(' rest

end ExprLang
