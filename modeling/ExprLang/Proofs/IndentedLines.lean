import ExprLang.Proofs.Indenting
import ExprLang.Proofs.SourceLines

/-!
# Indented lines

The brackets outside the quotations of a text are counted as they open and close. A line is
indented as it should be if two spaces for each open bracket stand before its first other
character, which is told at that character from the text before it.
-/
namespace ExprLang

/-- What a character adds to the number of open brackets. -/
def bracketWeight (c : Char) : ℤ := if IsOpening c then 1 else if IsClosing c then -1 else 0

/-- The number of brackets that are open behind a text. Those in quotations do not count. -/
def openBrackets (text : List Char) : ℤ := ((unquoted text).map bracketWeight).sum

/-- The number of brackets that are open at a character. One that it closes is closed already. -/
def openAt (front : List Char) (c : Char) : ℤ :=
  if IsClosing c then openBrackets (front ++ [c]) else openBrackets front

/-- Before the first character of a line that is no space, two spaces stand for each bracket that is
open there, and no more. -/
def WellIndented (text : List Char) : Prop :=
  ∀ before blanks c rest after, IsLine text before (blanks ++ c :: rest) after →
    (∀ b ∈ blanks, b = ' ') → c ≠ ' ' → (blanks.length : ℤ) = 2 * openAt (before ++ blanks) c

/-- Something holds at each character of a text, told from what stands before it. -/
def Throughout (P : List Char → Char → Prop) (text : List Char) : Prop :=
  ∀ front c back, text = front ++ c :: back → P front c

section Throughout

variable {P : List Char → Char → Prop} {c : Char} {front back text : List Char}

theorem throughout_nil : Throughout P [] := by
  intro front c back h
  simp at h

theorem throughout_cons :
    Throughout P (c :: text) ↔ P [] c ∧ Throughout (fun front => P (c :: front)) text := by
  constructor
  · intro h
    refine ⟨h [] c text rfl, fun front d back htext => h (c :: front) d back ?_⟩
    rw [htext, List.cons_append]
  · rintro ⟨hc, htext⟩ front d back h
    cases front with
    | nil =>
      obtain ⟨rfl, -⟩ := List.cons.inj h
      exact hc
    | cons x front =>
      obtain ⟨rfl, hrest⟩ := List.cons.inj h
      exact htext front d back hrest

theorem throughout_append : Throughout P (front ++ back) ↔
    Throughout P front ∧ Throughout (fun before => P (front ++ before)) back := by
  induction front generalizing P with
  | nil => simp [throughout_nil]
  | cons c front ih => simp only [List.cons_append, throughout_cons, ih, and_assoc]

end Throughout

section OpenBrackets

variable {front text : List Char}

theorem SelfContained.openBrackets_append (h : SelfContained front) (back : List Char) :
    openBrackets (front ++ back) = openBrackets front + openBrackets back := by
  simp [openBrackets, unquoted, h back]

@[simp] theorem openBrackets_nil : openBrackets [] = 0 := by
  simp [openBrackets, unquoted]

theorem openBrackets_of_ne (h : ∀ c ∈ text, c ≠ '"') :
    openBrackets text = (text.map bracketWeight).sum := by
  have hplain : (Piece.plain? ∘ Piece.plain) = some := rfl
  rw [openBrackets, unquoted, pieces_of_ne h, List.filterMap_map, hplain, List.filterMap_some]

theorem openBrackets_singleton {c : Char} (hc : c ≠ '"') : openBrackets [c] = bracketWeight c := by
  have hne : ∀ d ∈ [c], d ≠ '"' := by simpa using hc
  rw [openBrackets_of_ne hne, List.map_singleton, List.sum_singleton]

theorem openBrackets_body {body : List Char} (h : IsBody '"' body) :
    openBrackets ('"' :: (body ++ ['"'])) = 0 := by
  rw [openBrackets, unquoted, pieces_body h]
  rfl

theorem openBrackets_newLine (depth : ℕ) : openBrackets (Indentation.newLine depth) = 0 := by
  rw [openBrackets_of_ne Indentation.newLine_ne_quote]
  simp [Indentation.newLine, bracketWeight, IsOpening, IsClosing]

end OpenBrackets

/-- The length of the last line of a text, if it has only spaces. -/
def indent? (text : List Char) : Option ℕ :=
  text.foldl (fun k c => if c = '\n' then some 0 else if c = ' ' then k.map (· + 1) else none)
    (some 0)

section Indent

variable {front back : List Char} {c : Char}

theorem indent?_concat (front : List Char) (c : Char) : indent? (front ++ [c]) =
    if c = '\n' then some 0 else if c = ' ' then (indent? front).map (· + 1) else none := by
  simp [indent?]

/-- A line that is more than spaces stays so up to its end. -/
theorem indent?_append_of_none (h : indent? front = none) (hback : ∀ c ∈ back, c ≠ '\n') :
    indent? (front ++ back) = none := by
  induction back generalizing front with
  | nil => simpa using h
  | cons c back ih =>
    obtain ⟨hc, hback⟩ := List.forall_mem_cons.1 hback
    have hstill : indent? (front ++ [c]) = none := by simp [indent?_concat, hc, h]
    rw [List.append_cons]
    exact ih hstill hback

theorem indent?_spaces (hfront : ∀ c ∈ front.getLast?, c = '\n') (hback : ∀ c ∈ back, c = ' ') :
    indent? (front ++ back) = some back.length := by
  induction back using List.reverseRecOn with
  | nil =>
    induction front using List.reverseRecOn with
    | nil => rfl
    | append_singleton front c _ =>
      obtain rfl : c = '\n' := by simpa using hfront
      simp [indent?_concat]
  | append_singleton back c ih =>
    rw [List.forall_mem_append] at hback
    obtain rfl : c = ' ' := by simpa using hback.2
    simp [← List.append_assoc, indent?_concat, ih hback.1]

theorem indent?_newLine (front : List Char) (depth : ℕ) :
    indent? (front ++ Indentation.newLine depth) = some (2 * depth) := by
  have hspaces : ∀ c ∈ List.replicate (2 * depth) ' ', c = ' ' := fun _ => List.eq_of_mem_replicate
  rw [Indentation.newLine, List.append_cons, indent?_spaces (by simp) hspaces,
    List.length_replicate]

end Indent

/-- If a character is the first of its line behind spaces, they are as many as they should be. -/
def Aligned (front : List Char) (c : Char) : Prop :=
  c ≠ ' ' → c ≠ '\n' → ∀ k ∈ indent? front, (k : ℤ) = 2 * openAt front c

section Aligned

variable {page text : List Char}

theorem throughout_aligned_of_none (h : indent? page = none) (htext : ∀ c ∈ text, c ≠ '\n') :
    Throughout (fun front => Aligned (page ++ front)) text := by
  rintro front c back rfl _ _ k hk
  rw [indent?_append_of_none h (List.forall_mem_append.1 htext).1] at hk
  simp at hk

theorem throughout_aligned_of_spacing (h : ∀ c ∈ text, c = '\n' ∨ c = ' ') :
    Throughout (fun front => Aligned (page ++ front)) text := by
  rintro front c back rfl hspace hnewline
  rcases h c (by simp) with rfl | rfl
  · exact absurd rfl hnewline
  · exact absurd rfl hspace

theorem wellIndented_of_throughout (h : Throughout Aligned text) : WellIndented text := by
  intro before blanks c rest after hline hblanks hc
  have hsplit : text = (before ++ blanks) ++ c :: (rest ++ after) := by
    simpa [List.append_assoc] using hline.split
  have hne : c ≠ '\n' := hline.unbroken c (by simp)
  exact h _ c _ hsplit hc hne _ (indent?_spaces hline.starts hblanks)

end Aligned

end ExprLang
