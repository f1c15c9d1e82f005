import ExprLang.Proofs.Scanning
import Mathlib.Tactic

/-!
# Quotations in a text

A text is read from its start. A quote opens a quotation, and the next quote that no backslash
protects closes it, or else the end of the text. What stands in no quotation is read character by
character. A text that is quoted on purpose is read as one quotation on one line.
-/
namespace ExprLang

/-- What of a text behind an opening quote is still quoted, with the quote that closes it, and
what is left. A backslash protects the character behind it. -/
def insideQuotes : List Char → List Char × List Char
  | [] => ([], [])
  | '\\' :: c :: rest => ('\\' :: c :: (insideQuotes rest).1, (insideQuotes rest).2)
  | c :: rest =>
    if c = '"' then ([c], rest) else (c :: (insideQuotes rest).1, (insideQuotes rest).2)

theorem insideQuotes_append (text : List Char) :
    (insideQuotes text).1 ++ (insideQuotes text).2 = text := by
  fun_induction insideQuotes text with
  | case1 => rfl
  | case2 c rest ih => simp [ih]
  | case3 rest hback => rfl
  | case4 c rest hback hc ih => simp [ih]

theorem length_insideQuotes_le (text : List Char) :
    (insideQuotes text).2.length ≤ text.length := by
  have h := congrArg List.length (insideQuotes_append text)
  rw [List.length_append] at h
  omega

theorem insideQuotes_cons_of_ne {c : Char} (hback : c ≠ '\\') (hc : c ≠ '"') (rest : List Char) :
    insideQuotes (c :: rest) = (c :: (insideQuotes rest).1, (insideQuotes rest).2) := by
  rw [insideQuotes.eq_3 _ _ (by simp [hback]), if_neg hc]

/-- A quotation that is closed ends at the same place whatever is behind it. -/
theorem insideQuotes_append_eq {text back : List Char}
    (h : (insideQuotes text).2 = [] → back = []) :
    insideQuotes ((insideQuotes text).1 ++ back) = ((insideQuotes text).1, back) := by
  fun_induction insideQuotes text with
  | case1 => simp [h rfl, insideQuotes]
  | case2 c rest ih => simp [insideQuotes, ih h]
  | case3 rest => rfl
  | case4 c rest hpair hc ih =>
    -- A backslash that ends the text has nothing to protect.
    by_cases hback : c = '\\'
    · cases rest with
      | nil => simp [hback, h rfl, insideQuotes]
      | cons d rest => exact absurd rfl (hpair d rest hback)
    · rw [List.cons_append, insideQuotes_cons_of_ne hback hc, ih h]

/-- A part of a text. -/
inductive Piece where
  /-- From a quote to the one that closes it, or to the end. -/
  | quotation (text : List Char)
  /-- A character outside the quotations. -/
  | plain (c : Char)

namespace Piece

def text : Piece → List Char
  | quotation text => text
  | plain c => [c]

def quotation? : Piece → Option (List Char)
  | quotation text => some text
  | plain _ => none

def plain? : Piece → Option Char
  | quotation _ => none
  | plain c => some c

/-- A space or newline outside the quotations. -/
def isSpacing : Piece → Bool
  | quotation _ => false
  | plain c => c == ' ' || c == '\n'

end Piece

/-- The parts of a text in their order. -/
def pieces : List Char → List Piece
  | [] => []
  | c :: rest =>
    if c = '"' then .quotation (c :: (insideQuotes rest).1) :: pieces (insideQuotes rest).2
    else .plain c :: pieces rest
termination_by text => text.length
decreasing_by
  · exact Nat.lt_succ_of_le (length_insideQuotes_le rest)
  · exact Nat.lt_succ_self _

/-- The quotations of a text. -/
def quotations (text : List Char) : List (List Char) := (pieces text).filterMap Piece.quotation?

/-- What stands in no quotation of a text. -/
def unquoted (text : List Char) : List Char := (pieces text).filterMap Piece.plain?

/-- The parts of a text that are no spacing. -/
def solidPieces (text : List Char) : List Piece := (pieces text).filter (!·.isSpacing)

/-- A text without the spaces and newlines outside its quotations. -/
def condensed (text : List Char) : List Char := (solidPieces text).flatMap Piece.text

section Pieces

variable {c : Char}

@[simp] theorem pieces_nil : pieces [] = [] := by
  rw [pieces]

theorem pieces_quote (rest : List Char) : pieces ('"' :: rest) =
    .quotation ('"' :: (insideQuotes rest).1) :: pieces (insideQuotes rest).2 := by
  rw [pieces, if_pos rfl]

theorem pieces_cons_of_ne (hc : c ≠ '"') (rest : List Char) :
    pieces (c :: rest) = .plain c :: pieces rest := by
  rw [pieces, if_neg hc]

/-- Without quotes every character is a part. -/
theorem pieces_append_of_ne {front : List Char} (h : ∀ c ∈ front, c ≠ '"') (rest : List Char) :
    pieces (front ++ rest) = front.map .plain ++ pieces rest := by
  induction front with
  | nil => rfl
  | cons c front ih =>
    obtain ⟨hc, hfront⟩ := List.forall_mem_cons.1 h
    rw [List.cons_append, pieces_cons_of_ne hc, ih hfront, List.map_cons, List.cons_append]

theorem pieces_of_ne {text : List Char} (h : ∀ c ∈ text, c ≠ '"') :
    pieces text = text.map .plain := by
  simpa using pieces_append_of_ne h []

/-- The parts of a text make it up. -/
theorem flatMap_text_pieces (text : List Char) : (pieces text).flatMap Piece.text = text := by
  induction text using pieces.induct with
  | case1 => simp
  | case2 rest ih => simp [pieces_quote, ih, Piece.text, insideQuotes_append]
  | case3 c rest hc ih => simp [pieces_cons_of_ne hc, ih, Piece.text]

/-- Quotations are no spacing. -/
theorem quotations_eq (text : List Char) :
    quotations text = (solidPieces text).filterMap Piece.quotation? := by
  rw [quotations, solidPieces, List.filterMap_filter]
  congr 1
  funext p
  cases p with
  | quotation => rfl
  | plain => simp [Piece.quotation?]

end Pieces

/-- The quotations of a text are closed, so that what follows it is read for itself. -/
def SelfContained (text : List Char) : Prop :=
  ∀ back, pieces (text ++ back) = pieces text ++ pieces back

namespace SelfContained

variable {front back text : List Char}

theorem nil : SelfContained [] := fun _ => by simp

theorem append (h : SelfContained front) (h' : SelfContained back) :
    SelfContained (front ++ back) := by
  intro rest
  rw [List.append_assoc, h, h', h back, List.append_assoc]

theorem of_ne (h : ∀ c ∈ text, c ≠ '"') : SelfContained text := by
  intro back
  rw [pieces_append_of_ne h, pieces_of_ne h]

end SelfContained

section Bodies

variable {body : List Char} (h : IsBody '"' body)
include h

/-- The first quote behind a body is the one that closes it. -/
theorem insideQuotes_body (back : List Char) :
    insideQuotes (body ++ '"' :: back) = (body ++ ['"'], back) := by
  induction h with
  | nil => rfl
  | plain hq hb _ ih => rw [List.cons_append, insideQuotes_cons_of_ne hb hq, ih, List.cons_append]
  | escaped _ _ ih => simp [insideQuotes, ih]

theorem pieces_body_append (back : List Char) : pieces ('"' :: (body ++ '"' :: back)) =
    .quotation ('"' :: (body ++ ['"'])) :: pieces back := by
  rw [pieces_quote, insideQuotes_body h]

theorem pieces_body :
    pieces ('"' :: (body ++ ['"'])) = [.quotation ('"' :: (body ++ ['"']))] := by
  rw [pieces_body_append h, pieces_nil]

theorem selfContained_body : SelfContained ('"' :: (body ++ ['"'])) := by
  intro back
  rw [pieces_body h, List.cons_append, List.append_assoc, List.singleton_append,
    pieces_body_append h, List.singleton_append]

end Bodies

section Quoted

theorem isBody_of_ne {quote : Char} {text : List Char} (h : ∀ c ∈ text, c ≠ quote ∧ c ≠ '\\') :
    IsBody quote text := by
  induction text with
  | nil => exact .nil
  | cons c text ih =>
    obtain ⟨⟨hq, hb⟩, htext⟩ := List.forall_mem_cons.1 h
    exact .plain hq hb (ih htext)

theorem isHexDigit_of_mem_toDigits {n : ℕ} {c : Char} (h : c ∈ Nat.toDigits 16 n) :
    isHexDigit c = true := by
  have hdigit : ∀ d < 16, isHexDigit (Nat.digitChar d) = true := by decide
  induction n using Nat.strongRecOn with
  | ind n ih =>
    rw [Nat.toDigits_eq_if (by decide)] at h
    split at h
    · next hn =>
      obtain rfl := List.mem_singleton.1 h
      exact hdigit n hn
    · next hn =>
      rcases List.mem_append.1 h with h | h
      · exact ih (n / 16) (by omega) h
      · obtain rfl := List.mem_singleton.1 h
        exact hdigit _ (Nat.mod_lt n (by decide))

/-- A code point is given in plain characters behind a backslash. -/
theorem isBody_codePointEscape (c : Char) :
    IsBody '"' (codePointEscape c) ∧ ∀ d ∈ codePointEscape c, d ≠ '\n' := by
  have hdigits : ∀ d ∈ Nat.toDigits 16 c.toNat, (d ≠ '"' ∧ d ≠ '\\') ∧ d ≠ '\n' := by
    intro d hd
    have hhex := isHexDigit_of_mem_toDigits hd
    refine ⟨⟨?_, ?_⟩, ?_⟩ <;> rintro rfl <;> simp [isHexDigit] at hhex
  have htail : ∀ d ∈ '\x7b' :: (Nat.toDigits 16 c.toNat ++ ['\x7d']),
      (d ≠ '"' ∧ d ≠ '\\') ∧ d ≠ '\n' :=
    List.forall_mem_cons.2 ⟨by decide, List.forall_mem_append.2 ⟨hdigits, by simp⟩⟩
  have htext : codePointEscape c =
      '\\' :: 'u' :: '\x7b' :: (Nat.toDigits 16 c.toNat ++ ['\x7d']) := by
    simp [codePointEscape]
  have hline : ∀ d ∈ '\x7b' :: (Nat.toDigits 16 c.toNat ++ ['\x7d']), d ≠ '\n' :=
    fun d hd => (htail d hd).2
  rw [htext]
  exact ⟨.escaped (by decide) (isBody_of_ne fun d hd => (htail d hd).1),
    List.forall_mem_cons.2 ⟨by decide, List.forall_mem_cons.2 ⟨by decide, hline⟩⟩⟩

theorem isBody_quotedChar (c : Char) :
    IsBody '"' (quotedChar c) ∧ ∀ d ∈ quotedChar c, d ≠ '\n' := by
  have hnamed : ∀ d : Char, d ≠ '\n' →
      IsBody '"' ['\\', d] ∧ ∀ x ∈ ['\\', d], x ≠ '\n' := by
    intro d hd
    exact ⟨.escaped hd .nil, by simp [hd]⟩
  unfold quotedChar
  split
  any_goals exact hnamed _ (by decide)
  next hn _ hq hb =>
    split
    · exact ⟨.plain hq hb .nil, by simpa using hn⟩
    · exact isBody_codePointEscape c

/-- What is quoted has its quotes and backslashes escaped, and its newlines are named. -/
theorem isBody_quoted (text : List Char) :
    IsBody '"' (text.flatMap quotedChar) ∧ ∀ d ∈ text.flatMap quotedChar, d ≠ '\n' := by
  refine ⟨IsBody.flatMap text fun c => (isBody_quotedChar c).1, fun d hd => ?_⟩
  obtain ⟨c, -, hd⟩ := List.mem_flatMap.1 hd
  exact (isBody_quotedChar c).2 d hd

end Quoted

end ExprLang
