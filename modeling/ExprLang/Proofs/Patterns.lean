import ExprLang.Lexeme
import Mathlib.Tactic

/-!
# Patterns

The lexemes of the language as a table of patterns. A pattern matches the front of a text in
several ways, of which one comes first: a choice prefers its left side, and a repetition goes on
as long as it can. The lexeme that begins a text is the one that the first pattern of the table
to match there cuts off.
-/
namespace ExprLang

/-- Regular expressions over classes of characters. -/
inductive Regex where
  /-- A character of a class. -/
  | one (among : Char → Bool)
  /-- A piece and another one behind it. -/
  | seq (front back : Regex)
  /-- A piece of one kind or of another. -/
  | either (left right : Regex)
  /-- Any number of pieces. -/
  | many (item : Regex)

namespace Regex

/-- A piece in front of a way to match the text behind it. -/
def prepend (piece : List Char) (way : List Char × List Char) : List Char × List Char :=
  (piece ++ way.1, way.2)

@[simp] theorem prepend_nil : prepend [] = id := rfl

@[simp] theorem prepend_comp (front back : List Char) :
    prepend front ∘ prepend back = prepend (front ++ back) := by
  funext way
  simp [prepend]

/-- The ways to take pieces off a text one by one, those with more pieces first. Every piece has
to take a character. -/
def greedily (step : List Char → List (List Char × List Char)) (text : List Char) :
    List (List Char × List Char) :=
  ((step text).flatMap fun (piece, rest) =>
    if rest.length < text.length then (greedily step rest).map (prepend piece) else []) ++
    [([], text)]
termination_by text.length

/-- The ways in which an expression matches the front of a text, each with what follows. The
preferred ones come first. -/
def splits : Regex → List Char → List (List Char × List Char)
  | one _, [] => []
  | one among, c :: rest => if among c then [([c], rest)] else []
  | seq front back, text =>
    (front.splits text).flatMap fun (piece, rest) => (back.splits rest).map (prepend piece)
  | either left right, text => left.splits text ++ right.splits text
  | many item, text => greedily item.splits text

variable {p : Char → Bool} {r s : Regex} {c : Char}

theorem splits_one_seq {rest : List Char} : (seq (one p) s).splits (c :: rest) =
    if p c then (s.splits rest).map (prepend [c]) else [] := by
  cases hc : p c <;> simp [splits, hc]

/-- A repetition is left at once, or after an item and a repetition behind it. -/
theorem splits_many_seq (text : List Char) : (seq (many r) s).splits text =
    ((r.splits text).flatMap fun (piece, rest) =>
      if rest.length < text.length then ((seq (many r) s).splits rest).map (prepend piece)
      else []) ++ s.splits text := by
  rw [splits, splits, greedily, List.flatMap_append, List.flatMap_assoc]
  congr 1
  · refine List.flatMap_congr fun way _ => ?_
    simp only
    split_ifs
    · simp only [splits, List.flatMap_map, List.map_flatMap, List.map_map, prepend_comp, prepend]
    · rfl
  · simp

theorem splits_many_seq_of_nil {text : List Char} (h : r.splits text = []) :
    (seq (many r) s).splits text = s.splits text := by
  rw [splits_many_seq, h]
  rfl

theorem splits_many_seq_of_singleton {text piece rest : List Char}
    (h : r.splits text = [(piece, rest)]) (hlt : rest.length < text.length)
    (hs : s.splits text = []) : (seq (many r) s).splits text =
      ((seq (many r) s).splits rest).map (prepend piece) := by
  rw [splits_many_seq, h, hs]
  simp [hlt]

/-- A repetition of characters is as long as possible. -/
theorem head?_splits_many_one (text : List Char) :
    ((many (one p)).splits text).head? = some (text.takeWhile p, text.dropWhile p) := by
  induction text with
  | nil => rw [splits, greedily]; rfl
  | cons c text ih =>
    rw [splits] at ih ⊢
    rw [greedily]
    cases hc : p c with
    | true => simp [splits, hc, ih, prepend]
    | false => simp [splits, hc]

/-- At least one piece. -/
def plus (item : Regex) : Regex := seq item (many item)

/-- A character of a literal, or a backslash with the character that it protects. -/
def unit (quote : Char) : Regex :=
  either (one fun c => c != quote && c != '\\') (seq (one (· == '\\')) (one (· != '\n')))

section Quoted

variable {quote : Char} {rest : List Char}

theorem splits_unit_protected : (unit quote).splits ('\\' :: c :: rest) =
    if c = '\n' then [] else [(['\\', c], rest)] := by
  by_cases hc : c = '\n' <;> simp [unit, splits, hc, prepend]

theorem splits_unit_cons (hc : c ≠ '\\') : (unit quote).splits (c :: rest) =
    if c = quote then [] else [([c], rest)] := by
  by_cases hq : c = quote <;> simp_all [unit, splits]

/-- The body of a literal ends at the first quote that no backslash protects. -/
theorem head?_splits_body (h : quote ≠ '\\') (text : List Char) :
    ((seq (many (unit quote)) (one (· == quote))).splits text).head? =
      (enclosed quote text).map fun (body, after) => (body ++ [quote], after) := by
  have hquote : ∀ c rest, (one (· == quote)).splits (c :: rest) =
      if c = quote then [([c], rest)] else [] := by simp [splits]
  -- Wherever a unit of the body can be taken the quote does not match, so that nothing is gained
  -- by a shorter body.
  fun_induction enclosed quote text with
  | case1 => rw [splits_many_seq_of_nil rfl]; rfl
  | case2 rest => rw [splits_many_seq_of_nil splits_unit_protected, hquote, if_neg h.symm]; rfl
  | case3 c rest hc ih =>
    rw [splits_many_seq_of_singleton (splits_unit_protected.trans (if_neg hc)) (by simp)
      (by rw [hquote, if_neg h.symm]), List.head?_map, ih]
    simp [Function.comp_def, prepend]
  | case4 rest =>
    rw [splits_many_seq_of_nil ((splits_unit_cons h).trans (if_pos rfl)), hquote, if_pos rfl]
    rfl
  | case5 c rest hcons hc ih =>
    by_cases hslash : c = '\\'
    · cases rest with
      | nil =>
        subst hslash
        rw [splits_many_seq_of_nil (by simp [unit, splits]), hquote, if_neg hc]
        rfl
      | cons d rest => exact (hcons d rest hslash rfl).elim
    · rw [splits_many_seq_of_singleton ((splits_unit_cons hslash).trans (if_neg hc)) (by simp)
        (by rw [hquote, if_neg hc]), List.head?_map, ih]
      simp [Function.comp_def, prepend]

end Quoted

end Regex

/-- The texts of a kind of lexeme, and what such a text stands for. -/
structure Pattern where
  regex : Regex
  reading : String → Option (TokenKind × String)

namespace Pattern

open Regex

/-- The lexeme that a pattern cuts off the front of a text, and what follows it. -/
def cut? (p : Pattern) (text : List Char) : Option (Lexeme × List Char) :=
  (p.regex.splits text).head?.map fun (piece, after) =>
    (⟨piece, p.reading (String.ofList piece)⟩, after)

/-- A letter or an underscore, and letters, digits and underscores behind it. -/
def word : Pattern :=
  ⟨seq (one isNameStart) (many (one isNameChar)), fun text => Run.word.reading text⟩

def digits : Pattern := ⟨plus (one Char.isDigit), fun text => Run.digits.reading text⟩

def blanks : Pattern := ⟨plus (one isBlank), fun text => Run.blanks.reading text⟩

/-- Two slashes, and what is behind them on the line. -/
def comment : Pattern :=
  ⟨seq (one (· == '/')) (seq (one (· == '/')) (many (one (· != '\n')))),
    fun text => Run.comment.reading text⟩

/-- A literal between quotes, which stands for the characters that its body names. -/
def quoted (kind : TokenKind) (quote : Char) : Pattern :=
  ⟨seq (one (· == quote)) (seq (many (unit quote)) (one (· == quote))),
    fun text => some (kind, String.ofList (unescape (text.toList.drop 1).dropLast))⟩

def mark (m : Char) : Pattern := ⟨one (· == m), fun text => Run.mark.reading text⟩

def operator : Pattern := ⟨plus (one isOperatorChar), fun text => Run.operator.reading text⟩

/-- The patterns of marks and of operators. -/
def signs : List Pattern :=
  [mark ',', mark ';', mark '(', mark ')', mark '{', mark '}', mark '[', mark ']', operator]

/-- The patterns of the language, in the order in which they are tried. -/
def table : List Pattern :=
  word :: digits :: blanks :: comment :: quoted .string '"' :: quoted .character '\'' :: signs

variable {c : Char} {rest : List Char}

theorem cut?_nil : ∀ p ∈ table, p.cut? [] = none := by
  simp [table, signs, cut?, word, digits, blanks, comment, quoted, mark, operator, plus, splits]

/-- A run begins with a character of one class and goes on with those of another. -/
theorem cut?_run (r : Run) (p : Char → Bool) :
    cut? ⟨seq (one p) (many (one r.continues)), fun text => r.reading text⟩ (c :: rest) =
      if p c then Lexeme.cut c rest (.run r) else none := by
  rw [cut?, splits_one_seq]
  split_ifs
  · rw [List.head?_map, head?_splits_many_one]
    rfl
  · rfl

theorem cut?_comment : comment.cut? (c :: rest) =
    if c = '/' ∧ rest.head? = some '/' then Lexeme.cut c rest (.run .comment) else none := by
  have hcontinues : Run.comment.continues = (· != '\n') := rfl
  cases rest with
  | nil => simp [cut?, comment, splits_one_seq, splits]
  | cons d rest =>
    rw [cut?, comment, splits_one_seq, splits_one_seq]
    by_cases hc : c = '/' <;> by_cases hd : d = '/'
    · simp [hc, hd, head?_splits_many_one, prepend, Lexeme.cut, Run.lexeme, hcontinues]
    all_goals simp [hc, hd]

theorem cut?_quoted {kind : TokenKind} {quote : Char} (h : quote ≠ '\\') :
    (quoted kind quote).cut? (c :: rest) =
      if c = quote then Lexeme.cut c rest (.quote kind) else none := by
  rw [cut?, quoted, splits_one_seq]
  by_cases hc : c = quote
  · subst hc
    simp [head?_splits_body h, Function.comp_def, prepend, Lexeme.cut, Lexeme.quoted]
  · simp [hc]

theorem cut?_mark {m : Char} :
    (mark m).cut? (c :: rest) = if c = m then Lexeme.cut c rest (.run .mark) else none := by
  have htake : rest.takeWhile Run.mark.continues = [] := by cases rest <;> rfl
  have hdrop : rest.dropWhile Run.mark.continues = rest := by cases rest <;> rfl
  by_cases hc : c = m <;> simp [cut?, mark, splits, hc, Lexeme.cut, Run.lexeme, htake, hdrop]

theorem findSome?_marks (ms : List Char) : (ms.map mark).findSome? (·.cut? (c :: rest)) =
    if c ∈ ms then Lexeme.cut c rest (.run .mark) else none := by
  induction ms with
  | nil => rfl
  | cons m ms ih =>
    rw [List.map_cons, List.findSome?_cons, ih, cut?_mark]
    by_cases hm : c = m <;> simp [hm, Lexeme.cut]

section First

variable {P : Prop} [Decidable P] {p : Pattern} {ps : List Pattern}

/-- A run that is opened is the first to match. -/
theorem findSome?_cons_of_run {r : Run}
    (h : p.cut? (c :: rest) = if P then Lexeme.cut c rest (.run r) else none) :
    (p :: ps).findSome? (·.cut? (c :: rest)) =
      if P then Lexeme.cut c rest (.run r) else ps.findSome? (·.cut? (c :: rest)) := by
  rw [List.findSome?_cons, h]
  split_ifs <;> rfl

/-- A literal that is opened but not closed matches nowhere else. -/
theorem findSome?_cons_of_quote {kind : TokenKind} {quote : Char} (h : quote ≠ '\\')
    (hps : ∀ rest, ps.findSome? (·.cut? (quote :: rest)) = none) :
    (quoted kind quote :: ps).findSome? (·.cut? (c :: rest)) =
      if c = quote then Lexeme.cut c rest (.quote kind)
      else ps.findSome? (·.cut? (c :: rest)) := by
  rw [List.findSome?_cons, cut?_quoted h]
  split_ifs with hc
  · cases Lexeme.cut c rest (.quote kind) with
    | none => exact hc ▸ hps rest
    | some l => rfl
  · rfl

end First

theorem findSome?_signs : signs.findSome? (·.cut? (c :: rest)) =
    if isMarkChar c then Lexeme.cut c rest (.run .mark)
    else if isOperatorChar c then Lexeme.cut c rest (.run .operator) else none := by
  have hsigns : signs = [',', ';', '(', ')', '{', '}', '[', ']'].map mark ++ [operator] := rfl
  have hoperator : operator.cut? (c :: rest) = _ := cut?_run .operator isOperatorChar
  rw [hsigns, List.findSome?_append, findSome?_marks, findSome?_cons_of_run hoperator]
  simp only [isMarkChar, List.contains_iff_mem]
  split_ifs <;> rfl

theorem findSome?_literals :
    (quoted .string '"' :: quoted .character '\'' :: signs).findSome? (·.cut? (c :: rest)) =
      if c = '"' then Lexeme.cut c rest (.quote .string)
      else if c = '\'' then Lexeme.cut c rest (.quote .character)
      else if isMarkChar c then Lexeme.cut c rest (.run .mark)
      else if isOperatorChar c then Lexeme.cut c rest (.run .operator) else none := by
  have hcharacter : ∀ c rest,
      (quoted .character '\'' :: signs).findSome? (·.cut? (c :: rest)) =
        if c = '\'' then Lexeme.cut c rest (.quote .character)
        else signs.findSome? (·.cut? (c :: rest)) := fun _ _ =>
    findSome?_cons_of_quote (by decide) fun _ => findSome?_signs
  rw [findSome?_cons_of_quote (by decide), hcharacter, findSome?_signs]
  intro rest
  rw [hcharacter, findSome?_signs]
  rfl

end Pattern

/-- The lexeme that begins a text is cut off by the first pattern that matches there. -/
theorem next?_eq_findSome? (text : List Char) :
    Lexeme.next? text = Pattern.table.findSome? (·.cut? text) := by
  cases text with
  | nil => exact (List.findSome?_eq_none_iff.2 Pattern.cut?_nil).symm
  | cons c rest =>
    have hword : Pattern.word.cut? (c :: rest) = _ := Pattern.cut?_run .word isNameStart
    have hdigits : Pattern.digits.cut? (c :: rest) = _ := Pattern.cut?_run .digits Char.isDigit
    have hblanks : Pattern.blanks.cut? (c :: rest) = _ := Pattern.cut?_run .blanks isBlank
    -- The openings are tested in the order of the table.
    rw [Lexeme.next?, Opening.of?]
    simp only [apply_ite (Option.bind · (Lexeme.cut c rest)), Option.bind_some, Option.bind_none]
    rw [Pattern.table, Pattern.findSome?_cons_of_run hword, Pattern.findSome?_cons_of_run hdigits,
      Pattern.findSome?_cons_of_run hblanks, Pattern.findSome?_cons_of_run Pattern.cut?_comment,
      Pattern.findSome?_literals]

end ExprLang
