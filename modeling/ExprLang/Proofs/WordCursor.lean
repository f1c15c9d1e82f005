import ExprLang.Proofs.Reading
import ExprLang.Proofs.Scanning

/-!
# Cursors of words

A parser goes by the words of tokens and not by their places, so that what it makes of a
source may be told from the words of the source alone.
-/
namespace ExprLang

namespace Word

/-- A token that stands for a word and comes from no source. -/
def token (w : Word) : Token := .detached w.1 w.2

@[simp] theorem kind_token (w : Word) : w.token.kind = w.1 := rfl

@[simp] theorem value_token (w : Word) : w.token.value = w.2 := rfl

@[simp] theorem word_token (w : Word) : w.token.word = w := rfl

@[simp] theorem isEof_token (w : Word) : w.token.isEof = (w.1 == .eof) := rfl

@[simp] theorem mark_fst (c : Char) : (mark c).1 = .punctuation := rfl

@[simp] theorem keyword_fst (w : String) : (keyword w).1 = .keyword := rfl

@[simp] theorem name_fst (s : String) : (name s).1 = .identifier := rfl

@[simp] theorem operator_fst (o : String) : (operator o).1 = .operator := rfl

@[simp] theorem isMark_mark (c m : Char) : (mark c).token.isMark m = (c == m) := by
  rw [Bool.eq_iff_iff, Token.isMark_iff]
  simp [Token.firstChar, mark]

@[simp] theorem isWord_token (w : Word) (kind : TokenKind) (value : String) :
    w.token.isWord kind value = (w == (kind, value)) := by
  rw [Bool.eq_iff_iff, Token.isWord_iff, beq_iff_eq, Prod.ext_iff]
  rfl

theorem map_word_token (ws : List Word) : (ws.map token).map Token.word = ws := by
  rw [List.map_map]
  exact List.map_id ws

theorem isMark_of_ne {w : Word} (h : w.1 ≠ .punctuation) (m : Char) :
    w.token.isMark m = false := by
  simp [Token.isMark, h]

@[simp] theorem isMark_keyword (w : String) (m : Char) : (keyword w).token.isMark m = false :=
  isMark_of_ne (by simp) m

@[simp] theorem isMark_name (s : String) (m : Char) : (name s).token.isMark m = false :=
  isMark_of_ne (by simp) m

@[simp] theorem isMark_operator (o : String) (m : Char) : (operator o).token.isMark m = false :=
  isMark_of_ne (by simp) m

end Word

namespace Cursor

/-- The cursor of tokens with the given words. -/
def ofWords (ws : List Word) : Cursor := ⟨ws.map Word.token, .detached⟩

@[simp] theorem current_ofWords (w : Word) (ws : List Word) :
    (ofWords (w :: ws)).current = w.token := rfl

@[simp] theorem next_ofWords (w : Word) (ws : List Word) :
    (ofWords (w :: ws)).next = ofWords ws := rfl

@[simp] theorem kind_ofWords_nil : (ofWords []).current.kind = .eof := rfl

@[simp] theorem isMark_ofWords_nil (m : Char) : (ofWords []).current.isMark m = false := rfl

@[simp] theorem atEnd_ofWords_nil : (ofWords []).atEnd = true := rfl

@[simp] theorem atEnd_ofWords (w : Word) (ws : List Word) :
    (ofWords (w :: ws)).atEnd = (w.1 == .eof) := rfl

theorem alike_of_map_word {ts us : List Token} {m n : EndMark}
    (h : ts.map Token.word = us.map Token.word) (hmn : m.value = n.value) :
    Alike Token.SameWord ts.length ⟨ts, m⟩ ⟨us, n⟩ := by
  induction ts generalizing us with
  | nil =>
    obtain rfl : us = [] := by simpa using h.symm
    have hw : m.token.word = n.token.word := by simp [EndMark.token, Token.word, hmn]
    exact .last hw
  | cons t ts ih =>
    cases us with
    | nil => simp at h
    | cons u us =>
      obtain ⟨htu, hts⟩ := List.cons.inj h
      exact .further htu (ih hts)

end Cursor

/-- A program is the same for two cursors with the same words. -/
theorem program_of_map_word {ts us : List Token} {m n : EndMark} {p : Program} {c' : Cursor}
    (h : ts.map Token.word = us.map Token.word) (hmn : m.value = n.value)
    (hp : Parser.program ⟨ts, m⟩ = .ok p c') : ∃ c'', Parser.program ⟨us, n⟩ = .ok p c'' := by
  have hf := Parser.follows_program .sameWord (n := ts.length + 1)
  obtain ⟨k, hk, -, hd⟩ := hf.ok (Nat.lt_succ_self _) hp
  obtain ⟨b, hb, heq⟩ := hd _ ((Cursor.alike_of_map_word h hmn).mono hk)
  exact ⟨_, heq ▸ hb⟩

theorem map_word_placed (file : String) (offset : ℕ) (ls : List Lexeme) :
    (placed file offset ls).map Token.word = ls.filterMap Lexeme.reading := by
  induction ls generalizing offset with
  | nil => rfl
  | cons l ls ih =>
    rw [placed, List.map_append, ih, Lexeme.token?]
    cases hl : l.reading with
    | none => simp [hl]
    | some w => simp [hl, Token.word]

/-- What a source is read as is read from its words. -/
theorem ofSource_eq_ok_iff {source file streamFile : String} {ws : List Word} {p : Program}
    (h : scan source.toList = (ws, [])) : Program.ofSource source file streamFile = .ok p ↔
      ∃ os c', Reads (.statements os) (.ofWords ws) c' ∧ p = ⟨os.reduceOption⟩ := by
  obtain ⟨hws, hleft⟩ := Prod.mk.inj h
  have htokens : tokenize source file = .ok _ := tokenize_eq_ok.2 ⟨hleft, rfl⟩
  have hmap : (placed file 0 (lexemes source.toList).1).map Token.word =
      (ws.map Word.token).map Token.word := by
    rw [map_word_placed, hws, Word.map_word_token]
  have hlast : (endToken (width source.toList) file).value = EndMark.detached.value := rfl
  rw [Program.ofSource, htokens]
  refine (ofTokens_eq_ok_iff rfl).trans ?_
  constructor
  · rintro ⟨c', hp⟩
    obtain ⟨c'', hp⟩ := program_of_map_word hmap hlast hp
    obtain ⟨os, hos, hp⟩ := program_eq_ok_iff.1 hp
    exact ⟨os, c'', hos, hp⟩
  · rintro ⟨os, c', hos, hp⟩
    have hp : Parser.program (.ofWords ws) = .ok p c' := program_eq_ok_iff.2 ⟨os, hos, hp⟩
    exact program_of_map_word hmap.symm hlast.symm hp

end ExprLang
