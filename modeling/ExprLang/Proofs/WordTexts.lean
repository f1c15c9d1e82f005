import ExprLang.Proofs.Invariants

/-!
# Texts of words

Words that are written one behind the other are cut from the text again. Literals are written
with quotes and escapes, and all other words as they are. The words for which this holds are
those that stand in sources.
-/
namespace ExprLang

namespace Word

/-- A word as it stands in a source. What literals stand for is free. -/
def Proper : Word → Prop
  | (.eof, _) => False
  | (.identifier, s) => ProperName s
  | (.keyword, s) => s ∈ keywords
  | (.number, s) => s.toList ≠ [] ∧ ∀ c ∈ s.toList, c.isDigit = true
  | (.operator, s) =>
    s.toList ≠ [] ∧ (∀ c ∈ s.toList, isOperatorChar c = true) ∧ ¬['/', '/'] <+: s.toList
  | (.punctuation, s) => ∃ c, isMarkChar c = true ∧ s.toList = [c]
  | (.string, _) | (.character, _) => True

/-- A word as it is written. -/
def text : Word → String
  | (.string, s) => literal '"' s
  | (.character, s) => literal '\'' s
  | (_, s) => s

variable {w : Word} {ws : List Word}

/-- What is written of a word stands for it. -/
theorem Proper.writes (h : w.Proper) : Writes w.text.toList [w] := by
  obtain ⟨kind, s⟩ := w
  cases kind with
  | eof => exact h.elim
  | identifier => exact writes_name (properName_iff.1 h)
  | keyword => exact writes_keyword h
  | number => exact writes_digits h.1 h.2
  | operator => exact writes_operatorText (isOperatorText_iff.2 h)
  | punctuation =>
    obtain ⟨c, hc, hs⟩ := h
    obtain rfl : String.singleton c = s := String.toList_injective (by simp [hs])
    have hmark : Writes [c] [.mark c] := Writes.nil.mark hc
    simpa [text, mark] using hmark
  | string => exact writes_string s
  | character => exact writes_character s

/-- A word that is shown anywhere is proper. -/
theorem proper_of_shows {front piece back : List Char} (h : w.token.Shows front piece back) :
    w.Proper := by
  obtain ⟨kind, s⟩ := w
  cases kind with
  | eof => exact h
  | identifier =>
    obtain ⟨-, htext, hkey, -⟩ := h
    have hnot : s ∉ keywords := fun hk => TokenKind.noConfusion (hkey.2 hk)
    exact properName_iff.2 (by simpa [isName, isKeyword, hnot] using htext)
  | keyword =>
    obtain ⟨-, -, hkey, -⟩ := h
    exact hkey.1 rfl
  | number =>
    obtain ⟨rfl, hrun⟩ := h
    exact ⟨hrun.ne_nil, hrun.forall_mem⟩
  | operator =>
    obtain ⟨rfl, hrun, hslashes⟩ := h
    exact ⟨hrun.ne_nil, hrun.forall_mem, hslashes⟩
  | punctuation =>
    obtain ⟨rfl, hmark⟩ := h
    exact hmark
  | string | character => trivial

/-- No word goes on into the next one behind a space. -/
theorem writes_words (h : ∀ w ∈ ws, w.Proper) :
    Writes (" ".intercalate (ws.map text)).toList ws := by
  induction ws with
  | nil => exact .nil
  | cons w ws ih =>
    obtain ⟨hw, hws⟩ := List.forall_mem_cons.1 h
    cases ws with
    | nil => simpa using hw.writes
    | cons v vs => simpa [String.intercalate_cons_cons] using hw.writes.append_space (ih hws)

theorem proper_of_mem_scan {text : List Char} (h : w ∈ (scan text).1) : w.Proper := by
  obtain ⟨text, l, after, hl, hw⟩ := exists_next?_of_mem_scan h
  exact proper_of_shows (shows_of_next? hl hw (apart_nil text))

end Word

/-- The tokens of a source stand for the words that it is scanned into, and for the end. -/
theorem tokenize_words_iff_scan {source file : String} {ws : List Word} :
    (∃ tokens, tokenize source file = .ok tokens ∧
      tokens.map Token.word = ws ++ [(.eof, "EOF")]) ↔ scan source.toList = (ws, []) := by
  have hplaced : (placed file 0 (lexemes source.toList).1).map Token.word =
      (scan source.toList).1 := map_word_placed ..
  constructor
  · rintro ⟨tokens, h, hwords⟩
    obtain ⟨hleft, rfl⟩ := tokenize_eq_ok.1 h
    rw [List.map_append, hplaced] at hwords
    exact Prod.ext (List.append_inj_left' hwords rfl) hleft
  · intro h
    obtain ⟨hws, hleft⟩ := Prod.mk.inj h
    refine ⟨_, tokenize_eq_ok.2 ⟨hleft, rfl⟩, ?_⟩
    rw [List.map_append, map_word_placed, hws]
    rfl

/-- Words that are written with single spaces between them are the tokens of the text, exactly if
they are proper. In literals what is escaped is unescaped again. -/
theorem tokenize_words_iff_proper (ws : List Word) (file : String) :
    ((∃ tokens, tokenize (" ".intercalate (ws.map Word.text)) file = .ok tokens ∧
      tokens.map Token.word = ws ++ [(.eof, "EOF")]) ↔ ∀ w ∈ ws, w.Proper) ∧
    ∀ text, unescape (escape '"' text) = text ∧ unescape (escape '\'' text) = text := by
  refine ⟨?_, fun text => ⟨unescape_escape (.inl rfl) text, unescape_escape (.inr rfl) text⟩⟩
  rw [tokenize_words_iff_scan]
  constructor
  · intro h w hw
    have hscan : w ∈ (scan (" ".intercalate (ws.map Word.text)).toList).1 := by
      rw [h]
      exact hw
    exact Word.proper_of_mem_scan hscan
  · intro h
    simpa using Word.writes_words h [] .nil

end ExprLang
