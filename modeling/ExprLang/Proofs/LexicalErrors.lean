import ExprLang.Proofs.Seams

/-!
# Lexical errors

A source that is not cut to its end is cut up to a character that begins no lexeme there. What
stands before it is cut alike without it, and unless it is a quote, it begins no lexeme whatever
comes behind. A quote begins none where no quote closes it.
-/
namespace ExprLang

/-- Reading on from behind a quote, with each backslash paired with the character behind it, meets
no other such quote before the end of the text or a line break that is paired. -/
inductive Unclosed (quote : Char) : List Char → Prop
  | nil : Unclosed quote []
  | unpaired : Unclosed quote ['\\']
  | newline (rest : List Char) : Unclosed quote ('\\' :: '\n' :: rest)
  | paired (c : Char) {rest : List Char} (h : Unclosed quote rest) :
    Unclosed quote ('\\' :: c :: rest)
  | plain {c : Char} {rest : List Char} (hq : c ≠ quote) (hb : c ≠ '\\') (h : Unclosed quote rest) :
    Unclosed quote (c :: rest)

/-- A literal is left without its closing quote exactly where its body is unclosed. -/
theorem enclosed_eq_none_iff {quote : Char} {text : List Char} (hq : quote ≠ '\\') :
    enclosed quote text = none ↔ Unclosed quote text := by
  constructor
  · intro h
    fun_induction enclosed quote text with
    | case1 => exact .nil
    | case2 rest => exact .newline rest
    | case3 c rest _ ih => exact .paired c (ih (Option.map_eq_none_iff.1 h))
    | case4 => simp at h
    | case5 c rest hpair hc ih =>
      have hrest := ih (Option.map_eq_none_iff.1 h)
      by_cases hb : c = '\\'
      · subst hb
        cases rest with
        | nil => exact .unpaired
        | cons x xs => exact absurd rfl (hpair x xs rfl)
      · exact .plain hc hb hrest
  · intro h
    induction h with
    | nil => rfl
    | unpaired => simp [enclosed, hq.symm]
    | newline rest => simp [enclosed]
    | paired c _ ih => simp [enclosed, ih]
    | plain hc hb _ ih => rw [enclosed.eq_3 _ _ _ (by simp [hb]), if_neg hc, ih]; rfl

/-- A character that no lexeme begins with, unless it is a quote. -/
structure IsStray (c : Char) : Prop where
  isBlank : isBlank c = false
  isAlphanum : c.isAlphanum = false
  not_mem : c ∉ ['_', ',', ';', '(', ')', '{', '}', '[', ']',
    '+', '-', '*', '/', '%', '=', '&', '|', '<', '>', '!']

/-- Just a stray character begins no lexeme, if it does not open a literal that is closed. -/
theorem next?_eq_none_iff {c : Char} {rest : List Char} : Lexeme.next? (c :: rest) = none ↔
    IsStray c ∧ (c = '"' ∨ c = '\'' → Unclosed c rest) := by
  have hbackslash : c = '"' ∨ c = '\'' → c ≠ '\\' := by rintro (rfl | rfl) <;> decide
  constructor
  · intro h
    cases ho : Opening.of? c rest.head? with
    | none =>
      unfold Opening.of? at ho
      split_ifs at ho with hname hdigit hblank _ hstring hcharacter hmark hoperator
      have hquote : ¬(c = '"' ∨ c = '\'') := by simp [hstring, hcharacter]
      refine ⟨⟨by simpa using hblank, ?_, ?_⟩, fun hc => absurd hc hquote⟩
      · simp_all [isNameStart, Char.isAlphanum]
      · simp_all [isNameStart, isMarkChar, isOperatorChar]
    | some o =>
      have hbegins := Opening.begins_of_eq_some ho
      rw [Lexeme.next?, ho, Option.bind_some] at h
      cases o with
      | run r => simp [Lexeme.cut] at h
      | quote kind =>
        have hc : c = '"' ∨ c = '\'' := hbegins.imp And.left And.left
        have hopen : Unclosed c rest :=
          (enclosed_eq_none_iff (hbackslash hc)).1 (Option.map_eq_none_iff.1 h)
        refine ⟨?_, fun _ => hopen⟩
        rcases hc with rfl | rfl <;> constructor <;> decide
  · rintro ⟨⟨hblank, halphanum, hlisted⟩, hopen⟩
    have hname : isNameStart c = false := by simp_all [isNameStart, Char.isAlphanum]
    have hdigit : c.isDigit = false := by simp_all [Char.isAlphanum]
    have hmark : isMarkChar c = false := by simp_all [isMarkChar]
    have hoperator : isOperatorChar c = false := by simp_all [isOperatorChar]
    have hslash : c ≠ '/' := by rintro rfl; simp at hlisted
    by_cases hc : c = '"' ∨ c = '\''
    · have hnone := (enclosed_eq_none_iff (hbackslash hc)).2 (hopen hc)
      rcases hc with rfl | rfl <;>
        simp [Lexeme.next?, Opening.of?, Lexeme.cut, hname, hblank, hnone]
    · simp_all [Lexeme.next?, Opening.of?]

section Cuts

variable {text : List Char}

/-- The text in front of an error is cut alike before nothing, and before whatever begins with the
character of the error. -/
theorem lexemes_before {ls : List Lexeme} {left : List Char} (h : lexemes text = (ls, left))
    (back : List Char) (hback : ∀ x ∈ back.head?, x ∈ left.head?) :
    lexemes (ls.flatMap Lexeme.text ++ back) = (ls ++ (lexemes back).1, (lexemes back).2) := by
  induction text using lexemes.induct generalizing ls with
  | case1 text hl =>
    rw [lexemes_of_none hl] at h
    obtain ⟨rfl, rfl⟩ := Prod.mk.inj h
    rfl
  | case2 text l after hl _ _ _ ih =>
    rw [lexemes_of_some hl] at h
    obtain ⟨rfl, rfl⟩ := Prod.mk.inj h
    have hhead : ∀ x ∈ ((lexemes after).1.flatMap Lexeme.text ++ back).head?,
        x ∈ after.head? ∨ x = '\n' ∧ ∀ y ∈ text.head?, isBlank y = false := by
      intro x hx
      left
      have hafter := lexemes_append after
      cases hfront : (lexemes after).1.flatMap Lexeme.text with
      | nil =>
        rw [hfront, List.nil_append] at hx hafter
        rw [← hafter]
        exact hback x hx
      | cons y ys =>
        rw [hfront] at hx hafter
        rw [← hafter]
        exact hx
    rw [List.flatMap_cons, List.append_assoc, lexemes_of_some (next?_before hl hhead), ih rfl]
    rfl

/-- No lexeme begins what is left of a text. -/
theorem next?_of_lexemes_eq {ls : List Lexeme} {left : List Char}
    (h : lexemes text = (ls, left)) : Lexeme.next? left = none := by
  induction text using lexemes.induct generalizing ls with
  | case1 text hl =>
    rw [lexemes_of_none hl] at h
    obtain ⟨-, rfl⟩ := Prod.mk.inj h
    exact hl
  | case2 text l after hl _ _ _ ih =>
    rw [lexemes_of_some hl] at h
    obtain ⟨-, rfl⟩ := Prod.mk.inj h
    exact ih rfl

end Cuts

/-- A source with an error is read up to a stray character, or to a quote that is left unclosed.
What stands before it has tokens, and every source that begins alike has the same error, unless
the quote is closed there. -/
theorem exact_of_tokenize_eq_error {source file : String} {e : SyntaxError}
    (h : tokenize source file = .error e) (hwidth : width source.toList < 2 ^ 32) :
    ∃ front c back, source.toList = front ++ c :: back ∧ e.position.offset.toNat = width front ∧
      e = ⟨.unrecognisedToken, String.singleton c, e.position.offset, file⟩ ∧
      (∃ tokens, tokenize (String.ofList front) file = .ok tokens) ∧
      IsStray c ∧ (c = '"' ∨ c = '\'' → Unclosed c back) ∧
      ∀ other, (c = '"' ∨ c = '\'' → Unclosed c other) →
        tokenize (String.ofList (front ++ c :: other)) file = .error e := by
  obtain ⟨c, back, hleft, rfl⟩ := tokenize_eq_error.1 h
  obtain ⟨ls, left, hcut⟩ : ∃ ls left, lexemes source.toList = (ls, left) := ⟨_, _, rfl⟩
  rw [hcut] at hleft ⊢
  obtain rfl : left = c :: back := hleft
  have hsource : source.toList = ls.flatMap Lexeme.text ++ c :: back := by
    rw [← lexemes_append source.toList, hcut]
  obtain ⟨hstray, hopen⟩ := next?_eq_none_iff.1 (next?_of_lexemes_eq hcut)
  have hprefix : lexemes (ls.flatMap Lexeme.text) = (ls, []) := by
    have hnil : lexemes [] = ([], []) := lexemes_of_none rfl
    simpa [hnil] using lexemes_before hcut [] (by simp)
  refine ⟨ls.flatMap Lexeme.text, c, back, hsource, ?_, rfl, ⟨_, tokenize_eq_ok.2 ⟨?_, rfl⟩⟩,
    hstray, hopen, fun other hother => tokenize_eq_error.2 ⟨c, other, ?_⟩⟩
  · rw [hsource, width_append] at hwidth
    exact UInt32.toNat_ofNat_of_lt' (Nat.lt_of_le_of_lt (Nat.le_add_right ..) hwidth)
  · rw [String.toList_ofList, hprefix]
  · have hagain := lexemes_before hcut (c :: other) (by simp)
    rw [lexemes_of_none (next?_eq_none_iff.2 ⟨hstray, hother⟩), List.append_nil] at hagain
    rw [String.toList_ofList, hagain]
    exact ⟨rfl, rfl⟩

/-- A string that stays open, as its line ends with a backslash. -/
theorem exact_of_tokenize_eq_error_quote :
    let source := "f(1) // é\n\"ab\\\nc\""
    let e : SyntaxError := ⟨.unrecognisedToken, "\"", 11, "s"⟩
    tokenize source "s" = .error e ∧ width source.toList < 2 ^ 32 ∧
      ∃ front c back, source.toList = front ++ c :: back ∧ width front = 11 ∧
        (∃ tokens, tokenize (String.ofList front) "s" = .ok tokens) ∧
        IsStray c ∧ (c = '"' ∨ c = '\'' → Unclosed c back) ∧
        ∀ other, (c = '"' ∨ c = '\'' → Unclosed c other) →
          tokenize (String.ofList (front ++ c :: other)) "s" = .error e := by
  intro source e
  have h : tokenize source "s" = .error e := by decide +kernel
  have hwidth : width source.toList < 2 ^ 32 := by decide +kernel
  obtain ⟨front, c, back, hsource, hfront, -, hrest⟩ := exact_of_tokenize_eq_error h hwidth
  exact ⟨h, hwidth, front, c, back, hsource, hfront.symm, hrest⟩

end ExprLang
