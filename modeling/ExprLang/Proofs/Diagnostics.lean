import ExprLang.Proofs.Concatenation
import ExprLang.Proofs.Determinacy
import ExprLang.Proofs.SourceLines
import ExprLang.Report

/-!
# Diagnostics

An error lies at a character that is not blank, or at the end of the source. So it is within
what a report shows of its line, and as many bytes are before the caret as are before that
character in the line with its number.
-/
namespace ExprLang

section Offsets

variable {file : String} {offset : ℕ} {text front : List Char} {ts : List Token}

/-- An offset at a character that is not blank, or at the end of the text. -/
def Visible (text : List Char) (offset : ℕ) : Prop :=
  offset = width text ∨
    ∃ front c back, text = front ++ c :: back ∧ isBlank c = false ∧ offset = width front

/-- No lexeme begins where a text is left. -/
theorem next?_tokensFrom : Lexeme.next? (tokensFrom file offset text).2 = none := by
  induction text using cutting_induction generalizing offset with
  | stop text hl => rwa [tokensFrom, lexemes_of_none hl]
  | blank c text hc ih => rw [tokensFrom_blank hc, ih]
  | lexeme c text l after _ hl ih => rw [tokensFrom_of_some hl, ih]

/-- Every token begins at a character that is not blank. -/
theorem Tiles.visible {t : Token} (h : Tiles file front text ts) (ht : t ∈ ts) :
    ∃ before c back, text = before ++ c :: back ∧ isBlank c = false ∧
      t.span.start.toNat = width (front ++ before) := by
  induction h with
  | last => simp at ht
  | @token front gap piece back u ts hgap hshows hstart _ _ _ ih =>
    rcases List.mem_cons.1 ht with rfl | ht
    · obtain ⟨c, cs, rfl, hc⟩ := hshows.exists_cons
      exact ⟨gap, c, cs ++ back, by simp, hc, hstart⟩
    · obtain ⟨before, c, rest, rfl, hc, hplace⟩ := ih ht
      exact ⟨gap ++ piece ++ before, c, rest, by simp, hc, by simpa using hplace⟩

/-- The empty source is a program without statements. -/
theorem ofSource_empty (file streamFile : String) :
    Program.ofSource "" file streamFile = .ok ⟨[]⟩ := by
  refine ofSource_eq_ok_iff_program.2 ⟨by simp, _, program_eq_ok_iff.2 ⟨[], .noStatements ?_, rfl⟩⟩
  simp [Cursor.ofText, Cursor.atEnd, Cursor.current, EndMark.token, Token.isEof]

/-- An error lies where there is something to see, or at the end of the source. -/
theorem visible_of_ofSource_eq_error {source file streamFile : String} {e : SyntaxError}
    (h : Program.ofSource source file streamFile = .error e)
    (hwidth : width source.toList < 2 ^ 32) :
    Visible source.toList e.position.offset.toNat := by
  rcases ofSource_eq_error_iff_program.1 h with ⟨c, left, hleft, rfl⟩ | ⟨hleft, fault, c, hrun, rfl⟩
  · have hsplit := lexemes_append source.toList
    have hleft' : (lexemes source.toList).2 = c :: left := hleft
    have hextent := extent_lexemes_add source.toList
    rw [hleft'] at hsplit
    refine .inr ⟨_, c, left, hsplit.symm, Bool.eq_false_iff.2 fun hc => ?_, ?_⟩
    · have hnext := @next?_tokensFrom file 0 source.toList
      rw [hleft, next?_blank hc] at hnext
      simp at hnext
    · have hlt : extent (lexemes source.toList).1 < 2 ^ 32 := by omega
      exact UInt32.toNat_ofNat_of_lt' hlt
  · obtain ⟨t, ht, hoffset⟩ := Parser.Operation.program.offset_of_error hrun streamFile
    rw [hoffset]
    rcases List.mem_append.1 ht with ht | ht
    · have htiles : Tiles file [] source.toList (tokensFrom file 0 source.toList).1 :=
        tiles_tokensFrom hleft nofun hwidth
      obtain ⟨front, c, back, hsplit, hc, hplace⟩ := htiles.visible ht
      exact .inr ⟨front, c, back, hsplit, hc, hplace⟩
    · obtain rfl := List.mem_singleton.1 ht
      exact .inl (UInt32.toNat_ofNat_of_lt' hwidth)

end Offsets

section Trimming

variable {c : Char} {p : Char → Bool} {front back text line ending : List Char}

/-- What is taken from the front stops at the seam of two texts. -/
theorem takeWhile_append_of_head (h : ∀ c ∈ back.head?, p c = false) :
    (front ++ back).takeWhile p = front.takeWhile p ∧
      (front ++ back).dropWhile p = front.dropWhile p ++ back := by
  induction front with
  | nil =>
    cases back with
    | nil => exact ⟨rfl, rfl⟩
    | cons c back => simp [h c rfl]
  | cons c front ih =>
    cases hc : p c with
    | true => simpa [hc] using ih
    | false => simp [hc]

theorem trimEnd_append_blanks (h : ∀ c ∈ back, isBlank c = true) :
    trimEnd (front ++ back) = trimEnd front := by
  have hblank : ∀ c ∈ back.reverse, isBlank c = true := by simpa using h
  rw [trimEnd, List.reverse_append, List.dropWhile_append_of_pos hblank, trimEnd]

/-- Nothing is cut off before a character that is not blank. -/
theorem trimEnd_append_cons (hc : isBlank c = false) :
    trimEnd (front ++ c :: back) = front ++ c :: trimEnd back := by
  have hhead : ∀ x ∈ (c :: front.reverse).head?, isBlank x = false := by simpa using hc
  have hreverse : (front ++ c :: back).reverse = back.reverse ++ c :: front.reverse := by simp
  rw [trimEnd, hreverse, (takeWhile_append_of_head hhead).2]
  simp [trimEnd]

/-- A line is shown without the spaces before it and the blanks behind it. -/
structure IsShown (line margin shown tail : List Char) : Prop where
  split : line = margin ++ shown ++ tail
  margin : ∀ c ∈ margin, c = ' '
  first : ∀ c ∈ shown.head?, c ≠ ' '
  last : ∀ c ∈ shown.getLast?, isBlank c = false
  tail : ∀ c ∈ tail, isBlank c = true

theorem isShown_line (line : List Char) :
    IsShown line (line.takeWhile (· == ' ')) (trimEnd (line.dropWhile (· == ' ')))
      ((line.dropWhile (· == ' ')).rtakeWhile isBlank) := by
  have hsplit : trimEnd (line.dropWhile (· == ' ')) ++
      (line.dropWhile (· == ' ')).rtakeWhile isBlank = line.dropWhile (· == ' ') :=
    List.rdropWhile_append_rtakeWhile
  refine ⟨?_, fun c hc => ?_, fun c hc => ?_, fun c hc => ?_, fun c => List.mem_rtakeWhile_imp⟩
  · rw [List.append_assoc, hsplit, List.takeWhile_append_dropWhile]
  · simpa using List.mem_takeWhile_imp hc
  · have hfirst : (line.dropWhile (· == ' ')).head? = some c := by
      rw [← hsplit, List.head?_append, Option.mem_def.1 hc, Option.some_or]
    have hstop := List.head?_dropWhile_not (· == ' ') line
    rw [hfirst] at hstop
    simpa using hstop
  · obtain ⟨hne, rfl⟩ := List.mem_getLast?_eq_getLast hc
    have hlast : ¬isBlank ((trimEnd (line.dropWhile (· == ' '))).getLast hne) = true :=
      List.rdropWhile_last_not _ _ hne
    simpa using hlast

/-- A character that is not blank is shown, behind what is left of the text before it. -/
theorem shown_of_isBlank (hc : isBlank c = false) (left right : List Char) :
    (left ++ c :: right).takeWhile (· == ' ') = left.takeWhile (· == ' ') ∧
      trimEnd ((left ++ c :: right).dropWhile (· == ' ')) =
        left.dropWhile (· == ' ') ++ c :: trimEnd right := by
  have hhead : ∀ x ∈ (c :: right).head?, (x == ' ') = false := by
    rintro x ⟨⟩
    exact beq_false_of_ne fun hx => absurd (hx ▸ hc) (by decide)
  obtain ⟨htake, hdrop⟩ := takeWhile_append_of_head hhead
  exact ⟨htake, by rw [hdrop, trimEnd_append_cons hc]⟩

end Trimming

namespace SourceLine

variable {number offset : ℕ} {line ending : List Char}

/-- The newline behind a line is not shown, and does not matter to the spaces before it. -/
theorem margin_shown (h : ending = [] ∨ ending = ['\n']) :
    (⟨number, line ++ ending, offset⟩ : SourceLine).margin = line.takeWhile (· == ' ') ∧
      (⟨number, line ++ ending, offset⟩ : SourceLine).shown =
        trimEnd (line.dropWhile (· == ' ')) := by
  have hhead : ∀ c ∈ ending.head?, (c == ' ') = false := by rcases h with rfl | rfl <;> simp
  have hblank : ∀ c ∈ ending, isBlank c = true := by
    rcases h with rfl | rfl
    · nofun
    · exact List.forall_mem_singleton.2 isBlank_newline
  obtain ⟨htake, hdrop⟩ := takeWhile_append_of_head hhead
  exact ⟨htake, by rw [shown, hdrop, trimEnd_append_blanks hblank]⟩

end SourceLine

section Columns

theorem width_eq_length {text : List Char} (h : ∀ c ∈ text, c.utf8Size = 1) :
    width text = text.length := by
  induction text with
  | nil => rfl
  | cons c text ih =>
    obtain ⟨hc, htext⟩ := List.forall_mem_cons.1 h
    rw [width_cons, hc, ih htext, List.length_cons, Nat.add_comm]

/-- Digits take up one byte each. -/
theorem width_repr (n : ℕ) : width n.repr.toList = n.repr.length := by
  have hdigits : ∀ c ∈ n.repr.toList, c.utf8Size = 1 := by
    intro c hc
    rw [Nat.toList_repr] at hc
    have hcode := code_of_isDigit (Nat.isDigit_of_mem_toDigits (by decide) (by decide) hc)
    rw [Char.utf8Size_eq_one_iff, UInt32.le_iff_toNat_le]
    exact hcode.2.trans (by decide)
  rw [width_eq_length hdigits, String.length_toList]

theorem width_repeatedChar {c : Char} (h : c.utf8Size = 1) (n : ℕ) :
    width (repeatedChar n c).toList = n := by
  rw [repeatedChar, String.toList_ofList, width_eq_length, List.length_replicate]
  intro x hx
  rwa [List.eq_of_mem_replicate hx]

/-- The bytes of a number, a bar with spaces around it, and a text. -/
theorem width_numbered (n : ℕ) (text : List Char) :
    width (n.repr ++ " | " ++ String.ofList text).toList = n.repr.length + 3 + width text := by
  have hbar : width " | ".toList = 3 := by decide
  simp only [String.toList_append, width_append, width_repr, hbar, String.toList_ofList]

/-- The bytes of a gutter and of what is before the caret behind it. -/
theorem width_column (n k : ℕ) :
    width (repeatedChar (n + 1) ' ' ++ "|" ++ " " ++ repeatedChar k '-').toList = n + 3 + k := by
  have hbar : width "|".toList = 1 := by decide
  have hspace : width " ".toList = 1 := by decide
  simp only [String.toList_append, width_append, hbar, hspace,
    width_repeatedChar (c := ' ') (by decide), width_repeatedChar (c := '-') (by decide)]

/-- What is before the caret is all on one line, and no other caret. -/
theorem forall_mem_column (n k : ℕ) :
    ∀ x ∈ (repeatedChar n ' ' ++ "|" ++ " " ++ repeatedChar k '-').toList, x ≠ '\n' ∧ x ≠ '^' := by
  have hcopies : ∀ (n : ℕ) (d : Char), (d ≠ '\n' ∧ d ≠ '^') →
      ∀ x ∈ (repeatedChar n d).toList, x ≠ '\n' ∧ x ≠ '^' := by
    intro n d hd x hx
    rw [repeatedChar, String.toList_ofList] at hx
    rwa [List.eq_of_mem_replicate hx]
  simp only [String.toList_append, List.forall_mem_append]
  exact ⟨⟨⟨hcopies n ' ' (by decide), by simp⟩, by simp⟩, hcopies k '-' (by decide)⟩

/-- The spaces before a line take up one byte each. -/
theorem width_sub_margin (line : List Char) :
    width line - (line.takeWhile (· == ' ')).length = width (line.dropWhile (· == ' ')) := by
  have hspace : ∀ c ∈ line.takeWhile (· == ' '), c.utf8Size = 1 := by
    intro c hc
    obtain rfl : c = ' ' := by simpa using List.mem_takeWhile_imp hc
    decide
  have hsplit := congrArg width (@List.takeWhile_append_dropWhile _ (· == ' ') line)
  rw [width_append, width_eq_length hspace] at hsplit
  omega

theorem width_trimEnd_le (text : List Char) : width (trimEnd text) ≤ width text := by
  have hsplit := congrArg width (@List.rdropWhile_append_rtakeWhile _ isBlank text)
  rw [width_append] at hsplit
  exact Nat.le.intro hsplit

end Columns

/-- A report with a line that has been found. -/
theorem report_of_at? {e : SyntaxError} {source file : String} {number offset : ℕ}
    {line ending : List Char} (hending : ending = [] ∨ ending = ['\n'])
    (h : SourceLine.at? source e.position.offset.toNat = some ⟨number, line ++ ending, offset⟩) :
    report e source file = "Error: " ++ e.heading ++ "\n-> " ++ file ++ "\n" ++
      (repeatedChar (number.repr.length + 1) ' ' ++ "|") ++ "\n" ++
      (number.repr ++ " | " ++ String.ofList (trimEnd (line.dropWhile (· == ' ')))) ++ "\n" ++
      (repeatedChar (number.repr.length + 1) ' ' ++ "|" ++ " " ++
        repeatedChar (offset - (line.takeWhile (· == ' ')).length) '-') ++ "^" ++ "\n" := by
  obtain ⟨hmargin, hshown⟩ :=
    @SourceLine.margin_shown number offset line ending hending
  simp only [report, h, SourceLine.gutter, SourceLine.numbered, SourceLine.caret, hmargin, hshown,
    String.append_assoc]

/-- The report of an error ends with a gutter, a line of the source with its number, and a
caret. The line is shown without the spaces before it and the blanks behind it. It holds the
character where the error is, with as many bytes before it as there are before the caret. For
an error at the end of the source, it is the last line, and the caret stands behind it. -/
theorem report_of_ofSource_eq_error {source file streamFile shownFile : String}
    {e : SyntaxError} (h : Program.ofSource source file streamFile = .error e)
    (hwidth : width source.toList < 2 ^ 32) :
    ∃ number before line after margin shown tail column,
      IsLine source.toList before line after ∧ IsShown line margin shown tail ∧
      number = before.count '\n' + 1 ∧
      report e source shownFile = "Error: " ++ e.heading ++ "\n-> " ++ shownFile ++ "\n" ++
        (repeatedChar (number.repr.length + 1) ' ' ++ "|") ++ "\n" ++
        (number.repr ++ " | " ++ String.ofList shown) ++ "\n" ++ column ++ "^" ++ "\n" ∧
      (∀ x ∈ column.toList, x ≠ '\n' ∧ x ≠ '^') ∧
      ((∃ left c right, shown = left ++ c :: right ∧
          e.position.offset.toNat = width (before ++ margin ++ left) ∧
          number = (before ++ margin ++ left).count '\n' + 1 ∧
          width column.toList = width (number.repr ++ " | " ++ String.ofList left).toList) ∨
        e.position.offset.toNat = width source.toList ∧ after.drop 1 = [] ∧ line ++ after ≠ [] ∧
          width (number.repr ++ " | " ++ String.ofList shown).toList ≤ width column.toList) := by
  rcases visible_of_ofSource_eq_error h hwidth with hp | ⟨front, c, back, hsource, hc, hp⟩
  · have hne : source.toList ≠ [] := by
      intro hnil
      obtain rfl : source = "" := String.toList_eq_nil_iff.1 hnil
      simp [ofSource_empty] at h
    obtain ⟨before, line, after, hline, hlast, hnonempty⟩ := exists_isLine_last hne
    have hreport := @report_of_at? e source shownFile _ _ _ _ hline.take_one_eq
      (hline.at?_of_le hlast hnonempty hp.ge)
    refine ⟨_, before, line, after, _, _, _, _, hline, isShown_line line, rfl, hreport,
      forall_mem_column _ _, .inr ⟨hp, hlast, hnonempty, ?_⟩⟩
    rw [width_numbered, width_column, width_sub_margin]
    exact Nat.add_le_add_left (width_trimEnd_le _) _
  · have hbreak : c ≠ '\n' := by
      rintro rfl
      simp [isBlank_newline] at hc
    obtain ⟨before, left, right, after, rfl, hline⟩ := exists_isLine_of_mem front hbreak back
    rw [← hsource] at hline
    have hin : width left < width (left ++ c :: right ++ after.take 1) := by
      have := c.utf8Size_pos
      simp only [width_append, width_cons]
      omega
    have hat := hline.at?_of_lt hin
    rw [← width_append, ← hp] at hat
    have hreport := @report_of_at? e source shownFile _ _ _ _ hline.take_one_eq hat
    obtain ⟨hmargin, hshown⟩ := shown_of_isBlank hc left right
    have hisShown := isShown_line (left ++ c :: right)
    have hleft : left.takeWhile (· == ' ') ++ left.dropWhile (· == ' ') = left :=
      List.takeWhile_append_dropWhile
    rw [hmargin, hshown] at hreport hisShown
    refine ⟨_, before, _, after, _, _, _, _, hline, hisShown, rfl, hreport,
      forall_mem_column _ _, .inl ⟨left.dropWhile (· == ' '), c, trimEnd right, rfl, ?_, ?_, ?_⟩⟩
    · rw [hp, List.append_assoc, hleft]
    · have hnone : left.count '\n' = 0 := List.count_eq_zero.2 fun hmem =>
        hline.unbroken '\n' (List.mem_append_left _ hmem) rfl
      rw [List.append_assoc, hleft, List.count_append, hnone, Nat.add_zero]
    · rw [width_numbered, width_column, width_sub_margin]

/-- An error behind a margin and a character of two bytes, before blanks of several kinds. -/
theorem report_of_ofSource_eq_error_wide :
    let source := "1;\n  'é' 2 \u2003\nx"
    let e : SyntaxError := ⟨.expectedPunctuation ';', "2", ⟨10, "s"⟩⟩
    Program.ofSource source "s" "t" = .error e ∧ width source.toList < 2 ^ 32 ∧
      report e source "a" = "Error: ExpectedPunctuation (Expected `;` but found `2`)\n-> a\n" ++
        "  |\n2 | 'é' 2\n  | -----^\n" ∧
      ∃ number before line after margin shown tail column,
        IsLine source.toList before line after ∧ IsShown line margin shown tail ∧
        number = before.count '\n' + 1 ∧
        report e source "a" = "Error: " ++ e.heading ++ "\n-> " ++ "a" ++ "\n" ++
          (repeatedChar (number.repr.length + 1) ' ' ++ "|") ++ "\n" ++
          (number.repr ++ " | " ++ String.ofList shown) ++ "\n" ++ column ++ "^" ++ "\n" ∧
        (∀ x ∈ column.toList, x ≠ '\n' ∧ x ≠ '^') ∧
        ((∃ left c right, shown = left ++ c :: right ∧
            e.position.offset.toNat = width (before ++ margin ++ left) ∧
            number = (before ++ margin ++ left).count '\n' + 1 ∧
            width column.toList = width (number.repr ++ " | " ++ String.ofList left).toList) ∨
          e.position.offset.toNat = width source.toList ∧ after.drop 1 = [] ∧ line ++ after ≠ [] ∧
            width (number.repr ++ " | " ++ String.ofList shown).toList ≤ width column.toList) := by
  intro source e
  have h : Program.ofSource source "s" "t" = .error e := by decide +kernel
  have hwidth : width source.toList < 2 ^ 32 := by decide +kernel
  exact ⟨h, hwidth, by decide +kernel, report_of_ofSource_eq_error h hwidth⟩

end ExprLang
