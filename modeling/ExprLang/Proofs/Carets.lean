import ExprLang.Proofs.Diagnostics

/-!
# Carets

A report counts columns in bytes, but a line is seen as characters. So the caret stands below
the character at an error only where all that is shown before that takes up one byte a
character, and elsewhere too far to the right.
-/
namespace ExprLang

section Widths

variable {text : List Char}

theorem length_le_width (text : List Char) : text.length ≤ width text := by
  induction text with
  | nil => exact le_rfl
  | cons c text ih =>
    have hc := c.utf8Size_pos
    rw [List.length_cons, width_cons]
    omega

/-- A text takes up no more bytes than it has characters if each takes up one. -/
theorem width_eq_length_iff : width text = text.length ↔ ∀ c ∈ text, c.utf8Size = 1 := by
  refine ⟨fun h => ?_, width_eq_length⟩
  induction text with
  | nil => nofun
  | cons c text ih =>
    have hc := c.utf8Size_pos
    have hle := length_le_width text
    rw [List.length_cons, width_cons] at h
    exact List.forall_mem_cons.2 ⟨by omega, ih (by omega)⟩

theorem length_repeatedChar (n : ℕ) (c : Char) : (repeatedChar n c).length = n := by
  rw [repeatedChar, String.length_ofList, List.length_replicate]

/-- The characters of a number, a bar with spaces around it, and a text. -/
theorem length_numbered (n : ℕ) (text : List Char) :
    (n.repr ++ " | " ++ String.ofList text).length = n.repr.length + 3 + text.length := by
  have hbar : " | ".length = 3 := by decide
  rw [String.length_append, String.length_append, hbar, String.length_ofList]

/-- The characters of a gutter and of what is before the caret behind it. -/
theorem length_column (n k : ℕ) :
    (repeatedChar (n + 1) ' ' ++ "|" ++ " " ++ repeatedChar k '-').length = n + 3 + k := by
  have hbar : "|".length = 1 := by decide
  have hspace : " ".length = 1 := by decide
  simp only [String.length_append, length_repeatedChar, hbar, hspace]

end Widths

section Places

variable {front back left : List Char} {c : Char} {source shownFile : String} {e : SyntaxError}

/-- What is shown of a line before the character behind `front`. -/
def shownBefore (front : List Char) : List Char :=
  (front.rtakeWhile (· != '\n')).dropWhile (· == ' ')

/-- A text ends with a line and a caret. The line has a number and shows `c` behind `left`, and
the caret stands behind `column`. -/
def Points (text : String) (number : ℕ) (left : List Char) (c : Char) (column : String) : Prop :=
  ∃ top right, text = top ++ "\n" ++
      (number.repr ++ " | " ++ String.ofList (left ++ c :: right)) ++ "\n" ++ column ++ "^" ++ "\n" ∧
    (∀ x ∈ left ++ c :: right, x ≠ '\n') ∧ ∀ x ∈ column.toList, x ≠ '\n' ∧ x ≠ '^'

theorem rtakeWhile_append_of_unbroken (hfront : ∀ x ∈ front.getLast?, x = '\n')
    (hleft : ∀ x ∈ left, x ≠ '\n') : (front ++ left).rtakeWhile (· != '\n') = left := by
  have hreverse : ∀ x ∈ left.reverse, (x != '\n') = true := by simpa using hleft
  have hstop : front.reverse.takeWhile (· != '\n') = [] := by
    cases hlast : front.reverse with
    | nil => rfl
    | cons x xs =>
      have hx : x = '\n' := hfront x (by rw [← List.head?_reverse, hlast]; rfl)
      simp [hx]
  rw [List.rtakeWhile, List.reverse_append, List.takeWhile_append_of_pos hreverse, hstop,
    List.append_nil, List.reverse_reverse]

/-- An error at a character that is not blank is shown by a caret as many columns behind that
character as the text shown before it has more bytes than characters. -/
theorem points_report (hsource : source.toList = front ++ c :: back) (hc : isBlank c = false)
    (hp : e.position.offset.toNat = width front) (shownFile : String) :
    ∃ column, Points (report e source shownFile) (front.count '\n' + 1) (shownBefore front) c
        column ∧
      column.length + (shownBefore front).length =
        ((front.count '\n' + 1).repr ++ " | " ++ String.ofList (shownBefore front)).length +
          width (shownBefore front) := by
  have hbreak : c ≠ '\n' := by
    rintro rfl
    simp [isBlank_newline] at hc
  obtain ⟨before, left, right, after, rfl, hline⟩ := exists_isLine_of_mem front hbreak back
  rw [← hsource] at hline
  obtain ⟨hleft, hright⟩ := List.forall_mem_append.1 hline.unbroken
  have hshownBefore : shownBefore (before ++ left) = left.dropWhile (· == ' ') := by
    rw [shownBefore, rtakeWhile_append_of_unbroken hline.starts hleft]
  have hnumber : (before ++ left).count '\n' = before.count '\n' := by
    have hnone : left.count '\n' = 0 := List.count_eq_zero.2 fun hmem => hleft '\n' hmem rfl
    rw [List.count_append, hnone, Nat.add_zero]
  have hin : width left < width (left ++ c :: right ++ after.take 1) := by
    have := c.utf8Size_pos
    simp only [width_append, width_cons]
    omega
  have hat := hline.at?_of_lt hin
  rw [← width_append, ← hp] at hat
  have hreport := @report_of_at? e source shownFile _ _ _ _ hline.take_one_eq hat
  obtain ⟨hmargin, hshown⟩ := shown_of_isBlank hc left right
  rw [hmargin, hshown, width_sub_margin] at hreport
  rw [hshownBefore, hnumber]
  refine ⟨_, ⟨_, trimEnd right, hreport, ?_, forall_mem_column _ _⟩, ?_⟩
  · have htrim : ∀ x ∈ trimEnd right, x ∈ right := fun x hx =>
      (List.rdropWhile_prefix isBlank (l := right)).subset hx
    have hdrop : ∀ x ∈ left.dropWhile (· == ' '), x ∈ left := fun x hx =>
      (List.dropWhile_suffix _).subset hx
    obtain ⟨-, hright⟩ := List.forall_mem_cons.1 hright
    refine List.forall_mem_append.2 ⟨fun x hx => hleft x (hdrop x hx), ?_⟩
    exact List.forall_mem_cons.2 ⟨hbreak, fun x hx => hright x (htrim x hx)⟩
  · rw [length_column, length_numbered]
    omega

end Places

/-- The caret of an error within the source stands below the character there exactly if every
character that is shown before it takes up one byte. Each further byte moves it by a column. -/
theorem caret_below_iff_of_ofSource_eq_error {source file streamFile shownFile : String}
    {e : SyntaxError} (h : Program.ofSource source file streamFile = .error e)
    (hwidth : width source.toList < 2 ^ 32)
    (hin : e.position.offset.toNat < width source.toList) :
    ∃ front c back column, source.toList = front ++ c :: back ∧
      e.position.offset.toNat = width front ∧
      Points (report e source shownFile) (front.count '\n' + 1) (shownBefore front) c column ∧
      (column.length =
          ((front.count '\n' + 1).repr ++ " | " ++ String.ofList (shownBefore front)).length ↔
        ∀ x ∈ shownBefore front, x.utf8Size = 1) ∧
      column.length + (shownBefore front).length =
        ((front.count '\n' + 1).repr ++ " | " ++ String.ofList (shownBefore front)).length +
          width (shownBefore front) := by
  rcases visible_of_ofSource_eq_error h hwidth with hp | ⟨front, c, back, hsource, hc, hp⟩
  · omega
  · obtain ⟨column, hpoints, hlength⟩ := points_report hsource hc hp shownFile
    refine ⟨front, c, back, column, hsource, hp, hpoints, ?_, hlength⟩
    rw [← width_eq_length_iff]
    omega

/-- Two characters of two and of three bytes before an error on the second line. -/
theorem caret_below_iff_of_ofSource_eq_error_wide :
    let source := "1;\n  \"é\u2003\" 2"
    let e : SyntaxError := ⟨.expectedPunctuation ';', "2", ⟨13, "s"⟩⟩
    Program.ofSource source "s" "t" = .error e ∧ width source.toList < 2 ^ 32 ∧
      e.position.offset.toNat < width source.toList ∧
      report e source "a" = "Error: ExpectedPunctuation (Expected `;` but found `2`)\n-> a\n" ++
        "  |\n2 | \"é\u2003\" 2\n  | --------^\n" ∧
      ∃ front c back column, source.toList = front ++ c :: back ∧
        e.position.offset.toNat = width front ∧
        Points (report e source "a") (front.count '\n' + 1) (shownBefore front) c column ∧
        (column.length =
            ((front.count '\n' + 1).repr ++ " | " ++ String.ofList (shownBefore front)).length ↔
          ∀ x ∈ shownBefore front, x.utf8Size = 1) ∧
        column.length + (shownBefore front).length =
          ((front.count '\n' + 1).repr ++ " | " ++ String.ofList (shownBefore front)).length +
            width (shownBefore front) := by
  intro source e
  have h : Program.ofSource source "s" "t" = .error e := by decide +kernel
  have hwidth : width source.toList < 2 ^ 32 := by decide +kernel
  have hin : e.position.offset.toNat < width source.toList := by decide +kernel
  exact ⟨h, hwidth, hin, by decide +kernel, caret_below_iff_of_ofSource_eq_error h hwidth hin⟩

/-- A character of two bytes before the error moves the caret away from it. -/
theorem not_forall_caret_below :
    ¬∀ (source file streamFile shownFile : String) (e : SyntaxError) (front back : List Char)
      (c : Char) (column : String), Program.ofSource source file streamFile = .error e →
      width source.toList < 2 ^ 32 → file ≠ nullFile →
      source.toList = front ++ c :: back → e.position.offset.toNat = width front →
      Points (report e source shownFile) (front.count '\n' + 1) (shownBefore front) c column →
      column.length ≤ 65535 →
      column.length =
        ((front.count '\n' + 1).repr ++ " | " ++ String.ofList (shownBefore front)).length := by
  intro h
  let e : SyntaxError := ⟨.expectedPunctuation ';', "2", ⟨5, "s"⟩⟩
  have he : Program.ofSource "'é' 2" "s" "s" = .error e := by decide +kernel
  have hpoints : Points (report e "'é' 2" "a") 1 "'é' ".toList '2' "  | -----" :=
    ⟨"Error: ExpectedPunctuation (Expected `;` but found `2`)\n-> a\n  |", [],
      by decide +kernel, by simp, by simp⟩
  have hlength := h "'é' 2" "s" "s" "a" e "'é' ".toList [] '2' "  | -----" he (by decide +kernel)
    (by decide) (by decide +kernel) (by decide +kernel) hpoints (by decide)
  exact absurd hlength (by decide +kernel)

end ExprLang
