import ExprLang.Proofs.SourceLines

/-!
# Looking up lines

The lines of a text are put together to the text again, each with the newline that ends it. An
offset within the text is looked up in the line that holds its byte, under a number that counts
the newlines before the offset, and an offset behind it in the last line.
-/
namespace ExprLang

/-- The newlines of a text that begin before a byte offset. -/
def newlinesBefore : ℕ → List Char → ℕ
  | _, [] => 0
  | offset, c :: rest =>
    if offset = 0 then 0
    else (if c = '\n' then 1 else 0) + newlinesBefore (offset - c.utf8Size) rest

/-- A line of a text, with the newline that ends it if there is one. -/
structure IsFullLine (text before line after : List Char) : Prop where
  split : text = before ++ line ++ after
  ne_nil : line ≠ []
  starts : ∀ c ∈ before.getLast?, c = '\n'
  unbroken : ∀ c ∈ line.dropLast, c ≠ '\n'
  ends : after ≠ [] → line.getLast? = some '\n'

section Newlines

variable {line : List Char} {offset : ℕ}

@[simp] theorem newlinesBefore_zero (text : List Char) : newlinesBefore 0 text = 0 := by
  cases text <;> rfl

theorem newlinesBefore_append (front rest : List Char) :
    newlinesBefore (width front + offset) (front ++ rest) =
      front.count '\n' + newlinesBefore offset rest := by
  induction front with
  | nil => simp
  | cons c front ih =>
    have hpos := c.utf8Size_pos
    have hne : width (c :: front) + offset ≠ 0 := by
      rw [width_cons]
      omega
    have hrest : width (c :: front) + offset - c.utf8Size = width front + offset := by
      rw [width_cons]
      omega
    rw [List.cons_append, newlinesBefore, if_neg hne, hrest, ih, List.count_cons]
    simp only [beq_iff_eq]
    omega

/-- There is no newline before an offset in a line. -/
theorem newlinesBefore_of_unbroken (h : ∀ c ∈ line, c ≠ '\n') (ho : offset ≤ width line)
    (rest : List Char) : newlinesBefore offset (line ++ rest) = 0 := by
  induction line generalizing offset with
  | nil =>
    obtain rfl : offset = 0 := by simpa using ho
    exact newlinesBefore_zero _
  | cons c line ih =>
    obtain ⟨hc, hline⟩ := List.forall_mem_cons.1 h
    have hle : offset - c.utf8Size ≤ width line := by
      rw [width_cons] at ho
      omega
    rw [List.cons_append, newlinesBefore, if_neg hc, ih hline hle]
    simp

end Newlines

namespace IsLine

variable {text before line after : List Char} {k : ℕ}

/-- The newlines before an offset are those before its line. -/
theorem newlinesBefore_eq (h : IsLine text before line after)
    (hk : k < width (line ++ after.take 1)) :
    newlinesBefore (width before + k) text = before.count '\n' := by
  have hle : k ≤ width line := by
    rw [width_append] at hk
    rcases h.take_one_eq with htake | htake
    · rw [htake, width_nil] at hk
      omega
    · have hone : width ['\n'] = 1 := rfl
      rw [htake, hone] at hk
      omega
  rw [h.split, List.append_assoc, newlinesBefore_append, newlinesBefore_of_unbroken h.unbroken hle,
    Nat.add_zero]

/-- A line is a full line together with the newline behind it. -/
theorem isFullLine (h : IsLine text before line after) (hne : line ++ after ≠ []) :
    IsFullLine text before (line ++ after.take 1) (after.drop 1) := by
  have hsplit : text = before ++ (line ++ after.take 1) ++ after.drop 1 := by
    rw [List.append_assoc, List.append_assoc, List.take_append_drop, ← List.append_assoc, ← h.split]
  rcases h.take_one with rfl | ⟨htake, hafter⟩
  · refine ⟨hsplit, by simpa using hne, h.starts, fun c hc => ?_, fun hd => absurd rfl hd⟩
    have hmem : c ∈ line := List.mem_of_mem_dropLast (by simpa using hc)
    exact h.unbroken c hmem
  · rw [htake] at hsplit ⊢
    exact ⟨hsplit, by simp, h.starts, by simpa using h.unbroken, fun _ => by simp⟩

end IsLine

/-- A byte of a text belongs to one of its characters. -/
theorem exists_char_of_lt {text : List Char} {offset : ℕ} (h : offset < width text) :
    ∃ front c back, text = front ++ c :: back ∧ width front ≤ offset ∧
      offset < width front + c.utf8Size := by
  induction text generalizing offset with
  | nil => simp at h
  | cons x xs ih =>
    rw [width_cons] at h
    by_cases hx : offset < x.utf8Size
    · exact ⟨[], x, xs, rfl, by simp, by simpa using hx⟩
    · have hrest : offset - x.utf8Size < width xs := by omega
      obtain ⟨front, c, back, rfl, hle, hlt⟩ := ih hrest
      refine ⟨x :: front, c, back, rfl, ?_, ?_⟩ <;> rw [width_cons] <;> omega

/-- A byte of a text belongs to one of its lines. -/
theorem exists_isLine_of_lt {text : List Char} {offset : ℕ} (h : offset < width text) :
    ∃ before line after, IsLine text before line after ∧
      ∃ k < width (line ++ after.take 1), offset = width before + k := by
  obtain ⟨front, c, back, rfl, hle, hlt⟩ := exists_char_of_lt h
  by_cases hc : c = '\n'
  · obtain ⟨before, left, rfl, hbefore, hleft⟩ := exists_last_line front
    have hline : IsLine (before ++ left ++ c :: back) before left (c :: back) :=
      ⟨rfl, hbefore, hleft, by simpa using hc⟩
    refine ⟨before, left, c :: back, hline, offset - width before, ?_, ?_⟩
    all_goals
      simp only [width_append, width_cons, List.take_succ_cons, List.take_zero, width_nil] at hle hlt ⊢
      omega
  · obtain ⟨before, left, right, after, rfl, hline⟩ := exists_isLine_of_mem front hc back
    refine ⟨before, left ++ c :: right, after, hline, offset - width before, ?_, ?_⟩
    all_goals
      simp only [width_append, width_cons] at hle hlt ⊢
      omega

theorem ne_nil_of_mem_lines {text l : List Char} (h : l ∈ lines text) : l ≠ [] := by
  fun_induction lines text with
  | case1 => simp at h
  | case2 rest ih =>
    rcases List.mem_cons.1 h with rfl | h
    · exact List.cons_ne_nil _ _
    · exact ih h
  | case3 c rest hc hl =>
    obtain rfl := List.mem_singleton.1 h
    exact List.cons_ne_nil _ _
  | case4 c rest hc l' ls hl ih =>
    rcases List.mem_cons.1 h with rfl | h
    · exact List.cons_ne_nil _ _
    · exact ih (hl ▸ List.mem_cons_of_mem _ h)

namespace SourceLine

variable {source : String} {offset : ℕ}

theorem at?_eq_none_iff : at? source offset = none ↔ source = "" := by
  constructor
  · intro h
    by_contra hne
    have hlist : source.toList ≠ [] := by simpa using hne
    obtain ⟨before, line, after, hline, hlast, hcover⟩ := exists_isLine_last hlist
    rcases Nat.lt_or_ge offset (width source.toList) with hlt | hge
    · obtain ⟨before, line, after, hline, k, hk, rfl⟩ := exists_isLine_of_lt hlt
      simp [hline.at?_of_lt hk] at h
    · simp [hline.at?_of_le hlast hcover hge] at h
  · rintro rfl
    rfl

/-- Each line is looked up at its bytes, and the lines are numbered in the order of the text. -/
theorem getElem?_lines_eq_some_iff {i : ℕ} {l : List Char} : (lines source.toList)[i]? = some l ↔
    ∃ offset < width source.toList, ∃ k, at? source offset = some ⟨i + 1, l, k⟩ := by
  constructor
  · intro h
    have hpos : 0 < width l := width_pos (ne_nil_of_mem_lines (List.mem_of_getElem? h))
    obtain ⟨hi, hl⟩ := List.getElem?_eq_some_iff.1 h
    let front := (lines source.toList).take i
    let back := (lines source.toList).drop (i + 1)
    have hlines : lines source.toList = front ++ l :: back := by
      rw [← hl, ← List.drop_eq_getElem_cons hi, List.take_append_drop]
    have hlength : front.length = i := List.length_take_of_le hi.le
    refine ⟨width front.flatten + 0, ?_, 0, ?_⟩
    · rw [← flatten_lines source.toList, hlines, List.flatten_append, List.flatten_cons,
        width_append, width_append]
      omega
    · rw [at?, hlines, among_append (List.cons_ne_nil _ _), hlength, among_cons_of_lt hpos,
        Nat.add_comm]
  · rintro ⟨offset, hlt, k, hat⟩
    obtain ⟨before, line, after, hline, j, hj, rfl⟩ := exists_isLine_of_lt hlt
    rw [hline.at?_of_lt hj] at hat
    obtain ⟨hnumber, rfl, -⟩ := SourceLine.mk.inj (Option.some.inj hat)
    have hlength : (lines before).length = i := (length_lines hline.starts).trans (by omega)
    rw [hline.lines_eq (append_ne_nil_of_lt hj), ← hlength]
    simp

/-- There is no line in an empty text only. An offset within the text is looked up in the full line
that holds it, under the number of the newlines before it, and with its distance from where the
line begins. An offset behind the text is looked up in the last line, with the place of its
newline or its end. The lines are found one behind the other. -/
theorem lookup_spec (text : String) :
    (∀ offset, at? text offset = none ↔ text = "") ∧
    (∀ offset < width text.toList, ∃ before line after, IsFullLine text.toList before line after ∧
      width before ≤ offset ∧ offset - width before < width line ∧
      at? text offset =
        some ⟨1 + newlinesBefore offset text.toList, line, offset - width before⟩) ∧
    (text ≠ "" → ∀ offset ≥ width text.toList, ∃ before line,
      IsFullLine text.toList before line [] ∧
      at? text offset =
        some ⟨1 + before.count '\n', line, width (line.takeWhile (· != '\n'))⟩) ∧
    ∃ ls : List (List Char), ls.flatten = text.toList ∧ ∀ i l, ls[i]? = some l ↔
      ∃ offset < width text.toList, ∃ k, at? text offset = some ⟨i + 1, l, k⟩ := by
  refine ⟨fun _ => at?_eq_none_iff, fun offset hlt => ?_, fun hne offset hge => ?_,
    lines text.toList, flatten_lines _, fun _ _ => getElem?_lines_eq_some_iff⟩
  · obtain ⟨before, line, after, hline, k, hk, rfl⟩ := exists_isLine_of_lt hlt
    refine ⟨before, _, _, hline.isFullLine (append_ne_nil_of_lt hk), Nat.le_add_right .., ?_, ?_⟩
    · rwa [Nat.add_sub_cancel_left]
    · rw [hline.at?_of_lt hk, hline.newlinesBefore_eq hk, Nat.add_sub_cancel_left, Nat.add_comm 1]
  · have hlist : text.toList ≠ [] := by simpa using hne
    obtain ⟨before, line, after, hline, hlast, hcover⟩ := exists_isLine_last hlist
    have hfull := hline.isFullLine hcover
    rw [hlast] at hfull
    refine ⟨before, _, hfull, ?_⟩
    rw [hline.at?_of_le hlast hcover hge, hline.takeWhile_eq, Nat.add_comm 1]

/-- A blank line behind a wide character, and a last line that ends with a newline. -/
theorem lookup_spec_blank_line :
    let text := "é\n\nb\n"
    at? text 3 = some ⟨2, ['\n'], 0⟩ ∧ at? text 9 = some ⟨3, ['b', '\n'], 1⟩ ∧
      (∃ before after, IsFullLine text.toList before ['\n'] after ∧ width before = 3) ∧
      ∃ before, IsFullLine text.toList before ['b', '\n'] [] ∧ before.count '\n' = 2 := by
  intro text
  have hblank : at? text 3 = some ⟨2, ['\n'], 0⟩ := by decide +kernel
  have hlast : at? text 9 = some ⟨3, ['b', '\n'], 1⟩ := by decide +kernel
  obtain ⟨-, hinside, hbehind, -⟩ := lookup_spec text
  refine ⟨hblank, hlast, ?_, ?_⟩
  · obtain ⟨before, line, after, hline, hle, -, hat⟩ := hinside 3 (by decide +kernel)
    rw [hblank] at hat
    obtain ⟨-, rfl, hoffset⟩ := SourceLine.mk.inj (Option.some.inj hat)
    exact ⟨before, after, hline, by omega⟩
  · obtain ⟨before, line, hline, hat⟩ := hbehind (by decide) 9 (by decide +kernel)
    rw [hlast] at hat
    obtain ⟨hnumber, rfl, -⟩ := SourceLine.mk.inj (Option.some.inj hat)
    exact ⟨before, hline, by omega⟩

end SourceLine

end ExprLang
