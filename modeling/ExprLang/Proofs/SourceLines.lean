import ExprLang.SourceLine
import Mathlib.Data.List.DropRight
import Mathlib.Tactic

/-!
# Lines of a source

A line of a text lies between two newlines, or one of them and an end of the text. The
number under which it is found counts the newlines before it. An offset in it is told from
where it begins.
-/
namespace ExprLang

/-- A line of a text, without the newline that ends it. -/
structure IsLine (text before line after : List Char) : Prop where
  split : text = before ++ line ++ after
  starts : ∀ c ∈ before.getLast?, c = '\n'
  unbroken : ∀ c ∈ line, c ≠ '\n'
  ends : ∀ c ∈ after.head?, c = '\n'

section Lines

variable {front line : List Char} {c : Char}

theorem lines_newline (rest : List Char) : lines ('\n' :: rest) = ['\n'] :: lines rest := by
  simp [lines]

theorem lines_cons_of_ne (hc : c ≠ '\n') {l : List Char} {ls : List (List Char)}
    (h : lines front = l :: ls) : lines (c :: front) = (c :: l) :: ls := by
  simp [lines, hc, h]

theorem exists_lines_eq_cons (h : front ≠ []) : ∃ l ls, lines front = l :: ls := by
  refine List.exists_cons_of_ne_nil fun hnil => h ?_
  rw [← flatten_lines front, hnil, List.flatten_nil]

theorem lines_of_unbroken (hne : line ≠ []) (h : ∀ c ∈ line, c ≠ '\n') : lines line = [line] := by
  induction line with
  | nil => exact absurd rfl hne
  | cons c line ih =>
    obtain ⟨hc, hline⟩ := List.forall_mem_cons.1 h
    cases line with
    | nil => simp [lines, hc]
    | cons x xs => exact lines_cons_of_ne hc (ih (List.cons_ne_nil x xs) hline)

theorem lines_unbroken_append (h : ∀ c ∈ line, c ≠ '\n') (rest : List Char) :
    lines (line ++ '\n' :: rest) = (line ++ ['\n']) :: lines rest := by
  induction line with
  | nil => exact lines_newline rest
  | cons c line ih =>
    obtain ⟨hc, hline⟩ := List.forall_mem_cons.1 h
    exact lines_cons_of_ne hc (ih hline)

/-- A text that ends with a newline does so behind its first character, if that is another. -/
theorem ends_of_cons (h : ∀ x ∈ (c :: front).getLast?, x = '\n') :
    (∀ x ∈ front.getLast?, x = '\n') ∧ (c ≠ '\n' → front ≠ []) := by
  cases front with
  | nil => simpa using h c rfl
  | cons x xs => simpa [List.getLast?_cons_cons] using h

/-- Behind a newline the lines are those of the rest. -/
theorem lines_append (h : ∀ c ∈ front.getLast?, c = '\n') (rest : List Char) :
    lines (front ++ rest) = lines front ++ lines rest := by
  induction front with
  | nil => rfl
  | cons c front ih =>
    obtain ⟨hfront, hne⟩ := ends_of_cons h
    by_cases hc : c = '\n'
    · rw [hc, List.cons_append, lines_newline, lines_newline, ih hfront, List.cons_append]
    · obtain ⟨l, ls, hl⟩ := exists_lines_eq_cons (hne hc)
      have hrest : lines (front ++ rest) = l :: (ls ++ lines rest) := by
        rw [ih hfront, hl, List.cons_append]
      rw [List.cons_append, lines_cons_of_ne hc hrest, lines_cons_of_ne hc hl, List.cons_append]

/-- There is a line for every newline before the start of another one. -/
theorem length_lines (h : ∀ c ∈ front.getLast?, c = '\n') :
    (lines front).length = front.count '\n' := by
  induction front with
  | nil => rfl
  | cons c front ih =>
    obtain ⟨hfront, hne⟩ := ends_of_cons h
    by_cases hc : c = '\n'
    · rw [hc, lines_newline, List.length_cons, ih hfront, List.count_cons_self]
    · obtain ⟨l, ls, hl⟩ := exists_lines_eq_cons (hne hc)
      rw [List.count_cons_of_ne hc, ← ih hfront, lines_cons_of_ne hc hl, hl]
      rfl

end Lines

namespace SourceLine

variable {number offset : ℕ} {l : List Char} {ls : List (List Char)}

theorem among_cons_of_lt (h : offset < width l) :
    among number offset (l :: ls) = some ⟨number, l, offset⟩ := by
  cases ls <;> simp [among, h]

theorem among_singleton_of_le (h : width l ≤ offset) :
    among number offset [l] = some ⟨number, l, width (l.takeWhile (· != '\n'))⟩ := by
  simp [among, Nat.not_lt.2 h]

/-- Lines before an offset are passed and counted. -/
theorem among_append (hne : ls ≠ []) (front : List (List Char)) :
    among number (width front.flatten + offset) (front ++ ls) =
      among (number + front.length) offset ls := by
  induction front generalizing number with
  | nil => simp
  | cons l front ih =>
    have hpass : ¬width (l :: front).flatten + offset < width l := by
      simp only [List.flatten_cons, width_append]
      omega
    have hrest : width (l :: front).flatten + offset - width l =
        width front.flatten + offset := by
      simp only [List.flatten_cons, width_append]
      omega
    obtain ⟨x, xs, hxs⟩ := List.exists_cons_of_ne_nil (l := front ++ ls) (by simp [hne])
    rw [List.cons_append, hxs, among, if_neg hpass, hrest, ← hxs, ih, List.length_cons]
    · congr 1
      omega
    · simp

end SourceLine

theorem append_ne_nil_of_lt {line after : List Char} {offset : ℕ}
    (ho : offset < width (line ++ after.take 1)) : line ++ after ≠ [] := by
  intro hnil
  obtain ⟨rfl, rfl⟩ := List.append_eq_nil_iff.1 hnil
  simp at ho

namespace IsLine

variable {text before line after : List Char} {source : String} {offset : ℕ}

theorem take_one (h : IsLine text before line after) :
    after = [] ∨ after.take 1 = ['\n'] ∧ after = '\n' :: after.drop 1 := by
  cases after with
  | nil => exact .inl rfl
  | cons c after =>
    obtain rfl := h.ends c rfl
    exact .inr ⟨rfl, rfl⟩

theorem take_one_eq (h : IsLine text before line after) :
    after.take 1 = [] ∨ after.take 1 = ['\n'] :=
  h.take_one.imp (fun hnil => by rw [hnil]; rfl) And.left

theorem takeWhile_eq (h : IsLine text before line after) :
    (line ++ after.take 1).takeWhile (· != '\n') = line := by
  rw [List.takeWhile_append_of_pos (by simpa using h.unbroken)]
  rcases h.take_one_eq with htake | htake <;> simp [htake]

/-- The lines of a text are those before a line, this one, and those behind it. -/
theorem lines_eq (h : IsLine text before line after) (hne : line ++ after ≠ []) :
    lines text = lines before ++ (line ++ after.take 1) :: lines (after.drop 1) := by
  rw [h.split, List.append_assoc, lines_append h.starts]
  congr 1
  rcases h.take_one with rfl | ⟨htake, hafter⟩
  · have hline : line ≠ [] := by simpa using hne
    simpa [lines] using lines_of_unbroken hline h.unbroken
  · rw [htake, hafter]
    exact lines_unbroken_append h.unbroken _

/-- The line of a byte is found, with its newline, under the number of newlines before it. -/
theorem at?_of_lt (h : IsLine source.toList before line after)
    (ho : offset < width (line ++ after.take 1)) :
    SourceLine.at? source (width before + offset) =
      some ⟨before.count '\n' + 1, line ++ after.take 1, offset⟩ := by
  have hwidth := congrArg width (flatten_lines before)
  rw [SourceLine.at?, h.lines_eq (append_ne_nil_of_lt ho), ← hwidth, SourceLine.among_append (List.cons_ne_nil _ _),
    SourceLine.among_cons_of_lt ho, length_lines h.starts, Nat.add_comm]

/-- The last line is found past the end, with the place where it ends. -/
theorem at?_of_le (h : IsLine source.toList before line after) (hlast : after.drop 1 = [])
    (hne : line ++ after ≠ []) (ho : width source.toList ≤ offset) :
    SourceLine.at? source offset =
      some ⟨before.count '\n' + 1, line ++ after.take 1, width line⟩ := by
  have hwhole : after.take 1 = after := by
    have := List.take_append_drop 1 after
    rwa [hlast, List.append_nil] at this
  have hwidth := congrArg width (flatten_lines before)
  have hsplit := congrArg width h.split
  obtain ⟨k, rfl⟩ : ∃ k, offset = width before + k := ⟨offset - width before, by
    simp only [width_append] at hsplit
    omega⟩
  have hk : width (line ++ after.take 1) ≤ k := by
    rw [hwhole, width_append]
    simp only [width_append] at hsplit
    omega
  rw [SourceLine.at?, h.lines_eq hne, hlast, ← hwidth,
    SourceLine.among_append (List.cons_ne_nil _ _), lines, SourceLine.among_singleton_of_le hk,
    length_lines h.starts, h.takeWhile_eq, Nat.add_comm]

end IsLine

/-- A text ends with a part of a line, behind the last newline. -/
theorem exists_last_line (text : List Char) : ∃ before line, text = before ++ line ∧
    (∀ c ∈ before.getLast?, c = '\n') ∧ ∀ c ∈ line, c ≠ '\n' := by
  refine ⟨text.rdropWhile (· != '\n'), text.rtakeWhile (· != '\n'),
    List.rdropWhile_append_rtakeWhile.symm, fun c hc => ?_, fun c hc => ?_⟩
  · obtain ⟨hne, rfl⟩ := List.mem_getLast?_eq_getLast hc
    simpa using List.rdropWhile_last_not _ _ hne
  · simpa using List.mem_rtakeWhile_imp hc

/-- Every character but a newline lies in a line. -/
theorem exists_isLine_of_mem (front : List Char) {c : Char} (hc : c ≠ '\n') (back : List Char) :
    ∃ before left right after, front = before ++ left ∧
      IsLine (front ++ c :: back) before (left ++ c :: right) after := by
  obtain ⟨before, left, rfl, hbefore, hleft⟩ := exists_last_line front
  refine ⟨before, left, back.takeWhile (· != '\n'), back.dropWhile (· != '\n'), rfl, ?_⟩
  refine ⟨?_, hbefore, ?_, fun x hx => ?_⟩
  · simp [List.takeWhile_append_dropWhile]
  · refine List.forall_mem_append.2 ⟨hleft, List.forall_mem_cons.2 ⟨hc, fun x hx => ?_⟩⟩
    simpa using List.mem_takeWhile_imp hx
  · have hend := List.head?_dropWhile_not (· != '\n') back
    rw [hx] at hend
    simpa using hend

/-- A text that is not empty has a last line, perhaps with a newline behind it. -/
theorem exists_isLine_last {text : List Char} (h : text ≠ []) : ∃ before line after,
    IsLine text before line after ∧ after.drop 1 = [] ∧ line ++ after ≠ [] := by
  obtain rfl | ⟨front, c, rfl⟩ := text.eq_nil_or_concat'
  · exact absurd rfl h
  by_cases hc : c = '\n'
  · obtain ⟨before, line, rfl, hbefore, hline⟩ := exists_last_line front
    exact ⟨before, line, [c], ⟨rfl, hbefore, hline, fun _ hx => (Option.some.inj hx).symm.trans hc⟩,
      rfl, by simp⟩
  · obtain ⟨before, line, htext, hbefore, hline⟩ := exists_last_line (front ++ [c])
    refine ⟨before, line, [], ⟨by rw [htext, List.append_nil], hbefore, hline, nofun⟩, rfl, ?_⟩
    rintro hnil
    obtain rfl : line = [] := by simpa using hnil
    rw [List.append_nil] at htext
    exact hc (hbefore c (by rw [← htext, List.getLast?_concat]; rfl))

end ExprLang
