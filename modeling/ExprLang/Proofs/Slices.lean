import ExprLang.Proofs.Scanning

/-!
# Slices

What a token is can be told from the piece of the source that it covers, and from the
characters around that: a run is as long as it can be on both sides, and a literal ends at
its first quote that no backslash protects.
-/
namespace ExprLang

/-- A piece of a text that cannot be made longer within a class of characters. -/
structure MaximalRun (p : Char → Bool) (front piece back : List Char) : Prop where
  ne_nil : piece ≠ []
  forall_mem : ∀ c ∈ piece, p c = true
  before : ∀ c ∈ front.getLast?, p c = false
  behind : ∀ c ∈ back.head?, p c = false

/-- A quote, a body and the same quote again, which stand for what the body names. -/
def IsLiteral (quote : Char) (value : String) (piece : List Char) : Prop :=
  ∃ body, piece = quote :: (body ++ [quote]) ∧ IsBody quote body ∧ value.toList = unescape body

/-- A token is what its piece of the source shows, between `front` and `back`. -/
def Token.Shows (t : Token) (front piece back : List Char) : Prop :=
  match t.kind with
  | .eof => False
  | .identifier | .keyword => t.value.toList = piece ∧ isWordText t.value = true ∧
    (t.kind = .keyword ↔ t.value ∈ keywords) ∧ ∀ c ∈ back.head?, isNameChar c = false
  | .number => t.value.toList = piece ∧ MaximalRun Char.isDigit front piece back
  | .operator => t.value.toList = piece ∧ MaximalRun isOperatorChar front piece back ∧
    ¬['/', '/'] <+: piece
  | .punctuation => t.value.toList = piece ∧ ∃ c, isMarkChar c = true ∧ piece = [c]
  | .string => IsLiteral '"' t.value piece
  | .character => IsLiteral '\'' t.value piece

theorem Token.Shows.ne_eof {t : Token} {front piece back : List Char}
    (h : t.Shows front piece back) : t.kind ≠ .eof := by
  intro hk
  rwa [Shows, hk] at h

theorem Token.Shows.ne_nil {t : Token} {front piece back : List Char}
    (h : t.Shows front piece back) : piece ≠ [] := by
  rintro rfl
  have hword : t.value.toList = [] → isWordText t.value = false := fun hv => by
    simp [isWordText, hv]
  unfold Shows at h
  split at h
  · exact h
  · exact Bool.false_ne_true ((hword h.1).symm.trans h.2.1)
  · exact Bool.false_ne_true ((hword h.1).symm.trans h.2.1)
  · exact h.2.ne_nil rfl
  · exact h.2.1.ne_nil rfl
  · obtain ⟨-, c, -, hc⟩ := h
    simp at hc
  all_goals
    obtain ⟨body, hbody, -⟩ := h
    simp at hbody

theorem exists_opening_of_next? {text after : List Char} {l : Lexeme}
    (h : Lexeme.next? text = some (l, after)) : ∃ c rest, text = c :: rest ∧
      ∃ o, Opening.of? c rest.head? = some o ∧ Lexeme.cut c rest o = some (l, after) := by
  cases text with
  | nil => simp [Lexeme.next?] at h
  | cons c rest => exact ⟨c, rest, rfl, Option.bind_eq_some_iff.1 h⟩

/-- No run of digits or operator characters goes on from one text into the other. -/
def Apart (front text : List Char) : Prop := ∀ x ∈ front.getLast?, ∀ y ∈ text.head?,
  (x.isDigit = true → y.isDigit = false) ∧ (isOperatorChar x = true → isOperatorChar y = false)

theorem apart_nil (text : List Char) : Apart [] text := by simp [Apart]

theorem apart_of_isBlank (front : List Char) {c : Char} (h : isBlank c = true)
    (text : List Char) : Apart (front ++ [c]) text := by
  intro x hx y _
  rw [List.getLast?_concat] at hx
  obtain rfl := Option.some.inj hx
  obtain ⟨hdigit, hoperator⟩ := other_of_isBlank h
  exact ⟨fun hd => by simp [hdigit] at hd, fun ho => by simp [hoperator] at ho⟩

/-- No run goes on behind the lexeme that it is cut from. -/
theorem apart_of_next? {text after : List Char} {l : Lexeme} (front : List Char)
    (h : Lexeme.next? text = some (l, after)) : Apart (front ++ l.text) after := by
  intro x hx y hy
  obtain ⟨c, rest, rfl, o, ho, hcut⟩ := exists_opening_of_next? h
  have hbegins := Opening.begins_of_eq_some ho
  cases o with
  | quote kind =>
    obtain ⟨⟨body, a⟩, -, heq⟩ := Option.map_eq_some_iff.1 hcut
    obtain ⟨rfl, rfl⟩ := Prod.mk.inj heq
    have htext : front ++ (Lexeme.quoted kind c body).text = front ++ c :: body ++ [c] := by simp
    rw [htext, List.getLast?_concat] at hx
    obtain rfl := Option.some.inj hx
    rcases hbegins with ⟨rfl, -⟩ | ⟨rfl, -⟩ <;> exact ⟨nofun, nofun⟩
  | run r =>
    obtain ⟨rfl, rfl⟩ := Prod.mk.inj (Option.some.inj hcut)
    have hend : r.continues y = false := r.continues_dropWhile rest y hy
    have hmem : x = c ∨ r.continues x = true := by
      have hlast : (r.lexeme (c :: rest.takeWhile r.continues)).text.getLast? = some x := by
        simpa [List.getLast?_append] using hx
      rcases List.mem_cons.1 (List.mem_of_getLast? hlast) with hc | hx
      · exact .inl hc
      · exact .inr (r.continues_takeWhile rest x hx)
    cases r with
    | word =>
      have hname : isNameChar x = true := hmem.elim
        (fun hc => hc ▸ isNameChar_of_isNameStart hbegins) id
      refine ⟨fun _ => Bool.eq_false_iff.2 fun hd => ?_, fun ho => ?_⟩
      · exact Bool.false_ne_true (hend.symm.trans (isNameChar_of_isDigit hd))
      · exact absurd hname (by simp [(other_of_isOperatorChar ho).1])
    | digits =>
      have hdigit : x.isDigit = true := hmem.elim (fun hc => hc ▸ hbegins) id
      refine ⟨fun _ => hend, fun ho => ?_⟩
      exact absurd (isNameChar_of_isDigit hdigit) (by simp [(other_of_isOperatorChar ho).1])
    | blanks =>
      have hblank : isBlank x = true := hmem.elim (fun hc => hc ▸ hbegins) id
      obtain ⟨hdigit, hoperator⟩ := other_of_isBlank hblank
      exact ⟨fun hd => by simp [hdigit] at hd, fun ho => by simp [hoperator] at ho⟩
    | comment =>
      obtain rfl : y = '\n' := by simpa [Run.continues] using hend
      exact ⟨fun _ => rfl, fun _ => rfl⟩
    | mark =>
      have hmark : isMarkChar x = true := hmem.elim (fun hc => hc ▸ hbegins) nofun
      refine ⟨fun hd => ?_, fun ho => ?_⟩
      · exact absurd hd (by simp [isDigit_of_isMarkChar hmark])
      · exact absurd hmark (by simp [(other_of_isOperatorChar ho).2.2.1])
    | operator =>
      have hoperator : isOperatorChar x = true := hmem.elim (fun hc => hc ▸ hbegins.1) id
      refine ⟨fun hd => ?_, fun _ => hend⟩
      exact absurd (isNameChar_of_isDigit hd) (by simp [(other_of_isOperatorChar hoperator).1])

/-- A token shows what the lexeme is that it is cut from. -/
theorem shows_of_next? {front text after : List Char} {l : Lexeme} {w : Word} {span : Span}
    (h : Lexeme.next? text = some (l, after)) (hw : l.reading = some w)
    (hapart : Apart front text) : Token.Shows ⟨w.1, w.2, span⟩ front l.text after := by
  obtain ⟨c, rest, rfl, o, ho, hcut⟩ := exists_opening_of_next? h
  have hbegins := Opening.begins_of_eq_some ho
  cases o with
  | quote kind =>
    obtain ⟨⟨body, a⟩, hb, heq⟩ := Option.map_eq_some_iff.1 hcut
    obtain ⟨rfl, rfl⟩ := Prod.mk.inj heq
    obtain rfl := Option.some.inj hw
    have hliteral : IsLiteral c (String.ofList (unescape body)) (c :: (body ++ [c])) :=
      ⟨body, rfl, isBody_of_enclosed hb, String.toList_ofList⟩
    rcases hbegins with ⟨rfl, rfl⟩ | ⟨rfl, rfl⟩ <;> exact hliteral
  | run r =>
    obtain ⟨rfl, rfl⟩ := Prod.mk.inj (Option.some.inj hcut)
    have hpiece := r.continues_takeWhile rest
    have hbehind := r.continues_dropWhile rest
    cases r with
    | blanks | comment => simp [Run.lexeme, Run.reading] at hw
    | word =>
      obtain rfl := Option.some.inj hw
      have htext : isWordText (String.ofList (c :: rest.takeWhile Run.word.continues)) = true := by
        simp only [isWordText, String.toList_ofList, Bool.and_eq_true, List.all_eq_true]
        exact ⟨hbegins, hpiece⟩
      by_cases hkey : isKeyword (String.ofList (c :: rest.takeWhile Run.word.continues)) = true
      · rw [if_pos hkey]
        exact ⟨String.toList_ofList, htext, by simpa [isKeyword] using hkey, hbehind⟩
      · rw [if_neg hkey]
        exact ⟨String.toList_ofList, htext, by simpa [isKeyword] using hkey, hbehind⟩
    | digits =>
      obtain rfl := Option.some.inj hw
      refine ⟨String.toList_ofList, List.cons_ne_nil _ _, ?_, fun x hx => ?_, hbehind⟩
      · exact List.forall_mem_cons.2 ⟨hbegins, hpiece⟩
      · refine Bool.eq_false_iff.2 fun hd => ?_
        exact Bool.false_ne_true (((hapart x hx c rfl).1 hd).symm.trans hbegins)
    | mark =>
      obtain rfl := Option.some.inj hw
      have hnil : rest.takeWhile Run.mark.continues = [] := by cases rest <;> rfl
      refine ⟨String.toList_ofList, c, hbegins, ?_⟩
      rw [Run.text_lexeme, hnil]
    | operator =>
      obtain rfl := Option.some.inj hw
      refine ⟨String.toList_ofList, ⟨List.cons_ne_nil _ _, ?_, fun x hx => ?_, hbehind⟩, ?_⟩
      · exact List.forall_mem_cons.2 ⟨hbegins.1, hpiece⟩
      · refine Bool.eq_false_iff.2 fun ho => ?_
        exact Bool.false_ne_true (((hapart x hx c rfl).2 ho).symm.trans hbegins.1)
      · intro hslashes
        obtain ⟨suffix, hrest⟩ :=
          hslashes.trans ((List.prefix_cons_inj c).2 (List.takeWhile_prefix _))
        obtain ⟨rfl, rfl⟩ : '/' = c ∧ '/' :: suffix = rest := by simpa using hrest
        exact hbegins.2 ⟨rfl, rfl⟩

/-- A lexeme that is not blank and stands for nothing is a comment. -/
theorem comment_of_next? {c : Char} {rest after : List Char} {l : Lexeme}
    (hc : isBlank c = false) (h : Lexeme.next? (c :: rest) = some (l, after))
    (hl : l.reading = none) : ∃ body, l.text = '/' :: '/' :: body ∧ (∀ x ∈ body, x ≠ '\n') ∧
      ∀ x ∈ after.head?, x = '\n' := by
  obtain ⟨o, ho, hcut⟩ := Option.bind_eq_some_iff.1 h
  have hbegins := Opening.begins_of_eq_some ho
  cases o with
  | quote kind =>
    obtain ⟨⟨body, a⟩, -, heq⟩ := Option.map_eq_some_iff.1 hcut
    obtain ⟨rfl, -⟩ := Prod.mk.inj heq
    simp [Lexeme.quoted] at hl
  | run r =>
    obtain ⟨rfl, rfl⟩ := Prod.mk.inj (Option.some.inj hcut)
    cases r with
    | blanks => exact absurd (hc.symm.trans hbegins) Bool.false_ne_true
    | comment =>
      obtain ⟨rfl, hnext⟩ := hbegins
      obtain ⟨rest, rfl⟩ := List.head?_eq_some_iff.1 hnext
      refine ⟨rest.takeWhile Run.comment.continues, rfl, fun x hx => ?_, fun x hx => ?_⟩
      · simpa [Run.continues] using Run.comment.continues_takeWhile rest x hx
      · simpa [Run.continues] using Run.comment.continues_dropWhile ('/' :: rest) x hx
    | _ => simp [Run.lexeme, Run.reading] at hl

end ExprLang
