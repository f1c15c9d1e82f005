import ExprLang.Proofs.Shifts
import ExprLang.Proofs.Slices

/-!
# Seams

Behind a line break a text is cut as if it stood alone, only further on. No run but that
of blanks goes on over a line break, and blanks stand for nothing wherever they are cut.
-/
namespace ExprLang

/-- The tokens of a text that begins at a byte offset, and what is left of it from the
first place where no lexeme begins. -/
def tokensFrom (file : String) (offset : ℕ) (text : List Char) : List Token × List Char :=
  (placed file offset (lexemes text).1, (lexemes text).2)

section Cuts

variable {file : String} {offset : ℕ} {text : List Char}

@[simp] theorem tokensFrom_nil : tokensFrom file offset [] = ([], []) := by
  rw [tokensFrom, lexemes_of_none rfl]
  rfl

theorem tokensFrom_of_some {after : List Char} {l : Lexeme}
    (h : Lexeme.next? text = some (l, after)) : tokensFrom file offset text =
      ((l.token? offset file).toList ++ (tokensFrom file (offset + width l.text) after).1,
        (tokensFrom file (offset + width l.text) after).2) := by
  rw [tokensFrom, lexemes_of_some h]
  rfl

/-- Blanks are skipped one at a time. -/
theorem tokensFrom_blank {c : Char} (h : isBlank c = true) :
    tokensFrom file offset (c :: text) = tokensFrom file (offset + c.utf8Size) text := by
  have hskip : ∀ {offset : ℕ} {x : Char} (xs : List Char), isBlank x = true →
      tokensFrom file offset (x :: xs) =
        tokensFrom file (offset + x.utf8Size + width (xs.takeWhile isBlank))
          (xs.dropWhile isBlank) := fun xs hx => by
    simp [tokensFrom_of_some (next?_blank hx xs), Run.lexeme, Run.reading, Lexeme.token?,
      Nat.add_assoc]
  rw [hskip text h]
  cases text with
  | nil => simp
  | cons x xs =>
    by_cases hx : isBlank x = true
    · rw [hskip xs hx, List.dropWhile_cons_of_pos hx, List.takeWhile_cons_of_pos hx, width_cons,
        Nat.add_assoc (offset + c.utf8Size)]
    · rw [List.dropWhile_cons_of_neg hx, List.takeWhile_cons_of_neg hx, width_nil, Nat.add_zero]

theorem tokensFrom_mark {c : Char} (h : isMarkChar c = true) :
    tokensFrom file offset (c :: text) =
      (⟨.punctuation, String.singleton c, .ofNat offset, .ofNat (offset + c.utf8Size), file⟩ ::
        (tokensFrom file (offset + c.utf8Size) text).1,
        (tokensFrom file (offset + c.utf8Size) text).2) := by
  simpa [Run.lexeme, Run.reading, Lexeme.token?] using tokensFrom_of_some (next?_mark h text)

/-- The tokens of a text are no end marks, and begin within it. -/
theorem of_mem_tokensFrom {t : Token} (h : t ∈ (tokensFrom file offset text).1) :
    t.isEof = false ∧ ∃ n ≤ offset + width text, t.span.start = .ofNat n := by
  induction text using cutting_induction generalizing offset with
  | stop text hl => simp [tokensFrom, lexemes_of_none hl, placed] at h
  | blank c text hc ih =>
    rw [tokensFrom_blank hc] at h
    rw [width_cons, ← Nat.add_assoc]
    exact ih h
  | lexeme c text l after _ hl ih =>
    rw [tokensFrom_of_some hl] at h
    rcases List.mem_append.1 h with ht | ht
    · obtain ⟨w, hw, rfl⟩ := Option.map_eq_some_iff.1 (Option.mem_toList.1 ht)
      have hshows : Token.Shows ⟨w.1, w.2, .null⟩ [] l.text after :=
        shows_of_next? hl hw (apart_nil _)
      have hkind : w.1 ≠ .eof := hshows.ne_eof
      exact ⟨by simpa [Token.isEof] using hkind, offset, Nat.le_add_right .., rfl⟩
    · rw [← (Lexeme.next?_eq_some hl).1, width_append, ← Nat.add_assoc]
      exact ih ht

theorem placed_shift (k : ℕ) (ls : List Lexeme) :
    placed file (offset + k) ls = (placed file offset ls).map (Token.shift k) := by
  induction ls generalizing offset with
  | nil => rfl
  | cons l ls ih =>
    rw [placed, placed, List.map_append, Nat.add_right_comm, ih]
    congr 1
    cases hl : l.reading with
    | none => simp [Lexeme.token?, hl]
    | some w =>
      simp [Lexeme.token?, hl, Token.shift, Span.shift, ← UInt32.ofNat_add,
        Nat.add_right_comm offset k]

/-- Further on there are the same tokens, shifted. -/
theorem tokensFrom_shift (k : ℕ) : tokensFrom file (offset + k) text =
    ((tokensFrom file offset text).1.map (Token.shift k), (tokensFrom file offset text).2) := by
  rw [tokensFrom, placed_shift]
  rfl

end Cuts

section Before

variable {text after back : List Char} {l : Lexeme}

theorem continues_newline {r : Run} (h : r ≠ .blanks) : r.continues '\n' = false := by
  cases r with
  | blanks => exact absurd rfl h
  | _ => rfl

/-- Only two slashes are told from one by what comes next. -/
theorem Opening.of?_congr {c : Char} {next next' : Option Char}
    (h : c = '/' → (next = some '/' ↔ next' = some '/')) :
    Opening.of? c next = Opening.of? c next' := by
  have hslash : (c = '/' ∧ next = some '/') ↔ (c = '/' ∧ next' = some '/') := by
    constructor <;> rintro ⟨hc, hn⟩ <;> simp_all
  simp only [Opening.of?, hslash]

/-- A lexeme is cut alike before nothing, before whatever begins as what it stands before, and,
if it is not of blanks, before a line break. -/
theorem next?_before (h : Lexeme.next? text = some (l, after))
    (hback : ∀ x ∈ back.head?, x ∈ after.head? ∨ x = '\n' ∧ ∀ y ∈ text.head?, isBlank y = false) :
    Lexeme.next? (l.text ++ back) = some (l, back) := by
  obtain ⟨c, rest, rfl, o, ho, hcut⟩ := exists_opening_of_next? h
  have hbegins := Opening.begins_of_eq_some ho
  cases o with
  | run r =>
    obtain ⟨rfl, rfl⟩ := Prod.mk.inj (Option.some.inj hcut)
    have hend : ∀ x ∈ back.head?, r.continues x = false := by
      intro x hx
      rcases hback x hx with hafter | ⟨rfl, hblank⟩
      · exact r.continues_dropWhile rest x hafter
      · refine continues_newline ?_
        rintro rfl
        exact Bool.false_ne_true ((hblank c rfl).symm.trans hbegins)
    -- One slash must not become two, which begin a comment.
    have hslash : back.head? = some '/' → (rest.dropWhile r.continues).head? = some '/' :=
      fun hb => (hback '/' hb).elim id fun h => absurd h.1 (by decide)
    have hopening : Opening.of? c (rest.takeWhile r.continues ++ back).head? =
        some (.run r) := by
      rw [← ho]
      refine Opening.of?_congr fun hc => ?_
      cases rest with
      | nil => simpa using hslash
      | cons x xs =>
        by_cases hx : r.continues x = true
        · simp [hx]
        · have hne : x ≠ '/' := by
            rintro rfl
            subst hc
            have hcomment : Opening.of? '/' (some '/') = some (.run .comment) := rfl
            obtain rfl : r = .comment := by simpa [hcomment] using ho.symm
            exact hx rfl
          simpa [hx, hne] using hslash
    exact next?_run hopening (r.continues_takeWhile rest) hend
  | quote kind =>
    obtain ⟨⟨body, a⟩, hb, heq⟩ := Option.map_eq_some_iff.1 hcut
    obtain ⟨rfl, rfl⟩ := Prod.mk.inj heq
    have hc : c ≠ '\\' ∧ c ≠ '/' := by rcases hbegins with ⟨rfl, -⟩ | ⟨rfl, -⟩ <;> decide
    have hopening : Opening.of? c (body ++ c :: back).head? = some (.quote kind) := by
      rw [← ho]
      exact Opening.of?_congr fun h => absurd h hc.2
    have htext : (Lexeme.quoted kind c body).text ++ back = c :: (body ++ c :: back) := by simp
    rw [htext, Lexeme.next?, hopening, Option.bind_some, Lexeme.cut,
      (isBody_of_enclosed hb).enclosed hc.1]
    rfl

end Before

section LineBreaks

variable {text after rest : List Char}

/-- A lexeme other than blanks ends before a line break if it ends before nothing. -/
theorem next?_append_newline {c : Char} {l : Lexeme} (hc : isBlank c = false)
    (h : Lexeme.next? (c :: text) = some (l, after)) :
    Lexeme.next? (c :: (text ++ '\n' :: rest)) = some (l, after ++ '\n' :: rest) := by
  have hnext : Lexeme.next? (l.text ++ (after ++ '\n' :: rest)) =
      some (l, after ++ '\n' :: rest) := by
    refine next?_before h fun x hx => ?_
    cases after with
    | nil => exact .inr ⟨by simpa using hx.symm, by simpa using hc⟩
    | cons y ys => exact .inl hx
  rwa [← List.append_assoc, (Lexeme.next?_eq_some h).1] at hnext

/-- What is cut to its end is cut alike before a line break, and so is the rest behind it. -/
theorem tokensFrom_append_newline {file : String} {offset : ℕ}
    (h : (tokensFrom file offset text).2 = []) :
    tokensFrom file offset (text ++ '\n' :: rest) =
      ((tokensFrom file offset text).1 ++
        (tokensFrom file (offset + width text) ('\n' :: rest)).1,
        (tokensFrom file (offset + width text) ('\n' :: rest)).2) := by
  induction text using cutting_induction generalizing offset with
  | stop text hl =>
    obtain rfl : text = [] := by simpa [tokensFrom, lexemes_of_none hl] using h
    simp
  | blank c text hc ih =>
    rw [tokensFrom_blank hc] at h
    rw [List.cons_append, tokensFrom_blank hc, tokensFrom_blank hc, width_cons, ← Nat.add_assoc]
    exact ih h
  | lexeme c text l after hc hl ih =>
    have hsplit : width (c :: text) = width l.text + width after := by
      rw [← (Lexeme.next?_eq_some hl).1, width_append]
    rw [tokensFrom_of_some hl] at h
    rw [List.cons_append, tokensFrom_of_some (next?_append_newline hc hl),
      tokensFrom_of_some hl, ih h, hsplit, List.append_assoc, Nat.add_assoc]

end LineBreaks

end ExprLang
