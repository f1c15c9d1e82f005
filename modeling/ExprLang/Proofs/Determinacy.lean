import ExprLang.Proofs.Tiling

/-!
# Tilings are cuts

A text is tiled in one way only. Where it is put together from pieces that tokens show, with
blanks and comments around them, just these tokens are cut from it.
-/
namespace ExprLang

/-- A comment ends before a line break. -/
theorem next?_comment {body rest : List Char} (hbody : ∀ x ∈ body, x ≠ '\n')
    (hrest : ∀ x ∈ rest.head?, x = '\n') : Lexeme.next? ('/' :: '/' :: (body ++ rest)) =
      some (Run.comment.lexeme ('/' :: '/' :: body), rest) := by
  have hopening : Opening.of? '/' ('/' :: body ++ rest).head? = some (.run .comment) := rfl
  refine next?_run hopening ?_ fun x hx => ?_
  · refine List.forall_mem_cons.2 ⟨by decide, fun x hx => ?_⟩
    simpa [Run.continues] using hbody x hx
  · simp [Run.continues, hrest x hx]

/-- Blanks and comments are skipped. -/
theorem tokensFrom_layout {file : String} {offset : ℕ} {back gap : List Char}
    (h : Layout back gap) : tokensFrom file offset (gap ++ back) =
      tokensFrom file (offset + width gap) back := by
  induction h generalizing offset with
  | nil => simp
  | blank hc _ ih => rw [List.cons_append, tokensFrom_blank hc, ih, width_cons, Nat.add_assoc]
  | @comment body gap hbody hend _ ih =>
    have hnext := next?_comment hbody hend
    rw [List.cons_append, List.cons_append, List.append_assoc, tokensFrom_of_some hnext, ih]
    simp [Run.lexeme, Run.reading, Lexeme.token?, Nat.add_assoc]

section Pieces

variable {t : Token} {front piece back : List Char}

/-- A text is cut after a piece that the token stands for. -/
def Token.CutFrom (t : Token) (piece back : List Char) : Prop :=
  ∃ l, Lexeme.next? (piece ++ back) = some (l, back) ∧ l.text = piece ∧ l.reading = some t.word

theorem Token.cutFrom_run {r : Run} {c : Char} {cs : List Char} (hv : t.value.toList = c :: cs)
    (ho : Opening.of? c (cs ++ back).head? = some (.run r))
    (hcs : ∀ x ∈ cs, r.continues x = true) (hback : ∀ x ∈ back.head?, r.continues x = false)
    (hr : r.reading t.value = some t.word) : t.CutFrom (c :: cs) back := by
  refine ⟨r.lexeme (c :: cs), next?_run ho hcs hback, rfl, ?_⟩
  rwa [Run.lexeme, ← hv, String.ofList_toList]

theorem Token.cutFrom_literal {quote : Char}
    (ho : ∀ next, Opening.of? quote next = some (.quote t.kind)) (hq : quote ≠ '\\')
    (h : IsLiteral quote t.value piece) : t.CutFrom piece back := by
  obtain ⟨body, rfl, hbody, hv⟩ := h
  refine ⟨Lexeme.quoted t.kind quote body, ?_, rfl, ?_⟩
  · simp [Lexeme.next?, ho, Lexeme.cut, hbody.enclosed hq]
  · rw [Lexeme.quoted, ← hv, String.ofList_toList, Token.word]

/-- The piece of the text that a token shows is cut as a whole. -/
theorem Token.Shows.cutFrom (h : t.Shows front piece back) : t.CutFrom piece back := by
  have hword : t.value.toList = piece → isWordText t.value = true →
      (if isKeyword t.value then .keyword else .identifier) = t.kind →
      (∀ c ∈ back.head?, isNameChar c = false) → t.CutFrom piece back := by
    rintro rfl htext hkind hback
    unfold isWordText at htext
    split at htext
    · simp at htext
    · next c cs hv =>
      simp only [Bool.and_eq_true, List.all_eq_true] at htext
      rw [hv]
      exact cutFrom_run hv (opening_of_isNameStart htext.1 _) htext.2 hback
        (by rw [Run.reading, hkind, Token.word])
  unfold Shows at h
  split at h
  · exact h.elim
  · next hk =>
    obtain ⟨hv, htext, hkey, hback⟩ := h
    have hnot : ¬isKeyword t.value = true := by simpa [isKeyword, hk] using hkey
    exact hword hv htext (by rw [if_neg hnot, hk]) hback
  · next hk =>
    obtain ⟨hv, htext, hkey, hback⟩ := h
    have hyes : isKeyword t.value = true := by simpa [isKeyword, hk] using hkey
    exact hword hv htext (by rw [if_pos hyes, hk]) hback
  · next hk =>
    obtain ⟨hv, hrun⟩ := h
    obtain ⟨c, cs, rfl⟩ := List.exists_cons_of_ne_nil hrun.ne_nil
    obtain ⟨hc, hcs⟩ := List.forall_mem_cons.1 hrun.forall_mem
    exact cutFrom_run hv (opening_of_isDigit hc _) hcs hrun.behind
      (by rw [Run.reading, Token.word, hk])
  · next hk =>
    obtain ⟨hv, hrun, hslashes⟩ := h
    obtain ⟨c, cs, rfl⟩ := List.exists_cons_of_ne_nil hrun.ne_nil
    obtain ⟨hc, hcs⟩ := List.forall_mem_cons.1 hrun.forall_mem
    refine cutFrom_run hv (opening_of_isOperatorChar hc ?_) hcs hrun.behind
      (by rw [Run.reading, Token.word, hk])
    rintro ⟨rfl, hnext⟩
    cases cs with
    | nil =>
      have hslash : isOperatorChar '/' = false := hrun.behind '/' hnext
      exact absurd hslash (by decide)
    | cons x xs =>
      obtain rfl : x = '/' := by simpa using hnext
      exact hslashes (by simp)
  · next hk =>
    obtain ⟨hv, c, hc, rfl⟩ := h
    exact cutFrom_run hv (opening_of_isMarkChar hc _) (by simp) (fun _ _ => rfl)
      (by rw [Run.reading, Token.word, hk])
  · next hk => exact cutFrom_literal (fun _ => by rw [hk]; rfl) (by decide) h
  · next hk => exact cutFrom_literal (fun _ => by rw [hk]; rfl) (by decide) h

/-- No piece begins with a blank, as none is cut from there. -/
theorem Token.Shows.exists_cons (h : t.Shows front piece back) :
    ∃ c cs, piece = c :: cs ∧ isBlank c = false := by
  obtain ⟨l, hl, rfl, hw⟩ := h.cutFrom
  obtain ⟨c, cs, hpiece⟩ := List.exists_cons_of_ne_nil h.ne_nil
  refine ⟨c, cs, hpiece, Bool.eq_false_iff.2 fun hc => ?_⟩
  rw [hpiece, List.cons_append, next?_blank hc] at hl
  obtain ⟨rfl, -⟩ := Prod.mk.inj (Option.some.inj hl)
  simp [Run.lexeme, Run.reading] at hw

/-- A token is cut from its piece, and the others from behind it. -/
theorem tokensFrom_piece {file : String} (hshows : t.Shows front piece back)
    (hstart : t.span.start.toNat = width front) (hstop : t.span.stop.toNat = width (front ++ piece))
    (hfile : t.span.file = file) : tokensFrom file (width front) (piece ++ back) =
      (t :: (tokensFrom file (width (front ++ piece)) back).1,
        (tokensFrom file (width (front ++ piece)) back).2) := by
  obtain ⟨l, hl, rfl, hw⟩ := hshows.cutFrom
  have htoken : l.token? (width front) file = some t := by
    rw [Lexeme.token?, hw, Option.map_some, ← width_append, ← hstart, ← hstop, ← hfile]
    simp [Token.word]
  rw [tokensFrom_of_some hl, htoken, width_append]
  rfl

end Pieces

/-- The tokens that tile a text are those that it is cut into. -/
theorem Tiles.tokensFrom_eq {file : String} {front text : List Char} {ts : List Token}
    (h : Tiles file front text ts) : tokensFrom file (width front) text = (ts, []) := by
  induction h with
  | @last front gap hgap =>
    have hskip : tokensFrom file (width front) (gap ++ []) = tokensFrom file _ [] :=
      tokensFrom_layout hgap
    rwa [List.append_nil, tokensFrom_nil] at hskip
  | token hgap hshows hstart hstop hfile _ ih =>
    rw [List.append_assoc, tokensFrom_layout hgap, ← width_append,
      tokensFrom_piece hshows hstart hstop hfile, ih]

theorem tokenize_of_tokensFrom {source file : String} {ts : List Token}
    (h : tokensFrom file 0 source.toList = (ts, [])) :
    tokenize source file = .ok (ts ++ [endToken (width source.toList) file]) := by
  obtain ⟨rfl, hleft⟩ := Prod.mk.inj h
  exact tokenize_eq_ok.2 ⟨hleft, rfl⟩

/-- The tokens of a source are those that tile it. -/
theorem tokenize_eq_ok_iff_tiles {source file : String} {tokens : List Token}
    (hwidth : width source.toList < 2 ^ 32) : tokenize source file = .ok tokens ↔
      ∃ ts, Tiles file [] source.toList ts ∧
        tokens = ts ++ [endToken (width source.toList) file] := by
  constructor
  · intro h
    obtain ⟨hleft, rfl⟩ := tokenize_eq_ok.1 h
    exact ⟨_, tiles_tokensFrom hleft nofun hwidth, rfl⟩
  · rintro ⟨ts, htiles, rfl⟩
    exact tokenize_of_tokensFrom htiles.tokensFrom_eq

end ExprLang
