import ExprLang.Proofs.Seams

/-!
# Tiling of sources

The tokens of a source lie in it one behind the other, with nothing but blanks and
comments around them. Each of them shows what is in its place.
-/
namespace ExprLang

/-- Blanks and comments before `back`. A comment goes on up to a newline or the end. -/
inductive Layout (back : List Char) : List Char → Prop
  | nil : Layout back []
  | blank {c : Char} {gap : List Char} (hc : isBlank c = true) (h : Layout back gap) :
    Layout back (c :: gap)
  | comment {body gap : List Char} (hbody : ∀ x ∈ body, x ≠ '\n')
    (hend : ∀ x ∈ (gap ++ back).head?, x = '\n') (h : Layout back gap) :
    Layout back ('/' :: '/' :: (body ++ gap))

/-- The tokens of a text behind `front`, with the places of their pieces in the whole. -/
inductive Tiles (file : String) : List Char → List Char → List Token → Prop
  | last {front gap : List Char} (hgap : Layout [] gap) : Tiles file front gap []
  | token {front gap piece back : List Char} {t : Token} {ts : List Token}
    (hgap : Layout (piece ++ back) gap) (hshows : t.Shows (front ++ gap) piece back)
    (hstart : t.span.start.toNat = width (front ++ gap))
    (hstop : t.span.stop.toNat = width (front ++ gap ++ piece)) (hfile : t.span.file = file)
    (h : Tiles file (front ++ gap ++ piece) back ts) :
    Tiles file front (gap ++ piece ++ back) (t :: ts)

namespace Tiles

variable {file : String} {front back text piece : List Char} {t : Token} {ts : List Token}

/-- What may stand between tokens may stand before the first of them. -/
theorem layout {skipped : List Char} (h : Tiles file (front ++ skipped) text ts)
    (hskip : ∀ gap back, text = gap ++ back → Layout back gap → Layout back (skipped ++ gap)) :
    Tiles file front (skipped ++ text) ts := by
  cases h with
  | last hgap => exact .last (hskip text [] (List.append_nil text).symm hgap)
  | @token _ gap piece back t ts hgap hshows hstart hstop hfile h =>
    rw [List.append_assoc front] at hshows hstart hstop h
    have hwhole := Tiles.token (hskip gap (piece ++ back) (List.append_assoc ..) hgap) hshows
      hstart hstop hfile h
    simpa using hwhole

/-- A piece at the start is that of the first token. -/
theorem cons (hshows : t.Shows front piece back) (hstart : t.span.start.toNat = width front)
    (hstop : t.span.stop.toNat = width (front ++ piece)) (hfile : t.span.file = file)
    (h : Tiles file (front ++ piece) back ts) : Tiles file front (piece ++ back) (t :: ts) :=
  .token .nil (by simpa using hshows) (by simpa using hstart) (by simpa using hstop) hfile
    (by simpa using h)

end Tiles

/-- What is cut to its end is tiled, wherever it begins, by the tokens that it is cut into. -/
theorem tiles_tokensFrom {file : String} {front text : List Char}
    (hleft : (tokensFrom file (width front) text).2 = []) (hapart : Apart front text)
    (hwidth : width (front ++ text) < 2 ^ 32) :
    Tiles file front text (tokensFrom file (width front) text).1 := by
  induction text using cutting_induction generalizing front with
  | stop text hl =>
    obtain rfl : text = [] := by simpa [tokensFrom, lexemes_of_none hl] using hleft
    rw [tokensFrom_nil]
    exact .last .nil
  | blank c text hc ih =>
    have hfront : width front + c.utf8Size = width (front ++ [c]) := by simp
    rw [tokensFrom_blank hc, hfront] at hleft ⊢
    have hrest := ih hleft (apart_of_isBlank front hc text) (by simpa using hwidth)
    exact hrest.layout fun gap back _ h => .blank hc h
  | lexeme c text l after hc hl ih =>
    obtain ⟨hsplit, -⟩ := Lexeme.next?_eq_some hl
    rw [← hsplit] at hwidth
    rw [tokensFrom_of_some hl] at hleft ⊢
    have hrest : Tiles file (front ++ l.text) after
        (tokensFrom file (width front + width l.text) after).1 := by
      rw [← width_append] at hleft ⊢
      exact ih hleft (apart_of_next? front hl) (by rwa [List.append_assoc])
    rw [← hsplit]
    cases hw : l.reading with
    | none =>
      obtain ⟨body, htext, hbody, hend⟩ := comment_of_next? hc hl hw
      have hskip : ∀ gap back, after = gap ++ back → Layout back gap →
          Layout back (l.text ++ gap) := by
        rintro gap back rfl hgap
        rw [htext]
        exact .comment hbody hend hgap
      simpa [Lexeme.token?, hw] using hrest.layout hskip
    | some w =>
      let t : Token := ⟨w.1, w.2, .ofNat (width front), .ofNat (width front + width l.text), file⟩
      have htoken : l.token? (width front) file = some t := by simp [Lexeme.token?, hw, t]
      have hstop : width front + width l.text < UInt32.size := by
        simp only [width_append, UInt32.size] at hwidth ⊢
        omega
      rw [htoken]
      refine hrest.cons (shows_of_next? hl hw hapart) ?_ ?_ rfl
      · exact UInt32.toNat_ofNat_of_lt' (Nat.lt_of_add_right_lt hstop)
      · rw [width_append]
        exact UInt32.toNat_ofNat_of_lt' hstop

namespace Tiles

variable {file : String} {front text : List Char} {ts : List Token}

theorem width_le_start (h : Tiles file front text ts) :
    ∀ t ∈ ts, width front ≤ t.span.start.toNat := by
  induction h with
  | last => nofun
  | token _ _ hstart _ _ _ ih =>
    simp only [width_append] at ih hstart
    refine List.forall_mem_cons.2 ⟨by omega, fun t ht => ?_⟩
    have := ih t ht
    omega

theorem start_lt_stop (h : Tiles file front text ts) :
    ∀ t ∈ ts, t.kind ≠ .eof ∧ t.span.start.toNat < t.span.stop.toNat := by
  induction h with
  | last => nofun
  | token _ hshows hstart hstop _ _ ih =>
    refine List.forall_mem_cons.2 ⟨⟨hshows.ne_eof, ?_⟩, ih⟩
    have hpos := width_pos hshows.ne_nil
    rw [hstop, width_append, ← hstart]
    exact Nat.lt_add_of_pos_right hpos

/-- The tokens lie one behind the other. -/
theorem pairwise (h : Tiles file front text ts) :
    ts.Pairwise fun t u => t.span.stop.toNat ≤ u.span.start.toNat := by
  induction h with
  | last => exact .nil
  | token _ _ _ hstop _ h ih => exact .cons (fun u hu => hstop.trans_le (h.width_le_start u hu)) ih

end Tiles

/-- The tokens of a source tile it up to the end mark, which has its place behind the source. -/
theorem tiles_of_tokenize {source file : String} {tokens : List Token}
    (h : tokenize source file = .ok tokens) (hwidth : width source.toList < 2 ^ 32) :
    ∃ ts last, tokens = ts ++ [last] ∧ last.kind = .eof ∧
      last.span.start.toNat = width source.toList ∧ last.span.stop.toNat = width source.toList ∧
      (∀ t ∈ ts, t.kind ≠ .eof ∧ t.span.start.toNat < t.span.stop.toNat) ∧
      ts.Pairwise (fun t u => t.span.stop.toNat ≤ u.span.start.toNat) ∧
      Tiles file [] source.toList ts := by
  obtain ⟨hleft, rfl⟩ := tokenize_eq_ok.1 h
  have htiles : Tiles file [] source.toList (tokensFrom file 0 source.toList).1 :=
    tiles_tokensFrom hleft nofun hwidth
  have hlen : (UInt32.ofNat (width source.toList)).toNat = width source.toList :=
    UInt32.toNat_ofNat_of_lt' hwidth
  exact ⟨_, _, rfl, rfl, hlen, hlen, htiles.start_lt_stop, htiles.pairwise, htiles⟩

/-- Operators that begin like comments do, and quotes, comments and blanks of all widths. -/
theorem tiles_of_tokenize_layout :
    let source := "if_x1+//2 \"é\\\"\" // 'c\n\u2003;'a'"
    let ts : List Token := [⟨.identifier, "if_x1", 0, 5, "s"⟩, ⟨.operator, "+//", 5, 8, "s"⟩,
      ⟨.number, "2", 8, 9, "s"⟩, ⟨.string, "é\"", 10, 16, "s"⟩, ⟨.punctuation, ";", 26, 27, "s"⟩,
      ⟨.character, "a", 27, 30, "s"⟩]
    tokenize source "s" = .ok (ts ++ [endToken 30 "s"]) ∧ width source.toList < 2 ^ 32 ∧
      Tiles "s" [] source.toList ts := by
  intro source ts
  have h : tokenize source "s" = .ok (ts ++ [endToken 30 "s"]) := by decide +kernel
  have hwidth : width source.toList < 2 ^ 32 := by decide +kernel
  obtain ⟨ts', last, hts, -, -, -, -, -, htiles⟩ := tiles_of_tokenize h hwidth
  obtain ⟨rfl, -⟩ := List.append_inj' hts rfl
  exact ⟨h, hwidth, htiles⟩

end ExprLang
