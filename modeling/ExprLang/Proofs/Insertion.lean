import ExprLang.Proofs.Concatenation
import ExprLang.Proofs.Determinacy

/-!
# Insertion of layout

Blanks and comments may be put before and behind any token of a source. The same tokens are
cut from it, those behind the insertion further on, so that the source is read alike. Only
an operator needs a blank before a comment, which would go on with it.
-/
namespace ExprLang

/-- Blanks and comments that end with a line break. -/
inductive Spacing : List Char → Prop
  | nil : Spacing []
  | blank {c : Char} {gap : List Char} (hc : isBlank c = true) (h : Spacing gap) :
    Spacing (c :: gap)
  | comment {body gap : List Char} (hbody : ∀ x ∈ body, x ≠ '\n') (h : Spacing gap) :
    Spacing ('/' :: '/' :: (body ++ '\n' :: gap))

section Gaps

variable {back back' gap w : List Char}

/-- Spacing may be put before a gap. -/
theorem Spacing.layout (hw : Spacing w) (h : Layout back gap) : Layout back (w ++ gap) := by
  induction hw with
  | nil => exact h
  | blank hc _ ih => exact .blank hc ih
  | @comment body w hbody _ ih =>
    have hrest : Layout back ('\n' :: (w ++ gap)) := .blank isBlank_newline ih
    simpa using Layout.comment hbody (by simp) hrest

namespace Layout

/-- Of what comes behind a gap, only the first character matters. -/
theorem congr (h : Layout back gap) (hback : back'.head? = back.head?) : Layout back' gap := by
  induction h with
  | nil => exact .nil
  | blank hc _ ih => exact .blank hc ih
  | comment hbody hend _ ih =>
    exact .comment hbody (by simpa [List.head?_append, hback] using hend) ih

/-- A comment at the end of a text goes on with what is put behind it, up to a line break. -/
theorem comment_spacing {body : List Char} (hbody : ∀ x ∈ body, x ≠ '\n') (hw : Spacing w) :
    Layout [] ('/' :: '/' :: (body ++ w)) := by
  induction hw generalizing body with
  | nil => exact .comment hbody (by simp) .nil
  | @blank c w hc hw ih =>
    by_cases hn : c = '\n'
    · subst hn
      have hrest := (Spacing.blank hc hw).layout (@Layout.nil [])
      exact .comment hbody (by simp) (by simpa using hrest)
    · have hmore : ∀ x ∈ body ++ [c], x ≠ '\n' :=
        List.forall_mem_append.2 ⟨hbody, List.forall_mem_singleton.2 hn⟩
      simpa using ih hmore
  | @comment inner w hinner hw ih =>
    have hmore : ∀ x ∈ body ++ '/' :: '/' :: inner, x ≠ '\n' :=
      List.forall_mem_append.2 ⟨hbody, by simpa using hinner⟩
    have hrest := (Spacing.blank isBlank_newline hw).layout (@Layout.nil [])
    simpa using Layout.comment hmore (by simp) hrest

/-- Layout may be put behind a gap, before anything but a line break. -/
theorem append_spacing (h : Layout back gap) (hback : ∀ x ∈ back.head?, x ≠ '\n')
    (hw : Spacing w) : Layout back (gap ++ w) := by
  induction h with
  | nil => simpa using hw.layout .nil
  | blank hc _ ih => exact .blank hc ih
  | @comment body gap hbody hend hgap ih =>
    cases gap with
    | nil =>
      obtain rfl : back = [] := by
        cases back with
        | nil => rfl
        | cons c cs => exact absurd (hend c rfl) (hback c rfl)
      simpa using comment_spacing hbody hw
    | cons c gap => simpa using Layout.comment hbody (by simpa using hend) ih

end Layout

end Gaps

section Pieces

variable {t : Token} {front piece back back' : List Char}

/-- What begins spacing ends every token before it but an operator before a comment. -/
theorem Spacing.head {w : List Char} (hw : Spacing w) :
    ∀ c ∈ w.head?, isBlank c = true ∨ c = '/' := by
  cases hw <;> simp_all

/-- A token shows the same before another text that does not go on with it. -/
theorem Token.Shows.behind (h : t.Shows front piece back)
    (hback : ∀ c ∈ back'.head?, c ∈ back.head? ∨ isBlank c = true ∨
      c = '/' ∧ t.kind ≠ .operator) : t.Shows front piece back' := by
  have hends : ∀ {p : Char → Bool}, (∀ c, isBlank c = true → p c = false) →
      (t.kind ≠ .operator → p '/' = false) → (∀ c ∈ back.head?, p c = false) →
      ∀ c ∈ back'.head?, p c = false := by
    intro p hblank hslash hp c hc
    rcases hback c hc with hc | hc | ⟨rfl, hk⟩
    · exact hp c hc
    · exact hblank c hc
    · exact hslash hk
  have hword := hends (fun c => isNameChar_of_isBlank) fun _ => by decide
  unfold Shows at h ⊢
  split at h
  · exact h.elim
  · next hk => exact ⟨h.1, h.2.1, h.2.2.1, hword h.2.2.2⟩
  · next hk => exact ⟨h.1, h.2.1, h.2.2.1, hword h.2.2.2⟩
  · next hk =>
    obtain ⟨hv, hne, hall, hbefore, hbehind⟩ := h
    exact ⟨hv, hne, hall, hbefore,
      hends (fun c hc => (other_of_isBlank hc).1) (fun _ => by decide) hbehind⟩
  · next hk =>
    obtain ⟨hv, ⟨hne, hall, hbefore, hbehind⟩, hslashes⟩ := h
    exact ⟨hv, ⟨hne, hall, hbefore, hends (fun c hc => (other_of_isBlank hc).2)
      (fun hne => absurd hk hne) hbehind⟩, hslashes⟩
  · exact h
  · exact h
  · exact h

end Pieces

section Insert

variable {file : String} {front text : List Char} {ts : List Token} {p k : ℕ}

/-- The token further on by `k` bytes, if it begins at or behind `p`. -/
def Token.shiftFrom (p k : ℕ) (t : Token) : Token :=
  if p ≤ t.span.start.toNat then t.shift k else t

/-- Spacing between two parts of a text leaves its tokens as they are, those behind it further
on. It has to begin with a blank behind an operator. -/
def TakesSpacing (file : String) (front left right : List Char) (ts : List Token) : Prop :=
  ∀ w, Spacing w → w ≠ [] →
    (∀ t ∈ ts, t.kind = .operator → t.span.stop.toNat = width (front ++ left) →
      ∀ c ∈ w.head?, isBlank c = true) →
    tokensFrom file (width front) (left ++ w ++ right) =
      (ts.map (Token.shiftFrom (width (front ++ left)) (width w)), [])

namespace Tiles

theorem map_shiftFrom (h : Tiles file front text ts) :
    ts.map (Token.shiftFrom (width front) k) = ts.map (Token.shift k) :=
  List.map_congr_left fun t ht => if_pos (h.width_le_start t ht)

/-- Spacing may be put before the first token, behind a gap that does not take it in. -/
theorem takesSpacing_gap {gap : List Char} (h : Tiles file (front ++ gap) text ts)
    (hgap : ∀ w, Spacing w → Layout text (gap ++ w)) : TakesSpacing file front gap text ts := by
  intro w hw _ _
  have hoffset : width front + width (gap ++ w) = width (front ++ gap) + width w := by
    simp [Nat.add_assoc]
  rw [tokensFrom_layout (hgap w hw), hoffset, tokensFrom_shift, h.tokensFrom_eq, h.map_shiftFrom]

theorem takesSpacing_start (h : Tiles file front text ts) : TakesSpacing file front [] text ts :=
  takesSpacing_gap (by simpa using h) fun w hw => by simpa using hw.layout .nil

/-- What takes spacing takes it behind a gap and the piece of one more token as well. -/
theorem takesSpacing_token {gap piece left right : List Char} {t : Token}
    (hgap : Layout (piece ++ (left ++ right)) gap)
    (hshows : t.Shows (front ++ gap) piece (left ++ right))
    (hstart : t.span.start.toNat = width (front ++ gap))
    (hstop : t.span.stop.toNat = width (front ++ gap ++ piece)) (hfile : t.span.file = file)
    (h : TakesSpacing file (front ++ gap ++ piece) left right ts) :
    TakesSpacing file front (gap ++ piece ++ left) right (t :: ts) := by
  intro w hw hne hop
  have hplace : front ++ (gap ++ piece ++ left) = front ++ gap ++ piece ++ left := by simp
  rw [hplace] at hop ⊢
  obtain ⟨hopt, hops⟩ := List.forall_mem_cons.1 hop
  obtain ⟨x, xs, hpiece, -⟩ := hshows.exists_cons
  have hshows' : t.Shows (front ++ gap) piece (left ++ w ++ right) := by
    refine hshows.behind fun c hc => ?_
    cases left with
    | cons y ys => exact .inl (by simpa using hc)
    | nil =>
      obtain ⟨y, ys, rfl⟩ := List.exists_cons_of_ne_nil hne
      obtain rfl : y = c := by simpa using hc
      refine .inr ((hw.head y rfl).imp id fun hy => ⟨hy, fun hk => ?_⟩)
      have hblank := hopt hk (by simpa using hstop) y rfl
      exact absurd (hy ▸ hblank) (by decide)
  have hgap' : Layout (piece ++ (left ++ w ++ right)) gap := hgap.congr (by simp [hpiece])
  have hbefore : t.shiftFrom (width (front ++ gap ++ piece ++ left)) (width w) = t := by
    have hpos := width_pos hshows.ne_nil
    refine if_neg ?_
    rw [hstart]
    simp only [width_append]
    omega
  have hsplit : gap ++ piece ++ left ++ w ++ right = gap ++ (piece ++ (left ++ w ++ right)) := by
    simp
  rw [hsplit, tokensFrom_layout hgap', ← width_append,
    tokensFrom_piece hshows' hstart hstop hfile, h w hw hne hops, List.map_cons, hbefore]

/-- A tiled text takes spacing at its start and its end and at those of every token in it. -/
theorem exists_takesSpacing (h : Tiles file front text ts)
    (hp : p = width front ∨ p = width (front ++ text) ∨
      ∃ t ∈ ts, t.span.start.toNat = p ∨ t.span.stop.toNat = p) :
    ∃ left right, text = left ++ right ∧ width (front ++ left) = p ∧
      TakesSpacing file front left right ts := by
  induction h with
  | @last front gap hgap =>
    rcases hp with rfl | rfl | ⟨t, ht, -⟩
    · exact ⟨[], gap, rfl, by simp, (Tiles.last hgap).takesSpacing_start⟩
    · exact ⟨gap, [], by simp, rfl,
        (Tiles.last .nil).takesSpacing_gap fun w hw => hgap.append_spacing nofun hw⟩
    · simp at ht
  | @token front gap piece back t ts hgap hshows hstart hstop hfile h ih =>
    by_cases hfront : p = width front
    · exact ⟨[], _, rfl, by simp [hfront],
        (Tiles.token hgap hshows hstart hstop hfile h).takesSpacing_start⟩
    by_cases hbefore : p = t.span.start.toNat
    · refine ⟨gap, piece ++ back, by simp, by rw [hbefore, hstart], takesSpacing_gap
        (h.cons hshows hstart hstop hfile) fun w hw => hgap.append_spacing ?_ hw⟩
      obtain ⟨c, cs, rfl, hc⟩ := hshows.exists_cons
      rintro x ⟨⟩ rfl
      exact absurd isBlank_newline (by simp [hc])
    · obtain ⟨left, right, rfl, hplace, htail⟩ := ih <| by
        rcases hp with hp | hp | ⟨u, hu, hp⟩
        · exact absurd hp hfront
        · exact .inr (.inl (by simpa using hp))
        · rcases List.mem_cons.1 hu with rfl | hu
          · exact .inl (by rw [← hstop]; exact (hp.resolve_left fun h => hbefore h.symm).symm)
          · exact .inr (.inr ⟨u, hu, hp⟩)
      exact ⟨gap ++ piece ++ left, right, by simp, by simpa using hplace,
        takesSpacing_token (by simpa using hgap) hshows hstart hstop hfile htail⟩

end Tiles

end Insert

section Sources

variable {source file : String} {tokens : List Token} {p k : ℕ} {w : List Char}

/-- A token with the same word, further on by `k` bytes if it began at or behind `p`. -/
structure Token.Moved (p k : ℕ) (t u : Token) : Prop where
  kind : u.kind = t.kind
  value : u.value = t.value
  file : u.span.file = t.span.file
  behind : p ≤ t.span.start.toNat → u.span.start.toNat = t.span.start.toNat + k ∧
    u.span.stop.toNat = t.span.stop.toNat + k
  before : t.span.start.toNat < p → u.span = t.span

theorem toNat_add_ofNat {n : UInt32} (h : n.toNat + k < 2 ^ 32) :
    (n + .ofNat k).toNat = n.toNat + k := by
  simpa [UInt32.ofNat_add] using toNat_ofNat_add h

/-- Within the 32 bits of an offset, a shifted token is further on. -/
theorem Token.moved_shiftFrom {t : Token} (h : t.span.stop.toNat + k < 2 ^ 32)
    (hle : t.span.start.toNat ≤ t.span.stop.toNat) : t.Moved p k (t.shiftFrom p k) := by
  unfold shiftFrom
  split_ifs with hp
  · refine ⟨rfl, rfl, rfl, fun _ => ⟨toNat_add_ofNat ?_, toNat_add_ofNat h⟩, fun hlt => ?_⟩
    · omega
    · omega
  · exact ⟨rfl, rfl, rfl, fun hle => absurd hle hp, fun _ => rfl⟩

theorem Tiles.stop_le {front text : List Char} {ts : List Token} (h : Tiles file front text ts) :
    ∀ t ∈ ts, t.span.stop.toNat ≤ width (front ++ text) := by
  induction h with
  | last => nofun
  | token _ _ _ hstop _ _ ih =>
    refine List.forall_mem_cons.2 ⟨?_, by simpa using ih⟩
    simp only [hstop, width_append]
    omega

/-- A program, or the complaint about it, does not depend on the places of its tokens. -/
theorem outcome_ofTokens_shiftFrom (ts : List Token) (m n : ℕ) (streamFile : String) :
    outcome (Program.ofTokens (ts.map (Token.shiftFrom p k) ++ [endToken m file]) streamFile) =
      outcome (Program.ofTokens (ts ++ [endToken n file]) streamFile) := by
  have hword : ∀ t : Token, t.SameWord (t.shiftFrom p k) := fun t => by
    unfold Token.shiftFrom
    split_ifs <;> rfl
  have halike : ∀ j, (Cursor.ofTokens (ts ++ [endToken n file])).Alike Token.SameWord j
      (Cursor.ofTokens (ts.map (Token.shiftFrom p k) ++ [endToken m file])) := fun j => by
    rw [Cursor.ofTokens_append rfl, Cursor.ofTokens_append rfl]
    exact .map hword (by rfl) j ts
  let start (tokens : List Token) : TokenStream := .ofTokens tokens streamFile
  obtain ⟨-, -, -, houtcome⟩ :=
    @TokenStream.run_eq_of_alike _ _ (start _) (start _) .program fun j _ => halike j
  exact houtcome

end Sources

/-- Blanks and comments between the tokens of a source do not matter. Wherever a token begins
or ends, a source takes more of them: it has the same tokens, those behind them further on,
and the same program or complaint. -/
theorem tokenize_insert_spacing {source file : String} {tokens : List Token} {p : ℕ}
    {w : List Char} (h : tokenize source file = .ok tokens)
    (hp : ∃ t ∈ tokens, t.span.start.toNat = p ∨ t.span.stop.toNat = p) (hw : Spacing w)
    (hne : w ≠ []) (hop : ∀ t ∈ tokens, t.kind = .operator → t.span.stop.toNat = p →
      ∀ c ∈ w.head?, isBlank c = true)
    (hwidth : width source.toList + width w < 2 ^ 32) :
    ∃ front back moved, source.toList = front ++ back ∧ width front = p ∧
      tokenize (String.ofList (front ++ w ++ back)) file = .ok moved ∧
      List.Forall₂ (Token.Moved p (width w)) tokens moved ∧
      ∀ streamFile,
        outcome (Program.ofSource (String.ofList (front ++ w ++ back)) file streamFile) =
          outcome (Program.ofSource source file streamFile) := by
  obtain ⟨ts, htiles, rfl⟩ := (tokenize_eq_ok_iff_tiles (by omega)).1 h
  have hend : (endToken (width source.toList) file).span.start.toNat = width source.toList :=
    UInt32.toNat_ofNat_of_lt' (Nat.lt_of_add_right_lt hwidth)
  have hplace : p = width source.toList ∨
      ∃ t ∈ ts, t.span.start.toNat = p ∨ t.span.stop.toNat = p := by
    obtain ⟨t, ht, hp⟩ := hp
    rcases List.mem_append.1 ht with ht | ht
    · exact .inr ⟨t, ht, hp⟩
    · obtain rfl := List.mem_singleton.1 ht
      exact .inl ((or_self_iff.1 hp).symm.trans hend)
  obtain ⟨front, back, hsource, hfront, htakes⟩ := htiles.exists_takesSpacing (.inr hplace)
  obtain rfl : width front = p := hfront
  have htext : (String.ofList (front ++ w ++ back)).toList = front ++ w ++ back :=
    String.toList_ofList
  have hlen : width (front ++ w ++ back) = width source.toList + width w := by
    rw [hsource]
    simp only [width_append]
    omega
  have hcut := htakes w hw hne fun t ht => hop t (List.mem_append_left _ ht)
  have hmoved := tokenize_of_tokensFrom (htext.symm ▸ hcut)
  rw [htext, hlen] at hmoved
  refine ⟨front, back, _, hsource, rfl, hmoved, ?_, fun streamFile => ?_⟩
  · refine List.rel_append (List.forall₂_map_right_iff.2 ?_) (.cons ?_ .nil)
    · refine List.forall₂_same.2 fun t ht => Token.moved_shiftFrom ?_ ?_
      · have := htiles.stop_le t ht
        simp only [List.nil_append] at this
        omega
      · exact (htiles.start_lt_stop t ht).2.le
    · refine ⟨rfl, rfl, rfl, fun _ => ?_, fun hlt => ?_⟩
      · exact ⟨toNat_ofNat_add hwidth, toNat_ofNat_add hwidth⟩
      · rw [hend, hsource, width_append] at hlt
        omega
  · rw [Program.ofSource, Program.ofSource, h, hmoved]
    exact outcome_ofTokens_shiftFrom ts _ _ streamFile

/-- A wide blank and a comment between an operator and the number next to it. -/
theorem tokenize_insert_spacing_operator :
    let source := "x+1 // é"
    let w := "\u2003// +\n".toList
    let tokens : List Token := [⟨.identifier, "x", 0, 1, "s"⟩, ⟨.operator, "+", 1, 2, "s"⟩,
      ⟨.number, "1", 2, 3, "s"⟩, endToken 9 "s"]
    tokenize source "s" = .ok tokens ∧ Spacing w ∧ width w = 8 ∧
      ∃ front back moved, source.toList = front ++ back ∧ width front = 2 ∧
        tokenize (String.ofList (front ++ w ++ back)) "s" = .ok moved ∧
        List.Forall₂ (Token.Moved 2 8) tokens moved ∧
        ∀ streamFile,
          outcome (Program.ofSource (String.ofList (front ++ w ++ back)) "s" streamFile) =
            outcome (Program.ofSource source "s" streamFile) := by
  intro source w tokens
  have h : tokenize source "s" = .ok tokens := by decide +kernel
  have hbody : ∀ x ∈ [' ', '+'], x ≠ '\n' := by simp
  have hblank : isBlank '\u2003' = true := by decide
  have hfirst : ∀ c ∈ w.head?, isBlank c = true := by
    rintro _ ⟨⟩
    exact hblank
  have hw : Spacing w := .blank hblank (.comment hbody .nil)
  have hlen : width w = 8 := by decide +kernel
  have hwidth : width source.toList + width w < 2 ^ 32 := by decide +kernel
  have hinsert := tokenize_insert_spacing (p := 2) h ⟨⟨.operator, "+", 1, 2, "s"⟩, by decide⟩ hw
    (List.cons_ne_nil _ _) (fun _ _ _ _ => hfirst) hwidth
  exact ⟨h, hw, hlen, hlen ▸ hinsert⟩

end ExprLang
