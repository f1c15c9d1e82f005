import ExprLang.Proofs.Complaints
import ExprLang.Proofs.Termination
import ExprLang.Proofs.Yield

/-!
# Progress

A token stream stands at an index of its tokens. Taking a token or running an operation of the
grammar, to a value or to a complaint, keeps the tokens and moves on in them, never behind the
last one. From wherever this leads every operation returns, and those that give a value have
taken the tokens that the value cannot do without.
-/
namespace ExprLang

/-- The tokens of a list, closed by a detached mark unless it ends with one. -/
def withEndMark (tokens : List Token) : List Token :=
  if tokens.getLast?.any Token.isEof then tokens else tokens ++ [EndMark.detached.token]

theorem Cursor.tokens_ofTokens_eq_withEndMark (tokens : List Token) :
    (Cursor.ofTokens tokens).tokens = withEndMark tokens := by
  rcases List.eq_nil_or_concat tokens with rfl | ⟨ts, t, rfl⟩
  · rfl
  · rw [List.concat_eq_append]
    by_cases ht : t.isEof = true
    · simp [tokens_ofTokens ht, withEndMark, ht]
    · simp [ofTokens, withEndMark, Cursor.tokens, ht]

theorem Cursor.tokens_drop {k : ℕ} {c : Cursor} (hk : k ≤ c.size) :
    (c.drop k).tokens = c.tokens.drop k := by
  rw [tokens, tokens, List.drop_append_of_le_length hk]
  rfl

namespace TokenStream

/-- A stream whose tokens ahead are those of a list from its position on. -/
structure StandsIn (s : TokenStream) (all : List Token) : Prop where
  lt : s.position < all.length
  tokens : s.cursor.tokens = all.drop s.position

/-- The streams that taking tokens and running operations lead to. -/
inductive Reaches (s : TokenStream) : TokenStream → Prop
  | refl : Reaches s s
  | next {t : TokenStream} (h : Reaches s t) : Reaches s t.next
  | run {t : TokenStream} {α : Type} {p : Parser α} (h : Reaches s t) (hp : p.Operation) :
    Reaches s (t.run p).2

/-- Running a parser keeps the tokens and does not move back. If it gives a value, it moves on
by so many tokens at least. -/
structure Advances {α : Type} (s : TokenStream) (all : List Token) (p : Parser α)
    (least : ℕ) : Prop where
  standsIn : (s.run p).2.StandsIn all
  le : s.position ≤ (s.run p).2.position
  add_le {a : α} (h : (s.run p).1 = .ok a) : s.position + least ≤ (s.run p).2.position

/-- Where a stream stands, and what the operations of the grammar do from there. -/
structure Progresses (s : TokenStream) (all : List Token) : Prop where
  standsIn : s.StandsIn all
  current : all[s.position]? = some s.current
  next : s.next.StandsIn all ∧ s.next.position = min (s.position + 1) (all.length - 1)
  operation {α : Type} {F : Parser (Option Expr) → Parser α} (h : Parser.OperationScheme F) :
    Parser.Returns F s.cursor ∧ s.Advances all (F Parser.expression) 0
  loop {α : Type} {L : Parser (Option Expr) → Parser (Option α)} (h : Parser.LoopScheme L) :
    Parser.Ends L s.cursor
  expression : s.Advances all Parser.expression 1
  value : s.Advances all (Parser.required Parser.expression) 1
  atom : s.Advances all Parser.atom 1
  block : s.Advances all Parser.block 2
  delimited {α : Type} {element : Parser α} (h : element.Element)
    (opening close separator : Char) :
    s.Advances all (Parser.delimited opening close separator element) 2
  program {p : Program} (h : (s.run Parser.program).1 = .ok p) :
    (s.run Parser.program).2.atEnd = true

section Moves

variable {s : TokenStream} {all : List Token}

theorem StandsIn.current_eq (h : s.StandsIn all) : all[s.position]? = some s.current := by
  calc
    all[s.position]? = s.cursor.tokens[0]? := by rw [h.tokens, List.getElem?_drop, Nat.add_zero]
    _ = some s.current := by simpa [TokenStream.current] using s.cursor.getElem?_tokens 0

theorem StandsIn.length_eq (h : s.StandsIn all) : all.length = s.position + s.cursor.size + 1 := by
  have hlt := h.lt
  have hlen := congrArg List.length h.tokens
  simp only [Cursor.tokens, List.length_append, List.length_singleton, List.length_drop] at hlen
  rw [Cursor.size]
  omega

theorem position_moveTo_drop {k : ℕ} (hk : k ≤ s.cursor.size) :
    (s.moveTo (s.cursor.drop k)).position = s.position + k := by
  simp only [moveTo, Cursor.size_drop]
  omega

theorem StandsIn.moveTo_drop (h : s.StandsIn all) {k : ℕ} (hk : k ≤ s.cursor.size) :
    (s.moveTo (s.cursor.drop k)).StandsIn all where
  lt := by
    rw [position_moveTo_drop hk, h.length_eq]
    omega
  tokens := by
    rw [position_moveTo_drop hk, ← List.drop_drop, ← h.tokens]
    exact Cursor.tokens_drop hk

theorem StandsIn.next (h : s.StandsIn all) :
    s.next.StandsIn all ∧ s.next.position = min (s.position + 1) (all.length - 1) := by
  have hlen := h.length_eq
  by_cases hs : s.cursor.size = 0
  · have hstay : s.next = s := by
      obtain ⟨⟨_ | ⟨t, ts⟩, m⟩, i, file⟩ := s
      · simp [TokenStream.next, moveTo]
      · simp [Cursor.size] at hs
    rw [hstay]
    exact ⟨h, by omega⟩
  · have hk : 1 ≤ s.cursor.size := by omega
    rw [TokenStream.next, ← Cursor.drop_one]
    exact ⟨h.moveTo_drop hk, by rw [position_moveTo_drop hk]; omega⟩

end Moves

section Runs

variable {α : Type} {p : Parser α} {s : TokenStream} {all : List Token}

/-- A run of an operation stops so many tokens further on, be it with a value or not. -/
theorem exists_run_eq_moveTo_drop (hp : p.Operation) (s : TokenStream) :
    ∃ k ≤ s.cursor.size, (s.run p).2 = s.moveTo (s.cursor.drop k) := by
  have hf := hp.follows .eq (n := s.cursor.size + 1)
  cases hr : p s.cursor with
  | ok a c' =>
    obtain ⟨k, hk, rfl, -⟩ := hf.ok (Nat.lt_succ_self _) hr
    exact ⟨k, hk, by rw [run, hr]⟩
  | error fault c' =>
    obtain ⟨k, hk, rfl, -⟩ := hf.error (Nat.lt_succ_self _) hr
    exact ⟨k, hk, by rw [run, hr]⟩

theorem exists_of_run_eq_ok {a : α} (h : (s.run p).1 = .ok a) :
    ∃ c', p s.cursor = .ok a c' ∧ (s.run p).2 = s.moveTo c' := by
  unfold run at h ⊢
  cases hr : p s.cursor with
  | ok b c' =>
    obtain rfl : b = a := by simpa [hr] using h
    exact ⟨c', rfl, rfl⟩
  | error fault c' => simp [hr] at h

/-- What an operation with a value does to the tokens ahead, it does to the position. -/
theorem StandsIn.advances (h : s.StandsIn all) (hp : p.Operation) {least : ℕ}
    (hleast : ∀ ⦃a c'⦄, p s.cursor = .ok a c' → c'.size + least ≤ s.cursor.size) :
    s.Advances all p least := by
  obtain ⟨k, hk, hrun⟩ := exists_run_eq_moveTo_drop hp s
  have hpos := position_moveTo_drop hk
  refine ⟨hrun ▸ h.moveTo_drop hk, by rw [hrun, hpos]; omega, fun {a} ha => ?_⟩
  obtain ⟨c', hc', hmove⟩ := exists_of_run_eq_ok ha
  have hsize := hleast hc'
  simp only [hmove, moveTo]
  omega

theorem StandsIn.advances_zero (h : s.StandsIn all) (hp : p.Operation) : s.Advances all p 0 :=
  h.advances hp fun _ _ hr =>
    (hp.follows .eq (n := s.cursor.size + 1)).size_le (Nat.lt_succ_self _) hr

end Runs

end TokenStream

namespace Parser

variable {c c' : Cursor}

theorem size_lt_of_atom {o : Option Expr} (h : atom c = .ok o c') : c'.size < c.size :=
  Rule.size_lt_of_atom .eq (follows_expression .eq) (fun _ => follows_expression .eq)
    c.size.lt_succ_self h

/-- A list has its opening and its closing mark. -/
theorem size_add_two_le_of_delimited {α : Type} {element : Parser α} {as : List α}
    (he : element.Element) {opening close separator : Char}
    (h : delimited opening close separator element c = .ok as c') : c'.size + 2 ≤ c.size := by
  obtain ⟨hopen, c₁, has, hclose, rfl⟩ := delimited_eq_ok.1 h
  have hlt := Cursor.size_next_lt_of_isMark hopen
  have hle := (follows_elements close separator .eq (he.follows .eq)
    fun _ => he.follows .eq).size_le c.next.size.lt_succ_self has
  have hlt' := Cursor.size_next_lt_of_isMark hclose
  omega

theorem size_add_two_le_of_block {o : Option Expr} (h : block c = .ok o c') :
    c'.size + 2 ≤ c.size := by
  obtain ⟨os, hos, -⟩ := Rule.block_eq_ok.1 h
  exact size_add_two_le_of_delimited .expression hos

end Parser

/-- A stream that stands in its tokens makes progress. -/
theorem TokenStream.StandsIn.progresses {s : TokenStream} {all : List Token}
    (h : s.StandsIn all) : s.Progresses all where
  standsIn := h
  current := h.current_eq
  next := h.next
  operation hF := ⟨hF.returns _, h.advances_zero hF.operation⟩
  loop hL := hL.ends _
  expression := h.advances .expression fun _ _ hr => Parser.takes_expression hr
  value := h.advances .value fun _ _ hr => Parser.takes_expression (Parser.required_eq_ok.1 hr)
  atom := h.advances .atom fun _ _ hr => Parser.size_lt_of_atom hr
  block := h.advances .block fun _ _ hr => Parser.size_add_two_le_of_block hr
  delimited he opening close separator := h.advances (.delimited opening close separator he)
    fun _ _ hr => Parser.size_add_two_le_of_delimited he hr
  program hq := by
    obtain ⟨c', hc', hmove⟩ := TokenStream.exists_of_run_eq_ok hq
    obtain ⟨os, hos, -⟩ := program_eq_ok_iff.1 hc'
    rw [hmove]
    exact hos.atEnd_of_statements

theorem TokenStream.standsIn_ofTokens (tokens : List Token) (file : String) :
    (TokenStream.ofTokens tokens file).StandsIn (withEndMark tokens) where
  lt := by
    rw [← Cursor.tokens_ofTokens_eq_withEndMark]
    simp [ofTokens, Cursor.tokens]
  tokens := Cursor.tokens_ofTokens_eq_withEndMark tokens

/-- Wherever the stream of a token list, be it empty or with end marks anywhere, is brought to
by taking tokens and by running operations of the grammar, it stands at an index of these tokens
and makes progress from there. -/
theorem progresses_of_reaches {tokens : List Token} {file : String} {s : TokenStream}
    (h : (TokenStream.ofTokens tokens file).Reaches s) : s.Progresses (withEndMark tokens) := by
  suffices hs : s.StandsIn (withEndMark tokens) from hs.progresses
  induction h with
  | refl => exact TokenStream.standsIn_ofTokens tokens file
  | next _ ih => exact ih.next.1
  | run _ hp ih => exact (ih.advances_zero hp).standsIn

/-- A program that ends at a mark in the middle, and the stream taken past this mark. -/
theorem progresses_of_reaches_past_end :
    let tokens := [.detached .identifier "a", .detached .eof "", .detached .keyword "def"]
    let s := ((TokenStream.ofTokens tokens "shell").run Parser.program).2.next
    s.position = 2 ∧ s.Progresses (tokens ++ [.detached .eof "EOF"]) :=
  ⟨by decide +kernel, progresses_of_reaches (.next (.run .refl .program))⟩

end ExprLang
