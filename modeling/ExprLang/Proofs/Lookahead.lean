import ExprLang.Grammar.Program
import ExprLang.Proofs.Recursion

/-!
# Lookahead

Every operation of the grammar decides with one token of lookahead: its outcome, a
value or a complaint, and the place where it stops are fixed by the words of the
tokens from where it starts to where it stops. Neither the places of the tokens nor
their file nor anything behind the last of them matters.
-/
namespace ExprLang

namespace Parser

/-- The parsers that the lists of the grammar are made of. -/
inductive Element : {α : Type} → Parser α → Prop
  | parameter : Element Rule.parameter
  | name : Element (expectName .variable)
  | expression : Element expression
  | value : Element (required expression)

/-- The operations of the grammar. -/
inductive Operation : {α : Type} → Parser α → Prop
  | expression : Operation expression
  | value : Operation (required expression)
  | atom : Operation atom
  | block : Operation block
  | program : Operation program
  | chained (floor : ℕ) (first : Expr) : Operation (chained floor first)
  | called (callee : Expr) : Operation (called callee)
  | delimited {α : Type} {element : Parser α} (opening close separator : Char)
    (h : Element element) : Operation (delimited opening close separator element)

variable {W : Token → Token → Prop} (hW : Likeness W) {α : Type} {p : Parser α} {n : ℕ}

include hW

theorem Element.follows (h : Element p) : Follows W n Eq p p := by
  cases h with
  | parameter => exact Rule.follows_parameter hW
  | name => exact follows_expectName hW _
  | expression => exact follows_expression hW
  | value => exact follows_required hW (follows_expression hW)

theorem Operation.follows (h : Operation p) : Follows W n Eq p p := by
  have hs : ∀ m, Follows W m Eq Parser.expression Parser.expression := fun _ =>
    follows_expression hW
  cases h with
  | expression => exact hs n
  | value => exact follows_required hW (hs n)
  | atom => exact (Rule.follows_atom hW (hs n) hs).mono n.le_succ
  | block => exact (Rule.follows_block hW (hs n) hs).mono n.le_succ
  | program => exact follows_program hW
  | chained floor first => exact (Rule.follows_chained hW (hs n) hs floor first).mono n.le_succ
  | called callee => exact (Rule.follows_called hW (hs n) hs callee).mono n.le_succ
  | delimited opening close separator he =>
    exact (follows_delimited close separator hW opening (he.follows hW)
      fun _ => he.follows hW).mono n.le_succ

end Parser

namespace Cursor

/-- Where end marks are last, the words of the tokens tell whether cursors look alike. -/
theorem alike_of_words {ts us : List Token} {m l : EndMark} {k : ℕ}
    (hts : ∀ t ∈ ts, t.isEof = false) (hus : ∀ u ∈ us, u.isEof = false)
    (h : ∀ i ≤ k, (tokens ⟨ts, m⟩)[i]?.map Token.word = (tokens ⟨us, l⟩)[i]?.map Token.word) :
    Alike Token.SameWord k ⟨ts, m⟩ ⟨us, l⟩ := by
  have hend : ∀ (n : EndMark) (u : Token), n.token.word = u.word → u.isEof = true := fun n u hw =>
    (Likeness.sameWord.isEof (t := n.token) hw).symm
  induction ts generalizing k us with
  | nil =>
    have h0 := h 0 (Nat.zero_le k)
    cases us with
    | nil =>
      have hw : m.token.word = l.token.word := by simpa [tokens] using h0
      exact .last hw
    | cons u us =>
      have hw : m.token.word = u.word := by simpa [tokens] using h0
      simp [hend m u hw] at hus
  | cons t ts ih =>
    have h0 := h 0 (Nat.zero_le k)
    cases us with
    | nil =>
      have hw : l.token.word = t.word := by simpa [tokens] using h0.symm
      simp [hend l t hw] at hts
    | cons u us =>
      have htu : t.word = u.word := by simpa [tokens] using h0
      cases k with
      | zero => exact .here htu
      | succ k =>
        rw [List.forall_mem_cons] at hts hus
        refine .further htu (ih hts.2 hus.2 fun i hi => ?_)
        simpa [tokens] using h (i + 1) (Nat.succ_le_succ hi)

end Cursor

/-- What a run shows apart from places: its value, or its complaint and the text that
this is about. -/
def outcome {α : Type} : Except SyntaxError α → Except (Complaint × String) α :=
  Except.mapError fun e => (e.complaint, e.found)

namespace TokenStream

/-- The stream of a token list from its token `i` on. -/
def startAt (tokens : List Token) (i : ℕ) (file : String) : TokenStream :=
  ⟨(Cursor.ofTokens tokens).drop i, i, file⟩

theorem cursor_startAt {ts : List Token} {t : Token} (ht : t.isEof = true) (i : ℕ)
    (file : String) : (startAt (ts ++ [t]) i file).cursor = ⟨ts.drop i, t.value, t.span⟩ := by
  simp [startAt, Cursor.ofTokens_append ht, Cursor.drop]

theorem tokens_startAt {ts : List Token} {t : Token} (ht : t.isEof = true) {i : ℕ}
    (hi : i ≤ ts.length) (file : String) :
    (startAt (ts ++ [t]) i file).cursor.tokens = (ts ++ [t]).drop i := by
  have hk : t.kind = .eof := by simpa [Token.isEof] using ht
  rw [cursor_startAt ht, List.drop_append_of_le_length hi]
  simp [Cursor.tokens, EndMark.token, ← hk]

variable {α : Type} {p : Parser α} {s : TokenStream} {k : ℕ}

theorem run_of_ok {a : α} (hk : k ≤ s.cursor.size) (h : p s.cursor = .ok a (s.cursor.drop k)) :
    outcome (s.run p).1 = .ok a ∧ (s.run p).2.position = s.position + k := by
  refine ⟨by simp [run, h, outcome, Except.mapError], ?_⟩
  simp only [run, h, moveTo, Cursor.size_drop]
  omega

theorem run_of_error {fault : Fault} (hk : k ≤ s.cursor.size)
    (h : p s.cursor = .error fault (s.cursor.drop k)) :
    outcome (s.run p).1 = .error (fault.complaint, fault.token.value) ∧
      (s.run p).2.position = s.position + k := by
  refine ⟨by simp [run, h, outcome, Except.mapError, errorAt], ?_⟩
  simp only [run, h, moveTo, Cursor.size_drop]
  omega

/-- A run stops at or behind its start. -/
theorem position_le_run (s : TokenStream) (p : Parser α) : s.position ≤ (s.run p).2.position := by
  unfold run
  split <;> exact Nat.le_add_right ..

/-- Two runs of one operation on streams that look alike as far as the first one goes. -/
theorem run_eq_of_alike {s' : TokenStream} (hp : p.Operation)
    (h : ∀ k, (s.run p).2.position = s.position + k →
      s.cursor.Alike Token.SameWord k s'.cursor) :
    ∃ k, (s.run p).2.position = s.position + k ∧ (s'.run p).2.position = s'.position + k ∧
      outcome (s'.run p).1 = outcome (s.run p).1 := by
  have hf := hp.follows .sameWord (n := s.cursor.size + 1)
  cases hr : p s.cursor with
  | ok a c' =>
    obtain ⟨k, hk, rfl, hd⟩ := hf.ok (Nat.lt_succ_self _) hr
    obtain ⟨ho, hpos⟩ := run_of_ok hk hr
    obtain ⟨b, hq, rfl⟩ := hd _ (h k hpos)
    obtain ⟨ho', hpos'⟩ := run_of_ok ((h k hpos).le_size hk) hq
    exact ⟨k, hpos, hpos', ho'.trans ho.symm⟩
  | error fault c' =>
    obtain ⟨k, hk, rfl, hd⟩ := hf.error (Nat.lt_succ_self _) hr
    obtain ⟨ho, hpos⟩ := run_of_error hk hr
    obtain ⟨fault', hq, hcomplaint, hword⟩ := hd _ (h k hpos)
    obtain ⟨ho', hpos'⟩ := run_of_error ((h k hpos).le_size hk) hq
    refine ⟨k, hpos, hpos', ?_⟩
    rw [ho, ho', hcomplaint, Likeness.sameWord.value hword]

end TokenStream

/-- One token of lookahead: an operation that starts at the token `start` of two lists
which have the same words up to where it stops on the first one stops there on the
second one, with the same outcome. -/
theorem run_eq_of_words {α : Type} {p : Parser α} (hp : p.Operation) {v w : List Token}
    (hv : Terminated v) (hw : Terminated w) {start : ℕ} (hstart : start < v.length)
    (file file' : String)
    (h : ∀ i, start ≤ i → i ≤ ((TokenStream.startAt v start file).run p).2.position →
      v[i]?.map Token.word = w[i]?.map Token.word) :
    ((TokenStream.startAt w start file').run p).2.position =
        ((TokenStream.startAt v start file).run p).2.position ∧
      outcome ((TokenStream.startAt w start file').run p).1 =
        outcome ((TokenStream.startAt v start file).run p).1 := by
  obtain ⟨ts, t, rfl, ht, hts⟩ := hv
  obtain ⟨us, u, rfl, hu, hus⟩ := hw
  have hts' : start ≤ ts.length := by simpa using hstart
  have hus' : start ≤ us.length := by
    have hsome := h start le_rfl (TokenStream.position_le_run (.startAt (ts ++ [t]) start file) p)
    rw [List.getElem?_eq_getElem hstart] at hsome
    obtain ⟨x, hx, -⟩ := Option.map_eq_some_iff.1 hsome.symm
    simpa using (List.getElem?_eq_some_iff.1 hx).1
  have htokens := TokenStream.tokens_startAt ht hts' file
  have hutokens := TokenStream.tokens_startAt hu hus' file'
  have halike : ∀ k, ((TokenStream.startAt (ts ++ [t]) start file).run p).2.position = start + k →
      (TokenStream.startAt (ts ++ [t]) start file).cursor.Alike Token.SameWord k
        (TokenStream.startAt (us ++ [u]) start file').cursor := by
    intro k hk
    rw [TokenStream.cursor_startAt ht] at htokens ⊢
    rw [TokenStream.cursor_startAt hu] at hutokens ⊢
    refine Cursor.alike_of_words (fun x hx => hts x (List.mem_of_mem_drop hx))
      (fun x hx => hus x (List.mem_of_mem_drop hx)) fun i hi => ?_
    rw [htokens, hutokens, List.getElem?_drop, List.getElem?_drop]
    apply h (start + i) (Nat.le_add_right ..)
    rw [hk]
    exact Nat.add_le_add_left hi start
  obtain ⟨k, hv, hw, ho⟩ := TokenStream.run_eq_of_alike hp halike
  exact ⟨hw.trans hv.symm, ho⟩

/-- A call in two lists that differ before it, behind its semicolon and in all places. -/
theorem run_eq_of_words_call :
    let v := [⟨.operator, "-", ⟨0, 1, "v"⟩⟩, ⟨.identifier, "f", ⟨1, 2, "v"⟩⟩,
      ⟨.punctuation, "(", ⟨2, 3, "v"⟩⟩, ⟨.punctuation, ")", ⟨3, 4, "v"⟩⟩,
      ⟨.punctuation, ";", ⟨4, 5, "v"⟩⟩, ⟨.eof, "EOF", ⟨5, 5, "v"⟩⟩]
    let w := [.detached .number "7", .detached .identifier "f", .detached .punctuation "(",
      .detached .punctuation ")", .detached .punctuation ";", .detached .punctuation "(",
      .detached .eof "EOF"]
    ((TokenStream.startAt v 1 "v").run Parser.expression).2.position = 4 ∧
      ((TokenStream.startAt w 1 "w").run Parser.expression).2.position = 4 ∧
      outcome ((TokenStream.startAt w 1 "w").run Parser.expression).1 =
        outcome ((TokenStream.startAt v 1 "v").run Parser.expression).1 := by
  intro v w
  have hstop : ((TokenStream.startAt v 1 "v").run Parser.expression).2.position = 4 := by
    decide +kernel
  have h := run_eq_of_words .expression (v := v) (w := w)
    ⟨_, _, (List.dropLast_append_getLast (by simp [v])).symm, by decide, by decide⟩
    ⟨_, _, (List.dropLast_append_getLast (by simp [w])).symm, by decide, by decide⟩
    (by decide : 1 < v.length)
    "v" "w" (fun i h1 hi => by
      rw [hstop] at hi
      interval_cases i <;> decide)
  exact ⟨hstop, h.1.trans hstop, h.2⟩

end ExprLang
