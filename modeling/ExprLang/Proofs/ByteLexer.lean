import ExprLang.ByteCursor
import ExprLang.Proofs.Tiling

/-!
# Lexing by bytes

A lexer that goes by bytes matches a piece at its cursor, cuts the quotes off a literal and
moves on by the length of the piece. Taking a slice of a text fails where the bounds are out of
range, the wrong way round or inside a character. None of this happens: the lexer is at a
boundary whenever it looks at the text, every turn moves it to a later one or ends with an error,
and it ends with what the text is cut into.
-/
namespace ExprLang

/-- The bytes of a text from `start` up to `stop`, if these are boundaries in this order. -/
def slice? (text : List Char) (start stop : ℕ) : Option (List Char) := do
  let behindStart ← dropBytes start text
  let behindStop ← dropBytes stop text
  if start ≤ stop then return behindStart.take (behindStart.length - behindStop.length) else none

section Slices

theorem dropBytes_width (front back : List Char) :
    dropBytes (width front) (front ++ back) = some back := by
  induction front with
  | nil => simp [dropBytes]
  | cons c front ih =>
    obtain ⟨n, hn⟩ : ∃ n, width (c :: front) = n + 1 :=
      Nat.exists_eq_succ_of_ne_zero (by simp [c.utf8Size_pos.ne'])
    rw [width_cons] at hn
    rw [width_cons, hn, List.cons_append, dropBytes, if_pos (by omega), ← hn,
      Nat.add_sub_cancel_left, ih]

theorem slice?_append (front middle back : List Char) :
    slice? (front ++ (middle ++ back)) (width front) (width front + width middle) =
      some middle := by
  have hstart := dropBytes_width front (middle ++ back)
  have hstop := dropBytes_width (front ++ middle) back
  rw [List.append_assoc, width_append] at hstop
  simp [slice?, hstart, hstop]

example : slice? ['a', 'é'] 1 3 = some ['é'] ∧ slice? ['a', 'é'] 1 2 = none ∧
    slice? ['a', 'é'] 1 4 = none ∧ slice? ['a', 'é'] 1 0 = none := by decide

end Slices

/-- How a text begins, and the piece that is matched there, unless no lexeme begins it. -/
def matched? : List Char → Option (Opening × List Char)
  | [] => none
  | c :: rest => do
    let o ← Opening.of? c rest.head?
    let (l, _) ← Lexeme.cut c rest o
    return (o, l.text)

namespace Opening

/-- How many bytes the lexer moves on by: a mark has one, whatever is matched. -/
def bytes : Opening → List Char → ℕ
  | run .mark, _ => 1
  | _, piece => width piece

/-- What the matched piece stands for. The first byte and the last one of a literal are cut off
as its quotes, if they can be. -/
def reading? : Opening → List Char → Option (Option (TokenKind × String))
  | run r, piece => some (r.reading (String.ofList piece))
  | quote kind, piece =>
    (slice? piece 1 (width piece - 1)).map fun body => some (kind, String.ofList (unescape body))

/-- A mark takes up one byte. -/
theorem bytes_of_cut {c : Char} {rest after : List Char} {o : Opening} {l : Lexeme}
    (ho : Opening.of? c rest.head? = some o) (hl : Lexeme.cut c rest o = some (l, after)) :
    o.bytes l.text = width l.text := by
  unfold bytes
  split
  · have hmark : isMarkChar c = true := begins_of_eq_some ho
    have hsize : c.utf8Size = 1 := by
      simp only [isMarkChar, List.contains_iff_mem, List.mem_cons, List.not_mem_nil,
        or_false] at hmark
      rcases hmark with rfl | rfl | rfl | rfl | rfl | rfl | rfl | rfl <;> rfl
    have htake : rest.takeWhile Run.mark.continues = [] := by cases rest <;> rfl
    obtain ⟨rfl, -⟩ := Prod.mk.inj (Option.some.inj hl)
    simp [htake, hsize]
  · rfl

/-- The quotes of a literal take up one byte each, so that what is between them is a slice. -/
theorem reading?_of_cut {c : Char} {rest after : List Char} {o : Opening} {l : Lexeme}
    (ho : Opening.of? c rest.head? = some o) (hl : Lexeme.cut c rest o = some (l, after)) :
    o.reading? l.text = some l.reading := by
  cases o with
  | run r =>
    obtain ⟨rfl, -⟩ := Prod.mk.inj (Option.some.inj hl)
    rfl
  | quote kind =>
    obtain ⟨⟨body, a⟩, -, heq⟩ := Option.map_eq_some_iff.1 hl
    obtain ⟨rfl, -⟩ := Prod.mk.inj heq
    have hsize : c.utf8Size = 1 := by
      rcases begins_of_eq_some ho with ⟨rfl, -⟩ | ⟨rfl, -⟩ <;> rfl
    have hslice : slice? (c :: (body ++ [c])) 1 (width (c :: (body ++ [c])) - 1) = some body := by
      have hstop : width (c :: (body ++ [c])) - 1 = width [c] + width body := by
        simp [hsize]
        omega
      have hcut := slice?_append [c] body [c]
      rw [hstop]
      simpa [hsize] using hcut
    rw [reading?, Lexeme.text_quoted, hslice]
    rfl

end Opening

/-- A lexer at its cursor, with the tokens that it has made so far. -/
structure ByteLexer where
  cursor : ByteCursor
  tokens : List Token

namespace ByteLexer

def start (source file : String) : ByteLexer := ⟨.start source file, []⟩

/-- The lexer `n` bytes further on, with a token for what these stand for, if anything. -/
def take (s : ByteLexer) (n : ℕ) (reading : Option (TokenKind × String)) : ByteLexer where
  cursor := { s.cursor with offset := s.cursor.offset + n }
  tokens := s.tokens ++ (reading.map fun (kind, value) => ⟨kind, value,
    .ofNat s.cursor.offset, .ofNat (s.cursor.offset + n), s.cursor.file⟩).toList

/-- One turn of the lexer, if no slice fails: it matches a piece and goes on behind that, or
complains about the character at the cursor. -/
def turn (s : ByteLexer) : Option (Except SyntaxError ByteLexer) := do
  match matched? (← s.cursor.remainder) with
  | some (o, piece) => return .ok (s.take (o.bytes piece) (← o.reading? piece))
  | none =>
    return .error ⟨.unrecognisedToken, String.singleton (← s.cursor.at?), s.cursor.position⟩

/-- The lexer ends in finitely many turns, in none of which a slice fails. -/
inductive Ends : ByteLexer → Except SyntaxError (List Token) → Prop
  | done {s : ByteLexer} (hend : s.cursor.atEnd = true) :
    Ends s (.ok (s.tokens ++ [endToken s.cursor.offset s.cursor.file]))
  | error {s : ByteLexer} {e : SyntaxError} (hend : s.cursor.atEnd = false)
    (h : s.turn = some (.error e)) : Ends s (.error e)
  | turn {s s' : ByteLexer} {r : Except SyntaxError (List Token)} (hend : s.cursor.atEnd = false)
    (h : s.turn = some (.ok s')) (hs : Ends s' r) : Ends s r

/-- The lexers that turns lead to. -/
inductive Reaches (s : ByteLexer) : ByteLexer → Prop
  | refl : Reaches s s
  | turn {t t' : ByteLexer} (h : Reaches s t) (hend : t.cursor.atEnd = false)
    (ht : t.turn = some (.ok t')) : Reaches s t'

/-- A lexer is behind `front` in its source, and before `back`. -/
structure Between (s : ByteLexer) (front back : List Char) : Prop where
  source : s.cursor.source.toList = front ++ back
  offset : s.cursor.offset = width front

/-- The lexer is at a boundary of its source, at its end at the latest, from which the rest of
the text can be read. If something is left, a turn is an error about the character there, or
leads further on, by a distance that can be counted if the bytes of the source can. -/
structure Sound (source : String) (s : ByteLexer) : Prop where
  boundary : ∃ front back, source.toList = front ++ back ∧ s.cursor.offset = width front ∧
    s.cursor.remainder = some back
  le : s.cursor.offset ≤ width source.toList
  turn (hend : s.cursor.atEnd = false) :
    (∃ c, s.cursor.at? = some c ∧
      s.turn = some (.error (unrecognised c s.cursor.offset s.cursor.file))) ∨
    ∃ s', s.turn = some (.ok s') ∧ s.cursor.offset < s'.cursor.offset ∧
      (width source.toList < UInt64.size →
        s.cursor.advance? (s'.cursor.offset - s.cursor.offset) = some s'.cursor)

/-- What a lexer that is before a text ends with. -/
def result (s : ByteLexer) (text : List Char) : Except SyntaxError (List Token) :=
  match lexemes text with
  | (ls, []) => .ok (s.tokens ++ placed s.cursor.file s.cursor.offset ls ++
      [endToken (s.cursor.offset + extent ls) s.cursor.file])
  | (ls, c :: _) => .error (unrecognised c (s.cursor.offset + extent ls) s.cursor.file)

section Turns

variable {s : ByteLexer} {front back after : List Char} {l : Lexeme}

theorem Between.remainder (h : s.Between front back) : s.cursor.remainder = some back := by
  rw [ByteCursor.remainder, h.source, h.offset, dropBytes_width]

theorem Between.atEnd_iff (h : s.Between front back) : s.cursor.atEnd = true ↔ back = [] := by
  rw [ByteCursor.atEnd, h.source, h.offset, width_append, decide_eq_true_eq]
  constructor
  · intro hle
    by_contra hne
    have hpos := width_pos hne
    omega
  · rintro rfl
    exact le_rfl

/-- Behind the lexeme that is matched. -/
theorem Between.take (h : s.Between front (l.text ++ after)) :
    (s.take (width l.text) l.reading).Between (front ++ l.text) after where
  source := by rw [List.append_assoc, ← h.source]; rfl
  offset := by rw [width_append, ← h.offset]; rfl

/-- A turn before a lexeme takes this lexeme. -/
theorem Between.turn_of_some (h : s.Between front back)
    (hl : Lexeme.next? back = some (l, after)) :
    s.turn = some (.ok (s.take (width l.text) l.reading)) := by
  cases back with
  | nil => simp [Lexeme.next?] at hl
  | cons c rest =>
    obtain ⟨o, ho, hcut⟩ := Option.bind_eq_some_iff.1 hl
    have hmatched : matched? (c :: rest) = some (o, l.text) := by simp [matched?, ho, hcut]
    simp [turn, h.remainder, hmatched, Opening.reading?_of_cut ho hcut,
      Opening.bytes_of_cut ho hcut]

theorem Between.turn_of_none {c : Char} {rest : List Char} (h : s.Between front (c :: rest))
    (hl : Lexeme.next? (c :: rest) = none) : s.cursor.at? = some c ∧
      s.turn = some (.error (unrecognised c s.cursor.offset s.cursor.file)) := by
  have hat : s.cursor.at? = some c := by rw [ByteCursor.at?, h.remainder]; rfl
  have hmatched : matched? (c :: rest) = none := by
    rw [Lexeme.next?, Option.bind_eq_none_iff] at hl
    simp only [matched?, Option.bind_eq_bind, Option.bind_eq_none_iff]
    exact fun o ho p hp => by simp [hl o ho] at hp
  refine ⟨hat, ?_⟩
  simp [turn, h.remainder, hmatched, hat, unrecognised, ByteCursor.position]

/-- If something is left, a turn complains about the character there or takes a lexeme. -/
theorem Between.turn_cases (h : s.Between front back) (hend : s.cursor.atEnd = false) :
    (∃ c, s.cursor.at? = some c ∧
      s.turn = some (.error (unrecognised c s.cursor.offset s.cursor.file))) ∨
    ∃ (l : Lexeme) (after : List Char), back = l.text ++ after ∧ l.text ≠ [] ∧
      s.turn = some (.ok (s.take (width l.text) l.reading)) := by
  have hback : back ≠ [] := fun hnil => by simp [h.atEnd_iff.2 hnil] at hend
  cases hl : Lexeme.next? back with
  | none =>
    obtain ⟨c, rest, rfl⟩ := List.exists_cons_of_ne_nil hback
    exact .inl ⟨c, h.turn_of_none hl⟩
  | some p =>
    obtain ⟨htext, hne⟩ := Lexeme.next?_eq_some hl
    exact .inr ⟨p.1, p.2, htext.symm, hne, h.turn_of_some hl⟩

/-- A lexer before a text ends with what the text is cut into. -/
theorem Between.ends (h : s.Between front back) : s.Ends (s.result back) := by
  induction back using lexemes.induct generalizing s front with
  | case1 text hl =>
    rw [result, lexemes_of_none hl]
    cases text with
    | nil =>
      have hdone := Ends.done (h.atEnd_iff.2 rfl)
      simpa [placed, extent] using hdone
    | cons c rest =>
      have hend : s.cursor.atEnd = false := Bool.eq_false_iff.2 (by simp [h.atEnd_iff])
      simpa [extent] using Ends.error hend (h.turn_of_none hl).2
  | case2 text l after hl _ _ _ ih =>
    obtain ⟨rfl, hne⟩ := Lexeme.next?_eq_some hl
    have hend : s.cursor.atEnd = false := Bool.eq_false_iff.2 (by simp [h.atEnd_iff, hne])
    have hresult : s.result (l.text ++ after) =
        (s.take (width l.text) l.reading).result after := by
      rw [result, result, lexemes_of_some hl]
      rcases lexemes after with ⟨ls, _ | ⟨c, left⟩⟩
      · simp [placed, extent, ByteLexer.take, Lexeme.token?, Nat.add_assoc]
      · simp [extent, ByteLexer.take, Nat.add_assoc]
    rw [hresult]
    exact .turn hend (h.turn_of_some hl) (ih h.take)

/-- A lexer between two parts of the source is sound. -/
theorem Between.sound (h : s.Between front back) : s.Sound s.cursor.source where
  boundary := ⟨front, back, h.source, h.offset, h.remainder⟩
  le := by
    rw [h.source, h.offset, width_append]
    exact Nat.le_add_right ..
  turn hend := by
    refine (h.turn_cases hend).imp_right ?_
    rintro ⟨l, after, rfl, hne, hturn⟩
    refine ⟨_, hturn, Nat.lt_add_of_pos_right (width_pos hne), fun hcount => ?_⟩
    rw [h.source, width_append, width_append, ← h.offset] at hcount
    have hfits : s.cursor.offset + width l.text < UInt64.size := by omega
    simp [ByteCursor.advance?, ByteCursor.offsetAfter, ByteLexer.take, hfits]

end Turns

/-- Turns lead from boundary to boundary. -/
theorem Reaches.exists_between {source file : String} {s : ByteLexer}
    (h : (start source file).Reaches s) :
    s.cursor.source = source ∧ ∃ front back, s.Between front back := by
  induction h with
  | refl => exact ⟨rfl, [], source.toList, rfl, rfl⟩
  | turn _ hend ht ih =>
    obtain ⟨hsource, front, back, hs⟩ := ih
    rcases hs.turn_cases hend with ⟨c, -, herror⟩ | ⟨l, after, rfl, -, hturn⟩
    · simp [herror] at ht
    · obtain rfl : _ = _ := by simpa [hturn] using ht
      exact ⟨hsource, _, _, hs.take⟩

end ByteLexer

/-- Lexing by bytes ends with the tokens of the source or with its first error, without a slice
that fails, and is sound at every turn. -/
theorem byteLexer_ends_and_sound (source file : String) :
    (ByteLexer.start source file).Ends (tokenize source file) ∧
      ∀ s, (ByteLexer.start source file).Reaches s → s.Sound source := by
  have hstart : (ByteLexer.start source file).Between [] source.toList := ⟨rfl, rfl⟩
  refine ⟨?_, fun s hs => ?_⟩
  · have hresult : (ByteLexer.start source file).result source.toList = tokenize source file := by
      rw [ByteLexer.result, tokenize]
      rcases lexemes source.toList with ⟨ls, _ | ⟨c, left⟩⟩ <;>
        simp [ByteLexer.start, ByteCursor.start]
    exact hresult ▸ hstart.ends
  · obtain ⟨rfl, front, back, hbetween⟩ := hs.exists_between
    exact hbetween.sound

/-- An empty literal, a character of two bytes in another one, and a last one without its quote. -/
theorem byteLexer_ends_and_sound_unclosed :
    let source := "\"\"'é'\"\\"
    tokenize source "s" = .error (unrecognised '"' 6 "s") ∧
      (ByteLexer.start source "s").Ends (.error (unrecognised '"' 6 "s")) ∧
      ∀ s, (ByteLexer.start source "s").Reaches s → s.Sound source := by
  intro source
  have h : tokenize source "s" = .error (unrecognised '"' 6 "s") := by decide +kernel
  exact ⟨h, h ▸ byteLexer_ends_and_sound source "s"⟩

end ExprLang
