import ExprLang.Proofs.Lookahead

/-!
# Shifted places

A parser does not go by places. It only hands them on, from the tokens ahead to its
complaints. Where all tokens are shifted by one distance, a run does the same, and shifts
the place of its complaint.
-/
namespace ExprLang

section Shift

variable (k : ℕ)

def Position.shift (p : Position) : Position := ⟨p.offset + .ofNat k, p.file⟩

def Span.shift (s : Span) : Span := ⟨s.start + .ofNat k, s.stop + .ofNat k, s.file⟩

def Token.shift (t : Token) : Token := ⟨t.kind, t.value, t.span.shift k⟩

def Cursor.shift (c : Cursor) : Cursor :=
  ⟨c.ahead.map (Token.shift k), c.last.value, c.last.span.shift k⟩

@[simp] theorem Token.word_shift (t : Token) : (t.shift k).word = t.word := rfl

@[simp] theorem Token.position_shift (t : Token) :
    (t.shift k).position = t.position.shift k := rfl

@[simp] theorem Position.isNull_shift (p : Position) : (p.shift k).isNull = p.isNull := rfl

namespace Cursor

@[simp] theorem current_shift (c : Cursor) : (c.shift k).current = c.current.shift k := by
  obtain ⟨_ | ⟨t, ts⟩, last⟩ := c <;> rfl

theorem drop_shift (j : ℕ) (c : Cursor) : (c.shift k).drop j = (c.drop j).shift k := by
  simp [shift, drop, List.map_drop]

theorem alike_shift (j : ℕ) (c : Cursor) : Alike (fun t u => u = t.shift k) j c (c.shift k) :=
  Alike.map (W := fun t u => u = t.shift k) (fun _ => rfl) rfl j c.ahead

theorem place_shift (c : Cursor) (file : String) (t : Token) :
    (c.shift k).place file (t.shift k) = (c.place file t).shift k := by
  simp only [place, Token.position_shift, Position.isNull_shift, current_shift]
  split_ifs <;> rfl

end Cursor

theorem Likeness.shift : Likeness fun t u => u = t.shift k :=
  ⟨fun t => ⟨t.shift k, rfl⟩, by rintro t _ rfl; rfl⟩

namespace Parser

variable {α : Type} {p : Parser α} {c c' : Cursor}

/-- On shifted tokens a run has the same value. -/
theorem Operation.ok_shift (hp : p.Operation) {a : α} (h : p c = .ok a c') :
    p (c.shift k) = .ok a (c'.shift k) := by
  obtain ⟨j, -, rfl, hd⟩ := (hp.follows (.shift k)).ok (Nat.lt_succ_self _) h
  obtain ⟨_, hq, rfl⟩ := hd (c.shift k) (Cursor.alike_shift k j c)
  rw [hq, Cursor.drop_shift]

/-- On shifted tokens a run has the same complaint, about the shifted token. -/
theorem Operation.error_shift (hp : p.Operation) {fault : Fault} (h : p c = .error fault c') :
    p (c.shift k) = .error ⟨fault.complaint, fault.token.shift k⟩ (c'.shift k) := by
  obtain ⟨j, -, rfl, hd⟩ := (hp.follows (.shift k)).error (Nat.lt_succ_self _) h
  obtain ⟨⟨complaint, token⟩, hq, rfl, rfl⟩ := hd (c.shift k) (Cursor.alike_shift k j c)
  rw [hq, Cursor.drop_shift]

end Parser

end Shift

section Places

namespace Cursor

theorem current_mem_tokens (c : Cursor) : c.current ∈ c.tokens := by
  obtain ⟨_ | ⟨t, ts⟩, last⟩ := c <;> simp [tokens]

theorem tokens_drop_subset (k : ℕ) (c : Cursor) : (c.drop k).tokens ⊆ c.tokens := by
  intro t ht
  rcases List.mem_append.1 ht with ht | ht
  · exact List.mem_append_left _ (List.mem_of_mem_drop ht)
  · exact List.mem_append_right _ ht

/-- Cursors look like themselves where the tokens ahead are related to themselves. -/
theorem alike_self {W : Token → Token → Prop} {c : Cursor} (h : ∀ t ∈ c.tokens, W t t) (k : ℕ) :
    Alike W k c c := by
  obtain ⟨ts, m⟩ := c
  induction ts generalizing k with
  | nil => exact .last (h _ (by simp [tokens]))
  | cons t ts ih =>
    obtain ⟨ht, hts⟩ := List.forall_mem_cons.1 h
    cases k with
    | zero => exact .here ht
    | succ k => exact .further ht (ih k hts)

end Cursor

namespace Parser

variable {α : Type} {p : Parser α} {c c' : Cursor}

/-- A complaint is about a token with the place of one ahead. -/
theorem Operation.span_of_error (hp : p.Operation) {fault : Fault} (h : p c = .error fault c') :
    c'.tokens ⊆ c.tokens ∧ ∃ t ∈ c.tokens, fault.token.span = t.span := by
  let W : Token → Token → Prop := fun t u => t.word = u.word ∧ ∃ v ∈ c.tokens, u.span = v.span
  have hW : Likeness W := by
    refine ⟨fun t => ⟨⟨t.kind, t.value, c.current.span⟩, rfl, ?_⟩, And.left⟩
    exact ⟨c.current, c.current_mem_tokens, rfl⟩
  obtain ⟨j, -, rfl, hd⟩ := (hp.follows hW).error (Nat.lt_succ_self _) h
  obtain ⟨fault', hq, -, -, hspan⟩ :=
    hd c (Cursor.alike_self (fun t ht => ⟨rfl, t, ht, rfl⟩) j)
  obtain rfl : fault = fault' := by simpa [h] using hq
  exact ⟨c.tokens_drop_subset j, hspan⟩

/-- A complaint is placed where one of the tokens ahead begins. -/
theorem Operation.offset_of_error (hp : p.Operation) {fault : Fault}
    (h : p c = .error fault c') (file : String) :
    ∃ t ∈ c.tokens, (c'.place file fault.token).offset = t.span.start := by
  obtain ⟨hsub, t, ht, hspan⟩ := hp.span_of_error h
  have hcurrent := hsub c'.current_mem_tokens
  unfold Cursor.place
  split_ifs
  · exact ⟨t, ht, by simp [Token.position, hspan, Span.position]⟩
  · exact ⟨_, hcurrent, rfl⟩
  · exact ⟨_, hcurrent, rfl⟩

end Parser

end Places

end ExprLang
