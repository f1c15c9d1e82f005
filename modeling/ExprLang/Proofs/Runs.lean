import ExprLang.Grammar.Sequence
import Mathlib.Tactic

/-!
# Successful runs

What a successful run of each basic parser says about the cursor where it begins,
the value that it gives and the cursor where it ends.
-/
namespace ExprLang

namespace Cursor

variable {c : Cursor}

theorem size_next_lt_of_kind (h : c.current.kind ≠ .eof) : c.next.size < c.size :=
  size_next_lt (by simpa [atEnd, Token.isEof] using h)

theorem size_next_lt_of_isMark {mark : Char} (h : c.current.isMark mark = true) :
    c.next.size < c.size :=
  size_next_lt_of_kind (by simp [(Token.isMark_iff.1 h).1])

theorem size_next_lt_of_isWord {word : String} (h : c.current.isWord .keyword word = true) :
    c.next.size < c.size :=
  size_next_lt_of_kind (by simp [(Token.isWord_iff.1 h).1])

end Cursor

namespace Parser

variable {α β : Type} {c c' : Cursor}

@[simp] theorem pure_eq_ok {a b : α} :
    (pure a : Parser α) c = .ok b c' ↔ a = b ∧ c = c' := by
  rw [pure_apply, EStateM.Result.ok.injEq]

@[simp] theorem bind_eq_ok {p : Parser α} {f : α → Parser β} {b : β} :
    (p >>= f) c = .ok b c' ↔ ∃ a c₁, p c = .ok a c₁ ∧ f a c₁ = .ok b c' := by
  rw [bind_apply]
  cases p c <;> simp

@[simp] theorem map_eq_ok {p : Parser α} {f : α → β} {b : β} :
    (f <$> p) c = .ok b c' ↔ ∃ a, p c = .ok a c' ∧ f a = b := by
  rw [map_eq_pure_bind, bind_eq_ok]
  constructor
  · rintro ⟨a, c₁, hp, hb⟩
    obtain ⟨rfl, rfl⟩ := pure_eq_ok.1 hb
    exact ⟨a, hp, rfl⟩
  · rintro ⟨a, hp, rfl⟩
    exact ⟨a, c', hp, rfl⟩

@[simp] theorem current_eq_ok {t : Token} :
    current c = .ok t c' ↔ c.current = t ∧ c = c' := EStateM.Result.ok.injEq .. ▸ Iff.rfl

@[simp] theorem atEnd_eq_ok {b : Bool} : atEnd c = .ok b c' ↔ c.atEnd = b ∧ c = c' :=
  EStateM.Result.ok.injEq .. ▸ Iff.rfl

@[simp] theorem advance_eq_ok {t : Token} :
    advance c = .ok t c' ↔ c.current = t ∧ c.next = c' := EStateM.Result.ok.injEq .. ▸ Iff.rfl

@[simp] theorem fail_eq_ok {complaint : Complaint} {a : α} :
    ¬fail complaint c = .ok a c' := nofun

@[simp] theorem failAt_eq_ok {t : Token} {complaint : Complaint} {a : α} :
    ¬failAt t complaint c = .ok a c' := nofun

@[simp] theorem expect_eq_ok {expected : Token → Bool} {complaint : Complaint} {t : Token} :
    expect expected complaint c = .ok t c' ↔
      expected c.current = true ∧ c.current = t ∧ c.next = c' := by
  unfold expect
  split_ifs with h <;> simp [h]

@[simp] theorem expectMark_eq_ok {mark : Char} {u : Unit} :
    expectMark mark c = .ok u c' ↔ c.current.isMark mark = true ∧ c.next = c' := by
  simp [expectMark]

@[simp] theorem expectKeyword_eq_ok {word : String} {u : Unit} :
    expectKeyword word c = .ok u c' ↔ c.current.isWord .keyword word = true ∧ c.next = c' := by
  simp [expectKeyword]

@[simp] theorem expectOperator_eq_ok {operator : String} {u : Unit} :
    expectOperator operator c = .ok u c' ↔
      c.current.isWord .operator operator = true ∧ c.next = c' := by
  simp [expectOperator]

@[simp] theorem expectName_eq_ok {kind : NameKind} {name : String} :
    expectName kind c = .ok name c' ↔
      c.current.kind = .identifier ∧ c.current.value = name ∧ c.next = c' := by
  simp only [expectName, bind_eq_ok, expect_eq_ok, pure_eq_ok, beq_iff_eq]
  constructor
  · rintro ⟨t, _, ⟨hk, rfl, rfl⟩, rfl, rfl⟩
    exact ⟨hk, rfl, rfl⟩
  · rintro ⟨hk, rfl, rfl⟩
    exact ⟨_, _, ⟨hk, rfl, rfl⟩, rfl, rfl⟩

@[simp] theorem required_eq_ok {p : Parser (Option α)} {a : α} :
    required p c = .ok a c' ↔ p c = .ok (some a) c' := by
  rw [required, bind_eq_ok]
  constructor
  · rintro ⟨o, c₁, hp, h⟩
    cases o with
    | none => simp at h
    | some x =>
      obtain ⟨rfl, rfl⟩ := pure_eq_ok.1 h
      exact hp
  · exact fun h => ⟨some a, c', h, rfl⟩

@[simp] theorem atClose_apply (close : Char) (c : Cursor) :
    atClose close c = .ok (c.current.isEof || c.current.isMark close) c := rfl

/-- A list ends at its closing mark, or where the input does. -/
def Closes (close : Char) (c : Cursor) : Prop :=
  c.current.isEof = true ∨ c.current.isMark close = true

theorem not_closes_of_isMark {separator close : Char}
    (h : c.current.isMark separator = true) (hne : separator ≠ close) : ¬Closes close c := by
  obtain ⟨hk, hf⟩ := Token.isMark_iff.1 h
  rintro (he | hm)
  · simp [Token.isEof, hk] at he
  · exact hne (by simpa [hf] using (Token.isMark_iff.1 hm).2)

theorem firstElement_eq_ok {close : Char} {element : Parser α} {o : Option α} :
    firstElement close element c = .ok o c' ↔
      Closes close c ∧ o = none ∧ c = c' ∨
        ¬Closes close c ∧ ∃ a, element c = .ok a c' ∧ o = some a := by
  rw [firstElement, bind_eq_ok]
  simp only [atClose_apply, EStateM.Result.ok.injEq, Closes, ← Bool.or_eq_true]
  cases c.current.isEof || c.current.isMark close <;> simp [eq_comm]

theorem nextElement_eq_ok {close separator : Char} {element : Parser α} {o : Option α} :
    nextElement close separator element c = .ok o c' ↔
      Closes close c ∧ o = none ∧ c = c' ∨
        ¬Closes close c ∧ c.current.isMark separator = true ∧
          (c.next.current.isMark close = true ∧ o = none ∧ c.next = c' ∨
            c.next.current.isMark close = false ∧ ∃ a, element c.next = .ok a c' ∧ o = some a) := by
  rw [nextElement, bind_eq_ok]
  simp only [atClose_apply, EStateM.Result.ok.injEq, Closes, ← Bool.or_eq_true]
  cases c.current.isEof || c.current.isMark close with
  | true => simp [eq_comm (a := o)]
  | false =>
    cases hn : c.next.current.isMark close with
    | true => simp [hn, eq_comm (a := o)]
    | false => simp [hn, eq_comm (a := o)]

theorem delimited_eq_ok {opening close separator : Char} {element : Parser α} {as : List α} :
    delimited opening close separator element c = .ok as c' ↔
      c.current.isMark opening = true ∧ ∃ c₁, elements close separator element c.next = .ok as c₁ ∧
        c₁.current.isMark close = true ∧ c₁.next = c' := by
  simp [delimited, and_assoc]

end Parser

end ExprLang
