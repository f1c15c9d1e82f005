import ExprLang.Proofs.Agreement
import ExprLang.Proofs.Runs

/-!
# Repetitions and lists

A repetition is bounded by the tokens ahead. As each of its items takes a token it
never meets that bound, so that it is one item and a repetition behind it.
-/
namespace ExprLang

namespace Parser

open Cursor

variable {W : Token → Token → Prop} {α : Type}

section Sequences

variable {n : ℕ} {p q : Parser (Option α)}

/-- A parser that finds nothing at an end mark, and takes nothing there. -/
def StopsAtEnd (p : Parser (Option α)) : Prop := ∀ ⦃c⦄, c.atEnd = true → p c = .ok none c

/-- Whatever is found, fewer tokens are ahead behind it. -/
def TakesBelow (n : ℕ) (p : Parser (Option α)) : Prop :=
  ∀ ⦃c a c'⦄, c.size < n → p c = .ok (some a) c' → c'.size < c.size

theorem TakesBelow.mono {m : ℕ} (h : TakesBelow n p) (hmn : m ≤ n) : TakesBelow m p :=
  fun _ _ _ hc => h (hc.trans_le hmn)

theorem atEnd_of_size_eq_zero {c : Cursor} (h : c.size = 0) : c.atEnd = true := by
  obtain ⟨_ | ⟨t, ts⟩, m⟩ := c
  · rfl
  · simp [size] at h

theorem repeatedWithin_atEnd (hp : StopsAtEnd p) {c : Cursor} (h : c.atEnd = true)
    (budget : List Token) : repeatedWithin p budget c = .ok [] c := by
  cases budget with
  | nil => rfl
  | cons b bs => rw [repeatedWithin, bind_apply, hp h]; rfl

theorem repeatedWithin_eq (ht : TakesBelow n p) (hp : StopsAtEnd p) {c : Cursor}
    {budget budget' : List Token} (hc : c.size < n) (hb : c.size ≤ budget.length)
    (hb' : c.size ≤ budget'.length) :
    repeatedWithin p budget c = repeatedWithin p budget' c := by
  induction budget generalizing c budget' with
  | nil =>
    have h0 := atEnd_of_size_eq_zero (Nat.le_zero.1 hb)
    rw [repeatedWithin_atEnd hp h0, repeatedWithin_atEnd hp h0]
  | cons b bs ih =>
    cases budget' with
    | nil =>
      have h0 := atEnd_of_size_eq_zero (Nat.le_zero.1 hb')
      rw [repeatedWithin_atEnd hp h0, repeatedWithin_atEnd hp h0]
    | cons b' bs' =>
      rw [repeatedWithin, repeatedWithin, bind_apply, bind_apply]
      cases hr : p c with
      | error fault c' => rfl
      | ok o c' =>
        cases o with
        | none => rfl
        | some a =>
          have hlt := ht hc hr
          rw [List.length_cons] at hb hb'
          simp only [bind_apply]
          rw [ih (hlt.trans hc) (by omega) (by omega : c'.size ≤ bs'.length)]

/-- A repetition is one item and a repetition behind it. -/
theorem repeated_apply (ht : TakesBelow n p) (hp : StopsAtEnd p) {c : Cursor} (hc : c.size < n) :
    repeated p c = (p >>= fun o =>
      match o with
      | none => pure []
      | some a => (a :: ·) <$> repeated p) c := by
  have hb : repeated p c = repeatedWithin p (c.current :: c.ahead) c :=
    repeatedWithin_eq ht hp hc le_rfl (Nat.le_succ _)
  rw [hb, repeatedWithin, bind_apply, bind_apply]
  cases hr : p c with
  | error fault c' => rfl
  | ok o c' =>
    cases o with
    | none => rfl
    | some a =>
      have hlt := ht hc hr
      simp only [bind_apply, map_apply]
      rw [repeatedWithin_eq ht hp (hlt.trans hc) hlt.le le_rfl]
      rfl

/-- A successful repetition ends where the item is not found, or begins with an item. -/
theorem repeated_eq_ok (ht : ∀ n, TakesBelow n p) (hp : StopsAtEnd p) {c c' : Cursor}
    {as : List α} : repeated p c = .ok as c' ↔ p c = .ok none c' ∧ as = [] ∨
      ∃ a c₁ as', p c = .ok (some a) c₁ ∧ repeated p c₁ = .ok as' c' ∧ as = a :: as' := by
  rw [repeated_apply (ht _) hp c.size.lt_succ_self, bind_eq_ok]
  constructor
  · rintro ⟨o, c₁, ho, h⟩
    cases o with
    | none =>
      obtain ⟨rfl, rfl⟩ := pure_eq_ok.1 h
      exact .inl ⟨ho, rfl⟩
    | some a =>
      obtain ⟨as', has, rfl⟩ := map_eq_ok.1 h
      exact .inr ⟨a, c₁, as', ho, has, rfl⟩
  · rintro (⟨ho, rfl⟩ | ⟨a, c₁, as', ho, has, rfl⟩)
    · exact ⟨none, c', ho, rfl⟩
    · exact ⟨some a, c₁, ho, map_eq_ok.2 ⟨as', has, rfl⟩⟩

theorem follows_repeated (hW : Likeness W) (hpq : Follows W n Eq p q) (htp : TakesBelow n p)
    (htq : ∀ m, TakesBelow m q) (hp : StopsAtEnd p) (hq : StopsAtEnd q) :
    Follows W n Eq (repeated p) (repeated q) := by
  induction n with
  | zero => exact fun c hc => absurd hc (Nat.not_lt_zero _)
  | succ n ih =>
    have hrest := ih (hpq.mono n.le_succ) fun c a c' hc => htp (hc.trans n.lt_succ_self)
    have hunfold : repeated q = q >>= fun o =>
        match o with
        | none => pure []
        | some a => (a :: ·) <$> repeated q :=
      funext fun d => repeated_apply (htq _) hq d.size.lt_succ_self
    intro c hc
    rw [repeated_apply htp hp hc, hunfold]
    refine hpq.bind_of hW ?_ c hc
    rintro c o c' _ hc hr rfl
    cases o with
    | none => exact follows_pure rfl
    | some a =>
      have hlt := htp hc hr
      exact (hrest.mono (by omega)).map hW (by rintro _ _ rfl; rfl)

theorem follows_atClose (hW : Likeness W) (close : Char) :
    Follows W n Eq (atClose close) (atClose close) :=
  follows_current.bind hW fun _ _ h => follows_pure (by rw [hW.isEof h, hW.isMark h])

end Sequences

section Lists

variable {n : ℕ} {e e' : Parser α} (close separator : Char)

/-- Another element takes its separator, so that it may take nothing itself. -/
theorem takesBelow_nextElement_of_size_le
    (he : ∀ ⦃c a c'⦄, c.size < n → e c = .ok a c' → c'.size ≤ c.size) :
    TakesBelow n (nextElement close separator e) := by
  intro c a c' hc h
  rcases nextElement_eq_ok.1 h with ⟨-, ho, -⟩ | ⟨hcl, -, ⟨-, ho, -⟩ | ⟨-, b, hb, -⟩⟩
  · simp at ho
  · simp at ho
  · have hend : c.atEnd = false := by simpa [Cursor.atEnd] using fun h => hcl (.inl h)
    have hlt := size_next_lt hend
    exact (he (hlt.trans hc) hb).trans_lt hlt

theorem takesBelow_nextElement (he : Follows W n Eq e e') :
    TakesBelow n (nextElement close separator e) :=
  takesBelow_nextElement_of_size_le close separator fun _ _ _ hc => he.size_le hc

theorem stopsAtEnd_nextElement : StopsAtEnd (nextElement close separator e) :=
  fun _ hc => nextElement_eq_ok.2 (.inl ⟨.inl hc, rfl, rfl⟩)

theorem elements_eq_ok {c c' : Cursor} {as : List α} :
    elements close separator e c = .ok as c' ↔ Closes close c ∧ as = [] ∧ c = c' ∨
      ¬Closes close c ∧ ∃ a c₁ as', e c = .ok a c₁ ∧
        repeated (nextElement close separator e) c₁ = .ok as' c' ∧ as = a :: as' := by
  rw [elements, bind_eq_ok]
  constructor
  · rintro ⟨o, c₁, ho, h⟩
    rcases firstElement_eq_ok.1 ho with ⟨hcl, rfl, rfl⟩ | ⟨hcl, a, ha, rfl⟩
    · obtain ⟨rfl, rfl⟩ := pure_eq_ok.1 h
      exact .inl ⟨hcl, rfl, rfl⟩
    · obtain ⟨as', c₂, has, h⟩ := bind_eq_ok.1 h
      obtain ⟨rfl, rfl⟩ := pure_eq_ok.1 h
      exact .inr ⟨hcl, a, c₁, as', ha, has, rfl⟩
  · rintro (⟨hcl, rfl, rfl⟩ | ⟨hcl, a, c₁, as', ha, has, rfl⟩)
    · exact ⟨none, c, firstElement_eq_ok.2 (.inl ⟨hcl, rfl, rfl⟩), rfl⟩
    · exact ⟨some a, c₁, firstElement_eq_ok.2 (.inr ⟨hcl, a, ha, rfl⟩),
        bind_eq_ok.2 ⟨as', c', has, rfl⟩⟩

/-- Induction over the elements of a list behind the first one: there are none, or a separator
stands before the closing mark, or before one of them and the others. -/
theorem items_induction {motive : List α → Cursor → Cursor → Prop}
    (he : ∀ n, Follows Eq n Eq e e) (stop : ∀ c, motive [] c c)
    (trailing : ∀ c, c.current.isMark separator = true → motive [] c c.next)
    (item : ∀ c a c₁ as c', c.current.isMark separator = true → e c.next = .ok a c₁ →
      motive as c₁ c' → motive (a :: as) c c') {as : List α} {c c' : Cursor}
    (h : repeated (nextElement close separator e) c = .ok as c') : motive as c c' := by
  have ht := fun n => takesBelow_nextElement close separator (he n)
  have hs := stopsAtEnd_nextElement close separator (e := e)
  induction as generalizing c with
  | nil =>
    obtain ⟨h, -⟩ | ⟨_, _, _, -, -, has⟩ := (repeated_eq_ok ht hs).1 h
    · rcases nextElement_eq_ok.1 h with ⟨-, -, rfl⟩ | ⟨-, hsep, ⟨-, -, rfl⟩ | ⟨-, _, -, ho⟩⟩
      · exact stop c
      · exact trailing c hsep
      · simp at ho
    · simp at has
  | cons a as ih =>
    obtain ⟨-, has⟩ | ⟨a, c₁, as, h, hrest, has⟩ := (repeated_eq_ok ht hs).1 h
    · simp at has
    · obtain ⟨rfl, rfl⟩ := List.cons.inj has
      rcases nextElement_eq_ok.1 h with ⟨-, ho, -⟩ | ⟨-, hsep, ⟨-, ho, -⟩ | ⟨-, _, ha, ho⟩⟩
      · simp at ho
      · simp at ho
      · obtain rfl := Option.some.inj ho
        exact item c a c₁ as c' hsep ha (ih hrest)

/-- Required elements are elements that are all there. -/
theorem elements_required {q : Parser (Option α)} (hq : ∀ n, Follows W n Eq q q)
    (hW : Likeness W) {c c' : Cursor} {as : List α} :
    elements close separator (required q) c = .ok as c' ↔
      elements close separator q c = .ok (as.map some) c' := by
  have hitems : ∀ (as : List α) (c : Cursor),
      repeated (nextElement close separator (required q)) c = .ok as c' ↔
        repeated (nextElement close separator q) c = .ok (as.map some) c' := by
    have ht := fun n => takesBelow_nextElement close separator (hq n)
    have ht' := fun n => takesBelow_nextElement close separator (follows_required hW (hq n))
    intro as
    induction as with
    | nil =>
      intro c
      rw [repeated_eq_ok ht (stopsAtEnd_nextElement ..),
        repeated_eq_ok ht' (stopsAtEnd_nextElement ..)]
      simp [nextElement_eq_ok]
    | cons a as ih =>
      intro c
      rw [repeated_eq_ok ht (stopsAtEnd_nextElement ..),
        repeated_eq_ok ht' (stopsAtEnd_nextElement ..)]
      simp [nextElement_eq_ok, ih]
  rw [elements_eq_ok, elements_eq_ok]
  cases as <;> simp [hitems]

theorem takes_expectMark (mark : Char) : Takes (expectMark mark) := by
  intro c u c' h
  obtain ⟨hm, rfl⟩ := expectMark_eq_ok.1 h
  exact size_next_lt_of_isMark hm

theorem takes_expectKeyword (word : String) : Takes (expectKeyword word) := by
  intro c u c' h
  obtain ⟨hm, rfl⟩ := expectKeyword_eq_ok.1 h
  exact size_next_lt_of_isWord hm

variable (hW : Likeness W)

include hW

theorem follows_firstElement (he : Follows W n Eq e e') :
    Follows W n Eq (firstElement close e) (firstElement close e') := by
  apply (follows_atClose hW close).bind hW
  rintro b _ rfl
  split_ifs
  · exact follows_pure rfl
  · exact he.bind hW (by rintro a _ rfl; exact follows_pure rfl)

theorem follows_nextElement (he : Follows W n Eq e e') :
    Follows W n Eq (nextElement close separator e) (nextElement close separator e') := by
  apply (follows_atClose hW close).bind hW
  rintro b _ rfl
  split_ifs
  · exact follows_pure rfl
  · refine (follows_expectMark hW separator).bind hW fun _ _ _ => ?_
    refine follows_current.bind hW fun t u htu => ?_
    rw [hW.isMark htu]
    split_ifs
    · exact follows_pure rfl
    · exact he.bind hW (by rintro a _ rfl; exact follows_pure rfl)

theorem follows_elements (he : Follows W n Eq e e') (hf : ∀ m, Follows W m Eq e' e') :
    Follows W n Eq (elements close separator e) (elements close separator e') := by
  apply (follows_firstElement close hW he).bind hW
  rintro o _ rfl
  cases o with
  | none => exact follows_pure rfl
  | some a =>
    refine (follows_repeated hW (follows_nextElement close separator hW he)
      (takesBelow_nextElement close separator he)
      (fun m => takesBelow_nextElement close separator (hf m))
      (stopsAtEnd_nextElement close separator) (stopsAtEnd_nextElement close separator)).bind hW ?_
    rintro as _ rfl
    exact follows_pure rfl

/-- The elements of a list lie behind its opening mark. -/
theorem follows_delimited (opening : Char) (he : Follows W n Eq e e')
    (hf : ∀ m, Follows W m Eq e' e') :
    Follows W (n + 1) Eq (delimited opening close separator e)
      (delimited opening close separator e') := by
  refine (follows_expectMark hW opening).bind_takes hW (takes_expectMark opening) fun _ _ _ => ?_
  apply (follows_elements close separator hW he hf).bind hW
  rintro as _ rfl
  exact (follows_expectMark hW close).bind hW fun _ _ _ => follows_pure rfl

theorem size_lt_of_delimited (opening : Char) (he : Follows W n Eq e e')
    (hf : ∀ m, Follows W m Eq e' e') {c c' : Cursor} {as : List α} (hc : c.size < n + 1)
    (h : delimited opening close separator e c = .ok as c') : c'.size < c.size := by
  obtain ⟨hm, c₁, has, -, rfl⟩ := delimited_eq_ok.1 h
  have hlt := size_next_lt_of_isMark hm
  have hle := (follows_elements close separator hW he hf).size_le (by omega) has
  have hn : c₁.next.size ≤ c₁.size := by simp
  omega

end Lists

end Parser

end ExprLang
